import Shorthand.Tree.Snapshot

/-! # Snapshots in preorder

A snapshot laid out as a list: every node with the index of its parent, parents before children and
elder children before younger ones. The subtree of a node is a contiguous part of the list, so what
happens outside of that part does not concern it (`positions_layout`). -/

namespace Shorthand

/-- A node without its children, and the index of its parent. -/
abbrev Entry := Option Nat × Snapshot

namespace Snapshot

/-- A node without its children. -/
def bare (s : Snapshot) : Snapshot := { s with children := [] }

mutual
/-- How many nodes there are, the first one counted. -/
def size : Snapshot → Nat
  | ⟨_, _, _, _, cs⟩ => 1 + sizeAll cs
def sizeAll : List Snapshot → Nat
  | [] => 0
  | c :: cs => c.size + sizeAll cs
end

mutual
/-- The entries of a subtree whose root has index `i`. -/
def layout (parent : Option Nat) (i : Nat) : Snapshot → List Entry
  | ⟨kind, name, attributes, count, cs⟩ =>
    (parent, ⟨kind, name, attributes, count, []⟩) :: layoutAll i (i + 1) cs
/-- The entries of children of `parent`, the first of which has index `i`. -/
def layoutAll (parent : Nat) (i : Nat) : List Snapshot → List Entry
  | [] => []
  | c :: cs => layout (some parent) i c ++ layoutAll parent (i + c.size) cs
end

theorem size_eq (s : Snapshot) : s.size = 1 + sizeAll s.children := by cases s; rfl

theorem size_pos (s : Snapshot) : 0 < s.size := by rw [size_eq]; omega

theorem layout_eq (parent : Option Nat) (i : Nat) (s : Snapshot) :
    layout parent i s = (parent, s.bare) :: layoutAll i (i + 1) s.children := by cases s; rfl

mutual
theorem length_layout (parent : Option Nat) (i : Nat) :
    ∀ s : Snapshot, (layout parent i s).length = s.size
  | ⟨_, _, _, _, cs⟩ => by simp only [layout, size, List.length_cons, length_layoutAll i (i + 1) cs]; omega
theorem length_layoutAll (parent i : Nat) :
    ∀ cs : List Snapshot, (layoutAll parent i cs).length = sizeAll cs
  | [] => rfl
  | c :: cs => by
    simp only [layoutAll, sizeAll, List.length_append, length_layout (some parent) i c,
      length_layoutAll parent (i + c.size) cs]
end

theorem layoutAll_append (parent i : Nat) (cs ds : List Snapshot) :
    layoutAll parent i (cs ++ ds) =
      layoutAll parent i cs ++ layoutAll parent (i + sizeAll cs) ds := by
  induction cs generalizing i with
  | nil => rfl
  | cons c cs ih => simp only [layoutAll, sizeAll, List.cons_append, ih, List.append_assoc, Nat.add_assoc]

/-- A last child comes behind everything else. -/
theorem layout_withChild (parent : Option Nat) (i : Nat) (s c : Snapshot) :
    layout parent i (s.withChild c) = layout parent i s ++ layout (some i) (i + s.size) c := by
  have h : i + 1 + sizeAll s.children = i + s.size := by rw [size_eq]; omega
  rw [layout_eq, layout_eq parent i s, withChild, bare, bare]
  simp only [layoutAll_append, h, List.cons_append, layoutAll, List.append_nil]

/-- No entry has its parent among the indices from `lo` up to `hi`. -/
def Outside (lo hi : Nat) (es : List Entry) : Prop :=
  ∀ e ∈ es, ∀ q, e.1 = some q → q < lo ∨ hi ≤ q

mutual
theorem parent_layout {parent : Option Nat} {i : Nat} : ∀ {s : Snapshot} {e : Entry},
    e ∈ layout parent i s → e.1 = parent ∨ ∃ q, e.1 = some q ∧ i ≤ q ∧ q < i + s.size
  | ⟨_, _, _, _, cs⟩, e, h => by
    rw [layout, List.mem_cons] at h
    rcases h with rfl | h
    · exact .inl rfl
    · rcases parent_layoutAll h with h | ⟨q, h, hlo, hhi⟩
      · exact .inr ⟨i, h, Nat.le_refl _, by rw [size]; omega⟩
      · exact .inr ⟨q, h, by omega, by rw [size]; omega⟩
theorem parent_layoutAll {parent i : Nat} : ∀ {cs : List Snapshot} {e : Entry},
    e ∈ layoutAll parent i cs → e.1 = some parent ∨ ∃ q, e.1 = some q ∧ i ≤ q ∧ q < i + sizeAll cs
  | [], e, h => by simp [layoutAll] at h
  | c :: cs, e, h => by
    rw [layoutAll, List.mem_append] at h
    rcases h with h | h
    · rcases parent_layout h with h | ⟨q, h, hlo, hhi⟩
      · exact .inl h
      · exact .inr ⟨q, h, hlo, by rw [sizeAll]; omega⟩
    · rcases parent_layoutAll h with h | ⟨q, h, hlo, hhi⟩
      · exact .inl h
      · exact .inr ⟨q, h, by omega, by rw [sizeAll]; omega⟩
end

theorem outside_layoutAll {parent i lo hi : Nat} {cs : List Snapshot}
    (hp : parent < lo ∨ hi ≤ parent) (hi' : i + sizeAll cs ≤ lo ∨ hi ≤ i) :
    Outside lo hi (layoutAll parent i cs) := by
  intro e he q hq
  rcases parent_layoutAll he with h | ⟨q', h, hlo, hhi⟩
  · obtain rfl : parent = q := Option.some.inj (h.symm.trans hq)
    exact hp
  · obtain rfl : q' = q := Option.some.inj (h.symm.trans hq)
    omega

theorem outside_layout {parent i lo hi : Nat} {s : Snapshot}
    (hp : parent < lo ∨ hi ≤ parent) (hi' : i + s.size ≤ lo ∨ hi ≤ i) :
    Outside lo hi (layout (some parent) i s) := by
  have h := @outside_layoutAll parent i lo hi [s] hp (by simpa [sizeAll] using hi')
  simpa only [layoutAll, List.append_nil] using h

theorem Outside.append {lo hi : Nat} {es fs : List Entry} (h : Outside lo hi es)
    (h' : Outside lo hi fs) : Outside lo hi (es ++ fs) := fun e he =>
  (List.mem_append.1 he).elim (h e) (h' e)

theorem Outside.mono {lo hi lo' hi' : Nat} {es : List Entry} (h : Outside lo hi es)
    (hlo : lo ≤ lo') (hhi : hi' ≤ hi) : Outside lo' hi' es := fun e he q hq =>
  (h e he q hq).imp (fun h => Nat.lt_of_lt_of_le h hlo) (Nat.le_trans hhi)

/-- The indices of the entries with parent `q`, if the first entry has index `k`. -/
def positions (q : Nat) : Nat → List Entry → List Nat
  | _, [] => []
  | k, e :: es => if e.1 = some q then k :: positions q (k + 1) es else positions q (k + 1) es

/-- The indices of siblings, the first of which has index `i`. -/
def starts : Nat → List Snapshot → List Nat
  | _, [] => []
  | i, c :: cs => i :: starts (i + c.size) cs

theorem positions_append (q k : Nat) (es fs : List Entry) :
    positions q k (es ++ fs) = positions q k es ++ positions q (k + es.length) fs := by
  induction es generalizing k with
  | nil => rfl
  | cons e es ih =>
    have hk : k + 1 + es.length = k + (e :: es).length := by simp only [List.length_cons]; omega
    simp only [List.cons_append, positions, ih, hk]
    split <;> rfl

theorem positions_eq_nil {q k : Nat} {es : List Entry} (h : Outside q (q + 1) es) :
    positions q k es = [] := by
  induction es generalizing k with
  | nil => rfl
  | cons e es ih =>
    have hq : e.1 ≠ some q := fun he => by
      have := h e (by simp) q he
      omega
    rw [positions, if_neg hq]
    exact ih fun e he => h e (List.mem_cons_of_mem _ he)

theorem mem_positions {q k i : Nat} {es : List Entry} :
    i ∈ positions q k es ↔ k ≤ i ∧ (es[i - k]?).bind (·.1) = some q := by
  induction es generalizing k with
  | nil => simp [positions]
  | cons e es ih =>
    have hstep : k + 1 ≤ i → (e :: es)[i - k]? = es[i - (k + 1)]? := fun h => by
      rw [show i - k = i - (k + 1) + 1 by omega, List.getElem?_cons_succ]
    rw [positions]
    split
    · next he =>
      rw [List.mem_cons, ih]
      constructor
      · rintro (rfl | ⟨h, hi⟩)
        · simpa using he
        · exact ⟨by omega, by rw [hstep h]; exact hi⟩
      · rintro ⟨h, hi⟩
        rcases Nat.eq_or_lt_of_le h with rfl | h
        · exact .inl rfl
        · exact .inr ⟨h, by rwa [hstep h] at hi⟩
    · next he =>
      rw [ih]
      constructor
      · rintro ⟨h, hi⟩
        exact ⟨by omega, by rw [hstep h]; exact hi⟩
      · rintro ⟨h, hi⟩
        rcases Nat.eq_or_lt_of_le h with rfl | h
        · rw [Nat.sub_self] at hi
          exact absurd hi he
        · exact ⟨h, by rwa [hstep h] at hi⟩

theorem pairwise_positions (q k : Nat) (es : List Entry) :
    (positions q k es).Pairwise (· < ·) := by
  induction es generalizing k with
  | nil => exact .nil
  | cons e es ih =>
    rw [positions]
    split
    · exact .cons (fun i hi => (mem_positions.1 hi).1) (ih _)
    · exact ih _

theorem length_positions_le (q k : Nat) (es : List Entry) :
    (positions q k es).length ≤ es.length := by
  induction es generalizing k with
  | nil => exact Nat.le_refl _
  | cons e es ih =>
    have := ih (k + 1)
    rw [positions]
    split <;> simp only [List.length_cons] <;> omega

/-- Among the entries of siblings, their parent is named by the roots only. -/
theorem positions_layoutAll {parent i : Nat} (hp : parent < i) (cs : List Snapshot) :
    positions parent i (layoutAll parent i cs) = starts i cs := by
  induction cs generalizing i with
  | nil => rfl
  | cons c cs ih =>
    have hinner : Outside parent (parent + 1) (layoutAll i (i + 1) c.children) :=
      outside_layoutAll (.inr (by omega)) (.inr (by omega))
    rw [layoutAll, positions_append, length_layout, ih (by omega), layout_eq, positions, if_pos rfl,
      positions_eq_nil hinner]
    rfl

/-! ### Spines -/

/-- The index of the last node of a spine. -/
def seat : List Snapshot → Option Nat
  | [] => none
  | _ :: above => some (sizeAll above)

/-- The entries of a tree that is given by the nodes from its last open one up to the root, each
with its children in front of the one below. -/
def spine : List Snapshot → List Entry
  | [] => []
  | s :: above => spine above ++ layout (seat above) (sizeAll above) s

@[simp] theorem length_spine (above : List Snapshot) : (spine above).length = sizeAll above := by
  induction above with
  | nil => rfl
  | cons s above ih => rw [spine, List.length_append, ih, length_layout, sizeAll]; omega

/-- Closing a node changes nothing. -/
theorem spine_withChild (s a : Snapshot) (above : List Snapshot) :
    spine (a.withChild s :: above) = spine (s :: a :: above) := by
  simp only [spine, seat, layout_withChild, List.append_assoc, sizeAll, Nat.add_comm a.size]

theorem length_le_sizeAll (above : List Snapshot) : above.length ≤ sizeAll above := by
  induction above with
  | nil => exact Nat.le_refl _
  | cons s above ih =>
    have := s.size_pos
    rw [sizeAll, List.length_cons]
    omega

theorem parent_spine {above : List Snapshot} {e : Entry} (he : e ∈ spine above) :
    e.1 = none ∨ ∃ q, e.1 = some q ∧ q < sizeAll above := by
  induction above with
  | nil => simp [spine] at he
  | cons s above ih =>
    rw [spine, List.mem_append] at he
    rw [sizeAll]
    rcases he with he | he
    · exact (ih he).imp_right fun ⟨q, hq, hlt⟩ => ⟨q, hq, by omega⟩
    · rcases parent_layout he with h | ⟨q, hq, -, hlt⟩
      · cases above with
        | nil => exact .inl h
        | cons a above =>
          have := a.size_pos
          exact .inr ⟨sizeAll above, h, by rw [sizeAll]; omega⟩
      · exact .inr ⟨q, hq, by omega⟩

theorem outside_spine {above : List Snapshot} {lo hi : Nat} (h : sizeAll above ≤ lo) :
    Outside lo hi (spine above) := by
  intro e he q hq
  rcases parent_spine he with h' | ⟨q', h', hlt⟩
  · cases h'.symm.trans hq
  · obtain rfl : q' = q := Option.some.inj (h'.symm.trans hq)
    exact .inl (by omega)

theorem positions_spine (s : Snapshot) (above : List Snapshot) :
    positions (sizeAll above) 0 (spine (s :: above)) =
      starts (sizeAll above + 1) s.children := by
  have hs := s.size_pos
  have hne : seat above ≠ some (sizeAll above) := by
    cases above with
    | nil => simp [seat]
    | cons a above =>
      have := a.size_pos
      simp only [seat, sizeAll, ne_eq, Option.some.injEq]
      omega
  rw [spine, positions_append, positions_eq_nil (outside_spine (Nat.le_refl _)), length_spine,
    layout_eq, positions, if_neg hne, Nat.zero_add,
    positions_layoutAll (by omega)]
  rfl

end Snapshot
end Shorthand
