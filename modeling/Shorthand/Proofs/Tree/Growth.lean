import Mathlib.Data.List.Induction
import Mathlib.Logic.ExistsUnique
import Mathlib.Logic.Relation
import Shorthand.Proofs.Tree.Links

/-! # Trees that grow

`Grown` trees are made by appending nodes to any nodes, in any order, with any edits of what a node
is in between. Their links agree, and all of their nodes hang from the root (`Grown.rooted`). A node
is reached from the root by exactly one path of child numbers (`Rooted.existsUnique_path`). -/

namespace Shorthand.Tree
variable {t : Tree} {i j p : Nat} {path : List Nat}

/-- Made from the empty tree by appending nodes and by editing them. -/
inductive Grown : Tree → Prop
  | empty : Grown empty
  | append {t : Tree} {parent : Nat} (h : Grown t) (hp : parent < t.size) (kind : NodeKind) :
    Grown (t.append parent kind)
  | edit {t : Tree} (h : Grown t) (i : Nat) (g : Snapshot → Snapshot) :
    Grown (t.modify i (Node.relabel g))

/-- The links agree, and the root is the only node without a parent. -/
structure Rooted (t : Tree) : Prop where
  linked : t.Linked
  root_lt : root < t.size
  parent_root : t.parent? root = none
  parent_other : ∀ i, i < t.size → i ≠ root → ∃ p, t.parent? i = some p

theorem rooted_empty : empty.Rooted where
  linked := linked_empty
  root_lt := Nat.one_pos
  parent_root := rfl
  parent_other _ hi hne := absurd (Nat.lt_one_iff.1 hi) hne

theorem Rooted.append {parent : Nat} (h : t.Rooted) (hp : parent < t.size) (kind : NodeKind) :
    (t.append parent kind).Rooted where
  linked := h.linked.append hp kind
  root_lt := by
    rw [size_append]
    exact Nat.succ_pos _
  parent_root := by
    have hne : root ≠ t.size := Nat.ne_of_lt h.root_lt
    rw [parent?_append, if_neg hne]
    exact h.parent_root
  parent_other i hi hne := by
    rw [size_append] at hi
    rw [parent?_append]
    split
    · exact ⟨parent, rfl⟩
    · exact h.parent_other i (by omega) hne

theorem parent?_relabel (i j : Nat) (g : Snapshot → Snapshot) :
    (t.modify i (Node.relabel g)).parent? j = t.parent? j :=
  link_modify fun _ => rfl

theorem Rooted.edit (h : t.Rooted) (i : Nat) (g : Snapshot → Snapshot) :
    (t.modify i (Node.relabel g)).Rooted where
  linked := h.linked.relabel g i
  root_lt := by
    rw [size_modify]
    exact h.root_lt
  parent_root := by
    rw [parent?_relabel]
    exact h.parent_root
  parent_other j hj hne := by
    rw [size_modify] at hj
    rw [parent?_relabel]
    exact h.parent_other j hj hne

theorem Grown.rooted (h : t.Grown) : t.Rooted := by
  induction h with
  | empty => exact rooted_empty
  | append _ hp kind ih => exact ih.append hp kind
  | edit _ i g ih => exact ih.edit i g

/-- The links to the next sibling lead from one of these nodes to the one behind it, and end. -/
inductive Chain (t : Tree) : Option Nat → List Nat → Prop
  | stop : Chain t none []
  | step {i : Nat} {rest : List Nat} (h : Chain t (t.nextSibling? i) rest) :
    Chain t (some i) (i :: rest)

theorem Linked.mem_children (h : t.Linked) : i ∈ t.children p ↔ t.parent? i = some p := by
  rw [h.children, mem_offspring]

theorem Linked.nodup_children (h : t.Linked) (p : Nat) : (t.children p).Nodup := by
  rw [h.children]
  exact (pairwise_offspring t p).imp Nat.ne_of_lt

theorem Linked.lt_of_mem_children (h : t.Linked) (hi : i ∈ t.children p) : p < i ∧ i < t.size := by
  have hparent := h.mem_children.1 hi
  exact ⟨h.older i p hparent, lt_size_of_parent? hparent⟩

theorem Linked.chain (h : t.Linked) {xs ys : List Nat} (hp : t.offspring p = xs ++ ys) :
    Chain t ys.head? ys := by
  induction ys generalizing xs with
  | nil => exact .stop
  | cons i ys ih =>
    have hp' : t.offspring p = (xs ++ [i]) ++ ys := by rw [hp, List.append_assoc]; rfl
    have hrest := ih hp'
    rw [← (h.neighbours p xs i ys hp).2] at hrest
    exact .step hrest

/-- A node with a neighbour is among the children of its parent. -/
theorem Linked.exists_offspring (h : t.Linked)
    (hi : t.prevSibling? i ≠ none ∨ t.nextSibling? i ≠ none) :
    ∃ p xs ys, t.offspring p = xs ++ i :: ys := by
  cases hparent : t.parent? i with
  | none =>
    obtain ⟨hprev, hnext⟩ := h.alone i hparent
    rcases hi with hi | hi
    · exact absurd hprev hi
    · exact absurd hnext hi
  | some p =>
    obtain ⟨xs, ys, hp⟩ := List.append_of_mem (mem_offspring.2 hparent)
    exact ⟨p, xs, ys, hp⟩

theorem Linked.nextSibling?_iff (h : t.Linked) :
    t.nextSibling? i = some j ↔ t.prevSibling? j = some i := by
  constructor
  · intro hi
    obtain ⟨p, xs, ys, hp⟩ := h.exists_offspring (i := i) (.inr (by rw [hi]; simp))
    rw [(h.neighbours p xs i ys hp).2] at hi
    obtain ⟨ys, rfl⟩ := List.head?_eq_some_iff.1 hi
    have hp' : t.offspring p = (xs ++ [i]) ++ j :: ys := by rw [hp, List.append_assoc]; rfl
    rw [(h.neighbours p _ j ys hp').1, List.getLast?_concat]
  · intro hj
    obtain ⟨p, xs, ys, hp⟩ := h.exists_offspring (i := j) (.inl (by rw [hj]; simp))
    rw [(h.neighbours p xs j ys hp).1] at hj
    obtain ⟨xs, rfl⟩ := List.getLast?_eq_some_iff.1 hj
    have hp' : t.offspring p = xs ++ i :: (j :: ys) := by rw [hp, List.append_assoc]; rfl
    rw [(h.neighbours p xs i _ hp').2, List.head?_cons]

/-- Node `p` is the parent of `i` or above it. -/
def Above (t : Tree) : Nat → Nat → Prop := Relation.TransGen fun p i => t.parent? i = some p

theorem above_iff : t.Above p i ↔ ∃ q, t.parent? i = some q ∧ (p = q ∨ t.Above p q) := by
  constructor
  · intro h
    cases h with
    | single h => exact ⟨p, h, .inl rfl⟩
    | tail hq h => exact ⟨_, h, .inr hq⟩
  · rintro ⟨q, h, rfl | hq⟩
    · exact .single h
    · exact .tail hq h

theorem Linked.lt_of_above (h : t.Linked) (hp : t.Above p i) : p < i := by
  induction hp with
  | single hi => exact h.older _ _ hi
  | tail _ hi ih => exact Nat.lt_trans ih (h.older _ _ hi)

theorem Rooted.not_above_root (h : t.Rooted) (p : Nat) : ¬ t.Above p root := fun hp =>
  Nat.not_lt_zero p (h.linked.lt_of_above hp)

theorem Rooted.root_or_above (h : t.Rooted) (hi : i < t.size) : root = i ∨ t.Above root i := by
  induction i using Nat.strongRecOn with
  | ind i ih =>
    by_cases hroot : i = root
    · exact .inl hroot.symm
    · obtain ⟨p, hp⟩ := h.parent_other i hi hroot
      have hlt := h.linked.older i p hp
      exact .inr (above_iff.2 ⟨p, hp, ih p hlt (Nat.lt_trans hlt hi)⟩)

theorem above_or_above {q : Nat} (hp : t.Above p i) (hq : t.Above q i) :
    p = q ∨ t.Above p q ∨ t.Above q p := by
  induction hp generalizing q with
  | single hp =>
    obtain ⟨r, hr, hq⟩ := above_iff.1 hq
    obtain rfl : _ = r := Option.some.inj (hp.symm.trans hr)
    rcases hq with rfl | hq
    · exact .inl rfl
    · exact .inr (.inr hq)
  | tail hp hi ih =>
    obtain ⟨r, hr, hq⟩ := above_iff.1 hq
    obtain rfl : _ = r := Option.some.inj (hi.symm.trans hr)
    rcases hq with rfl | hq
    · exact .inr (.inl hp)
    · exact ih hq

/-- Nothing is below two siblings. -/
theorem Linked.eq_of_below (h : t.Linked) {c c' : Nat} (hc : t.parent? c = some p)
    (hc' : t.parent? c' = some p) (hi : c = i ∨ t.Above c i) (hi' : c' = i ∨ t.Above c' i) :
    c = c' := by
  -- No child of `p` is above another one, for then it would be above `p`, its own parent.
  have hnot {a b : Nat} (ha : t.parent? a = some p) (hb : t.parent? b = some p) :
      ¬ t.Above a b := by
    intro hab
    obtain ⟨q, hq, hle⟩ := above_iff.1 hab
    obtain rfl : p = q := Option.some.inj (hb.symm.trans hq)
    have := h.older a p ha
    rcases hle with rfl | hle
    · omega
    · have := h.lt_of_above hle
      omega
  rcases hi with rfl | hi
  · rcases hi' with rfl | hi'
    · rfl
    · exact absurd hi' (hnot hc' hc)
  · rcases hi' with rfl | hi'
    · exact absurd hi (hnot hc hc')
    · rcases above_or_above hi hi' with he | hlt | hlt
      · exact he
      · exact absurd hlt (hnot hc hc')
      · exact absurd hlt (hnot hc' hc)

/-! ### Paths -/

theorem descend_append (i : Nat) (path path' : List Nat) :
    t.descend i (path ++ path') = (t.descend i path).bind (t.descend · path') := by
  induction path generalizing i with
  | nil => rfl
  | cons k path ih =>
    simp only [List.cons_append, descend]
    cases (t.children i)[k]? with
    | none => rfl
    | some c => exact ih c

theorem atPath_concat (path : List Nat) (k : Nat) :
    t.atPath (path ++ [k]) = (t.atPath path).bind fun p => (t.children p)[k]? := by
  rw [atPath, descend_append]
  refine congrArg (Option.bind _) (funext fun p => ?_)
  rw [descend]
  cases (t.children p)[k]? <;> rfl

/-- The last step of a path leads from the parent. -/
theorem Linked.of_atPath_concat (h : t.Linked) {k : Nat} (hi : t.atPath (path ++ [k]) = some i) :
    ∃ p, t.parent? i = some p ∧ t.atPath path = some p ∧ (t.children p)[k]? = some i := by
  rw [atPath_concat] at hi
  obtain ⟨p, hp, hk⟩ := Option.bind_eq_some_iff.1 hi
  exact ⟨p, h.mem_children.1 (List.mem_of_getElem? hk), hp, hk⟩

theorem Rooted.lt_of_atPath (h : t.Rooted) (hi : t.atPath path = some i) : i < t.size := by
  rcases List.eq_nil_or_concat path with rfl | ⟨path, k, rfl⟩
  · obtain rfl := Option.some.inj hi
    exact h.root_lt
  · rw [List.concat_eq_append] at hi
    obtain ⟨p, hp, -⟩ := h.linked.of_atPath_concat hi
    exact lt_size_of_parent? hp

theorem Rooted.exists_path (h : t.Rooted) (hi : i < t.size) : ∃ path, t.atPath path = some i := by
  induction i using Nat.strongRecOn with
  | ind i ih =>
    by_cases hroot : i = root
    · exact ⟨[], by rw [hroot]; rfl⟩
    · obtain ⟨p, hp⟩ := h.parent_other i hi hroot
      have hlt := h.linked.older i p hp
      obtain ⟨path, hpath⟩ := ih p hlt (Nat.lt_trans hlt hi)
      obtain ⟨k, hk⟩ := List.mem_iff_getElem?.1 (h.linked.mem_children.2 hp)
      refine ⟨path ++ [k], ?_⟩
      rw [atPath_concat, hpath]
      exact hk

theorem Rooted.path_unique (h : t.Rooted) {path' : List Nat} (hi : t.atPath path = some i)
    (hi' : t.atPath path' = some i) : path = path' := by
  have hroot {path : List Nat} {k : Nat} : t.atPath (path ++ [k]) ≠ some root := fun hi => by
    obtain ⟨p, hp, -⟩ := h.linked.of_atPath_concat hi
    rw [h.parent_root] at hp
    cases hp
  induction path using List.reverseRecOn generalizing path' i with
  | nil =>
    obtain rfl := Option.some.inj hi
    rcases List.eq_nil_or_concat path' with rfl | ⟨path', k', rfl⟩
    · rfl
    · rw [List.concat_eq_append] at hi'
      exact absurd hi' hroot
  | append_singleton path k ih =>
    rcases List.eq_nil_or_concat path' with rfl | ⟨path', k', rfl⟩
    · obtain rfl := Option.some.inj hi'
      exact absurd hi hroot
    · rw [List.concat_eq_append] at hi' ⊢
      obtain ⟨p, hp, hpath, hk⟩ := h.linked.of_atPath_concat hi
      obtain ⟨p', hp', hpath', hk'⟩ := h.linked.of_atPath_concat hi'
      obtain rfl : p = p' := Option.some.inj (hp.symm.trans hp')
      rw [ih hpath hpath', (List.getElem?_inj (List.getElem?_eq_some_iff.1 hk).1
        (h.linked.nodup_children p)).1 (hk.trans hk'.symm)]

theorem Rooted.existsUnique_path (h : t.Rooted) (hi : i < t.size) :
    ∃! path, t.atPath path = some i := by
  obtain ⟨path, hpath⟩ := h.exists_path hi
  exact ⟨path, hpath, fun path' hpath' => h.path_unique hpath' hpath⟩

end Shorthand.Tree
