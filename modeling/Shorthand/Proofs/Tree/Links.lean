import Shorthand.Proofs.Tree.Layout

/-! # Links

The parents of the nodes say which children a node has. `Linked` is that the other links agree with
them: the first and the last child, and the neighbours among the children of one parent. It is kept
by `append` and by every change that leaves the links alone, and makes the snapshot of a subtree a
matter of the entries alone (`Linked.ofNode_eq`). -/

namespace Shorthand
open Snapshot (positions starts layout layoutAll Outside)

/-- A node by itself, without what is below it. -/
def Node.bare (n : Node) : Snapshot := ⟨n.kind, n.name, n.attributes, n.count, []⟩

/-- Changes what a node is, and leaves its links alone. -/
def Node.relabel (g : Snapshot → Snapshot) (n : Node) : Node :=
  { n with
    kind := (g n.bare).kind
    name := (g n.bare).name
    attributes := (g n.bare).attributes
    count := (g n.bare).count }

/-- A node and the place of its parent: all that the other links come from. -/
def Node.entry (n : Node) : Entry := (n.parent, n.bare)

namespace Tree
variable {t : Tree} {i j p : Nat}

/-- The entries of an arena in its order. -/
def entries (t : Tree) : List Entry := t.nodes.toList.map Node.entry

/-- The nodes with parent `p`, in the order of their indices. -/
def offspring (t : Tree) (p : Nat) : List Nat := positions p 0 t.entries

def lastChild? (t : Tree) (i : Nat) : Option Nat := (t.node? i).bind (·.lastChild)

def prevSibling? (t : Tree) (i : Nat) : Option Nat := (t.node? i).bind (·.prevSibling)

@[simp] theorem length_entries (t : Tree) : t.entries.length = t.size := by simp [entries, size]

theorem getElem?_entries (t : Tree) (i : Nat) : t.entries[i]? = (t.node? i).map Node.entry := by
  simp [entries, node?]

theorem node?_eq_none_iff : t.node? i = none ↔ t.size ≤ i := Array.getElem?_eq_none_iff

theorem exists_node? (hi : i < t.size) : ∃ n, t.node? i = some n :=
  Option.ne_none_iff_exists'.1 (mt node?_eq_none_iff.1 (Nat.not_le.2 hi))

theorem mem_offspring : i ∈ t.offspring p ↔ t.parent? i = some p := by
  rw [offspring, Snapshot.mem_positions, Nat.sub_zero, getElem?_entries, parent?]
  cases t.node? i <;> simp [Node.entry]

theorem lt_size_of_parent? (h : t.parent? i = some p) : i < t.size := by
  refine Nat.lt_of_not_le fun hi => ?_
  rw [parent?, node?_eq_none_iff.2 hi] at h
  cases h

/-- The links agree with the parents. -/
structure Linked (t : Tree) : Prop where
  older : ∀ i p, t.parent? i = some p → p < i
  first : ∀ p, t.firstChild? p = (t.offspring p).head?
  last : ∀ p, t.lastChild? p = (t.offspring p).getLast?
  neighbours : ∀ p xs i ys, t.offspring p = xs ++ i :: ys →
    t.prevSibling? i = xs.getLast? ∧ t.nextSibling? i = ys.head?
  alone : ∀ i, t.parent? i = none → t.prevSibling? i = none ∧ t.nextSibling? i = none

theorem linked_empty : empty.Linked := by
  have hlink (l : Node → Option Nat) (hl : l { kind := .root } = none) (i : Nat) :
      (empty.node? i).bind l = none := by
    cases i with
    | zero => exact hl
    | succ i => rfl
  have hnone (p : Nat) : empty.offspring p = [] := rfl
  constructor
  · intro i p hi
    rw [parent?, hlink _ rfl] at hi
    cases hi
  · intro p
    rw [hnone, firstChild?, hlink _ rfl]
    rfl
  · intro p
    rw [hnone, lastChild?, hlink _ rfl]
    rfl
  · intro p xs i ys hi
    rw [hnone] at hi
    simp at hi
  · intro i _
    exact ⟨hlink _ rfl i, hlink _ rfl i⟩

section
variable {n : Node} {f : Node → Node} {g : Node → Option Nat} {v : Option Nat}

theorem node?_push (n : Node) (j : Nat) :
    (⟨t.nodes.push n⟩ : Tree).node? j = if j = t.size then some n else t.node? j :=
  Array.getElem?_push

theorem link_push (g : Node → Option Nat) (n : Node) :
    ((⟨t.nodes.push n⟩ : Tree).node? j).bind g =
      if j = t.size then g n else (t.node? j).bind g := by
  rw [node?_push]
  split <;> rfl

theorem link_modify (h : ∀ n, g (f n) = g n) :
    ((t.modify i f).node? j).bind g = (t.node? j).bind g := by
  rw [node?_modify]
  split
  · cases t.node? j with
    | none => rfl
    | some n => exact h n
  · rfl

theorem entries_modify (h : ∀ n, (f n).entry = n.entry) : (t.modify i f).entries = t.entries := by
  refine List.ext_getElem? fun j => ?_
  rw [getElem?_entries, getElem?_entries, node?_modify]
  split
  · cases t.node? j with
    | none => rfl
    | some n => exact congrArg some (h n)
  · rfl

theorem link_modify_of_lt (h : ∀ n, g (f n) = v) (hi : i < t.size) :
    ((t.modify i f).node? j).bind g = if j = i then v else (t.node? j).bind g := by
  rw [node?_modify]
  by_cases hij : i = j
  · subst hij
    obtain ⟨n, hn⟩ := exists_node? hi
    rw [if_pos rfl, if_pos rfl, hn]
    exact h n
  · rw [if_neg hij, if_neg (Ne.symm hij)]

end

/-! ### Appending -/

section
variable {parent : Nat} {kind : NodeKind}

/-- The new node, which only knows its parent and its elder neighbour. -/
def attach (t : Tree) (parent : Nat) (kind : NodeKind) : Tree :=
  ⟨t.nodes.push { kind, parent := some parent, prevSibling := t.lastChild? parent }⟩

theorem size_attach : (t.attach parent kind).size = t.size + 1 := Array.size_push ..

theorem append_of_none (h : t.lastChild? parent = none) :
    t.append parent kind = ((t.attach parent kind).modify parent
      ({ · with firstChild := some t.size })).modify parent ({ · with lastChild := some t.size }) := by
  rw [lastChild?] at h
  simp only [append, attach, lastChild?, h]

theorem append_of_some {sibling : Nat} (h : t.lastChild? parent = some sibling) :
    t.append parent kind = ((t.attach parent kind).modify sibling
      ({ · with nextSibling := some t.size })).modify parent ({ · with lastChild := some t.size }) := by
  rw [lastChild?] at h
  simp only [append, attach, lastChild?, h]

/-- What neither the parent nor its last child learns. -/
theorem link_append {g : Node → Option Nat} (hf : ∀ n v, g { n with firstChild := v } = g n)
    (hl : ∀ n v, g { n with lastChild := v } = g n)
    (hn : ∀ n v, g { n with nextSibling := v } = g n) :
    ((t.append parent kind).node? j).bind g = ((t.attach parent kind).node? j).bind g := by
  cases h : t.lastChild? parent with
  | none => rw [append_of_none h, link_modify fun n => hl n _, link_modify fun n => hf n _]
  | some s => rw [append_of_some h, link_modify fun n => hl n _, link_modify fun n => hn n _]

theorem parent?_append : (t.append parent kind).parent? j =
    if j = t.size then some parent else t.parent? j := by
  rw [parent?, link_append (fun _ _ => rfl) (fun _ _ => rfl) fun _ _ => rfl, attach, link_push]
  rfl

theorem prevSibling?_append : (t.append parent kind).prevSibling? j =
    if j = t.size then t.lastChild? parent else t.prevSibling? j := by
  rw [prevSibling?, link_append (fun _ _ => rfl) (fun _ _ => rfl) fun _ _ => rfl, attach, link_push]
  rfl

theorem link_of_size (g : Node → Option Nat) : (t.node? t.size).bind g = none := by
  rw [node?_eq_none_iff.2 (Nat.le_refl _)]
  rfl

/-- A link that the new node does not have. -/
theorem link_attach {g : Node → Option Nat}
    (hg : g { kind, parent := some parent, prevSibling := t.lastChild? parent } = none) :
    ((t.attach parent kind).node? j).bind g = (t.node? j).bind g := by
  rw [attach, link_push, hg]
  split
  · next h => rw [h, link_of_size]
  · rfl

theorem lastChild?_append (hp : parent < t.size) : (t.append parent kind).lastChild? j =
    if j = parent then some t.size else t.lastChild? j := by
  rw [lastChild?, lastChild?]
  cases h : t.lastChild? parent with
  | none =>
    rw [append_of_none h, link_modify_of_lt, link_modify, link_attach rfl]
    · exact fun _ => rfl
    · exact fun _ => rfl
    · rw [size_modify, size_attach]; omega
  | some s =>
    rw [append_of_some h, link_modify_of_lt, link_modify, link_attach rfl]
    · exact fun _ => rfl
    · exact fun _ => rfl
    · rw [size_modify, size_attach]; omega

theorem firstChild?_append (hp : parent < t.size) : (t.append parent kind).firstChild? j =
    if j = parent ∧ t.lastChild? parent = none then some t.size else t.firstChild? j := by
  rw [firstChild?, firstChild?]
  cases h : t.lastChild? parent with
  | none =>
    rw [append_of_none h, link_modify, link_modify_of_lt (v := some t.size), link_attach rfl]
    · simp
    · exact fun _ => rfl
    · rw [size_attach]; omega
    · exact fun _ => rfl
  | some s =>
    rw [append_of_some h, link_modify, link_modify, link_attach rfl]
    · simp
    · exact fun _ => rfl
    · exact fun _ => rfl

theorem nextSibling?_append (hs : ∀ s, t.lastChild? parent = some s → s < t.size) :
    (t.append parent kind).nextSibling? j =
      if t.lastChild? parent = some j then some t.size else t.nextSibling? j := by
  rw [nextSibling?, nextSibling?]
  cases h : t.lastChild? parent with
  | none =>
    rw [append_of_none h, link_modify, link_modify, link_attach rfl]
    · simp
    · exact fun _ => rfl
    · exact fun _ => rfl
  | some s =>
    have := hs s h
    rw [append_of_some h, link_modify, link_modify_of_lt (v := some t.size), link_attach rfl]
    · simp only [Option.some.injEq, eq_comm]
    · exact fun _ => rfl
    · rw [size_attach]; omega
    · exact fun _ => rfl

theorem entries_attach : (t.attach parent kind).entries =
    t.entries ++ [(some parent, ⟨kind, "", .empty, 0, []⟩)] := by
  rw [entries, attach, Array.toList_push, List.map_append]
  rfl

theorem entries_append : (t.append parent kind).entries =
    t.entries ++ [(some parent, ⟨kind, "", .empty, 0, []⟩)] := by
  rw [← entries_attach]
  cases h : t.lastChild? parent with
  | none =>
    rw [append_of_none h, entries_modify, entries_modify]
    · exact fun _ => rfl
    · exact fun _ => rfl
  | some s =>
    rw [append_of_some h, entries_modify, entries_modify]
    · exact fun _ => rfl
    · exact fun _ => rfl

theorem offspring_append : (t.append parent kind).offspring p =
    if p = parent then t.offspring p ++ [t.size] else t.offspring p := by
  rw [offspring, entries_append, Snapshot.positions_append, length_entries, Nat.zero_add, positions]
  simp only [Option.some.injEq, positions]
  split
  · next h => rw [if_pos h.symm]; rfl
  · next h => rw [if_neg (Ne.symm h)]; exact List.append_nil _

end

theorem size_notMem_offspring : t.size ∉ t.offspring p := fun h =>
  Nat.lt_irrefl _ (lt_size_of_parent? (mem_offspring.1 h))

theorem pairwise_offspring (t : Tree) (p : Nat) : (t.offspring p).Pairwise (· < ·) :=
  Snapshot.pairwise_positions _ _ _

/-- A last child has its parent in one place only. -/
theorem Linked.parent?_of_last (h : t.Linked) (hi : t.lastChild? p = some i) :
    t.parent? i = some p := by
  rw [h.last] at hi
  exact mem_offspring.1 (List.mem_of_getLast? hi)

theorem Linked.nextSibling?_append {parent : Nat} (h : t.Linked) (kind : NodeKind) (i : Nat) :
    (t.append parent kind).nextSibling? i =
      if t.lastChild? parent = some i then some t.size else t.nextSibling? i :=
  Tree.nextSibling?_append fun _ hs => lt_size_of_parent? (h.parent?_of_last hs)

/-- The neighbours of the new child and of its elder siblings. -/
theorem Linked.neighbours_append {parent : Nat} (h : t.Linked) (kind : NodeKind)
    {xs ys : List Nat} (hi : t.offspring parent ++ [t.size] = xs ++ i :: ys) :
    (t.append parent kind).prevSibling? i = xs.getLast? ∧
      (t.append parent kind).nextSibling? i = ys.head? := by
  rw [prevSibling?_append, h.nextSibling?_append]
  -- The new node is the last one; of the old ones only the last has a new neighbour.
  rcases List.eq_nil_or_concat ys with rfl | ⟨ys, y, rfl⟩
  · obtain ⟨rfl, hsize⟩ := List.append_inj' hi rfl
    obtain rfl : t.size = i := (List.cons.inj hsize).1
    rw [if_pos rfl, h.last, if_neg]
    · exact ⟨rfl, link_of_size _⟩
    · exact fun hl => size_notMem_offspring (List.mem_of_getLast? hl)
  · have hi' : t.offspring parent ++ [t.size] = (xs ++ i :: ys) ++ [y] := by simpa using hi
    obtain ⟨hL, hsize⟩ := List.append_inj' hi' rfl
    obtain rfl : t.size = y := (List.cons.inj hsize).1
    have hmem : i ∈ t.offspring parent := by simp [hL]
    have hne : i ≠ t.size := fun he => size_notMem_offspring (he ▸ hmem)
    obtain ⟨hprev, hnext⟩ := h.neighbours _ _ _ _ hL
    rw [if_neg hne, hprev, h.last, hL]
    refine ⟨rfl, ?_⟩
    rcases List.eq_nil_or_concat ys with rfl | ⟨zs, z, rfl⟩
    · rw [if_pos (by simp)]
      rfl
    · have hlt : i < z := by
        have hp := pairwise_offspring t parent
        rw [hL, List.pairwise_append, List.pairwise_cons] at hp
        exact hp.2.1.1 z (by simp)
      rw [if_neg, hnext]
      · cases zs <;> rfl
      · simp only [List.concat_eq_append, ← List.cons_append, ← List.append_assoc,
          List.getLast?_concat, Option.some.injEq]
        omega

/-- A new child is linked behind its elder siblings. -/
theorem Linked.append {parent : Nat} (h : t.Linked) (hp : parent < t.size) (kind : NodeKind) :
    (t.append parent kind).Linked where
  older i p hi := by
    rw [parent?_append] at hi
    split at hi
    · next hi' =>
      obtain rfl : parent = p := Option.some.inj hi
      exact hi' ▸ hp
    · exact h.older i p hi
  first p := by
    rw [firstChild?_append hp, offspring_append, h.last, h.first]
    by_cases hpp : p = parent
    · subst hpp
      rw [if_pos rfl]
      cases t.offspring p <;> simp
    · rw [if_neg fun hc => hpp hc.1, if_neg hpp]
  last p := by
    rw [lastChild?_append hp, offspring_append, h.last]
    split <;> simp
  neighbours p xs i ys hi := by
    rw [offspring_append] at hi
    split at hi
    · next hpp =>
      subst hpp
      exact h.neighbours_append kind hi
    · next hpp =>
      have hmem : i ∈ t.offspring p := by simp [hi]
      have hne : i ≠ t.size := fun he => size_notMem_offspring (he ▸ hmem)
      rw [prevSibling?_append, h.nextSibling?_append, if_neg hne, if_neg]
      · exact h.neighbours p xs i ys hi
      · intro hl
        have := (mem_offspring.1 hmem).symm.trans (h.parent?_of_last hl)
        exact hpp (Option.some.inj this)
  alone i hi := by
    rw [parent?_append] at hi
    split at hi
    · cases hi
    · next hne =>
      rw [prevSibling?_append, h.nextSibling?_append, if_neg hne, if_neg]
      · exact h.alone i hi
      · intro hl
        rw [h.parent?_of_last hl] at hi
        cases hi

/-! ### Relabelling -/

section
variable (g : Snapshot → Snapshot)

theorem getElem?_entries_relabel (i j : Nat) : (t.modify i (Node.relabel g)).entries[j]? =
    if i = j then t.entries[j]?.map fun e => (e.1, (g e.2).bare) else t.entries[j]? := by
  rw [getElem?_entries, getElem?_entries, node?_modify]
  split
  · cases t.node? j <;> rfl
  · rfl

theorem entries_relabel {pre post : List Entry} {e : Entry} (he : t.entries = pre ++ e :: post) :
    (t.modify pre.length (Node.relabel g)).entries = pre ++ (e.1, (g e.2).bare) :: post := by
  refine List.ext_getElem? fun j => ?_
  rw [getElem?_entries_relabel, he]
  rcases Nat.lt_trichotomy j pre.length with hj | rfl | hj
  · rw [if_neg (by omega), List.getElem?_append_left hj, List.getElem?_append_left hj]
  · rw [if_pos rfl, List.getElem?_append_right (Nat.le_refl _),
      List.getElem?_append_right (Nat.le_refl _), Nat.sub_self]
    rfl
  · obtain ⟨k, rfl⟩ : ∃ k, j = pre.length + 1 + k := ⟨j - (pre.length + 1), by omega⟩
    rw [if_neg (by omega), List.getElem?_append_right (by omega),
      List.getElem?_append_right (by omega), show pre.length + 1 + k - pre.length = k + 1 by omega,
      List.getElem?_cons_succ, List.getElem?_cons_succ]

theorem offspring_relabel (i p : Nat) :
    (t.modify i (Node.relabel g)).offspring p = t.offspring p := by
  have hiff (j : Nat) : j ∈ (t.modify i (Node.relabel g)).offspring p ↔ j ∈ t.offspring p := by
    rw [mem_offspring, mem_offspring, parent?, link_modify, parent?]
    exact fun _ => rfl
  have hperm := (List.perm_ext_iff_of_nodup
    ((pairwise_offspring _ _).imp Nat.ne_of_lt) ((pairwise_offspring _ _).imp Nat.ne_of_lt)).2 hiff
  exact hperm.eq_of_pairwise (fun _ _ _ _ h h' => absurd h (Nat.lt_asymm h'))
    (pairwise_offspring _ _) (pairwise_offspring _ _)

theorem Linked.relabel (h : t.Linked) (i : Nat) : (t.modify i (Node.relabel g)).Linked := by
  have hlink (l : Node → Option Nat) (hl : ∀ n, l (n.relabel g) = l n) (j : Nat) :
      ((t.modify i (Node.relabel g)).node? j).bind l = (t.node? j).bind l := link_modify hl
  constructor
  · intro j p hj
    rw [parent?, hlink _ fun _ => rfl] at hj
    exact h.older j p hj
  · intro p
    rw [firstChild?, hlink _ fun _ => rfl, offspring_relabel]
    exact h.first p
  · intro p
    rw [lastChild?, hlink _ fun _ => rfl, offspring_relabel]
    exact h.last p
  · intro p xs j ys hj
    rw [offspring_relabel] at hj
    rw [prevSibling?, nextSibling?, hlink _ fun _ => rfl, hlink _ fun _ => rfl]
    exact h.neighbours p xs j ys hj
  · intro j hj
    rw [parent?, hlink _ fun _ => rfl] at hj
    rw [prevSibling?, nextSibling?, hlink _ fun _ => rfl, hlink _ fun _ => rfl]
    exact h.alone j hj

end

/-! ### Snapshots -/

theorem Linked.siblingsFrom (h : t.Linked) {xs ys : List Nat} (hp : t.offspring p = xs ++ ys)
    {bound : Nat} (hb : ys.length ≤ bound) : t.siblingsFrom bound ys.head? = ys := by
  induction bound generalizing xs ys with
  | zero =>
    rw [List.length_eq_zero_iff.1 (Nat.le_zero.1 hb)]
    rfl
  | succ bound ih =>
    cases ys with
    | nil => rfl
    | cons i ys =>
      have hnext := (h.neighbours p xs i ys hp).2
      have hrest := ih (by rw [hp, List.append_cons]) (Nat.le_of_succ_le_succ hb)
      rw [List.head?_cons, Tree.siblingsFrom, hnext, hrest]

/-- The children of a node are its offspring. -/
theorem Linked.children (h : t.Linked) (p : Nat) : t.children p = t.offspring p := by
  have hb : (t.offspring p).length ≤ t.size := by
    rw [← length_entries]
    exact Snapshot.length_positions_le _ _ _
  rw [Tree.children, h.first]
  exact h.siblingsFrom (List.nil_append _).symm hb

theorem Linked.hasChildren (h : t.Linked) (p : Nat) :
    t.hasChildren p = !(t.offspring p).isEmpty := by
  rw [Tree.hasChildren, h.first]
  cases t.offspring p <;> rfl

section
variable {pre post : List Entry} {parent : Option Nat} {s : Snapshot}

theorem node?_of_layout (he : t.entries = pre ++ layout parent i s ++ post)
    (hi : pre.length = i) : ∃ n, t.node? i = some n ∧ n.parent = parent ∧ n.bare = s.bare := by
  have hget : t.entries[i]? = some (parent, s.bare) := by
    rw [he, List.append_assoc, List.getElem?_append_right (by omega), hi, Nat.sub_self,
      Snapshot.layout_eq]
    rfl
  rw [getElem?_entries] at hget
  obtain ⟨n, hn, hentry⟩ := Option.map_eq_some_iff.1 hget
  exact ⟨n, hn, congrArg Prod.fst hentry, congrArg Prod.snd hentry⟩

end

/-- The subtree `s` with root `i` is a part of the entries, and no node outside of it has its parent
inside. -/
structure Holds (t : Tree) (parent : Option Nat) (i : Nat) (s : Snapshot) (pre post : List Entry) :
    Prop where
  part : t.entries = pre ++ layout parent i s ++ post
  length : pre.length = i
  before : Outside i (i + s.size) pre
  behind : Outside i (i + s.size) post

/-- The same for the children of `p`, the first of which has index `i`. -/
structure HoldsAll (t : Tree) (p i : Nat) (cs : List Snapshot) (pre post : List Entry) : Prop where
  part : t.entries = pre ++ layoutAll p i cs ++ post
  length : pre.length = i
  older : p < i
  before : Outside i (i + Snapshot.sizeAll cs) pre
  behind : Outside i (i + Snapshot.sizeAll cs) post

namespace Holds
variable {parent : Option Nat} {s : Snapshot} {pre post : List Entry}

theorem node? (h : t.Holds parent i s pre post) :
    ∃ n, t.node? i = some n ∧ n.parent = parent ∧ n.bare = s.bare :=
  node?_of_layout h.part h.length

theorem parent_lt (h : t.Holds parent i s pre post) (hl : t.Linked) {q : Nat}
    (hq : parent = some q) : q < i := by
  obtain ⟨n, hn, hparent, -⟩ := h.node?
  refine hl.older i q ?_
  rw [parent?, hn, ← hq]
  exact hparent

theorem children (h : t.Holds parent i s pre post) (hl : t.Linked) :
    t.children i = starts (i + 1) s.children := by
  have hs := s.size_pos
  have hroot : parent ≠ some i := fun hq => Nat.lt_irrefl _ (h.parent_lt hl hq)
  rw [hl.children, offspring, h.part, Snapshot.positions_append, Snapshot.positions_append,
    Snapshot.positions_eq_nil (h.before.mono (Nat.le_refl _) (by omega)),
    Snapshot.positions_eq_nil (h.behind.mono (Nat.le_refl _) (by omega)), Snapshot.layout_eq,
    Snapshot.positions, if_neg hroot, h.length, Nat.zero_add,
    Snapshot.positions_layoutAll (Nat.lt_succ_self i)]
  simp

theorem all (h : t.Holds parent i s pre post) (hl : t.Linked) :
    t.HoldsAll i (i + 1) s.children (pre ++ [(parent, s.bare)]) post := by
  have hsize := s.size_eq
  have hroot : Outside (i + 1) (i + 1 + Snapshot.sizeAll s.children) [(parent, s.bare)] := by
    intro e hmem q hq
    rw [List.mem_singleton.1 hmem] at hq
    have := h.parent_lt hl hq
    omega
  constructor
  · rw [h.part, Snapshot.layout_eq]
    simp
  · rw [List.length_append, h.length]
    rfl
  · exact Nat.lt_succ_self i
  · exact (h.before.mono (by omega) (by omega)).append hroot
  · exact h.behind.mono (by omega) (by omega)

end Holds

namespace HoldsAll
variable {c : Snapshot} {cs : List Snapshot} {pre post : List Entry}

theorem head (h : t.HoldsAll p i (c :: cs) pre post) :
    t.Holds (some p) i c pre (layoutAll p (i + c.size) cs ++ post) := by
  obtain ⟨hpart, hlength, holder, hbefore, hbehind⟩ := h
  simp only [Snapshot.sizeAll] at hbefore hbehind
  constructor
  · rw [hpart, layoutAll]
    simp
  · exact hlength
  · exact hbefore.mono (Nat.le_refl _) (by omega)
  · exact (Snapshot.outside_layoutAll (.inl holder) (.inr (Nat.le_refl _))).append
      (hbehind.mono (Nat.le_refl _) (by omega))

theorem tail (h : t.HoldsAll p i (c :: cs) pre post) :
    t.HoldsAll p (i + c.size) cs (pre ++ layout (some p) i c) post := by
  obtain ⟨hpart, hlength, holder, hbefore, hbehind⟩ := h
  simp only [Snapshot.sizeAll] at hbefore hbehind
  constructor
  · rw [hpart, layoutAll]
    simp
  · rw [List.length_append, Snapshot.length_layout, hlength]
  · omega
  · exact (hbefore.mono (by omega) (by omega)).append
      (Snapshot.outside_layout (.inl (by omega)) (.inl (Nat.le_refl _)))
  · exact hbehind.mono (by omega) (by omega)

end HoldsAll

mutual
/-- A subtree that is a part of the entries is what its snapshot shows. -/
theorem Linked.ofNode_eq (h : t.Linked) {parent : Option Nat} {i depth : Nat}
    {pre post : List Entry} : ∀ {s : Snapshot}, t.Holds parent i s pre post → s.size ≤ depth →
      Snapshot.ofNode t depth i = s
  | ⟨kind, name, attributes, count, cs⟩, hs, hd => by
    obtain ⟨n, hn, -, hbare⟩ := hs.node?
    rw [Snapshot.size] at hd
    cases depth with
    | zero => omega
    | succ depth =>
      have hd' : Snapshot.sizeAll cs ≤ depth := by omega
      have hcs := h.ofNodes_eq (hs.all h) hd'
      obtain ⟨rfl, rfl, rfl, rfl, -⟩ := Snapshot.mk.inj hbare
      simp only [Snapshot.ofNode, hn, hs.children h, hcs]
theorem Linked.ofNodes_eq (h : t.Linked) {p i depth : Nat} {pre post : List Entry} :
    ∀ {cs : List Snapshot}, t.HoldsAll p i cs pre post → Snapshot.sizeAll cs ≤ depth →
      (starts i cs).map (Snapshot.ofNode t depth) = cs
  | [], _, _ => rfl
  | c :: cs, hcs, hd => by
    rw [Snapshot.sizeAll] at hd
    rw [starts, List.map_cons, h.ofNode_eq hcs.head (by omega), h.ofNodes_eq hcs.tail (by omega)]
end

theorem holds_root {s : Snapshot} (he : t.entries = layout none 0 s) : t.Holds none 0 s [] [] where
  part := by rw [he, List.nil_append, List.append_nil]
  length := rfl
  before := fun _ hmem => absurd hmem List.not_mem_nil
  behind := fun _ hmem => absurd hmem List.not_mem_nil

theorem size_of_layout {s : Snapshot} (he : t.entries = layout none 0 s) : t.size = s.size := by
  rw [← length_entries, he, Snapshot.length_layout]

/-- The snapshot of a tree can be read off its entries. -/
theorem Linked.ofTree_eq (h : t.Linked) {s : Snapshot} (he : t.entries = layout none 0 s) :
    Snapshot.ofTree t = s :=
  h.ofNode_eq (holds_root he) (Nat.le_of_eq (size_of_layout he).symm)

end Tree
end Shorthand
