import Shorthand.Proofs.Tree.Links
import Shorthand.Proofs.Tree.Zipper

/-! # The builder does what the zipper does

`Represents b z` relates a builder and a zipper that hold the same tree and stand in the same place.
It is kept by every event (`Represents.accept`), and so the snapshot of what was built is the whole
tree of the zipper (`Represents.ofTree`). -/

namespace Shorthand
open Snapshot (spine seat layout sizeAll leaf)

theorem Snapshot.spine_plug (s : Snapshot) (above : List Snapshot) :
    spine (s :: above) = spine [s.plug above] := by
  induction above generalizing s with
  | nil => rfl
  | cons a above ih => rw [← spine_withChild, ih, plug]

theorem TreeBuilder.stepOut_tree (b : TreeBuilder) : b.stepOut.tree = b.tree := by
  rw [stepOut]
  split
  · split <;> rfl
  · rfl

/-- The arena holds the tree of the zipper, and both are at the same node. -/
structure Represents (b : TreeBuilder) (z : Zipper) : Prop where
  linked : b.tree.Linked
  entries : b.tree.entries = spine (z.node :: z.above)
  current : b.current = sizeAll z.above

namespace Represents
variable {b : TreeBuilder} {z : Zipper} {a : Snapshot} {above : List Snapshot}

theorem size (h : Represents b z) : b.tree.size = z.node.size + sizeAll z.above := by
  rw [← Tree.length_entries, h.entries, Snapshot.length_spine, sizeAll]

theorem current_lt (h : Represents b z) : b.current < b.tree.size := by
  have := z.node.size_pos
  rw [h.current, h.size]
  omega

theorem node? (h : Represents b z) : ∃ n, b.tree.node? b.current = some n ∧
    n.parent = seat z.above ∧ n.bare = z.node.bare := by
  have he : b.tree.entries = spine z.above ++ layout (seat z.above) (sizeAll z.above) z.node ++ [] := by
    rw [h.entries, spine, List.append_nil]
  rw [h.current]
  exact Tree.node?_of_layout he (Snapshot.length_spine _)

theorem isKind (h : Represents b z) (kind : NodeKind) :
    b.isKind b.current kind = (z.node.kind == kind) := by
  obtain ⟨n, hn, -, hbare⟩ := h.node?
  have hkind : n.kind = z.node.kind := congrArg Snapshot.kind hbare
  rw [TreeBuilder.isKind, Tree.kind?, hn, ← hkind]
  rfl

theorem parent? (h : Represents b z) : b.tree.parent? b.current = seat z.above := by
  obtain ⟨n, hn, hparent, -⟩ := h.node?
  rw [Tree.parent?, hn]
  exact hparent

theorem offspring (h : Represents b z) :
    b.tree.offspring b.current = Snapshot.starts (b.current + 1) z.node.children := by
  rw [Tree.offspring, h.entries, h.current]
  exact Snapshot.positions_spine _ _

/-- The same tree, seen from the parent. -/
theorem up (h : Represents b z) (ha : z.above = a :: above) :
    Represents { b with current := sizeAll above } ⟨a.withChild z.node, above⟩ where
  linked := h.linked
  entries := by rw [Snapshot.spine_withChild, ← ha]; exact h.entries
  current := rfl

theorem isKind_parent (h : Represents b z) (ha : z.above = a :: above) (kind : NodeKind) :
    b.isKind (sizeAll above) kind = (a.kind == kind) := (h.up ha).isKind kind

theorem isScope_parent (h : Represents b z) (ha : z.above = a :: above) :
    b.isScope (sizeAll above) = a.isScope := by
  rw [TreeBuilder.isScope, h.isKind_parent ha, h.isKind_parent ha, Snapshot.isScope]

theorem descend (h : Represents b z) (kind : NodeKind) :
    Represents ⟨b.tree.append b.current kind, b.tree.size⟩ (z.descend kind) where
  linked := h.linked.append h.current_lt kind
  entries := by
    rw [Tree.entries_append, h.entries, h.current, Zipper.descend, spine]
    rfl
  current := by rw [h.size]; rfl

theorem change (h : Represents b z) (g : Snapshot → Snapshot) (hc : ∀ s, (g s).children = s.children)
    (hb : ∀ s, (g s).bare = (g s.bare).bare) :
    Represents (b.modifyCurrent (Node.relabel g)) (z.change g) where
  linked := h.linked.relabel g _
  entries := by
    have he := h.entries
    rw [spine, Snapshot.layout_eq] at he
    have hmod := Tree.entries_relabel g he
    rw [Snapshot.length_spine, ← h.current] at hmod
    show (b.tree.modify b.current (Node.relabel g)).entries = spine (g z.node :: z.above)
    rw [hmod, spine, Snapshot.layout_eq, hc, hb z.node, h.current]
  current := h.current

/-! ### Events -/

theorem element (h : Represents b z) (name : String) :
    Represents (b.element name) (z.element name) := by
  rw [TreeBuilder.element, h.isKind, Zipper.element]
  by_cases hk : z.node.kind = .inProgress
  · rw [if_pos (beq_iff_eq.2 hk), if_pos hk]
    exact h.change ({ · with kind := .element, name }) (fun _ => rfl) fun _ => rfl
  · rw [if_neg (mt beq_iff_eq.1 hk), if_neg hk]
    exact h

theorem startsWithText (h : Represents b z) :
    (b.tree.firstChild? b.current).any (b.isKind · .text) =
      z.node.children.head?.any (·.kind == .text) := by
  rw [h.linked.first, h.offspring]
  cases hc : z.node.children with
  | nil => rfl
  | cons c cs =>
    have he : b.tree.entries = (spine z.above ++ [(seat z.above, z.node.bare)]) ++
        layout (some b.current) (b.current + 1) c ++
          Snapshot.layoutAll b.current (b.current + 1 + c.size) cs := by
      rw [h.entries, spine, Snapshot.layout_eq, hc, Snapshot.layoutAll, h.current]
      simp
    obtain ⟨n, hn, -, hbare⟩ := Tree.node?_of_layout he (by simp [h.current])
    have hkind : n.kind = c.kind := congrArg Snapshot.kind hbare
    simp only [Snapshot.starts, List.head?_cons, Option.any_some, TreeBuilder.isKind, Tree.kind?,
      hn, ← hkind]
    rfl

theorem putAttribute (h : Represents b z) (name value : String) :
    let b' : TreeBuilder × Option BuildError :=
      if (b.tree.firstChild? b.current).any (b.isKind · .text) then (b, some .attributeBeforeText)
      else (b.modifyCurrent fun n =>
        { n with attributes := TreeBuilder.joinAttribute n.attributes name value }, none)
    let z' : Zipper × Option BuildError :=
      if z.node.children.head?.any (·.kind == .text) then (z, some .attributeBeforeText)
      else (z.change fun s =>
        { s with attributes := TreeBuilder.joinAttribute s.attributes name value }, none)
    Represents b'.1 z'.1 ∧ b'.2 = z'.2 := by
  intro b' z'
  simp only [b', z', h.startsWithText]
  split
  · exact ⟨h, rfl⟩
  · refine ⟨h.change (fun s =>
      { s with attributes := TreeBuilder.joinAttribute s.attributes name value }) (fun _ => rfl)
        fun _ => rfl, rfl⟩

theorem addAttribute (h : Represents b z) (name value : String) :
    Represents (b.addAttribute name value).1 (z.addAttribute name value).1 ∧
      (b.addAttribute name value).2 = (z.addAttribute name value).2 := by
  rw [TreeBuilder.addAttribute, Zipper.addAttribute, h.isKind, h.isKind]
  simp only [beq_iff_eq]
  by_cases ht : z.node.kind = .text
  · rw [if_pos ht, if_pos ht]
    exact ⟨h, rfl⟩
  · rw [if_neg ht, if_neg ht]
    by_cases hk : z.node.kind = .inProgress
    · rw [if_pos hk, if_pos hk]
      exact (h.change ({ · with kind := .element }) (fun _ => rfl)
        fun _ => rfl).putAttribute name value
    · rw [if_neg hk, if_neg hk]
      exact h.putAttribute name value

theorem text (h : Represents b z) (content : String) :
    Represents (b.text content) (z.text content) := by
  rw [TreeBuilder.text, Zipper.text, h.isKind, h.isKind]
  simp only [beq_iff_eq]
  by_cases ht : z.node.kind = .text
  · rw [if_pos ht, if_pos ht]
    exact h.change (fun s => { s with name := s.name ++ content }) (fun _ => rfl) fun _ => rfl
  · rw [if_neg ht, if_neg ht]
    by_cases hk : z.node.kind = .inProgress
    · rw [if_pos hk, if_pos hk]
      exact h.change (fun s => { s with kind := .text, name := s.name ++ content })
        (fun _ => rfl) fun _ => rfl
    · rw [if_neg hk, if_neg hk]
      have hnew := (h.descend .text).change ({ · with name := content }) (fun _ => rfl)
        fun _ => rfl
      have hup := @up _ _ z.node z.above hnew rfl
      rw [← h.current] at hup
      exact hup

theorem child (h : Represents b z) :
    Represents b.child.1 z.child.1 ∧ b.child.2 = z.child.2 := by
  rw [TreeBuilder.child, Zipper.child, h.isKind]
  simp only [beq_iff_eq]
  by_cases ht : z.node.kind = .text
  · rw [if_pos ht, if_pos ht]
    exact ⟨h, rfl⟩
  · rw [if_neg ht, if_neg ht]
    exact ⟨h.descend .inProgress, rfl⟩

theorem sibling (h : Represents b z) : Represents b.sibling z.sibling := by
  rw [TreeBuilder.sibling, h.parent?, Zipper.sibling, Zipper.up]
  cases ha : z.above with
  | nil =>
    have hroot : b.current = Tree.root := by rw [h.current, ha]; rfl
    have hd := h.descend .inProgress
    rw [hroot] at hd
    exact hd
  | cons a above => exact (h.up ha).descend .inProgress

theorem ascend (h : Represents b z) (levels : Nat) :
    Represents (b.ascend levels) (z.ascend levels) := by
  induction levels generalizing b z with
  | zero => exact h
  | succ levels ih =>
    rw [TreeBuilder.ascend, h.parent?, Zipper.ascend]
    cases ha : z.above with
    | nil => exact h
    | cons a above =>
      simp only [seat, h.isScope_parent ha]
      split
      · exact h
      · rw [Zipper.up, ha]
        exact ih (h.up ha)

theorem openGroup (h : Represents b z) : Represents b.openGroup z.openGroup := by
  rw [TreeBuilder.openGroup, Zipper.openGroup, h.isKind]
  simp only [beq_iff_eq]
  by_cases hk : z.node.kind = .inProgress
  · rw [if_pos hk, if_pos hk]
    exact (h.change ({ · with kind := .group }) (fun _ => rfl) fun _ => rfl).descend .inProgress
  · rw [if_neg hk, if_neg hk]
    exact (h.descend .group).descend .inProgress

theorem stepOut (h : Represents b z) : Represents b.stepOut z.stepOut := by
  rw [TreeBuilder.stepOut, h.parent?, Zipper.stepOut]
  cases ha : z.above with
  | nil => exact h
  | cons a above =>
    simp only [seat, h.isKind_parent ha, beq_iff_eq]
    split
    · exact h
    · rw [Zipper.up, ha]
      exact h.up ha

theorem stepToGroup_of_stepOut (h : b.stepOut = b) (bound : Nat) : b.stepToGroup bound = b := by
  induction bound with
  | zero => rfl
  | succ bound ih =>
    rw [TreeBuilder.stepToGroup, h, ih]
    split <;> rfl

/-- As many steps as there are nodes above are enough. -/
theorem stepToGroup (h : Represents b z) {bound : Nat} (hb : z.above.length ≤ bound) :
    Represents (b.stepToGroup bound) (Zipper.toGroup z.node z.above) := by
  induction bound generalizing b z with
  | zero =>
    obtain ⟨s, above⟩ := z
    obtain rfl : above = [] := List.length_eq_zero_iff.1 (Nat.le_zero.1 hb)
    exact h
  | succ bound ih =>
    obtain ⟨s, above⟩ := z
    have hout := h.stepOut
    cases above with
    | nil =>
      have hstay : b.stepOut = b := by rw [TreeBuilder.stepOut, h.parent?]; rfl
      rw [stepToGroup_of_stepOut hstay]
      exact h
    | cons a above =>
      rw [Zipper.toGroup]
      -- Both stop at a group, and below the root; otherwise both go on from the parent.
      by_cases hs : s.kind = .group
      · rw [TreeBuilder.stepToGroup, h.isKind, if_pos (beq_iff_eq.2 hs), if_pos (.inl hs)]
        exact h
      · by_cases ha : a.kind = .root
        · have hstay : b.stepOut = b := by
            rw [TreeBuilder.stepOut, h.parent?]
            simp only [seat, h.isKind_parent rfl, ha, beq_self_eq_true, if_true]
          rw [stepToGroup_of_stepOut hstay, if_pos (.inr ha)]
          exact h
        · rw [TreeBuilder.stepToGroup, h.isKind, if_neg (mt beq_iff_eq.1 hs),
            if_neg (not_or.2 ⟨hs, ha⟩)]
          simp only [Zipper.stepOut, if_neg ha] at hout
          exact ih hout (Nat.le_of_succ_le_succ hb)

theorem closeGroup (h : Represents b z) : Represents b.closeGroup z.closeGroup := by
  have hout := h.stepOut
  refine hout.stepToGroup ?_
  have hle := Snapshot.length_le_sizeAll z.stepOut.above
  have hsize := hout.size
  rw [TreeBuilder.stepOut_tree] at hsize
  omega

theorem multiply (h : Represents b z) (count : Nat) :
    Represents (b.modifyCurrent ({ · with count })) (z.change (·.withCount count)) :=
  h.change (·.withCount count) (fun _ => rfl) fun _ => rfl

/-- One event keeps the relation, and both take it or refuse it for the same reason. -/
theorem accept (h : Represents b z) (e : Event) :
    Represents (Builder.accept b e).1 (Builder.accept z e).1 ∧
      (Builder.accept b e).2 = (Builder.accept z e).2 := by
  cases e with
  | element name => exact ⟨h.element name, rfl⟩
  | id name => exact h.addAttribute "id" name
  | className name => exact h.addAttribute "class" name
  | «attribute» name value => exact h.addAttribute name value
  | text content => exact ⟨h.text content, rfl⟩
  | multiply count => exact ⟨h.multiply count, rfl⟩
  | child => exact h.child
  | sibling => exact ⟨h.sibling, rfl⟩
  | climb levels => exact ⟨(h.ascend levels).sibling, rfl⟩
  | openGroup => exact ⟨h.openGroup, rfl⟩
  | closeGroup => exact ⟨h.closeGroup, rfl⟩

theorem feed (h : Represents b z) (es : List Event) :
    Represents (Builder.feed b es).1 (Builder.feed z es).1 ∧
      (Builder.feed b es).2 = (Builder.feed z es).2 := by
  induction es generalizing b z with
  | nil => exact ⟨h, rfl⟩
  | cons e es ih =>
    obtain ⟨hstate, herror⟩ := h.accept e
    simp only [Builder.feed]
    rcases hb : Builder.accept b e with ⟨b', _ | cause⟩ <;>
      rcases hz : Builder.accept z e with ⟨z', _ | cause'⟩ <;> rw [hb, hz] at hstate herror
    · exact ih hstate
    · cases herror
    · cases herror
    · exact ⟨hstate, herror⟩

theorem empty : Represents ⟨Tree.empty, Tree.root⟩ ⟨leaf .root, []⟩ where
  linked := Tree.linked_empty
  entries := rfl
  current := rfl

theorem start : Represents TreeBuilder.start Zipper.start := empty.descend .inProgress

/-- What was built is the whole tree of the zipper. -/
theorem ofTree (h : Represents b z) : Snapshot.ofTree b.tree = z.root := by
  refine h.linked.ofTree_eq ?_
  rw [h.entries, Snapshot.spine_plug]
  rfl

end Represents
end Shorthand
