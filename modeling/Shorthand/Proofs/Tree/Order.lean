import Shorthand.Proofs.Tree.Simulation
import Shorthand.Proofs.Tree.Walks

/-! # The order of the nodes

Whatever a builder is told, and whatever it refuses of that, it stands on the last branch of its tree:
all nodes from the current one up to the root are last children. A node is only ever appended there,
and so the order in which nodes are made is the order in which a walk from the root comes to them
(`TreeBuilder.inOrder_run`). -/

namespace Shorthand
open Snapshot (starts sizeAll seat)

/-- The state of a builder after a list of events, those that it refuses included. -/
def Builder.run {β : Type} [Builder β] (b : β) (es : List Event) : β :=
  es.foldl (fun b e => (Builder.accept b e).1) b

theorem Builder.run_concat {β : Type} [Builder β] (b : β) (es : List Event) (e : Event) :
    Builder.run b (es ++ [e]) = (Builder.accept (Builder.run b es) e).1 := List.foldl_concat ..

namespace Snapshot
variable {a s : Snapshot} {above : List Snapshot}

/-- The last of the nodes is a root, and the others are not. -/
def Grounded : List Snapshot → Prop
  | [] => False
  | [r] => r.kind = .root
  | a :: b :: above => a.kind ≠ .root ∧ Grounded (b :: above)

theorem Grounded.ne_nil (h : Grounded above) : above ≠ [] := by
  rintro rfl
  exact h

theorem Grounded.cons (h : Grounded above) (hs : s.kind ≠ .root) : Grounded (s :: above) := by
  cases above with
  | nil => exact h.elim
  | cons a above => exact ⟨hs, h⟩

theorem Grounded.withChild (h : Grounded (a :: above)) (s : Snapshot) :
    Grounded (a.withChild s :: above) := by
  cases above with
  | nil => exact h
  | cons b above => exact h

theorem Grounded.tail (h : Grounded (a :: above)) (ha : a.kind ≠ .root) : Grounded above := by
  cases above with
  | nil => exact absurd h ha
  | cons b above => exact h.2

end Snapshot

namespace Zipper
open Snapshot (Grounded)

/-- The place is not the root, and the root is at the end of the nodes above. -/
structure Seated (z : Zipper) : Prop where
  node : z.node.kind ≠ .root
  above : Grounded z.above

namespace Seated
variable {z : Zipper} {a s : Snapshot} {above : List Snapshot} {kind : NodeKind}

theorem start : Zipper.start.Seated := ⟨by decide, rfl⟩

theorem change (h : z.Seated) {g : Snapshot → Snapshot} (hg : (g z.node).kind ≠ .root) :
    (z.change g).Seated := ⟨hg, h.above⟩

theorem descend (h : z.Seated) (hk : kind ≠ .root) : (z.descend kind).Seated :=
  ⟨hk, h.above.cons h.node⟩

theorem up (h : z.Seated) (ha : z.above = a :: above) (hk : a.kind ≠ .root) : z.up.Seated := by
  have habove := h.above
  rw [ha] at habove
  rw [Zipper.up, ha]
  exact ⟨hk, habove.tail hk⟩

/-- The new place is below the parent, which may be the root. -/
theorem sibling (h : z.Seated) : z.sibling.Seated := by
  have habove := h.above
  cases ha : z.above with
  | nil => exact absurd ha habove.ne_nil
  | cons a above =>
    rw [ha] at habove
    rw [Zipper.sibling, Zipper.up, ha]
    constructor
    · intro hk
      cases hk
    · exact habove.withChild z.node

theorem ascend (h : z.Seated) (levels : Nat) : (z.ascend levels).Seated := by
  induction levels generalizing z with
  | zero => exact h
  | succ levels ih =>
    rw [Zipper.ascend]
    split
    · exact h
    · next a above ha =>
      split
      · exact h
      · next hscope =>
        refine ih (h.up ha fun hk => hscope ?_)
        simp [Snapshot.isScope, hk]

theorem stepOut (h : z.Seated) : z.stepOut.Seated := by
  rw [Zipper.stepOut]
  split
  · exact h
  · next a above ha =>
    split
    · exact h
    · next hk => exact h.up ha hk

theorem toGroup (hs : s.kind ≠ .root) (h : Grounded above) : (Zipper.toGroup s above).Seated := by
  induction above generalizing s with
  | nil => exact ⟨hs, h⟩
  | cons a above ih =>
    rw [Zipper.toGroup]
    split
    · exact ⟨hs, h⟩
    · next hstop =>
      have ha : a.kind ≠ .root := fun hk => hstop (.inr hk)
      exact ih (s := a.withChild s) ha (h.tail ha)

theorem closeGroup (h : z.Seated) : z.closeGroup.Seated := toGroup h.stepOut.node h.stepOut.above

theorem openGroup (h : z.Seated) : z.openGroup.Seated := by
  rw [Zipper.openGroup]
  split
  · exact (h.change fun hk => by cases hk).descend (by decide)
  · exact (h.descend (by decide)).descend (by decide)

theorem element (h : z.Seated) (name : String) : (z.element name).Seated := by
  rw [Zipper.element]
  split
  · exact h.change fun hk => by cases hk
  · exact h

theorem addAttribute (h : z.Seated) (name value : String) : (z.addAttribute name value).1.Seated := by
  have hput (z : Zipper) (hz : z.Seated) :
      (if z.node.children.head?.any (·.kind == .text) then (z, some .attributeBeforeText)
        else (z.change fun s =>
          { s with attributes := TreeBuilder.joinAttribute s.attributes name value }, none) :
        Zipper × Option BuildError).1.Seated := by
    split
    · exact hz
    · exact ⟨hz.node, hz.above⟩
  rw [Zipper.addAttribute]
  split
  · exact h
  · split
    · exact hput _ (h.change fun hk => by cases hk)
    · exact hput _ h

theorem text (h : z.Seated) (content : String) : (z.text content).Seated := by
  rw [Zipper.text]
  split
  · exact h.change h.node
  · split
    · exact h.change fun hk => by cases hk
    · exact h.change h.node

theorem child (h : z.Seated) : z.child.1.Seated := by
  rw [Zipper.child]
  split
  · exact h
  · exact h.descend (by decide)

/-- No event leads to the root, whether it is refused or not. -/
theorem accept (h : z.Seated) (e : Event) : (Builder.accept z e).1.Seated := by
  cases e with
  | element name => exact h.element name
  | id name => exact h.addAttribute "id" name
  | className name => exact h.addAttribute "class" name
  | «attribute» name value => exact h.addAttribute name value
  | text content => exact h.text content
  | multiply count => exact h.change (g := (·.withCount count)) h.node
  | child => exact h.child
  | sibling => exact h.sibling
  | climb levels => exact (h.ascend levels).sibling
  | openGroup => exact h.openGroup
  | closeGroup => exact h.closeGroup

end Seated
end Zipper

theorem Represents.run {b : TreeBuilder} {z : Zipper} (h : Represents b z) (hz : z.Seated)
    (es : List Event) : Represents (Builder.run b es) (Builder.run z es) ∧
      (Builder.run z es).Seated := by
  induction es generalizing b z with
  | nil => exact ⟨h, hz⟩
  | cons e es ih => exact ih (h.accept e).1 (hz.accept e)

theorem Snapshot.getLast?_starts (i : Nat) (cs : List Snapshot) (c : Snapshot) :
    (starts i (cs ++ [c])).getLast? = some (i + sizeAll cs) := by
  induction cs generalizing i with
  | nil => rfl
  | cons d cs ih =>
    have hne : starts (i + d.size) (cs ++ [c]) ≠ [] := by cases cs <;> exact List.cons_ne_nil _ _
    rw [List.cons_append, starts, List.getLast?_cons_of_ne_nil hne, ih, sizeAll, Nat.add_assoc]

namespace Represents
variable {b : TreeBuilder} {z : Zipper} {a : Snapshot} {above : List Snapshot} {i : Nat}

/-- The current node is the last child of its parent. -/
theorem lastChild? (h : Represents b z) (ha : z.above = a :: above) :
    b.tree.lastChild? (sizeAll above) = some b.current := by
  have hoffspring : b.tree.offspring (sizeAll above) =
      starts (sizeAll above + 1) (a.children ++ [z.node]) := (h.up ha).offspring
  have hlast : sizeAll above + 1 + sizeAll a.children = b.current := by
    rw [h.current, ha, sizeAll, Snapshot.size_eq]
    omega
  rw [h.linked.last, hoffspring, Snapshot.getLast?_starts, hlast]

/-- So are all nodes above it. -/
theorem last_of_above (h : Represents b z) (hi : i = b.current ∨ b.tree.Above i b.current)
    (hne : i ≠ Tree.root) : ∃ p, b.tree.parent? i = some p ∧ b.tree.lastChild? p = some i := by
  obtain ⟨s, above⟩ := z
  induction above generalizing b s with
  | nil =>
    have hroot : b.current = Tree.root := h.current
    rcases hi with rfl | hi
    · exact absurd hroot hne
    · obtain ⟨q, hq, -⟩ := Tree.above_iff.1 hi
      rw [h.parent?] at hq
      cases hq
  | cons a above ih =>
    have hparent : b.tree.parent? b.current = some (sizeAll above) := h.parent?
    rcases hi with rfl | hi
    · exact ⟨_, hparent, h.lastChild? rfl⟩
    · obtain ⟨q, hq, hi⟩ := Tree.above_iff.1 hi
      obtain rfl := Option.some.inj (hparent.symm.trans hq)
      -- The same tree, seen from the parent, which is on the same branch.
      exact ih (b := { b with current := sizeAll above }) hi _ (h.up rfl)

end Represents

/-! ### The walk from the root -/

namespace Tree
variable {t : Tree}

mutual
/-- A walk comes to the nodes of a subtree in the order of their indices. -/
theorem Linked.visits_eq (h : t.Linked) {parent : Option Nat} {i depth : Nat}
    {pre post : List Entry} : ∀ {s : Snapshot}, t.Holds parent i s pre post → s.size ≤ depth →
      t.visits (fun _ => true) depth i = List.range' i s.size
  | ⟨kind, name, attributes, count, cs⟩, hs, hd => by
    obtain ⟨n, hn, -, -⟩ := hs.node?
    have hkind : (t.kind? i).any fun _ => true := by
      rw [kind?, hn]
      rfl
    rw [Snapshot.size] at hd ⊢
    cases depth with
    | zero => omega
    | succ depth =>
      have hd' : sizeAll cs ≤ depth := by omega
      have hcs := h.visitsAll_eq (hs.all h) hd'
      rw [visits, if_pos hkind, hs.children h, hcs, Nat.add_comm 1, List.range'_succ]
theorem Linked.visitsAll_eq (h : t.Linked) {p i depth : Nat} {pre post : List Entry} :
    ∀ {cs : List Snapshot}, t.HoldsAll p i cs pre post → sizeAll cs ≤ depth →
      (starts i cs).flatMap (t.visits (fun _ => true) depth) = List.range' i (sizeAll cs)
  | [], _, _ => rfl
  | c :: cs, hcs, hd => by
    rw [sizeAll] at hd ⊢
    rw [starts, List.flatMap_cons, h.visits_eq hcs.head (by omega),
      h.visitsAll_eq hcs.tail (by omega), List.range'_append_1]
end

end Tree

/-! ### Every list of events -/

namespace TreeBuilder

/-- The current node is on the last branch, and the order of the indices is the order of the tree. -/
structure InOrder (b : TreeBuilder) : Prop where
  valid : b.current < b.tree.size
  not_root : b.current ≠ Tree.root ∧ b.tree.kind? b.current ≠ some .root
  last : ∀ i, i = b.current ∨ b.tree.Above i b.current → i ≠ Tree.root →
    ∃ p, b.tree.parent? i = some p ∧ b.tree.lastChild? p = some i
  preorder : b.tree.visits (fun _ => true) b.tree.size Tree.root = List.range b.tree.size
  snapshot : (Snapshot.ofTree b.tree).preorder.map some =
    (List.range b.tree.size).map fun i => (b.tree.node? i).map Node.bare

theorem inOrder_run (es : List Event) : (Builder.run start es).InOrder := by
  obtain ⟨h, hz⟩ := Represents.start.run .start es
  generalize Builder.run start es = b at h
  generalize Builder.run Zipper.start es = z at h hz
  -- The arena is laid out as the tree of the zipper, whose walk goes through all places in turn.
  have hpreorder : b.tree.visits (fun _ => true) b.tree.size Tree.root =
      List.range b.tree.size := by
    have hentries : b.tree.entries = Snapshot.layout none 0 z.root := by
      rw [h.entries, Snapshot.spine_plug]
      rfl
    have hsize := Tree.size_of_layout hentries
    have hvisits := h.linked.visits_eq (Tree.holds_root hentries) (Nat.le_of_eq hsize.symm)
    rw [← hsize, ← List.range_eq_range'] at hvisits
    exact hvisits
  constructor
  case valid => exact h.current_lt
  case not_root =>
    obtain ⟨n, hn, -, hbare⟩ := h.node?
    have hkind : n.kind = z.node.kind := congrArg Snapshot.kind hbare
    constructor
    · have hne := List.length_pos_iff.2 hz.above.ne_nil
      have hle := Snapshot.length_le_sizeAll z.above
      rw [h.current]
      exact Nat.ne_of_gt (Nat.lt_of_lt_of_le hne hle)
    · rw [Tree.kind?, hn]
      exact fun hroot => hz.node (hkind.symm.trans (Option.some.inj hroot))
  case last => exact fun i hi hne => h.last_of_above hi hne
  case preorder => exact hpreorder
  case snapshot =>
    have hlt : Tree.root < b.tree.size := Nat.lt_of_le_of_lt (Nat.zero_le _) h.current_lt
    rw [← hpreorder]
    exact h.linked.preorder_ofNode (Nat.sub_le _ _) hlt

end TreeBuilder
end Shorthand
