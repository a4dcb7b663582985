import Shorthand.Proofs.Grammar.Acceptance
import Shorthand.Proofs.Tree.Nesting
import Shorthand.Proofs.Tree.Simulation

/-! # Finished trees

Every place that is opened is filled by the item that comes next, so no abbreviation ends with an
open place and the tree of an accepted text is always finished (`parseTree_of_feed`). -/

namespace Shorthand
open Shorthand.Derivation
open Snapshot (leaf spine seat layout sizeAll)
variable {above : List Snapshot} {s a : Snapshot} {z : Zipper} {source : String} {t : Tree}

namespace Snapshot

/-- No node is in progress, neither those on the way to a place nor those below them. -/
def Filled (above : List Snapshot) : Prop := ∀ e ∈ spine above, e.2.kind ≠ .inProgress

theorem filled_cons : Filled (s :: above) ↔
    Filled above ∧ ∀ e ∈ layout (seat above) (sizeAll above) s, e.2.kind ≠ .inProgress := by
  rw [Filled, spine]
  constructor
  · intro h
    exact ⟨fun e he => h e (List.mem_append_left _ he), fun e he => h e (List.mem_append_right _ he)⟩
  · rintro ⟨ha, hs⟩ e he
    rcases List.mem_append.1 he with he | he
    · exact ha e he
    · exact hs e he

theorem filled_withChild : Filled (a.withChild s :: above) ↔ Filled (s :: a :: above) := by
  rw [Filled, Filled, spine_withChild]

theorem filled_withCount {count : Nat} : Filled (s.withCount count :: above) ↔ Filled (s :: above) := by
  rw [filled_cons, filled_cons, layout_eq, layout_eq]
  simp only [List.forall_mem_cons]
  rfl

theorem Filled.element (h : Filled above) (e : Element) : Filled (e.node :: above) := by
  refine filled_cons.2 ⟨h, ?_⟩
  rcases e with ⟨name, ds, _ | content⟩ | content <;>
    simp [Element.node, Tag.node, textNode, leaf, layout_eq, layoutAll, bare]

theorem Filled.group (h : Filled above) : Filled (leaf .group :: above) := by
  refine filled_cons.2 ⟨h, ?_⟩
  simp [leaf, layout_eq, layoutAll, bare]

end Snapshot
open Snapshot (Filled)

namespace Zipper

theorem filled_up : Filled z.up.nodes ↔ Filled z.nodes := by
  obtain ⟨s, above⟩ := z
  cases above with
  | nil => exact Iff.rfl
  | cons a above => exact Snapshot.filled_withChild

theorem filled_rise (levels : Nat) : Filled (z.rise levels).nodes ↔ Filled z.nodes := by
  induction levels generalizing z with
  | zero => exact Iff.rfl
  | succ levels ih => rw [rise, ih, filled_up]

theorem filled_next (h : Filled z.nodes) (op : Operator) : Filled (op.next z) := by
  cases op with
  | child => exact h
  | sibling => exact filled_up.2 h
  | climb further => exact filled_up.2 ((filled_rise _).2 h)

theorem filled_stepOut : Filled z.stepOut.nodes ↔ Filled z.nodes := by
  rw [stepOut]
  split
  · exact Iff.rfl
  · split
    · exact Iff.rfl
    · exact filled_up

theorem filled_toGroup (s : Snapshot) (above : List Snapshot) :
    Filled (toGroup s above).nodes ↔ Filled (s :: above) := by
  induction above generalizing s with
  | nil => exact Iff.rfl
  | cons a above ih =>
    rw [toGroup]
    split
    · exact Iff.rfl
    · rw [ih, Snapshot.filled_withChild]

theorem filled_closeGroup : Filled z.closeGroup.nodes ↔ Filled z.nodes := by
  rw [closeGroup, filled_toGroup, ← filled_stepOut]
  rfl

theorem filled_recount (z : Zipper) (count : Option Numeral) :
    Filled (z.recount count).nodes ↔ Filled z.nodes := by
  cases count with
  | none => exact Iff.rfl
  | some n => exact Snapshot.filled_withCount

/-- An abbreviation that starts at an open place leaves none. -/
theorem filled_all :
    (∀ i above z, Builder.feed (place above) (Item.events i) = (z, none) → Filled above →
      Filled z.nodes) ∧
    ∀ a above z, Builder.feed (place above) (Abbreviation.events a) = (z, none) → Filled above →
      Filled z.nodes := by
  refine run_induction ?_ ?_ ?_ ?_
  · intro above e count h
    exact Snapshot.filled_withCount.2 (h.element e)
  · intro above inner count z _ hinner h
    rw [filled_recount, filled_closeGroup]
    exact hinner h.group
  · intro above i z hi
    exact hi
  · intro above i op rest z z' _ hi hrest h
    exact hrest (filled_next (hi h) op)

end Zipper

theorem Represents.finish {b : TreeBuilder} (h : Represents b z) (hf : Filled z.nodes) :
    b.finish = .ok b.tree := by
  have hnodes : b.tree.nodes.any (·.kind == .inProgress) = false := by
    rw [Array.any_eq_false']
    intro n hn hk
    have he : n.entry ∈ spine z.nodes := by
      rw [Zipper.nodes, ← h.entries]
      exact List.mem_map_of_mem (Array.mem_toList_iff.2 hn)
    exact hf _ he (beq_iff_eq.1 hk)
  rw [TreeBuilder.finish, hnodes]
  rfl

theorem filled_start : Filled [leaf .root] :=
  Snapshot.filled_cons.2 ⟨by simp [Filled, spine], by simp [leaf, Snapshot.layout_eq,
    Snapshot.layoutAll, Snapshot.bare]⟩

/-- A tree is found by what is computed from it. -/
theorem exists_parseTree {α : Type} {f : Tree → α} {x : α}
    (h : (parseTree source).toOption.map f = some x) : ∃ t, parseTree source = .ok t ∧ f t = x := by
  cases hp : parseTree source with
  | error e => rw [hp] at h; cases h
  | ok t => rw [hp] at h; exact ⟨t, rfl, Option.some.inj h⟩

/-- The tree of an accepted text is that of a zipper that took the events of its derivation. -/
theorem exists_represents (h : parseTree source = .ok t) :
    ∃ a b z, Derives source a ∧ Builder.feed Zipper.start a.events = (z, none) ∧
      Represents b z ∧ b.tree = t := by
  rw [parseTree] at h
  cases hp : parse source TreeBuilder.start with
  | error e s => rw [hp] at h; cases h
  | ok _ s =>
    obtain ⟨a, ha, hfeed⟩ := Grammar.derives_of_parse hp
    obtain ⟨hr, herror⟩ := Represents.start.feed a.events
    rw [hfeed] at hr herror
    have hz : Builder.feed Zipper.start a.events =
        ((Builder.feed Zipper.start a.events).1, none) := Prod.ext rfl herror.symm
    rw [hp] at h
    have hfinish := hr.finish (Zipper.filled_all.2 a _ _ hz filled_start)
    simp only [hfinish] at h
    exact ⟨a, s.builder, _, ha, hz, hr, Except.ok.inj h⟩

/-- What a zipper takes is accepted. -/
theorem parseTree_of_feed {a : Abbreviation} (ha : Derives source a)
    (hz : Builder.feed Zipper.start a.events = (z, none)) :
    ∃ b, parseTree source = .ok b.tree ∧ Represents b z := by
  obtain ⟨hr, herror⟩ := Represents.start.feed a.events
  rw [hz] at hr herror
  obtain ⟨c, hp⟩ := Grammar.parse_of_derives ha (Prod.ext rfl herror)
  refine ⟨_, ?_, hr⟩
  rw [parseTree, hp]
  simp only [hr.finish (Zipper.filled_all.2 a _ _ hz filled_start)]
  rfl

end Shorthand
