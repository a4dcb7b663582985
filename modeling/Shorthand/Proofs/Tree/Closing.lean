import Shorthand.Proofs.Tree.Placement

/-! # Two groups side by side

A closing parenthesis closes the group of the matching opening one if and only if no group inside is
left open. The roots of `sideBySide` tell both cases apart: two groups below the root
(`root_of_closed`), or everything inside the first (`root_of_reentries`). -/

namespace Shorthand
open Shorthand.Derivation
open Snapshot (leaf Scoped openGroups)
variable {above outer : List Snapshot} {s : Snapshot} {z za zb : Zipper} {a b : Abbreviation}
  {count : Option Numeral}

/-- `(a)*count+(b)` -/
def Derivation.sideBySide (a : Abbreviation) (count : Option Numeral) (b : Abbreviation) :
    Abbreviation :=
  .joined (.group a count) .sibling (.single (.group b none))

namespace Zipper

theorem plug_nest (h : above ≠ []) (s : Snapshot) : s.plug (Snapshot.nest outer above) =
    ({ s.plug above with kind := .group } : Snapshot).plug outer := by
  induction above generalizing s with
  | nil => exact absurd rfl h
  | cons a above ih =>
    cases above with
    | nil => rfl
    | cons b above =>
      rw [Snapshot.nest_cons (List.cons_ne_nil b above)]
      exact ih (List.cons_ne_nil b above) (a.withChild s)

theorem feed_sibling (z : Zipper) (es : List Event) :
    Builder.feed z (.sibling :: es) = Builder.feed (place z.up.nodes) es :=
  Builder.feed_cons rfl es

theorem feed_second (hb : Builder.feed start b.events = (zb, none)) (above : List Snapshot) :
    Builder.feed (place above) (Abbreviation.single (.group b none)).events =
      ((zb.nest above).closeGroup, none) :=
  feed_group (feed_nested hb above)

theorem root_second (hb : Builder.feed start b.events = (zb, none)) (above : List Snapshot) :
    (zb.nest above).closeGroup.root = ({ zb.root with kind := .group } : Snapshot).plug above := by
  obtain ⟨hs, -⟩ := leaves_abbreviation hb Snapshot.scoped_root
  rw [root_closeGroup]
  exact plug_nest hs.ne_nil zb.node

theorem root_of_closed (ha : Builder.feed start a.events = (za, none))
    (hb : Builder.feed start b.events = (zb, none)) (hclosed : a.reentries = 0)
    (count : Numeral) :
    ∃ z, Builder.feed start (sideBySide a (some count) b).events = (z, none) ∧
      z.root = { leaf .root with children := [
        { leaf .group with count := count.value, children := za.root.children },
        { leaf .group with children := zb.root.children }] } := by
  have hfirst := feed_closed_group ha hclosed (some count) [leaf .root]
  rw [root_eq ha] at hfirst
  let g : Snapshot := { leaf .group with count := count.value, children := za.root.children }
  refine ⟨(zb.nest [(leaf .root).withChild g]).closeGroup, ?_, ?_⟩
  · rw [sideBySide, Abbreviation.events, start_eq, Builder.feed_append hfirst]
    exact (feed_sibling _ _).trans (feed_second hb _)
  · rw [root_second hb, root_eq hb]
    rfl

/-- With a group left open, the first closing parenthesis is taken for that group, and what follows
stays inside. -/
theorem root_of_reentries (ha : Builder.feed start a.events = (za, none))
    (hb : Builder.feed start b.events = (zb, none)) (hopen : a.reentries ≠ 0) (count : Numeral) :
    ∃ z s, Builder.feed start (sideBySide a (some count) b).events = (z, none) ∧
      z.root = { leaf .root with children := [s] } := by
  obtain ⟨hs, ho⟩ := leaves_abbreviation ha Snapshot.scoped_root
  -- There is a group to go back to, for one was entered again.
  have hopen' : 1 ≤ openGroups za.above := by
    rw [ho]
    omega
  obtain ⟨⟨hk, hs', -⟩, hnest⟩ := closeGroup_spec hs hopen'
  have hfirst : Builder.feed (place [leaf .root]) (Item.group a (some count)).events =
      ((za.nest [leaf .root]).closeGroup.recount (some count), none) :=
    feed_group (feed_nested ha [leaf .root])
  rw [hnest, recount_nest] at hfirst
  generalize hz : za.closeGroup.recount (some count) = z at hfirst
  have hsz : Scoped z.above := by rw [← hz, recount_above]; exact hs'
  obtain ⟨hup, -⟩ := scoped_nodes_up hsz
  have hsecond := feed_second hb z.up.nodes
  obtain ⟨hlast, -⟩ := leaves_abbreviation hsecond hup
  have hsecond' := nests_all.2 (.single (.group b none)) _ [leaf .root] hup
  rw [hsecond] at hsecond'
  refine ⟨(zb.nest z.up.nodes).closeGroup.nest [leaf .root], _, ?_, plug_nest hlast.ne_nil _⟩
  rw [sideBySide, Abbreviation.events, start_eq, Builder.feed_append hfirst]
  rw [← nodes_up_nest hsz.ne_nil] at hsecond'
  exact (feed_sibling _ _).trans hsecond'

end Zipper
end Shorthand
