import Shorthand.Proofs.Tree.Finished

/-! # Operators place nodes as the derivation says

Where no group inside another is entered again, the place of every item is the one that the
derivation denotes (`eq_settle`), and so is the whole tree (`ofTree_of_parseTree`). -/

namespace Shorthand
open Shorthand.Derivation
open Snapshot (leaf Scoped)
variable {above : List Snapshot} {s s' : Snapshot} {z : Zipper} {source : String} {t : Tree}

namespace Snapshot

theorem bare_withChild (a s : Snapshot) : (a.withChild s).bare = a.bare := rfl

/-- What is below the nodes of a path does not change the outermost of them. -/
theorem bare_plug (h : s.bare = s'.bare) (above : List Snapshot) :
    (s.plug above).bare = (s'.plug above).bare := by
  induction above generalizing s s' with
  | nil => exact h
  | cons a above ih => exact ih ((bare_withChild a s).trans (bare_withChild a s').symm)

theorem bare_plug_of_ne_nil (h : above ≠ []) (s s' : Snapshot) :
    (s.plug above).bare = (s'.plug above).bare := by
  cases above with
  | nil => exact absurd rfl h
  | cons a above =>
    exact bare_plug ((bare_withChild a s).trans (bare_withChild a s').symm) above

theorem eq_of_bare {kind : NodeKind} (h : s.bare = leaf kind) :
    s = { leaf kind with children := s.children } := by
  rw [← h]
  cases s
  rfl

end Snapshot

namespace Zipper

theorem root_up (z : Zipper) : z.up.root = z.root := by
  obtain ⟨s, above⟩ := z
  cases above <;> rfl

theorem root_rise (z : Zipper) (levels : Nat) : (z.rise levels).root = z.root := by
  induction levels generalizing z with
  | zero => rfl
  | succ levels ih => rw [rise, ih, root_up]

theorem bare_plug_nodes (s : Snapshot) (z : Zipper) : (s.plug z.nodes).bare = z.root.bare :=
  Snapshot.bare_plug (Snapshot.bare_withChild z.node s) z.above

theorem bare_plug_next (s : Snapshot) (z : Zipper) (op : Operator) :
    (s.plug (op.next z)).bare = z.root.bare := by
  cases op with
  | child => exact bare_plug_nodes s z
  | sibling => rw [Operator.next, bare_plug_nodes, root_up]
  | climb further => rw [Operator.next, bare_plug_nodes, root_up, root_rise]

theorem root_stepOut (z : Zipper) : z.stepOut.root = z.root := by
  rw [stepOut]
  split
  · rfl
  · split
    · rfl
    · exact root_up z

theorem root_toGroup (s : Snapshot) (above : List Snapshot) :
    (toGroup s above).root = s.plug above := by
  induction above generalizing s with
  | nil => rfl
  | cons a above ih =>
    rw [toGroup]
    split
    · rfl
    · exact ih (a.withChild s)

theorem root_closeGroup (z : Zipper) : z.closeGroup.root = z.root := by
  rw [closeGroup, root_toGroup, ← root_stepOut]
  rfl

theorem bare_root_recount (h : z.above ≠ []) (count : Option Numeral) :
    (z.recount count).root.bare = z.root.bare := by
  rw [root, recount_above]
  exact Snapshot.bare_plug_of_ne_nil h _ _

/-- No event changes the outermost node itself. -/
theorem bare_root_all :
    (∀ i above z, Builder.feed (place above) (Item.events i) = (z, none) → Scoped above →
      ∀ s : Snapshot, z.root.bare = (s.plug above).bare) ∧
    ∀ a above z, Builder.feed (place above) (Abbreviation.events a) = (z, none) → Scoped above →
      ∀ s : Snapshot, z.root.bare = (s.plug above).bare := by
  refine run_induction ?_ ?_ ?_ ?_
  · intro above e count h s
    exact Snapshot.bare_plug_of_ne_nil h.ne_nil _ _
  · intro above inner count z hz hinner h s
    obtain ⟨⟨⟨hs, -⟩, -⟩, -⟩ := closeGroup_of_feed h hz
    rw [bare_root_recount hs.ne_nil, root_closeGroup, hinner (h.cons nofun) s]
    exact Snapshot.bare_plug_of_ne_nil h.ne_nil _ _
  · intro above i z hi
    exact hi
  · intro above i op rest z z' hz hi hrest h s
    obtain ⟨⟨hs, -⟩, hroot, -⟩ := leaves_all.1 i above z hz h
    rw [hrest (next_spec hs hroot op).1 s, bare_plug_next, hi h s]

/-- What is built in a scope of its own is a root and what is below it. -/
theorem root_eq {a : Abbreviation} (hz : Builder.feed start a.events = (z, none)) :
    z.root = { leaf .root with children := z.root.children } :=
  Snapshot.eq_of_bare (bare_root_all.2 a _ _ hz Snapshot.scoped_root (leaf .root))

end Zipper

namespace Zipper

/-- The events of an item fill the open place with its node, and what follows an operator goes where
the derivation says. -/
theorem eq_settle :
    (∀ i : Item, ∀ above z, i.reentries = 0 →
      Builder.feed (place above) i.events = (z, none) → z = ⟨i.node, above⟩) ∧
    ∀ a : Abbreviation, ∀ above z, a.innerReentries = 0 →
      Builder.feed (place above) a.events = (z, none) → z = a.settle above := by
  refine induction ?_ ?_ ?_ ?_
  · intro e count above z _ hz
    rw [feed_item] at hz
    cases hz
    rfl
  · intro inner count hi above z hclosed hz
    have hinner : inner.innerReentries = 0 := by
      have hle := inner.innerReentries_le
      rw [Item.reentries] at hclosed
      omega
    rw [Item.events, List.cons_append, feed_openGroup] at hz
    obtain ⟨z', hz', -⟩ := Builder.feed_append_eq_none.1 hz
    obtain ⟨zin, hin⟩ := exists_feed_start hz'
    have hroot : zin.root = { leaf .root with children := inner.forest } := by
      rw [root_eq hin, hi [leaf .root] zin hinner hin]
      rfl
    have hgroup := feed_closed_group hin hclosed count above
    rw [Item.events, List.cons_append, feed_openGroup, hz, hroot, recount_of_count rfl] at hgroup
    cases hgroup
    rfl
  · intro i hi above z hclosed hz
    exact hi above z hclosed hz
  · intro i op rest hi hr above z' hclosed hz
    rw [Abbreviation.innerReentries] at hclosed
    obtain ⟨z, hz, hz'⟩ := Builder.feed_append_eq_none.1 hz
    obtain rfl := hi above z (by omega) hz
    -- A refused operator would have ended the events.
    by_cases hn : op = .child ∧ i.node.kind = .text
    · rw [feed_operator_of_refused hn] at hz'
      cases hz'
    · rw [feed_operator hn] at hz'
      exact hr _ z' (by omega) hz'

end Zipper

/-- The tree of an accepted text is what its derivation denotes, if no group inside another is
directly followed by `>`. -/
theorem ofTree_of_parseTree (h : parseTree source = .ok t) :
    (∃ a, Derives source a) ∧ ∀ a, Derives source a → a.innerReentries = 0 →
      Snapshot.ofTree t = { leaf .root with children := a.forest } := by
  obtain ⟨a, b, z, ha, hz, hb, rfl⟩ := exists_represents h
  refine ⟨⟨a, ha⟩, fun a' ha' hclosed => ?_⟩
  obtain rfl := ha.unique ha'
  rw [hb.ofTree, Zipper.root_eq hz, Zipper.eq_settle.2 a _ z hclosed hz]
  rfl

/-- The climb inside the group ends at the group, and so does the one behind it, since the group is
entered again. -/
theorem ofTree_of_climbs : ∃ t, parseTree "ul>(li>b{x}^^i)*2>a^p" = .ok t ∧
    Snapshot.ofTree t = { leaf .root with children := [
      { leaf .element with name := "ul", children := [
        { leaf .group with count := 2, children := [
          { leaf .element with name := "li", children := [
            { leaf .element with name := "b", children := [textNode "x"] }] },
          { leaf .element with name := "i" },
          { leaf .element with name := "a" },
          { leaf .element with name := "p" }] }] }] } := by
  have hparse : (parseTree "ul>(li>b{x}^^i)*2>a^p").toOption.map (fun _ => ()) = some () := by
    decide +kernel
  let plain (name : String) : Item := .element (.tag ⟨name, [], none⟩) none
  let inner : Abbreviation := .joined (plain "li") .child <|
    .joined (.element (.tag ⟨"b", [], some "x"⟩) none) (.climb 1) <| .single (plain "i")
  let a : Abbreviation := .joined (plain "ul") .child <|
    .joined (.group inner (some ⟨"2", by decide, by decide, by decide⟩)) .child <|
    .joined (plain "a") (.climb 0) <| .single (plain "p")
  have hderives : Derives "ul>(li>b{x}^^i)*2>a^p" a := by decide +kernel
  obtain ⟨t, h, -⟩ := exists_parseTree hparse
  refine ⟨t, h, ?_⟩
  rw [(ofTree_of_parseTree h).2 a hderives rfl]
  decide +kernel

end Shorthand
