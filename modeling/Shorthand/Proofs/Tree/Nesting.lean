import Shorthand.Proofs.Tree.Runs

/-! # Groups as scopes of their own

What happens between two parentheses is what would happen in a fresh scope, with that scope's root as
a group and the nodes around the group above it (`nests_all`). Closing the group finds it only if no
other group is left open inside (`closeGroup_of_closed`) and stays inside otherwise
(`closeGroup_spec`). The groups left open are those that `reentries` counts (`leaves_all`). -/

namespace Shorthand
open Shorthand.Derivation
open Snapshot (leaf Scoped openGroups)
variable {above outer : List Snapshot} {s a b : Snapshot} {z : Zipper}

namespace Snapshot

/-- Makes the last of the nodes a group below `outer`. -/
def nest (outer : List Snapshot) : List Snapshot → List Snapshot
  | [] => outer
  | [s] => { s with kind := .group } :: outer
  | a :: b :: above => a :: nest outer (b :: above)

theorem nest_cons (h : above ≠ []) (s : Snapshot) :
    nest outer (s :: above) = s :: nest outer above := by
  cases above with
  | nil => exact absurd rfl h
  | cons a above => rfl

theorem nest_withChild (a s : Snapshot) (above : List Snapshot) :
    ∃ a', nest outer (a :: above) = a' :: (nest outer (a :: above)).tail ∧
      nest outer (a.withChild s :: above) = a'.withChild s :: (nest outer (a :: above)).tail := by
  cases above with
  | nil => exact ⟨{ a with kind := .group }, rfl, rfl⟩
  | cons b above => exact ⟨a, rfl, rfl⟩

end Snapshot
open Snapshot (nest nest_cons)

namespace Zipper

def nest (outer : List Snapshot) (z : Zipper) : Zipper := ⟨z.node, Snapshot.nest outer z.above⟩

theorem nodes_up_nest (h : z.above ≠ []) :
    (z.nest outer).up.nodes = Snapshot.nest outer z.up.nodes := by
  obtain ⟨s, above⟩ := z
  cases above with
  | nil => exact absurd rfl h
  | cons a above =>
    obtain ⟨a', ha, hup⟩ := @Snapshot.nest_withChild outer a s above
    rw [nodes_up (z := ⟨s, a :: above⟩) rfl, hup]
    exact nodes_up ha

theorem ascend_nest (h : Scoped z.above) (levels : Nat) :
    (z.nest outer).ascend levels = (z.ascend levels).nest outer := by
  induction levels generalizing z with
  | zero => rfl
  | succ levels ih =>
    obtain ⟨s, above⟩ := z
    match above, h with
    | [a], h => rw [ascend_of_isScope h]; rfl
    | a :: b :: above, h =>
      by_cases ha : a.isScope
      · rw [ascend_of_isScope ha]
        exact ascend_of_isScope ha _ _ _
      · rw [ascend_of_not_isScope ha, ← ih h.2]
        exact ascend_of_not_isScope ha _ _ _

theorem next_nest (h : Scoped z.above) (op : Operator) :
    op.next (z.nest outer) = Snapshot.nest outer (op.next z) := by
  cases op with
  | child => exact (nest_cons h.ne_nil z.node).symm
  | sibling => exact nodes_up_nest h.ne_nil
  | climb further =>
    rw [Operator.next, Operator.next, ← ascend_eq_rise, ← ascend_eq_rise, ascend_nest h]
    exact nodes_up_nest (ascend_spec h _).1.ne_nil

/-! ### Closing a group -/

theorem toGroup_of_group (hs : s.kind = .group) (above : List Snapshot) :
    toGroup s above = ⟨s, above⟩ := by
  cases above with
  | nil => rfl
  | cons a above => rw [toGroup, if_pos (.inl hs)]

theorem toGroup_cons (hs : s.kind ≠ .group) (ha : a.kind ≠ .root) (above : List Snapshot) :
    toGroup s (a :: above) = toGroup (a.withChild s) above := by
  rw [toGroup, if_neg (not_or.2 ⟨hs, ha⟩)]

/-- Where a group is open, it is found, and nothing around is seen. -/
theorem toGroup_spec (h : Scoped above) (hopen : 1 ≤ openGroups (s :: above)) :
    let z := toGroup s above
    (z.node.kind = .group ∧ Scoped z.above ∧ openGroups z.above + 1 = openGroups (s :: above)) ∧
      ∀ outer, toGroup s (Snapshot.nest outer above) = z.nest outer := by
  induction above generalizing s with
  | nil => exact h.elim
  | cons a above ih =>
    rw [Snapshot.openGroups_cons (by simp)] at hopen ⊢
    by_cases hs : s.kind = .group
    · rw [toGroup_of_group hs]
      refine ⟨⟨hs, h, ?_⟩, fun outer => toGroup_of_group hs _⟩
      rw [if_pos hs, Nat.add_comm]
    · rw [if_neg hs, Nat.zero_add] at hopen ⊢
      cases above with
      | nil => exact absurd hopen (Nat.not_succ_le_zero 0)
      | cons b above =>
        have hrest := ih (s := a.withChild s) h.2 (by simpa using hopen)
        rw [toGroup_cons hs h.1]
        simp only [Snapshot.openGroups_withChild] at hrest
        refine ⟨hrest.1, fun outer => ?_⟩
        rw [nest_cons (by simp), toGroup_cons hs h.1]
        exact hrest.2 outer

theorem stepOut_of_not_root (h : z.above = a :: above) (ha : a.kind ≠ .root) :
    z.stepOut = ⟨a.withChild z.node, above⟩ := by
  rw [stepOut, h]
  simp only [if_neg ha, up, h]

/-- Where a group is open, it is closed, and nothing around is seen. -/
theorem closeGroup_spec (h : Scoped z.above) (hopen : 1 ≤ openGroups z.above) :
    let z' := z.closeGroup
    (z'.node.kind = .group ∧ Scoped z'.above ∧ openGroups z'.above + 1 = openGroups z.above) ∧
      ∀ outer, (z.nest outer).closeGroup = z'.nest outer := by
  obtain ⟨s, above⟩ := z
  match above, h with
  | [a], h => exact absurd hopen (Nat.not_succ_le_zero 0)
  | a :: b :: above, h =>
    have hspec := toGroup_spec (s := a.withChild s) h.2 (by simpa using hopen)
    rw [closeGroup, stepOut_of_not_root rfl h.1]
    simp only [Snapshot.openGroups_withChild] at hspec
    refine ⟨hspec.1, fun outer => ?_⟩
    rw [closeGroup, stepOut_of_not_root (z := nest outer _) rfl h.1]
    exact hspec.2 outer

theorem toGroup_of_closed (h : Scoped above) (hs : s.kind ≠ .group) (hopen : openGroups above = 0)
    (outer : List Snapshot) :
    toGroup s (Snapshot.nest outer above) = ⟨{ s.plug above with kind := .group }, outer⟩ := by
  induction above generalizing s with
  | nil => exact h.elim
  | cons a above ih =>
    cases above with
    | nil =>
      rw [Snapshot.nest, toGroup_cons hs (by simp), toGroup_of_group rfl]
      rfl
    | cons b above =>
      obtain ⟨ha, hopen⟩ := Snapshot.openGroups_eq_zero hopen
      rw [nest_cons (by simp), toGroup_cons hs h.1]
      exact ih h.2 ha hopen

/-- Where no group is open, the one around is closed. -/
theorem closeGroup_of_closed (h : Scoped z.above) (hopen : openGroups z.above = 0)
    (outer : List Snapshot) :
    (z.nest outer).closeGroup = ⟨{ z.root with kind := .group }, outer⟩ := by
  obtain ⟨s, above⟩ := z
  match above, h with
  | [a], h =>
    rw [closeGroup, stepOut_of_not_root (z := nest outer _) rfl (by simp), toGroup_of_group rfl]
    rfl
  | a :: b :: above, h =>
    obtain ⟨ha, hopen⟩ := Snapshot.openGroups_eq_zero hopen
    rw [closeGroup, stepOut_of_not_root (z := nest outer _) rfl h.1]
    exact toGroup_of_closed (s := a.withChild s) h.2 ha hopen outer

/-! ### Runs -/

variable {inner : Abbreviation} {count : Option Numeral}

/-- Where a run leads to: the groups above are those of the place where it started, and `reentries`
more. -/
structure Leaves (above : List Snapshot) (reentries : Nat) (z : Zipper) : Prop where
  inScope : Scoped z.above
  groups : openGroups z.above = openGroups above + reentries

theorem closeGroup_of_leaves (h : Scoped above)
    (hz : Scoped (leaf .group :: above) → Leaves (leaf .group :: above) inner.reentries z) :
    (Leaves above inner.reentries z.closeGroup ∧ z.closeGroup.node.kind = .group) ∧
      ∀ outer, (z.nest outer).closeGroup = z.closeGroup.nest outer := by
  obtain ⟨hs, ho⟩ := hz (h.cons nofun)
  rw [Snapshot.openGroups_cons h.ne_nil, if_pos (show (leaf .group).kind = .group from rfl)] at ho
  obtain ⟨⟨hk, hs', ho'⟩, hnest⟩ := closeGroup_spec hs (by omega)
  exact ⟨⟨⟨hs', by omega⟩, hk⟩, hnest⟩

theorem leaves_all :
    (∀ i above z, Builder.feed (place above) (Item.events i) = (z, none) → Scoped above →
      Leaves above i.reentries z ∧ z.node.kind ≠ .root ∧ (z.node.kind = .group ↔ i.isGroup)) ∧
    ∀ a above z, Builder.feed (place above) (Abbreviation.events a) = (z, none) → Scoped above →
      Leaves above a.reentries z := by
  refine run_induction ?_ ?_ ?_ ?_
  · intro above e count h
    exact ⟨⟨h, rfl⟩, by cases e <;> exact ⟨nofun, nofun, nofun⟩⟩
  · intro above inner count z _ hinner h
    obtain ⟨⟨⟨hs, ho⟩, hk⟩, -⟩ := closeGroup_of_leaves h hinner
    refine ⟨⟨by rwa [recount_above], by rwa [recount_above]⟩, ?_⟩
    rw [recount_kind, hk]
    exact ⟨nofun, fun _ => rfl, fun _ => rfl⟩
  · intro above i z hi h
    exact (hi h).1
  · intro above i op rest z z' _ hi hrest h
    obtain ⟨⟨hs, ho⟩, hroot, hgroup⟩ := hi h
    obtain ⟨hs', ho'⟩ := next_spec hs hroot op
    obtain ⟨hs'', ho''⟩ := hrest hs'
    simp only [hgroup] at ho'
    exact ⟨hs'', by rw [ho'', ho', ho, Abbreviation.reentries]; omega⟩

theorem leaves_abbreviation {a : Abbreviation}
    (hz : Builder.feed (place above) a.events = (z, none)) (h : Scoped above) :
    Leaves above a.reentries z :=
  leaves_all.2 a above z hz h

/-- The last item of a group left, and the group with it. -/
theorem closeGroup_of_feed (h : Scoped above)
    (hz : Builder.feed (place (leaf .group :: above)) inner.events = (z, none)) :
    (Leaves above inner.reentries z.closeGroup ∧ z.closeGroup.node.kind = .group) ∧
      ∀ outer, (z.nest outer).closeGroup = z.closeGroup.nest outer :=
  closeGroup_of_leaves h (leaves_abbreviation hz)

theorem recount_nest (z : Zipper) (count : Option Numeral) :
    (z.nest outer).recount count = (z.recount count).nest outer := by
  cases count <;> rfl

/-- What is around the scope of an open place is neither seen nor changed. -/
def Nests (es : List Event) : Prop := ∀ above outer, Scoped above →
  Builder.feed (place (Snapshot.nest outer above)) es =
    ((Builder.feed (place above) es).1.nest outer, (Builder.feed (place above) es).2)

theorem nests_group (hi : Nests inner.events) : Nests (Item.group inner count).events := by
  intro above outer h
  have hin' := hi (leaf .group :: above) outer (h.cons nofun)
  rw [nest_cons h.ne_nil] at hin'
  rcases hin : Builder.feed (place (leaf .group :: above)) inner.events with ⟨z, _ | cause⟩ <;>
    rw [hin] at hin'
  · rw [feed_group hin, feed_group hin', (closeGroup_of_feed h hin).2, recount_nest]
  · rw [feed_group_of_refused hin, feed_group_of_refused hin']

theorem nests_joined {i : Item} {op : Operator} {rest : Abbreviation} (hi : Nests i.events)
    (hr : Nests rest.events) : Nests (Abbreviation.joined i op rest).events := by
  intro above outer h
  rw [Abbreviation.events]
  have hi' := hi above outer h
  rcases hz : Builder.feed (place above) i.events with ⟨z, _ | cause⟩ <;> rw [hz] at hi'
  · obtain ⟨⟨hs, -⟩, hroot, -⟩ := leaves_all.1 i above z hz h
    rw [Builder.feed_append hz, Builder.feed_append hi']
    by_cases hn : op = .child ∧ z.node.kind = .text
    · rw [feed_operator_of_refused hn, feed_operator_of_refused (z := z.nest outer) hn]
    · rw [feed_operator hn, feed_operator (z := z.nest outer) hn, next_nest hs]
      exact hr _ outer (next_spec hs hroot op).1
  · rw [Builder.feed_append_of_refused hz, Builder.feed_append_of_refused hi']

theorem nests_all : (∀ i : Item, Nests i.events) ∧ ∀ a : Abbreviation, Nests a.events := by
  refine induction ?_ ?_ ?_ ?_
  · intro e count above outer _
    rw [feed_item, feed_item]
    rfl
  · intro inner count hi
    exact nests_group hi
  · intro i hi
    exact hi
  · intro i op rest hi hr
    exact nests_joined hi hr

theorem feed_nested (hz : Builder.feed start inner.events = (z, none)) (above : List Snapshot) :
    Builder.feed (place (leaf .group :: above)) inner.events = (z.nest above, none) := by
  have hnest := nests_all.2 inner [leaf .root] above Snapshot.scoped_root
  rw [← start_eq, hz] at hnest
  exact hnest

/-- Nothing that is refused in a group is taken in a scope of its own. -/
theorem exists_feed_start (hz : Builder.feed (place (leaf .group :: above)) inner.events = (z, none)) :
    ∃ z', Builder.feed start inner.events = (z', none) := by
  have hnest := nests_all.2 inner [leaf .root] above Snapshot.scoped_root
  have hnone : (Builder.feed start inner.events).2 = none := by
    simpa [start_eq] using congrArg Prod.snd (hnest.symm.trans hz)
  exact ⟨_, Prod.ext rfl hnone⟩

/-- What is built of a group in which no group is left open: what is built of its inside in a fresh
scope. -/
theorem feed_closed_group (hz : Builder.feed start inner.events = (z, none))
    (hclosed : inner.reentries = 0) (count : Option Numeral) (above : List Snapshot) :
    Builder.feed (place above) (Item.group inner count).events =
      ((⟨{ z.root with kind := .group }, above⟩ : Zipper).recount count, none) := by
  obtain ⟨hs, ho⟩ := leaves_abbreviation hz Snapshot.scoped_root
  have hopen : openGroups z.above = 0 := by rw [ho, hclosed]; rfl
  rw [feed_group (feed_nested hz above), closeGroup_of_closed hs hopen]

end Zipper
end Shorthand
