import Shorthand.Proofs.Tree.Denotation

/-! # Runs over a derivation tree

What the events of an element, of an operator and of a group do to a zipper. Elements and counts
stay at their place (`feed_element`); an operator opens the next one (`accept_operator`). `Scoped` is
what the nodes above a place always satisfy: the root can only be the last of them, and the last is a
scope. `run_induction` puts these runs together to those of a whole derivation. -/

namespace Shorthand
open Shorthand.Derivation
open Snapshot (leaf)
variable {above : List Snapshot} {s a : Snapshot} {z : Zipper}

namespace Snapshot

/-- What the nodes above a place satisfy. -/
def Scoped : List Snapshot → Prop
  | [] => False
  | [s] => s.isScope
  | a :: b :: above => a.kind ≠ .root ∧ Scoped (b :: above)

/-- The number of groups above a place, the last node left out. -/
def openGroups : List Snapshot → Nat
  | [] => 0
  | [_] => 0
  | a :: b :: above => (if a.kind = .group then 1 else 0) + openGroups (b :: above)

theorem Scoped.ne_nil (h : Scoped above) : above ≠ [] := by
  rintro rfl
  exact h

theorem Scoped.cons (h : Scoped above) (hs : s.kind ≠ .root) : Scoped (s :: above) := by
  cases above with
  | nil => exact h.elim
  | cons a above => exact ⟨hs, h⟩

theorem openGroups_cons (h : above ≠ []) (s : Snapshot) :
    openGroups (s :: above) = (if s.kind = .group then 1 else 0) + openGroups above := by
  cases above with
  | nil => exact absurd rfl h
  | cons a above => rfl

/-- Only the kinds of the nodes matter. -/
theorem Scoped.withChild (h : Scoped (a :: above)) (s : Snapshot) :
    Scoped (a.withChild s :: above) := by
  cases above with
  | nil => exact h
  | cons b above => exact h

@[simp] theorem openGroups_withChild (a s : Snapshot) (above : List Snapshot) :
    openGroups (a.withChild s :: above) = openGroups (a :: above) := by
  cases above <;> rfl

theorem scoped_root : Scoped [leaf .root] := rfl

theorem openGroups_eq_zero (h : openGroups (a :: s :: above) = 0) :
    a.kind ≠ .group ∧ openGroups (s :: above) = 0 := by
  rw [openGroups, Nat.add_eq_zero_iff] at h
  refine ⟨fun ha => ?_, h.2⟩
  rw [if_pos ha] at h
  exact absurd h.1 Nat.one_ne_zero

theorem Scoped.tail (h : Scoped (a :: above)) (ha : ¬ a.isScope) : Scoped above := by
  cases above with
  | nil => exact absurd h ha
  | cons b above => exact h.2

end Snapshot
open Snapshot (Scoped openGroups)

namespace Zipper

theorem addAttribute_eq (hk : s.kind = .element) (hc : s.children = []) (name value : String) :
    (⟨s, above⟩ : Zipper).addAttribute name value =
      (⟨{ s with attributes := TreeBuilder.joinAttribute s.attributes name value }, above⟩,
        none) := by
  simp [addAttribute, hk, hc, change]

theorem feed_attrs (hk : s.kind = .element) (hc : s.children = []) (as : List Attr) :
    Builder.feed (⟨s, above⟩ : Zipper) (as.map Attr.event) =
      (⟨{ s with attributes := as.foldl Attr.assign s.attributes }, above⟩, none) := by
  induction as generalizing s with
  | nil => cases s; rfl
  | cons a as ih =>
    rw [List.map_cons, Builder.feed_cons (addAttribute_eq hk hc a.name a.content)]
    exact ih hk hc

theorem feed_decoration (hk : s.kind = .element) (hc : s.children = []) (d : Decoration) :
    Builder.feed (⟨s, above⟩ : Zipper) d.events =
      (⟨{ s with attributes := d.assign s.attributes }, above⟩, none) := by
  cases d with
  | id name => exact Builder.feed_cons (addAttribute_eq hk hc "id" name) []
  | className name => exact Builder.feed_cons (addAttribute_eq hk hc "class" name) []
  | attrs first others => exact feed_attrs hk hc (first :: others)

theorem feed_decorations (hk : s.kind = .element) (hc : s.children = []) (ds : List Decoration) :
    Builder.feed (⟨s, above⟩ : Zipper) (ds.flatMap Decoration.events) =
      (⟨{ s with attributes := ds.foldl Decoration.assign s.attributes }, above⟩, none) := by
  induction ds generalizing s with
  | nil => cases s; rfl
  | cons d ds ih =>
    rw [List.flatMap_cons, Builder.feed_append (feed_decoration hk hc d)]
    exact ih hk hc

theorem feed_element (e : Element) (above : List Snapshot) :
    Builder.feed (⟨leaf .inProgress, above⟩ : Zipper) e.events = (⟨e.node, above⟩, none) := by
  cases e with
  | text content =>
    show (Zipper.text _ content, none) = _
    simp [text, leaf, change, Element.node, textNode]
  | tag t =>
    obtain ⟨name, ds, x⟩ := t
    have hname : Builder.accept (⟨leaf .inProgress, above⟩ : Zipper) (.element name) =
      (⟨{ leaf .element with name }, above⟩, none) := rfl
    have hds := @feed_decorations above { leaf .element with name } rfl rfl ds
    rw [Element.events, Tag.events, List.cons_append, Builder.feed_cons hname,
      Builder.feed_append hds]
    cases x <;> rfl

/-- A count of the node at the place; without one, nothing happens. -/
def recount (z : Zipper) : Option Numeral → Zipper
  | none => z
  | some n => z.change (·.withCount n.value)

theorem feed_count (z : Zipper) (count : Option Numeral) :
    Builder.feed z (countEvents count) = (z.recount count, none) := by
  cases count <;> rfl

theorem recount_above (z : Zipper) (count : Option Numeral) : (z.recount count).above = z.above := by
  cases count <;> rfl

theorem recount_kind (z : Zipper) (count : Option Numeral) :
    (z.recount count).node.kind = z.node.kind := by
  cases count <;> rfl

theorem recount_of_count (h : s.count = 0) (count : Option Numeral) :
    (⟨s, above⟩ : Zipper).recount count = ⟨s.withCount (countValue count), above⟩ := by
  obtain ⟨kind, name, attributes, n, cs⟩ := s
  obtain rfl : n = 0 := h
  cases count <;> rfl

theorem ascend_of_isScope (ha : a.isScope) (s : Snapshot) (above : List Snapshot) (levels : Nat) :
    (⟨s, a :: above⟩ : Zipper).ascend levels = ⟨s, a :: above⟩ := by
  cases levels with
  | zero => rfl
  | succ levels => rw [ascend]; simp only [if_pos ha]

theorem ascend_of_not_isScope (ha : ¬ a.isScope) (s : Snapshot) (above : List Snapshot)
    (levels : Nat) :
    (⟨s, a :: above⟩ : Zipper).ascend (levels + 1) = (⟨a.withChild s, above⟩ : Zipper).ascend levels := by
  rw [ascend]
  simp only [if_neg ha, up]

/-- Ascending is going up as far as the scope allows. -/
theorem ascend_eq_rise (z : Zipper) (levels : Nat) : z.ascend levels = z.rise (min levels z.depth) := by
  induction levels generalizing z with
  | zero => rw [Nat.zero_min]; rfl
  | succ levels ih =>
    obtain ⟨s, above⟩ := z
    cases above with
    | nil => rw [show depth ⟨s, []⟩ = 0 from rfl, Nat.min_zero]; rfl
    | cons a above =>
      by_cases ha : a.isScope
      · have hdepth : depth ⟨s, a :: above⟩ = 0 := by simp [depth, ha]
        rw [ascend_of_isScope ha, hdepth, Nat.min_zero]
        rfl
      · have hdepth : depth ⟨s, a :: above⟩ = depth ⟨a.withChild s, above⟩ + 1 := by
          simp [depth, ha]
        rw [ascend_of_not_isScope ha, ih, hdepth, Nat.succ_min_succ]
        rfl

/-- Ascending stays below the scope, and leaves no group. -/
theorem ascend_spec (h : Scoped z.above) (levels : Nat) :
    Scoped (z.ascend levels).above ∧ openGroups (z.ascend levels).above = openGroups z.above := by
  induction levels generalizing z with
  | zero => exact ⟨h, rfl⟩
  | succ levels ih =>
    obtain ⟨s, above⟩ := z
    cases above with
    | nil => exact h.elim
    | cons a above =>
      by_cases ha : a.isScope
      · rw [ascend_of_isScope ha]
        exact ⟨h, rfl⟩
      · have htail := h.tail ha
        have hgroup : a.kind ≠ .group := fun hg => ha (by simp [Snapshot.isScope, hg])
        have hopen : openGroups (a :: above) = openGroups above := by
          rw [Snapshot.openGroups_cons htail.ne_nil, if_neg hgroup, Nat.zero_add]
        rw [ascend_of_not_isScope ha, hopen]
        exact ih htail

theorem nodes_up (h : z.above = a :: above) : z.up.nodes = a.withChild z.node :: above := by
  rw [up, h]
  rfl

theorem scoped_nodes_up (h : Scoped z.above) :
    Scoped z.up.nodes ∧ openGroups z.up.nodes = openGroups z.above := by
  cases ha : z.above with
  | nil => rw [ha] at h; exact h.elim
  | cons a above =>
    rw [Zipper.nodes_up ha]
    rw [ha] at h
    exact ⟨h.withChild _, Snapshot.openGroups_withChild _ _ _⟩

/-- An operator opens the next place, unless it asks for a child of a text. -/
theorem accept_operator (z : Zipper) (op : Operator) : Builder.accept z op.event =
    if op = .child ∧ z.node.kind = .text then (z, some .childOfText)
    else (⟨leaf .inProgress, op.next z⟩, none) := by
  cases op with
  | child =>
    show z.child = _
    rw [child]
    simp only [true_and]
    rfl
  | sibling => rfl
  | climb further =>
    show (z.climb (further + 1), none) = _
    rw [climb, ascend_eq_rise]
    rfl

theorem next_spec (h : Scoped z.above) (hn : z.node.kind ≠ .root) (op : Operator) :
    Scoped (op.next z) ∧ openGroups (op.next z) =
      openGroups z.above + if z.node.kind = .group ∧ op = .child then 1 else 0 := by
  cases op with
  | child =>
    refine ⟨h.cons hn, ?_⟩
    rw [Operator.next, nodes, Snapshot.openGroups_cons h.ne_nil, Nat.add_comm]
    simp
  | sibling => simpa [Operator.next] using scoped_nodes_up h
  | climb further =>
    obtain ⟨hs, hg⟩ := ascend_spec h (further + 1)
    obtain ⟨hs', hg'⟩ := scoped_nodes_up hs
    rw [ascend_eq_rise] at hs' hg' hg
    exact ⟨hs', by rw [Operator.next, hg', hg]; simp⟩

/-! ### Runs -/

/-- The zipper at a place that waits for a node. -/
def place (above : List Snapshot) : Zipper := ⟨leaf .inProgress, above⟩

theorem start_eq : start = place [leaf .root] := rfl

variable {e : Element} {inner rest : Abbreviation} {count : Option Numeral} {i : Item}
  {op : Operator}

theorem feed_item (e : Element) (count : Option Numeral) (above : List Snapshot) :
    Builder.feed (place above) (Item.element e count).events =
      (⟨(Item.element e count).node, above⟩, none) := by
  rw [Item.events, place, Builder.feed_append (feed_element e above), feed_count,
    recount_of_count e.node_count, Item.node]

theorem feed_openGroup (above : List Snapshot) (es : List Event) :
    Builder.feed (place above) (.openGroup :: es) =
      Builder.feed (place (leaf .group :: above)) es :=
  Builder.feed_cons rfl es

theorem feed_closeGroup (z : Zipper) (count : Option Numeral) :
    Builder.feed z (.closeGroup :: countEvents count) = (z.closeGroup.recount count, none) := by
  have haccept : Builder.accept z .closeGroup = (z.closeGroup, none) := rfl
  rw [Builder.feed_cons haccept, feed_count]

theorem feed_group (hz : Builder.feed (place (leaf .group :: above)) inner.events = (z, none)) :
    Builder.feed (place above) (Item.group inner count).events =
      (z.closeGroup.recount count, none) := by
  rw [Item.events, List.cons_append, feed_openGroup, Builder.feed_append hz, feed_closeGroup]

theorem feed_group_of_refused {cause : BuildError}
    (hz : Builder.feed (place (leaf .group :: above)) inner.events = (z, some cause)) :
    Builder.feed (place above) (Item.group inner count).events = (z, some cause) := by
  rw [Item.events, List.cons_append, feed_openGroup, Builder.feed_append_of_refused hz]

theorem feed_operator (hn : ¬ (op = .child ∧ z.node.kind = .text)) (es : List Event) :
    Builder.feed z (op.event :: es) = Builder.feed (place (op.next z)) es := by
  refine Builder.feed_cons ?_ es
  rw [accept_operator, if_neg hn]
  rfl

theorem feed_operator_of_refused (hn : op = .child ∧ z.node.kind = .text) (es : List Event) :
    Builder.feed z (op.event :: es) = (z, some .childOfText) := by
  rw [Builder.feed, accept_operator, if_pos hn]

/-- Induction over a run that starts at an open place and in which nothing is refused. -/
theorem run_induction {P : List Snapshot → Item → Zipper → Prop}
    {Q : List Snapshot → Abbreviation → Zipper → Prop}
    (element : ∀ above e count, P above (.element e count) ⟨(Item.element e count).node, above⟩)
    (group : ∀ above inner count z,
      Builder.feed (place (leaf .group :: above)) inner.events = (z, none) →
        Q (leaf .group :: above) inner z → P above (.group inner count) (z.closeGroup.recount count))
    (single : ∀ above i z, P above i z → Q above (.single i) z)
    (joined : ∀ above i op rest z z', Builder.feed (place above) i.events = (z, none) →
      P above i z → Q (op.next z) rest z' → Q above (.joined i op rest) z') :
    (∀ i above z, Builder.feed (place above) i.events = (z, none) → P above i z) ∧
    ∀ a above z, Builder.feed (place above) a.events = (z, none) → Q above a z := by
  refine induction ?_ ?_ ?_ ?_
  · intro e count above z hz
    rw [feed_item] at hz
    cases hz
    exact element above e count
  · intro inner count hinner above z' hz
    rcases hin : Builder.feed (place (leaf .group :: above)) inner.events with ⟨z, _ | cause⟩
    · rw [feed_group hin] at hz
      cases hz
      exact group above inner count z hin (hinner _ z hin)
    · rw [feed_group_of_refused hin] at hz
      cases hz
  · intro i hi above z hz
    exact single above i z (hi above z hz)
  · intro i op rest hi hrest above z' hz
    obtain ⟨z, hz, hz'⟩ := Builder.feed_append_eq_none.1 hz
    by_cases hn : op = .child ∧ z.node.kind = .text
    · rw [feed_operator_of_refused hn] at hz'
      cases hz'
    · rw [feed_operator hn] at hz'
      exact joined above i op rest z z' hz (hi above z hz) (hrest _ z' hz')

end Zipper
end Shorthand
