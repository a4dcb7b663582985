import Shorthand.Proofs.Grammar.Errors

/-! # The order of the events

What a builder is told comes in a certain order, whether the text is accepted or not: an item begins
with a name, a text or a group, only a name may have attributes, and an operator or the end of a group
stands behind an item (`run_opening`). -/

namespace Shorthand
open Grammar Shorthand.Derivation

/-- How much of an item was told. -/
inductive Phase
  | vacant
  /-- A tag name, and perhaps attributes. -/
  | tag
  /-- A text by itself. -/
  | text (counted : Bool)
  /-- A whole element or group. -/
  | item (counted : Bool)
deriving DecidableEq

/-- A phase, and the number of groups that are open. -/
structure Progress where
  phase : Phase
  depth : Nat

namespace Progress

/-- The events that may come next. -/
inductive Step : Progress → Event → Progress → Prop
  | element {d : Nat} {name : String} (h : name ≠ "") :
    Step ⟨.vacant, d⟩ (.element name) ⟨.tag, d⟩
  | id {d : Nat} (name : String) : Step ⟨.tag, d⟩ (.id name) ⟨.tag, d⟩
  | className {d : Nat} (name : String) : Step ⟨.tag, d⟩ (.className name) ⟨.tag, d⟩
  | attribute {d : Nat} (name value : String) : Step ⟨.tag, d⟩ (.attribute name value) ⟨.tag, d⟩
  | tagText {d : Nat} (content : String) : Step ⟨.tag, d⟩ (.text content) ⟨.item false, d⟩
  | text {d : Nat} (content : String) : Step ⟨.vacant, d⟩ (.text content) ⟨.text false, d⟩
  | countTag {d n : Nat} (h : n ≤ maxCount) : Step ⟨.tag, d⟩ (.multiply n) ⟨.item true, d⟩
  | countText {d n : Nat} (h : n ≤ maxCount) :
    Step ⟨.text false, d⟩ (.multiply n) ⟨.text true, d⟩
  | countItem {d n : Nat} (h : n ≤ maxCount) :
    Step ⟨.item false, d⟩ (.multiply n) ⟨.item true, d⟩
  | operator {d : Nat} {phase : Phase} (h : phase ≠ .vacant) (op : Operator) :
    Step ⟨phase, d⟩ op.event ⟨.vacant, d⟩
  | openGroup {d : Nat} : Step ⟨.vacant, d⟩ .openGroup ⟨.vacant, d + 1⟩
  | closeGroup {d : Nat} {phase : Phase} (h : phase ≠ .vacant) :
    Step ⟨phase, d + 1⟩ .closeGroup ⟨.item false, d⟩

/-- The events can come one after the other. -/
inductive Run : Progress → List Event → Progress → Prop
  | nil {p : Progress} : Run p [] p
  | cons {p q r : Progress} {e : Event} {es : List Event} (h : Step p e q) (hr : Run q es r) :
    Run p (e :: es) r

variable {p q r : Progress} {e : Event} {es fs : List Event} {d : Nat}

theorem Step.run (h : Step p e q) : Run p [e] q := .cons h .nil

theorem Run.append (h : Run p es q) (h' : Run q fs r) : Run p (es ++ fs) r := by
  induction h with
  | nil => exact h'
  | cons hs _ ih => exact .cons hs (ih h')

theorem Run.of_append (h : Run p (es ++ fs) r) : ∃ q, Run p es q ∧ Run q fs r := by
  induction es generalizing p with
  | nil => exact ⟨p, .nil, h⟩
  | cons e es ih =>
    cases h with
    | cons hs hr =>
      obtain ⟨q, hq, hr⟩ := ih hr
      exact ⟨q, .cons hs hq, hr⟩

theorem Run.step (h : Run p [e] q) : Step p e q := by
  cases h with
  | cons hs hr =>
    cases hr
    exact hs

/-- The events of an item, or of several, lead from an open place to a whole item. -/
def Tells (es : List Event) : Prop :=
  ∀ d, ∃ phase, phase ≠ .vacant ∧ Run ⟨.vacant, d⟩ es ⟨phase, d⟩

theorem run_decoration (x : Decoration) : Run ⟨.tag, d⟩ x.events ⟨.tag, d⟩ := by
  have hattrs (as : List Attr) : Run ⟨.tag, d⟩ (as.map Attr.event) ⟨.tag, d⟩ := by
    induction as with
    | nil => exact .nil
    | cons a as ih => exact .cons (.attribute _ _) ih
  cases x with
  | id name => exact (Step.id name).run
  | className name => exact (Step.className name).run
  | attrs first others => exact hattrs (first :: others)

theorem run_decorations (xs : List Decoration) :
    Run ⟨.tag, d⟩ (xs.flatMap Decoration.events) ⟨.tag, d⟩ := by
  induction xs with
  | nil => exact .nil
  | cons x xs ih => exact (run_decoration x).append ih

theorem tells_element (e : Element) (count : Option Numeral) (he : ∀ l ∈ e.lexemes, l.isWritable) :
    Tells (e.events ++ countEvents count) := by
  intro d
  cases e with
  | text content =>
    have htext := (Step.text (d := d) content).run
    cases count with
    | none => exact ⟨.text false, by decide, htext⟩
    | some n => exact ⟨.text true, by decide, htext.append (Step.countText n.value_le).run⟩
  | tag t =>
    obtain ⟨name, xs, x⟩ := t
    have hname : name ≠ "" := by
      rintro rfl
      have := he (.word "") (by simp [Element.lexemes, Tag.lexemes])
      simp [Lexeme.isWritable] at this
    have htag : Run ⟨.vacant, d⟩ (.element name :: xs.flatMap Decoration.events) ⟨.tag, d⟩ :=
      .cons (.element hname) (run_decorations xs)
    cases x with
    | none =>
      rw [Element.events, Tag.events, textEvents, Option.map_none, Option.toList_none,
        List.append_nil]
      cases count with
      | none =>
        rw [countEvents, Option.map_none, Option.toList_none, List.append_nil]
        exact ⟨.tag, by decide, htag⟩
      | some n => exact ⟨.item true, by decide, htag.append (Step.countTag n.value_le).run⟩
    | some content =>
      have htext := htag.append (Step.tagText content).run
      cases count with
      | none =>
        rw [countEvents, Option.map_none, Option.toList_none, List.append_nil]
        exact ⟨.item false, by decide, htext⟩
      | some n => exact ⟨.item true, by decide, htext.append (Step.countItem n.value_le).run⟩

theorem tells_group {es : List Event} (h : Tells es) (count : Option Numeral) :
    Tells (.openGroup :: es ++ .closeGroup :: countEvents count) := by
  intro d
  obtain ⟨phase, hphase, hr⟩ := h (d + 1)
  have hgroup : Run ⟨.vacant, d⟩ (.openGroup :: es ++ [.closeGroup]) ⟨.item false, d⟩ :=
    Run.cons .openGroup (hr.append (Step.closeGroup hphase).run)
  cases count with
  | none => exact ⟨.item false, nofun, hgroup⟩
  | some n =>
    have hcount := hgroup.append (Step.countItem n.value_le).run
    rw [List.append_assoc] at hcount
    exact ⟨.item true, nofun, hcount⟩

theorem tells_all : (∀ i : Item, (∀ l ∈ i.lexemes, l.isWritable) → Tells i.events) ∧
    ∀ a : Abbreviation, (∀ l ∈ a.lexemes, l.isWritable) → Tells a.events := by
  refine Derivation.induction ?element ?group ?single ?joined
  case element =>
    intro e count h
    exact tells_element e count fun l hl => h l (List.mem_append_left _ hl)
  case group =>
    intro inner count ih h
    refine tells_group (ih fun l hl => h l ?_) count
    simp [Item.lexemes, hl]
  case single =>
    intro i ih h
    exact ih h
  case joined =>
    intro i op rest ihi ihr h d
    simp only [Abbreviation.lexemes, List.mem_append] at h
    obtain ⟨phase, hphase, hi⟩ := ihi (fun l hl => h l (.inl (.inl hl))) d
    obtain ⟨phase', hphase', hr⟩ := ihr (fun l hl => h l (.inr hl)) d
    exact ⟨phase', hphase', hi.append (.cons (.operator hphase op) hr)⟩

/-- Where every reading begins: a node may come, and no group is open. -/
def start : Progress := ⟨.vacant, 0⟩

/-- What a text says comes in order, as far as it is read. -/
theorem run_opening (source : String) : ∃ p, Run start (opening source).events p := by
  obtain ⟨before, t, after, h⟩ := exists_stops source
  obtain ⟨-, a, ha⟩ := h.read
  obtain ⟨es, hes⟩ := ha.events
  obtain ⟨phase, -, hr⟩ := tells_all.2 a (h.writable ha) 0
  rw [← hes] at hr
  obtain ⟨p, hp, -⟩ := hr.of_append
  exact ⟨p, hp⟩

end Progress
end Shorthand
