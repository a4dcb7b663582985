import Shorthand.Proofs.Grammar.Soundness

/-! # What is derivable is read

The leaves of a tree are read as that tree, in front of whatever cannot belong to it
(`abbreviation_complete`). Two trees with the same leaves are therefore the same
(`lexemes_injective`). -/

namespace Shorthand.Reading
open Shorthand.Derivation
variable {α γ : Type} {es : List Event} {ls rest : List Lexeme}

/-- What can stand behind an abbreviation. -/
inductive EndsAbbreviation : List Lexeme → Prop
  | nothing : EndsAbbreviation []
  | eof (ls : List Lexeme) : EndsAbbreviation (.eof :: ls)
  | closeGroup (ls : List Lexeme) : EndsAbbreviation (.mark .closeGroup :: ls)

/-- What can stand behind an item. -/
inductive EndsItem : List Lexeme → Prop
  | abbreviation {ls : List Lexeme} : EndsAbbreviation ls → EndsItem ls
  | child (ls : List Lexeme) : EndsItem (.mark .child :: ls)
  | sibling (ls : List Lexeme) : EndsItem (.mark .sibling :: ls)
  | climb (ls : List Lexeme) : EndsItem (.mark .climb :: ls)

/-- What can stand behind a tag or a text. -/
inductive EndsElement : List Lexeme → Prop
  | item {ls : List Lexeme} : EndsItem ls → EndsElement ls
  | times (ls : List Lexeme) : EndsElement (.mark .times :: ls)

theorem EndsItem.multiplication (h : EndsItem ls) : multiplication ls = done [] none ls := by
  rcases h with ⟨h⟩ | _ | _ | _
  · cases h <;> rfl
  all_goals rfl

theorem EndsAbbreviation.operator (h : EndsAbbreviation ls) : operator ls = done [] none ls := by
  cases h <;> rfl

theorem EndsElement.text (h : EndsElement ls) : text ls = done [] none ls := by
  rcases h with ⟨⟨h⟩ | _ | _ | _⟩ | _
  · cases h <;> rfl
  all_goals rfl

theorem EndsElement.decoration (h : EndsElement ls) : decoration ls = done [] none ls := by
  rcases h with ⟨⟨h⟩ | _ | _ | _⟩ | _
  · cases h <;> rfl
  all_goals rfl

theorem endsElement_countLexemes (h : EndsItem rest) (count : Option Numeral) :
    EndsElement (countLexemes count ++ rest) := by
  cases count with
  | none => exact .item h
  | some n => exact .times _

section
variable {leaves : α → List Lexeme} {events : α → List Event}
  {p : List Lexeme → Reading (Option α)}

/-- The leaves of a repetition are read one by one, if `C` holds of whatever comes behind each. -/
theorem manyAtMost_complete {C : List Lexeme → Prop}
    (hp : ∀ a rest, C rest → p (leaves a ++ rest) = done (events a) (some a) rest)
    (hC : ∀ a rest, C (leaves a ++ rest)) (hrest : C rest) (hnone : p rest = done [] none rest)
    {as : List α} {bound : Nat} (hb : as.length ≤ bound) :
    manyAtMost p bound (as.flatMap leaves ++ rest) = done (as.flatMap events) as rest := by
  induction as generalizing bound with
  | nil =>
    cases bound with
    | zero => rfl
    | succ bound => simp [manyAtMost, hnone]
  | cons a as ih =>
    cases bound with
    | zero => simp at hb
    | succ bound =>
      have hnext : C (as.flatMap leaves ++ rest) := by
        cases as with
        | nil => exact hrest
        | cons a' as => simpa using hC a' (as.flatMap leaves ++ rest)
      have h := @ih bound (by simpa using hb)
      simp [manyAtMost, hp _ _ hnext, h]

theorem length_le_length_flatMap (h : ∀ a, leaves a ≠ []) (as : List α) :
    as.length ≤ (as.flatMap leaves).length := by
  induction as with
  | nil => simp
  | cons a as ih =>
    have := List.length_pos_iff.2 (h a)
    simp only [List.length_cons, List.flatMap_cons, List.length_append]
    omega

theorem many_complete {C : List Lexeme → Prop}
    (hp : ∀ a rest, C rest → p (leaves a ++ rest) = done (events a) (some a) rest)
    (hC : ∀ a rest, C (leaves a ++ rest)) (hrest : C rest) (hnone : p rest = done [] none rest)
    (hne : ∀ a, leaves a ≠ []) (as : List α) :
    many p (as.flatMap leaves ++ rest) = done (as.flatMap events) as rest := by
  refine manyAtMost_complete hp hC hrest hnone ?_
  have := length_le_length_flatMap hne as
  rw [List.length_append]
  omega

end

theorem attrValue?_lexeme (v : Value) : attrValue? v.lexeme = some v := by cases v <;> rfl

/-- An attribute without a value may not stand in front of a `=`. -/
theorem attr_complete (a : Attr) (hrest : ∀ ls, rest ≠ .mark .equals :: ls) :
    attr (a.lexemes ++ rest) = done [a.event] (some a) rest := by
  rcases a with ⟨name, _ | v⟩
  · simp only [Attr.lexemes, List.cons_append, List.nil_append]
    rw [attr]
    intro l ls h
    exact hrest _ h
  · simp [Attr.lexemes, attr, attrValue?_lexeme]

theorem attrs_complete (as : List Attr) (ls : List Lexeme) :
    many attr (as.flatMap Attr.lexemes ++ .mark .closeAttrs :: ls) =
      done (as.map Attr.event) as (.mark .closeAttrs :: ls) := by
  rw [List.map_eq_flatMap]
  refine many_complete (C := fun rest => ∀ ls, rest ≠ .mark .equals :: ls)
    (fun a rest h => attr_complete a h) ?_ (by simp) rfl Attr.lexemes_ne_nil as
  intro a rest ls
  rcases a with ⟨name, _ | v⟩ <;> simp [Attr.lexemes]

theorem decoration_complete (d : Decoration) (rest : List Lexeme) :
    decoration (d.lexemes ++ rest) = done d.events (some d) rest := by
  cases d with
  | id name => rfl
  | className name => rfl
  | attrs first others =>
    have hbehind : ∀ ls, others.flatMap Attr.lexemes ++ .mark .closeAttrs :: rest ≠
        .mark .equals :: ls := by
      rcases others with _ | ⟨⟨name, _ | v⟩, others⟩ <;> simp [Attr.lexemes]
    have hfirst := attr_complete first hbehind
    have hlist : attrList (.mark .openAttrs :: (first.lexemes ++
        (others.flatMap Attr.lexemes ++ .mark .closeAttrs :: rest))) =
          done (Decoration.attrs first others).events (some (.attrs first others)) rest := by
      simp [attrList, attrs, hfirst, attrsFrom, attrs_complete, expect, Decoration.events]
    simp only [Decoration.lexemes, List.cons_append, List.append_assoc, List.nil_append]
    exact hlist ▸ rfl

theorem tag_complete (t : Tag) (hrest : EndsElement rest) :
    tag (t.lexemes ++ rest) = done t.events (some t) rest := by
  obtain ⟨name, ds, x⟩ := t
  have htext : text (textLexemes x ++ rest) = done (textEvents x) x rest := by
    cases x with
    | none => exact hrest.text
    | some s => rfl
  have hend : decoration (textLexemes x ++ rest) = done [] none (textLexemes x ++ rest) := by
    cases x with
    | none => exact hrest.decoration
    | some s => rfl
  have hds := many_complete (C := fun _ => True) (fun d rest _ => decoration_complete d rest)
    (fun _ _ => trivial) trivial hend Decoration.lexemes_ne_nil ds
  simp only [Tag.lexemes, List.cons_append, List.append_assoc]
  simp [tag, hds, htext, Tag.events]

theorem numeral?_word (n : Numeral) : numeral? n.word = some n :=
  dif_pos ⟨n.ne_empty, n.digits, n.value_le⟩

theorem multiplication_complete (count : Option Numeral) (hrest : EndsItem rest) :
    multiplication (countLexemes count ++ rest) = done (countEvents count) count rest := by
  cases count with
  | none => exact hrest.multiplication
  | some n =>
    simp only [countLexemes, List.cons_append, List.nil_append, multiplication, numeral,
      numeral?_word]
    rfl

theorem element_complete (e : Element) (count : Option Numeral) (hrest : EndsItem rest) :
    element ((Item.element e count).lexemes ++ rest) =
      done (Item.element e count).events (some (.element e count)) rest := by
  have hcount := multiplication_complete count hrest
  have hhead : (map .tag (tag (e.lexemes ++ (countLexemes count ++ rest)))).orElse
      (fun ls => map .text (text ls)) = done e.events (some e) (countLexemes count ++ rest) := by
    cases e with
    | tag t =>
      simp [Element.lexemes, Element.events, tag_complete t (endsElement_countLexemes hrest count),
        map, bindSome, orElse]
    | text s => rfl
  simp only [Item.lexemes, List.append_assoc]
  simp [element, hhead, bindSome, hcount, Item.events]

theorem operator_complete (op : Operator) (hrest : rest.head? ≠ some (.mark .climb)) :
    operator (op.lexemes ++ rest) = done [op.event] (some op) rest := by
  cases op with
  | child => rfl
  | sibling => rfl
  | climb further =>
    have hstop : rest.takeWhile isClimb = [] ∧ rest.dropWhile isClimb = rest := by
      cases rest with
      | nil => exact ⟨rfl, rfl⟩
      | cons l ls =>
        have hl : isClimb l = false := by simpa [isClimb] using hrest
        simp [hl]
    have hrun : ∀ l ∈ List.replicate further (Lexeme.mark .climb), isClimb l := by
      simp [isClimb]
    simp only [Operator.lexemes, List.cons_append, operator,
      List.takeWhile_append_of_pos hrun, List.dropWhile_append_of_pos hrun, hstop]
    simp [Operator.event]

/-! ### Abbreviations -/

/-- Whether a list starts with a lexeme that an abbreviation can start with. -/
def Starts (ls : List Lexeme) : Prop := ∃ l ls', ls = l :: ls' ∧ l.startsAbbreviation

theorem Starts.append (h : Starts ls) (rest : List Lexeme) : Starts (ls ++ rest) := by
  obtain ⟨l, ls', rfl, hl⟩ := h
  exact ⟨l, ls' ++ rest, rfl, hl⟩

theorem Starts.startingWith (h : Starts ls) (p : List Lexeme → Reading (Option α)) :
    startingWith Lexeme.startsAbbreviation p ls = p ls := by
  obtain ⟨l, ls', rfl, hl⟩ := h
  simp [Reading.startingWith, hl]

theorem Starts.head?_ne_climb (h : Starts ls) : ls.head? ≠ some (.mark .climb) := by
  obtain ⟨l, ls', rfl, hl⟩ := h
  rintro ⟨⟩
  simp [Lexeme.startsAbbreviation] at hl

theorem starts_item (i : Item) : Starts i.lexemes := by
  rcases i with ⟨⟨name, ds, x⟩ | s, count⟩ | ⟨inner, count⟩
  · exact ⟨.word name, _, rfl, rfl⟩
  · exact ⟨.text s, _, rfl, rfl⟩
  · exact ⟨.mark .openGroup, _, rfl, rfl⟩

theorem starts_abbreviation (a : Abbreviation) : Starts a.lexemes := by
  rcases a with i | ⟨i, op, a⟩
  · exact starts_item i
  · exact ((starts_item i).append _).append _

theorem endsItem_operator (op : Operator) (ls : List Lexeme) : EndsItem (op.lexemes ++ ls) := by
  cases op
  · exact .child _
  · exact .sibling _
  · exact .climb _

theorem element_openGroup (p : List Lexeme → Reading (Option Abbreviation)) (ls : List Lexeme)
    {i : Item} (h : group p (.mark .openGroup :: ls) = done es (some i) rest) :
    (group p (.mark .openGroup :: ls)).orElse element = done es (some i) rest := by
  rw [h]
  simp [orElse]

/-- The leaves of every tree are read as that tree, in front of what can stand behind it. -/
theorem tree_complete :
    (∀ i : Item, ∀ bound {rest}, EndsItem rest → i.lexemes.length ≤ bound + 1 →
      (group (abbreviationAtMost bound) (i.lexemes ++ rest)).orElse element =
        done i.events (some i) rest) ∧
    ∀ a : Abbreviation, ∀ bound {rest}, EndsAbbreviation rest → a.lexemes.length ≤ bound →
      abbreviationAtMost bound (a.lexemes ++ rest) = done a.events (some a) rest := by
  refine Derivation.induction ?element ?group ?single ?joined
  case element =>
    intro e count bound rest hrest _
    have hgroup : group (abbreviationAtMost bound) ((Item.element e count).lexemes ++ rest) =
        done [] none ((Item.element e count).lexemes ++ rest) := by
      rcases e with ⟨name, ds, x⟩ | s <;> rfl
    simp [hgroup, orElse, element_complete e count hrest]
  case group =>
    intro a count ih bound rest hrest hb
    simp only [Item.lexemes, List.length_cons, List.length_append] at hb
    have hinner := ih bound
      (.closeGroup (countLexemes count ++ rest)) (by omega)
    have hstarts := ((starts_abbreviation a).append
      (.mark .closeGroup :: (countLexemes count ++ rest))).startingWith (abbreviationAtMost bound)
    simp only [Item.lexemes, List.cons_append, List.append_assoc]
    apply element_openGroup
    simp [group, hstarts, hinner, groupFrom, expect, multiplication_complete count hrest,
      Item.events]
  case single =>
    intro i ih bound rest hrest hb
    obtain ⟨l, ls, hl, -⟩ := starts_item i
    cases bound with
    | zero => simp [Abbreviation.lexemes, hl] at hb
    | succ bound =>
      simp only [Abbreviation.lexemes] at hb ⊢
      simp [abbreviationAtMost, ih bound (.abbreviation hrest) hb, bindSome, hrest.operator,
        Abbreviation.events]
  case joined =>
    intro i op a ihi iha bound rest hrest hb
    obtain ⟨l, ls, hl, -⟩ := starts_item i
    cases bound with
    | zero => simp [Abbreviation.lexemes, hl] at hb
    | succ bound =>
      have hpos : 0 < i.lexemes.length := by simp [hl]
      simp only [Abbreviation.lexemes, List.length_append] at hb
      have hstarts := (starts_abbreviation a).append rest
      have hi := ihi bound (endsItem_operator op (a.lexemes ++ rest)) (by omega)
      have ha := iha bound hrest (by omega)
      -- Another `^` behind a climb would belong to it, but no item starts with one.
      have hop := operator_complete op hstarts.head?_ne_climb
      have ha' := (hstarts.startingWith (abbreviationAtMost bound)).trans ha
      simp only [Abbreviation.lexemes, List.append_assoc]
      simp [abbreviationAtMost, hi, hop, ha', bindSome, Abbreviation.events]

theorem abbreviation_complete {a : Abbreviation} {bound : Nat} (hrest : EndsAbbreviation rest)
    (hb : a.lexemes.length ≤ bound) :
    abbreviationAtMost bound (a.lexemes ++ rest) = done a.events (some a) rest :=
  tree_complete.2 a bound hrest hb

/-- A list of lexemes has at most one tree. -/
theorem lexemes_injective {a a' : Abbreviation} (h : a.lexemes = a'.lexemes) : a = a' := by
  have h₁ := abbreviation_complete (a := a) .nothing (Nat.le_refl _)
  have h₂ := abbreviation_complete (a := a') .nothing (Nat.le_refl _)
  rw [h, h₂, done_inj, Option.some.injEq] at h₁
  exact h₁.2.1.symm

end Shorthand.Reading
