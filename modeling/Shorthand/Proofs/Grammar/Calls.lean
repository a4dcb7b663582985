import Shorthand.Proofs.Grammar.Interruption
import Shorthand.Proofs.Grammar.Retreats
import Shorthand.Proofs.Tree.Making

/-! # How often a builder is called

A reading consumes a lexeme for every event that it reports, and it does not consume the final one
(`Reading.Frugal`). A builder is called at most once for every event, and so the tokens in front of
the first final one pay for all the calls, whether the text is accepted or not (`calls_le`). -/

namespace Shorthand

namespace Reading
open Shorthand.Derivation
variable {α γ : Type} {ls : List Lexeme} {l : Lexeme} {r : Reading α}

/-- For every event a lexeme was consumed, also in front of a fault. -/
def PaidBy (r : Reading α) (ls : List Lexeme) : Prop :=
  r.events.length + r.ahead.length ≤ ls.length

theorem paid_done {es : List Event} (a : α) (us : List Lexeme) (h : es.length ≤ us.length) :
    (done es a ls).PaidBy (us ++ ls) := by
  rw [PaidBy, List.length_append]
  exact Nat.add_le_add_right h _

theorem paid_fault (f : Fault) : (fault f ls : Reading α).PaidBy ls := Nat.le_of_eq (Nat.zero_add _)

theorem PaidBy.cons (h : r.PaidBy ls) (l : Lexeme) : r.PaidBy (l :: ls) := Nat.le_succ_of_le h

theorem PaidBy.report (h : r.PaidBy ls) (e : Event) (l : Lexeme) :
    (Reading.report e r).PaidBy (l :: ls) := by
  have hpaid : (r.events.length + 1) + r.ahead.length ≤ ls.length + 1 := by
    unfold PaidBy at h
    omega
  exact hpaid

/-- Whatever it reads, `p` consumes a lexeme for every event. -/
def Frugal (p : List Lexeme → Reading α) : Prop := ∀ ls, (p ls).PaidBy ls

namespace Frugal
variable {p q : List Lexeme → Reading (Option α)}

theorem done (a : α) : Frugal fun ls => .done [] a ls := fun _ => paid_done a [] (Nat.le_refl 0)

theorem bind {p : List Lexeme → Reading α} {q : α → List Lexeme → Reading γ} (hp : Frugal p)
    (hq : ∀ a, Frugal (q a)) : Frugal fun ls => (p ls).bind q := by
  intro ls
  have hpaid := hp ls
  show ((p ls).bind q).PaidBy ls
  generalize p ls = r at hpaid
  obtain ⟨es, ⟨f, rest⟩ | ⟨a, rest⟩⟩ := r
  · exact hpaid
  · have hrest := hq a rest
    unfold PaidBy at *
    show (es ++ (q a rest).events).length + (q a rest).ahead.length ≤ ls.length
    have hes : es.length + rest.length ≤ ls.length := hpaid
    rw [List.length_append]
    omega

theorem orElse (hp : Frugal p) (hq : Frugal q) : Frugal fun ls => (p ls).orElse q := by
  refine hp.bind fun x => ?_
  cases x with
  | none => exact hq
  | some a => exact done (some a)

theorem bindSome {next : α → List Lexeme → Reading (Option γ)} (hp : Frugal p)
    (hnext : ∀ a, Frugal (next a)) : Frugal fun ls => (p ls).bindSome next := by
  refine hp.bind fun x => ?_
  cases x with
  | none => exact done none
  | some a => exact hnext a

theorem map (hp : Frugal p) (f : α → γ) : Frugal fun ls => (p ls).map f :=
  hp.bindSome fun a => done (some (f a))

theorem startingWith (test : Lexeme → Bool) (hp : Frugal p) :
    Frugal (Reading.startingWith test p) := by
  intro ls
  cases ls with
  | nil => exact done none []
  | cons l ls =>
    rw [Reading.startingWith]
    split
    · exact hp (l :: ls)
    · exact done none (l :: ls)

theorem manyAtMost (hp : Frugal p) (bound : Nat) : Frugal (Reading.manyAtMost p bound) := by
  induction bound with
  | zero => exact done []
  | succ bound ih =>
    refine hp.bind fun x => ?_
    cases x with
    | none => exact done []
    | some a => exact ih.bind fun as => done (a :: as)

theorem many (hp : Frugal p) : Frugal (Reading.many p) := fun ls => hp.manyAtMost ls.length ls

end Frugal

theorem frugal_expect (m : Mark) (f : Fault) : Frugal (expect m f) := by
  intro ls
  cases ls with
  | nil => exact paid_fault f
  | cons l ls =>
    rw [expect]
    split
    · exact (Frugal.done () ls).cons l
    · exact paid_fault f

theorem frugal_named (m : Mark) (f : Fault) {d : String → Decoration}
    (hd : ∀ s, (d s).events.length = 1) : Frugal (named m f d) := by
  have hname : Frugal (nameFrom f d) := by
    intro ls
    unfold nameFrom
    split
    · next name _ => exact paid_done _ [.word name] (Nat.le_of_eq (hd name))
    · exact paid_fault f
  intro ls
  cases ls with
  | nil => exact Frugal.done none []
  | cons l ls =>
    rw [named]
    split
    · exact (hname ls).cons l
    · exact Frugal.done none (l :: ls)

theorem frugal_attr : Frugal attr := by
  intro ls
  unfold attr
  split
  · next name l ls =>
    split
    · exact paid_done _ [.word name, .mark .equals, l] (Nat.le_add_left 1 2)
    · exact ((paid_fault _).cons _).cons _
  · next name _ _ => exact paid_done _ [.word name] (Nat.le_refl 1)
  · exact Frugal.done none _

theorem frugal_attrList : Frugal attrList := by
  have hattrs : Frugal attrs := by
    refine frugal_attr.bind fun x => ?_
    cases x with
    | none => exact fun _ => paid_fault _
    | some first => exact frugal_attr.many.bind fun _ => (frugal_expect _ _).bind fun _ => .done _
  intro ls
  unfold attrList
  split
  · exact (hattrs _).cons _
  · exact Frugal.done none _

theorem frugal_decoration : Frugal decoration :=
  (frugal_named _ _ fun _ => rfl).orElse ((frugal_named _ _ fun _ => rfl).orElse frugal_attrList)

theorem frugal_text : Frugal text := by
  intro ls
  unfold text
  split
  · next s _ => exact paid_done _ [.text s] (Nat.le_refl 1)
  · exact Frugal.done none _

theorem frugal_tag : Frugal tag := by
  intro ls
  unfold tag
  split
  · refine PaidBy.report ?_ _ _
    exact frugal_decoration.many.bind (fun _ => frugal_text.bind fun _ => .done _) _
  · exact Frugal.done none _

theorem frugal_multiplication : Frugal multiplication := by
  have hnumeral : Frugal numeral := by
    intro ls
    unfold numeral
    split
    · next s _ =>
      split
      · exact paid_done _ [.word s] (Nat.le_refl 1)
      · exact paid_fault _
    · exact paid_fault _
  intro ls
  unfold multiplication
  split
  · exact (hnumeral _).cons _
  · exact Frugal.done none _

theorem frugal_element : Frugal element :=
  ((frugal_tag.map _).orElse (frugal_text.map _)).bindSome fun _ =>
    frugal_multiplication.bind fun _ => .done _

theorem frugal_group {inner : List Lexeme → Reading (Option Abbreviation)} (hi : Frugal inner) :
    Frugal (group inner) := by
  have hclosed (a : Abbreviation) : Frugal (groupFrom a) := by
    intro ls
    cases ls with
    | nil => exact paid_fault _
    | cons l ls =>
      rw [groupFrom, expect]
      by_cases h : l = .mark .closeGroup
      · rw [if_pos h]
        exact (frugal_multiplication.bind (fun _ => .done _) ls).report _ l
      · rw [if_neg h]
        exact paid_fault (α := Item) .groupEnd
  intro ls
  unfold group
  split
  · refine PaidBy.report ((hi.startingWith _).bind (fun x => ?_) _) _ _
    cases x with
    | none => exact fun _ => paid_fault _
    | some a => exact hclosed a
  · exact Frugal.done none _

theorem frugal_operator : Frugal operator := by
  intro ls
  unfold operator
  split
  · exact paid_done _ [.mark .child] (Nat.le_refl 1)
  · exact paid_done _ [.mark .sibling] (Nat.le_refl 1)
  · next ls =>
    have hpaid {es : List Event} (a : Option Operator) (hes : es.length = 1) :
        (done es a (ls.dropWhile isClimb)).PaidBy
          (.mark .climb :: (ls.takeWhile isClimb ++ ls.dropWhile isClimb)) :=
      paid_done a (.mark .climb :: ls.takeWhile isClimb) (hes ▸ Nat.le_add_left 1 _)
    rw [List.takeWhile_append_dropWhile] at hpaid
    exact hpaid _ rfl
  · exact Frugal.done none _

theorem frugal_abbreviationAtMost (bound : Nat) : Frugal (abbreviationAtMost bound) := by
  induction bound with
  | zero => exact .done none
  | succ bound ih =>
    refine ((frugal_group ih).orElse frugal_element).bindSome fun _ =>
      frugal_operator.bind fun x => ?_
    cases x with
    | none => exact .done _
    | some op => exact (ih.startingWith _).bindSome fun _ => .done _

theorem frugal_abbreviation : Frugal abbreviation :=
  fun ls => frugal_abbreviationAtMost ls.length ls

end Reading

/-- The tokens in front of the end of the input or a malformed token. -/
def content (source : String) : List Token := (tokenize source).takeWhile fun t => !t.lexeme.isFinal

theorem Terminated.length_takeWhile {ts : List Token} (h : Terminated ts) :
    (ts.takeWhile fun t => !t.lexeme.isFinal).length + 1 = ts.length := by
  induction h with
  | last hf => rw [List.takeWhile_cons_of_neg (by simp [hf])]; rfl
  | cons hf _ ih =>
    rw [List.takeWhile_cons_of_pos (by simp [hf]), List.length_cons, List.length_cons, ih]

/-- Every token has a character of its own. -/
theorem length_content_le (source : String) : (content source).length ≤ source.utf8ByteSize := by
  have htokens : (tokenize source).length ≤ 0 + source.toList.length + 1 :=
    (TokenLog.shows_ofScanner [] (Scanner.ofString source)).length_le (terminated_tokenize source)
  have hbytes := Text.length_le_utf8Length source.toList
  rw [Text.utf8Length_toList] at hbytes
  have hcontent := (terminated_tokenize source).length_takeWhile
  unfold content
  omega

namespace Grammar
variable {β : Type} [Builder β]

/-! ### Calls -/

/-- A builder is called once for every event, but not after a refusal. -/
theorem former_feed_le (s : Traced β) (es : List Event) :
    (Builder.feed s es).1.former.length ≤ s.former.length + es.length := by
  induction es generalizing s with
  | nil => exact Nat.le_refl _
  | cons e es ih =>
    rcases h : Builder.accept s.latest e with ⟨b, _ | cause⟩
    · rw [Builder.feed_cons (Traced.accept_eq h)]
      have hrest := ih ⟨b, s.states⟩
      simp only [Traced.states, List.length_cons] at hrest ⊢
      omega
    · rw [Builder.feed, Traced.accept_eq h]
      simp only [Traced.states, List.length_cons]
      omega

theorem length_opening_le (source : String) :
    (opening source).events.length ≤ (content source).length := by
  obtain ⟨us, t, rest, hstops⟩ := exists_stops source
  have hpaid : (opening source).PaidBy (lexemes (tokenize source)) :=
    Reading.frugal_abbreviation.startingWith _ _
  rw [Reading.PaidBy, hstops.ahead, length_lexemes, length_lexemes, List.length_cons] at hpaid
  have hcontent := (terminated_tokenize source).length_takeWhile
  unfold content
  omega

/-- Loops and recursions end by themselves, before they come to their bounds. A builder that counts the
calls, and for which nothing else changes, is called no more often than there are tokens in front of
the first final one, and there are no more of these than bytes. -/
theorem calls_le (source : String) (start : β) :
    (∀ endless : ParseM β Unit,
      (⟨back, endless⟩ : Hooks β).sentence.run ⟨Cursor.ofString source, start⟩ =
        parse source start) ∧
    (let counted := parse source (Traced.start start)
     answer counted = answer (parse source start) ∧
       (built counted).latest = built (parse source start) ∧
       (built counted).former.length ≤ (content source).length) ∧
    (content source).length ≤ source.utf8ByteSize := by
  refine ⟨fun endless => ?_, ⟨?_, ?_, ?_⟩, length_content_le source⟩
  -- An alarm that pushes back as usual is no alarm.
  · have hhooks : watched back endless = ⟨back, endless⟩ :=
      congrArg (Hooks.mk · endless) (funext fun s => ite_self (back s))
    rw [← hhooks]
    exact watched_sentence back endless source start
  · obtain ⟨us, t, rest, hstops⟩ := exists_stops source
    obtain ⟨c, hc⟩ := parse_eq_outcome hstops start
    obtain ⟨c', hc'⟩ := parse_eq_outcome hstops (Traced.start start)
    rw [hc, hc']
    exact answer_fed c' c (Traced.feed (Traced.start start) _).2 _
  · rw [built_parse, built_parse]
    exact (Traced.feed (Traced.start start) _).1
  · rw [built_parse]
    refine Nat.le_trans (former_feed_le (Traced.start start) _) ?_
    show 0 + (opening source).events.length ≤ (content source).length
    rw [Nat.zero_add]
    exact length_opening_le source

end Grammar
end Shorthand
