import Shorthand.Proofs.Grammar.Delivery

/-! # Nothing is read behind the final token

Productions look ahead, read a token too many and push it back, and roll back whole transactions.
None of this takes the scanner past the first end of input or malformed token. A log keeps every
token that was ever scanned, pushed back or not (`TokenLog.scanned_back`), so it is enough to look
at the log when the reading has ended (`within_parse`). -/

namespace Shorthand

namespace TokenLog
variable {l : TokenLog} {ts : List Token}

/-- The tokens scanned so far, in the order of the text, pushed back or not. -/
def scanned (l : TokenLog) : List Token := l.read.reverse ++ l.pushedBack

@[simp] theorem scanned_back (l : TokenLog) : l.back.scanned = l.scanned := by
  obtain ⟨_ | ⟨t, read⟩, pushedBack, scanner⟩ := l
  · rfl
  · simp [back, scanned]

/-- Of a text with the tokens `ts`, nothing behind them was scanned. -/
structure Within (l : TokenLog) (ts : List Token) : Prop where
  ended : Terminated ts
  all : l.scanned = ts ∨ l.scanned ++ l.scanner.tokens = ts

/-- Not all of the tokens `ts` have been read. -/
structure Before (l : TokenLog) (ts : List Token) : Prop extends Within l ts where
  position_lt : l.position < ts.length

theorem before_ofString (source : String) : (ofString source).Before (tokenize source) where
  ended := terminated_tokenize source
  all := .inr rfl
  position_lt := by
    obtain ⟨t, rest, h⟩ := (terminated_tokenize source).exists_cons
    rw [h]
    exact Nat.zero_lt_succ _

theorem Within.isPrefix_scanned (h : l.Within ts) : l.scanned <+: ts := by
  rcases h.all with h | h
  · exact h ▸ List.prefix_rfl
  · exact h ▸ List.prefix_append _ _

theorem Within.position_le (h : l.Within ts) : l.position ≤ ts.length := by
  have hle := h.isPrefix_scanned.length_le
  rw [scanned, List.length_append, List.length_reverse] at hle
  exact Nat.le_trans (Nat.le_add_right _ _) hle

/-- With the last token pushed back there is one to read. -/
theorem Within.back (h : l.Within ts) : l.back.Before ts where
  ended := h.ended
  all := by
    have hscanner : l.back.scanner = l.scanner := by
      obtain ⟨_ | ⟨t, read⟩, pushedBack, scanner⟩ := l <;> rfl
    rw [scanned_back, hscanner]
    exact h.all
  position_lt := by
    have hle := h.position_le
    obtain ⟨t, rest, rfl⟩ := h.ended.exists_cons
    rw [position_back, List.length_cons] at *
    omega

namespace Before

/-- With nothing pushed back the scanner is in front of the rest of `ts`. -/
theorem scanner_tokens (h : l.Before ts) (hp : l.pushedBack = []) :
    l.read.reverse ++ l.scanner.tokens = ts := by
  have hscanned : l.scanned = l.read.reverse := by rw [scanned, hp, List.append_nil]
  rcases h.all with hall | hall
  · have hlt := h.position_lt
    rw [position, ← hall, hscanned, List.length_reverse] at hlt
    exact absurd hlt (Nat.lt_irrefl _)
  · rwa [hscanned] at hall

/-- Reading goes on with the tokens `ts`. -/
theorem next_token (h : l.Before ts) : ∃ more, ts = l.read.reverse ++ l.next.1 :: more := by
  obtain ⟨read, _ | ⟨t, pushedBack⟩, scanner⟩ := l
  · have hall := h.scanner_tokens rfl
    rw [Scanner.tokens] at hall
    split at hall
    · exact ⟨_, hall.symm⟩
    · exact ⟨_, hall.symm⟩
  · obtain ⟨more, hmore⟩ := h.isPrefix_scanned
    refine ⟨pushedBack ++ more, ?_⟩
    rw [← hmore]
    simp [scanned, next]

theorem next (h : l.Before ts) : l.next.2.Within ts where
  ended := h.ended
  all := by
    obtain ⟨read, _ | ⟨t, pushedBack⟩, scanner⟩ := l
    · have hall := h.scanner_tokens rfl
      rw [Scanner.tokens] at hall
      -- The token that is scanned is the last of `ts` just if it is final.
      split at hall
      · exact .inl (by simpa [TokenLog.next, scanned] using hall)
      · exact .inr (by simpa [TokenLog.next, scanned] using hall)
    · simpa [TokenLog.next, scanned] using h.all

/-- Behind a token that is not final there is another one. -/
theorem next_of_not_final (h : l.Before ts) (hf : ¬ l.next.1.lexeme.isFinal) :
    l.next.2.Before ts where
  toWithin := h.next
  position_lt := by
    obtain ⟨more, rfl⟩ := h.next_token
    obtain ⟨t, rest, rfl⟩ := (h.ended.of_append.2.tail hf).exists_cons
    rw [position_next]
    simp [position]

theorem back (h : l.Before ts) : l.back.Before ts := h.toWithin.back

theorem peek (h : l.Before ts) : l.peek.2.Before ts := h.next.back

end Before
end TokenLog

namespace Cursor

/-- Behind the token `t`: if it is not final, then there is another one. -/
structure Behind (c : Cursor) (ts : List Token) (t : Token) : Prop where
  within : c.log.Within ts
  before : ¬ t.lexeme.isFinal → c.log.Before ts

/-- A place that may be behind the tokens `ts`, but then the innermost transaction has read some. -/
structure Retraceable (c : Cursor) (ts : List Token) : Prop where
  within : c.log.Within ts
  before : c.consumed = 0 → c.log.Before ts

variable {c : Cursor} {ts : List Token}

theorem before_backN {n : Nat} (h : c.log.Before ts) : (c.backN n).log.Before ts := by
  induction n generalizing c with
  | zero => exact h
  | succ n ih => exact ih (c := c.back) h.back

theorem Retraceable.rollback (h : c.Retraceable ts) : c.rollback.close.log.Before ts := by
  show (c.backN c.consumed).log.Before ts
  cases hn : c.consumed with
  | zero => exact h.before hn
  | succ n => exact before_backN (c := c.back) h.within.back

end Cursor

namespace Grammar
variable {β γ δ : Type} {ts : List Token} {t : Token}

/-- From a cursor with `P` on, `p` leads to one with `Q`; if it fails, nothing behind the tokens `ts`
was scanned. -/
structure Bounded (ts : List Token) (P : Cursor → Prop) (p : ParseM β γ) (Q : γ → Cursor → Prop) :
    Prop where
  run : ∀ s : Session β, P s.cursor → match p s with
    | .ok a s => Q a s.cursor
    | .error _ s => s.cursor.log.Within ts

/-- Wherever a token of `ts` is to come, `p` leads to such a place again. -/
abbrev Heeds (ts : List Token) (p : ParseM β γ) : Prop :=
  Bounded ts (·.log.Before ts) p fun _ c => c.log.Before ts

/-- The same in a transaction, but where `p` does not succeed a token may have been read too many. -/
abbrev Tries (ts : List Token) (p : ParseM β Bool) : Prop :=
  Bounded ts (fun c => c.log.Before ts ∧ c.counts ≠ []) p fun found c =>
    if found then c.log.Before ts else c.Retraceable ts

namespace Bounded
variable {P P' : Cursor → Prop} {Q Q' : γ → Cursor → Prop} {R : δ → Cursor → Prop}
  {p : ParseM β γ} {q : γ → ParseM β δ}

theorem pure {a : γ} (h : ∀ c, P c → Q a c) : Bounded (β := β) ts P (Pure.pure a) Q :=
  ⟨fun s hs => h s.cursor hs⟩

theorem stay {a : γ} : Bounded (β := β) ts P (Pure.pure a) fun _ c => P c := .pure fun _ hc => hc

theorem throw {e : ParseError} (h : ∀ c, P c → c.log.Within ts) :
    Bounded (β := β) ts P (throw e) Q :=
  ⟨fun s hs => h s.cursor hs⟩

theorem bind (hp : Bounded ts P p Q) (hq : ∀ a, Bounded ts (Q a) (q a) R) :
    Bounded ts P (p >>= q) R := by
  refine ⟨fun s hs => ?_⟩
  have hrun := hp.run s hs
  rw [bind_run]
  generalize p s = y at hrun
  cases y with
  | ok a s => exact (hq a).run s hrun
  | error e s => exact hrun

theorem mono (h : Bounded ts P p Q) (hP : ∀ c, P' c → P c) (hQ : ∀ a c, Q a c → Q' a c) :
    Bounded ts P' p Q' := by
  refine ⟨fun s hs => ?_⟩
  have hrun := h.run s (hP _ hs)
  generalize p s = y at hrun
  cases y with
  | ok a s => exact hQ a _ hrun
  | error e s => exact hrun

theorem next : Bounded (β := β) ts (·.log.Before ts) Grammar.next fun t c => c.Behind ts t :=
  ⟨fun _ hs => ⟨hs.next, hs.next_of_not_final⟩⟩

theorem back : Bounded (β := β) ts (·.log.Within ts) plain.back fun _ c => c.log.Before ts :=
  ⟨fun _ hs => hs.back⟩

theorem peek : Heeds (β := β) ts plain.peek := ⟨fun _ hs => hs.peek⟩

theorem bound : Heeds (β := β) ts Grammar.bound := ⟨fun _ hs => hs⟩

theorem emit [Builder β] (e : Event) : Heeds (β := β) ts (Grammar.emit e) := by
  refine ⟨fun s hs => ?_⟩
  unfold Grammar.emit
  rcases Builder.accept s.builder e with ⟨b, _ | cause⟩
  · exact hs
  · exact hs.toWithin

/-- What comes behind a token that is not final. -/
theorem behind (ht : ¬ t.lexeme.isFinal) (h : Bounded ts (·.log.Before ts) p Q) :
    Bounded ts (·.Behind ts t) p Q :=
  h.mono (fun _ hc => hc.before ht) fun _ _ hQ => hQ

theorem behind_lexeme {l : Lexeme} (ht : t.lexeme = l) (hl : l.isFinal = false)
    (h : Bounded ts (·.log.Before ts) p Q) : Bounded ts (·.Behind ts t) p Q :=
  .behind (by simp [ht, hl]) h

theorem fault {e : ParseError} : Bounded (β := β) ts (·.Behind ts t) (MonadExcept.throw e) Q :=
  .throw fun _ hc => hc.within

/-- With the last token pushed back there is one to read again. -/
theorem back_bind {p : ParseM β γ} (h : Bounded ts (·.log.Before ts) p Q) :
    Bounded ts (·.log.Within ts) (do plain.back; p) Q :=
  back.bind fun _ => h

theorem retreat {p : ParseM β γ} (h : Bounded ts (·.log.Before ts) p Q) :
    Bounded ts (·.Behind ts t) (do plain.back; p) Q :=
  h.back_bind.mono (fun _ hc => hc.within) fun _ _ hQ => hQ

end Bounded

namespace Tries
variable {q : Token → ParseM β Bool}

/-- A token is read, and the answer is no at once if it is not what it should be. -/
theorem next (h : ∀ t, Bounded ts (·.Behind ts t) (q t) (fun _ c => c.log.Before ts) ∨
    q t = return false) : Tries ts (Grammar.next >>= q) := by
  have hnext : Bounded (β := β) ts (fun c => c.log.Before ts ∧ c.counts ≠ []) Grammar.next
      fun t c => c.Behind ts t ∧ 0 < c.consumed := by
    refine ⟨fun s ⟨hs, hcounts⟩ => ⟨⟨hs.next, hs.next_of_not_final⟩, ?_⟩⟩
    obtain ⟨n, counts, hn⟩ := List.exists_cons_of_ne_nil hcounts
    simp [Cursor.next, Cursor.consumed, hn]
  refine hnext.bind fun t => ?_
  rcases h t with h | h
  · refine h.mono (fun _ hc => hc.1) fun found c hc => ?_
    cases found with
    | false => exact ⟨hc.toWithin, fun _ => hc⟩
    | true => exact hc
  · rw [h]
    exact .pure fun c hc => ⟨hc.1.within, fun h0 => absurd h0 (Nat.ne_of_gt hc.2)⟩

theorem marked {m : Mark} {p : ParseM β Bool} (hp : Heeds ts p) :
    Tries ts (do if isMark m (← Grammar.next).lexeme then p else return false) := by
  refine .next fun t => ?_
  split
  · next h => exact .inl (.behind_lexeme (isMark_iff.1 h) rfl hp)
  · exact .inr rfl

end Tries

namespace Bounded
variable {p q : ParseM β Bool}

theorem attempt (hp : Tries ts p) : Heeds ts (plain.attempt p) := by
  refine ⟨fun s hs => ?_⟩
  have hrun := hp.run { s with cursor := s.cursor.begin } ⟨hs, List.cons_ne_nil _ _⟩
  rw [attempt_run]
  generalize p _ = y at hrun
  cases y with
  | ok found s =>
    cases found with
    -- If the last token was read, then the rollback pushes it back at least.
    | false => exact Cursor.Retraceable.rollback hrun
    | true => exact hrun
  | error e s => exact hrun

theorem startingWith (test : Lexeme → Bool) (hp : Heeds ts p) :
    Heeds ts (plain.startingWith test p) := by
  refine .bind .peek fun t => ?_
  split
  · exact hp
  · exact .stay

theorem either (hp : Heeds ts p) (hq : Heeds ts q) : Heeds ts (Grammar.either p q) := by
  refine hp.bind fun found => ?_
  split
  · exact .stay
  · exact hq

theorem manyAtMost (hp : Heeds ts p) (bound : Nat) : Heeds ts (plain.manyAtMost p bound) := by
  induction bound with
  | zero => exact .stay
  | succ bound ih =>
    refine hp.bind fun found => ?_
    split
    · exact ih
    · exact .stay

theorem many (hp : Heeds ts p) : Heeds ts (plain.many p) := Bounded.bound.bind hp.manyAtMost

theorem missing {f : Fault} : Heeds (β := β) (γ := γ) ts (do
    MonadExcept.throw (ParseError.required f (← plain.peek))) :=
  .bind .peek fun _ => .throw fun _ hc => hc.toWithin

end Bounded

section
variable [Builder β]

theorem Bounded.report (e : Event) (found : Bool) :
    Heeds (β := β) ts (do Grammar.emit e; return found) :=
  .bind (.emit e) fun _ => .stay

/-! ### Productions -/

theorem tries_named (m : Mark) (fault : Fault) (event : String → Event) :
    Tries (β := β) ts (named m fault event) := by
  refine .marked (.bind .next fun t => ?_)
  split
  · next h => exact .behind_lexeme h rfl (.report _ _)
  · exact .fault

theorem tries_attr : Tries (β := β) ts plain.attr := by
  refine .next fun t => ?_
  split
  · next name h =>
    refine .inl (.behind_lexeme h rfl (.bind .next fun t₂ => ?_))
    split
    · next h₂ =>
      refine .behind_lexeme (isMark_iff.1 h₂) rfl (.bind .next fun t₃ => ?_)
      split
      · next h₃ => exact .behind_lexeme h₃ rfl (.report _ _)
      · next h₃ => exact .behind_lexeme h₃ rfl (.report _ _)
      · exact .fault
    · exact .retreat (.report _ _)
  · exact .inr rfl

theorem tries_attrList : Tries (β := β) ts plain.attrList := by
  refine .marked (.bind (.attempt tries_attr) fun found => ?_)
  split
  · refine .bind (.many (.attempt tries_attr)) fun _ => .bind .next fun t => ?_
    split
    · next h => exact .behind_lexeme (isMark_iff.1 h) rfl .stay
    · exact .fault
  · exact .missing

theorem heeds_decoration : Heeds (β := β) ts plain.decoration :=
  .either (.attempt (tries_named _ _ _))
    (.either (.attempt (tries_named _ _ _)) (.attempt tries_attrList))

theorem heeds_textRun : Heeds (β := β) ts plain.textRun := by
  refine .bind .next fun t => ?_
  split
  · next h => exact .behind_lexeme h rfl (.report _ _)
  · exact .retreat .stay

theorem heeds_tagElement : Heeds (β := β) ts plain.tagElement := by
  refine .bind .next fun t => ?_
  split
  · next h =>
    refine .behind_lexeme h rfl (.bind (.emit _) fun _ => .bind (.many heeds_decoration) fun _ => ?_)
    exact .bind heeds_textRun fun _ => .stay
  · exact .retreat .stay

omit [Builder β] in
theorem not_isFinal_of_count? {l : Lexeme} {n : Nat} (h : count? l = some n) : ¬ l.isFinal := by
  cases l with
  | word s => exact Bool.false_ne_true
  | _ => cases h

theorem heeds_multiplication : Heeds (β := β) ts plain.multiplication := by
  refine .bind .next fun t => ?_
  split
  · next h =>
    refine .behind_lexeme (isMark_iff.1 h) rfl (.bind .next fun t₂ => ?_)
    split
    · exact .fault
    · next n hn =>
      split
      · exact .fault
      · exact .behind (not_isFinal_of_count? hn) (.report _ _)
  · exact .retreat .stay

theorem heeds_element : Heeds (β := β) ts plain.element := by
  refine .bind (.either (.startingWith _ heeds_tagElement) heeds_textRun) fun found => ?_
  split
  · exact .bind (.startingWith _ heeds_multiplication) fun _ => .stay
  · exact .stay

theorem heeds_group {inner : ParseM β Bool} (hi : Heeds ts inner) : Heeds ts (plain.group inner) := by
  refine .bind .next fun t => ?_
  split
  · next h =>
    refine .behind_lexeme (isMark_iff.1 h) rfl (.bind (.emit _) fun _ =>
      .bind (.startingWith _ hi) fun found => ?_)
    split
    · refine .bind .next fun t₂ => ?_
      split
      · next h₂ =>
        refine .behind_lexeme (isMark_iff.1 h₂) rfl (.bind (.emit _) fun _ => ?_)
        exact .bind (.startingWith _ heeds_multiplication) fun _ => .stay
      · exact .fault
    · exact .missing
  · exact .retreat .stay

omit [Builder β] in
/-- The token behind a run of `^` is read too, and it may be final. -/
theorem bounded_climbsAtMost (bound : Nat) : Bounded (β := β) ts (·.log.Before ts)
    (plain.climbsAtMost bound) fun _ c => c.log.Within ts := by
  induction bound with
  | zero => exact .pure fun _ hc => hc.toWithin
  | succ bound ih =>
    refine .bind .next fun t => ?_
    split
    · next h =>
      exact .behind_lexeme (isMark_iff.1 h) rfl (.bind ih fun _ => .pure fun _ hc => hc)
    · exact .pure fun _ hc => hc.within

theorem heeds_repeatedClimb : Heeds (β := β) ts plain.repeatedClimb := by
  refine .bind .bound fun bound => .bind (bounded_climbsAtMost bound) fun levels => .back_bind ?_
  split
  · exact .stay
  · exact .report _ _

theorem heeds_operator : Heeds (β := β) ts plain.operator := by
  refine .bind .next fun t => ?_
  split
  · next h => exact .behind_lexeme h rfl (.report _ _)
  · next h => exact .behind_lexeme h rfl (.report _ _)
  · exact .retreat heeds_repeatedClimb
  · exact .retreat .stay

theorem heeds_abbreviationAtMost (bound : Nat) :
    Heeds (β := β) ts (plain.abbreviationAtMost bound) := by
  induction bound with
  | zero => exact .stay
  | succ bound ih =>
    refine .bind (.either (.startingWith _ (heeds_group ih)) (.startingWith _ heeds_element))
      fun found => ?_
    split
    · refine .bind (.startingWith _ heeds_operator) fun found => ?_
      split
      · exact .startingWith _ ih
      · exact .stay
    · exact .stay

theorem heeds_abbreviation : Heeds (β := β) ts plain.abbreviation :=
  .bind .bound heeds_abbreviationAtMost

omit [Builder β] in
theorem bounded_ending (parsed : Bool) : Bounded (β := β) ts (·.log.Before ts) (ending parsed)
    fun _ c => c.log.Within ts := by
  refine .bind .next fun t => ?_
  split
  · exact .fault
  · split
    · exact .pure fun _ hc => hc.within
    · exact .fault
  · exact .fault

theorem bounded_sentence : Bounded (β := β) ts (·.log.Before ts) sentence
    fun _ c => c.log.Within ts :=
  .bind (.startingWith _ heeds_abbreviation) bounded_ending

end

/-- How a parser leaves its session, with an error or without. -/
def left {γ : Type} : EStateM.Result ParseError (Session β) γ → Session β
  | .ok _ s | .error _ s => s

/-- Reading a text, whatever the builder does, scans no token behind the first final one. -/
theorem within_parse [Builder β] (source : String) (start : β) :
    (left (parse source start)).cursor.log.Within (tokenize source) := by
  have hrun := bounded_sentence.run ⟨Cursor.ofString source, start⟩
    (TokenLog.before_ofString source)
  show (left (sentence ⟨Cursor.ofString source, start⟩)).cursor.log.Within _
  generalize sentence (_ : Session β) = y at hrun
  cases y with
  | ok a s => exact hrun
  | error e s => exact hrun

end Grammar
end Shorthand
