import Shorthand.Proofs.Grammar.Declining
import Shorthand.Proofs.Grammar.Horizon

/-! # Where tokens are pushed back

The hooks `watched` raise an alarm at a push-back in a transaction that has nothing to push back, and
where a bound is reached. Whatever the alarm is, it makes no difference (`watched_sentence`): it is
never raised. -/

namespace Shorthand

namespace TokenLog
variable {l : TokenLog} {ts : List Token}

theorem Within.length_le (h : l.Within ts) : ts.length ≤ l.position + (l.unread + 1) := by
  have hscanned : l.scanned.length = l.position + l.pushedBack.length := by
    rw [scanned, List.length_append, List.length_reverse]
    rfl
  have htokens := (shows_ofScanner [] l.scanner).length_le l.scanner.terminated_tokens
  simp only [unread, List.length_nil] at htokens ⊢
  rcases h.all with hall | hall
  · rw [← hall, hscanned]
    omega
  · rw [← hall, List.length_append, hscanned]
    omega

end TokenLog

namespace Cursor
variable {c : Cursor} {ts : List Token} {j k : Nat}

/-- A token is to come, and at least `k` have been read. -/
structure Ready (c : Cursor) (ts : List Token) (k : Nat) : Prop where
  before : c.log.Before ts
  le : k ≤ c.position

/-- More than `k` tokens have been read, and every transaction has counted one of them. -/
structure Past (c : Cursor) (ts : List Token) (k : Nat) : Prop where
  within : c.log.Within ts
  positive : ∀ n ∈ c.counts, 0 < n
  lt : k < c.position

theorem Ready.mono (h : c.Ready ts k) (hjk : j ≤ k) : c.Ready ts j :=
  ⟨h.before, Nat.le_trans hjk h.le⟩

theorem Ready.begin (h : c.Ready ts k) : c.begin.Ready ts k := ⟨h.before, h.le⟩

theorem Ready.close (h : c.Ready ts k) : c.close.Ready ts k := ⟨h.before, h.le⟩

theorem Ready.past (h : c.Ready ts k) : c.next.2.Past ts k where
  within := h.before.next
  positive := by
    intro n hn
    obtain ⟨m, -, rfl⟩ := List.mem_map.1 hn
    exact m.succ_pos
  lt := by
    rw [position_next]
    exact Nat.lt_succ_of_le h.le

theorem Ready.next (h : c.Ready ts k) (hf : ¬ c.next.1.lexeme.isFinal) :
    c.next.2.Ready ts (k + 1) where
  before := h.before.next_of_not_final hf
  le := h.past.lt

theorem Past.back (h : c.Past ts k) : c.back.Ready ts k where
  before := h.within.back
  le := by
    rw [position_back]
    exact Nat.le_sub_one_of_lt h.lt

theorem Ready.peek (h : c.Ready ts k) : c.peek.2.Ready ts k := h.past.back

theorem ready_ofString (source : String) : (ofString source).Ready (tokenize source) 0 where
  before := TokenLog.before_ofString source
  le := Nat.zero_le _

end Cursor

namespace Grammar

/-! ### The same with an alarm -/

/-- The one alarm is raised at a push-back in a transaction that has nothing to push back, the other
one where a bound is reached. -/
def watched {β : Type} (idle endless : ParseM β Unit) : Hooks β where
  back s := if ∀ n ∈ s.cursor.counts, 0 < n then back s else idle s
  endless := endless

section
variable {β α δ : Type} {P P' : Cursor → Prop} {Q Q' : α → Cursor → Prop} {R : δ → Cursor → Prop}
  {ts : List Token} {j k n : Nat} {t : Token}

/-- From a cursor with `P` on, `p'` does what `p` does, and that leads to `Q`. -/
structure Agrees (P : Cursor → Prop) (p' p : ParseM β α) (Q : α → Cursor → Prop) : Prop where
  run : ∀ s, P s.cursor → p' s = p s ∧ ∀ a s', p s = .ok a s' → Q a s'.cursor

namespace Agrees
variable {p p' : ParseM β α} {q q' : α → ParseM β δ} {idle endless : ParseM β Unit}

theorem pure {a : α} (h : ∀ c, P c → Q a c) :
    Agrees (β := β) P (Pure.pure a) (Pure.pure a) Q := by
  refine ⟨fun s hs => ⟨rfl, fun b s' hrun => ?_⟩⟩
  cases hrun
  exact h _ hs

theorem throw {e : ParseError} :
    Agrees (β := β) P (MonadExcept.throw e) (MonadExcept.throw e) Q := by
  refine ⟨fun s _ => ⟨rfl, fun b s' hrun => ?_⟩⟩
  cases hrun

theorem bind (hp : Agrees P p' p Q) (hq : ∀ a, Agrees (Q a) (q' a) (q a) R) :
    Agrees P (p' >>= q') (p >>= q) R := by
  refine ⟨fun s hs => ?_⟩
  obtain ⟨heq, hpost⟩ := hp.run s hs
  rw [bind_run, bind_run, heq]
  cases hrun : p s with
  | ok a s' => exact (hq a).run s' (hpost a s' hrun)
  | error e s' =>
    refine ⟨rfl, fun b s'' h => ?_⟩
    cases h

theorem mono (h : Agrees P p' p Q) (hP : ∀ c, P' c → P c) (hQ : ∀ a c, Q a c → Q' a c) :
    Agrees P' p' p Q' := by
  refine ⟨fun s hs => ?_⟩
  obtain ⟨heq, hpost⟩ := h.run s (hP _ hs)
  exact ⟨heq, fun a s' hrun => hQ _ _ (hpost a s' hrun)⟩

/-- Behind the token that was read, which can be pushed back again. -/
abbrev Behind (ts : List Token) (k : Nat) (t : Token) (c : Cursor) : Prop :=
  c.Past ts k ∧ (¬ t.lexeme.isFinal → c.Ready ts (k + 1))

theorem next : Agrees (β := β) (·.Ready ts k) Grammar.next Grammar.next (Behind ts k) := by
  refine ⟨fun s hs => ⟨rfl, fun t s' hrun => ?_⟩⟩
  cases hrun
  exact ⟨hs.past, hs.next⟩

theorem back : Agrees (·.Past ts k) (watched idle endless).back plain.back
    fun _ c => c.Ready ts k := by
  refine ⟨fun s hs => ⟨if_pos hs.positive, fun _ s' hrun => ?_⟩⟩
  cases hrun
  exact hs.back

theorem emit [Builder β] (e : Event) : Agrees (β := β) P (Grammar.emit e) (Grammar.emit e)
    fun _ => P := by
  refine ⟨fun s hs => ⟨rfl, fun _ s' hrun => ?_⟩⟩
  unfold Grammar.emit at hrun
  split at hrun
  · cases hrun
    exact hs
  · cases hrun

theorem peek : Agrees (·.Ready ts k) (watched idle endless).peek plain.peek
    fun _ c => c.Ready ts k := by
  refine next.bind fun t => ?_
  refine (back.mono (fun _ hc => hc.1) fun _ _ hc => hc).bind fun _ => ?_
  exact .pure fun _ hc => hc

/-- A loop gets a bound that is large enough for the tokens to come. -/
theorem bound {q q' : Nat → ParseM β δ} (h : ∀ k' n, k ≤ k' → ts.length ≤ k' + n →
      Agrees (·.Ready ts k') (q' n) (q n) R) :
    Agrees (·.Ready ts k) (Grammar.bound >>= q') (Grammar.bound >>= q) R := by
  refine ⟨fun s hs => ?_⟩
  have hle : ts.length ≤ s.cursor.position + (s.cursor.unread + 1) := hs.before.toWithin.length_le
  exact (h s.cursor.position _ hs.le hle).run s ⟨hs.before, Nat.le_refl _⟩

/-- A bound is not reached as long as a token is to come. -/
theorem of_length_le (h : ts.length ≤ k) : Agrees (·.Ready ts k) p' p Q := by
  refine ⟨fun s hs => ?_⟩
  have hlt : s.cursor.position < ts.length := hs.before.position_lt
  have hle := hs.le
  omega

theorem behind (ht : ¬ t.lexeme.isFinal) (h : Agrees (·.Ready ts (k + 1)) p' p Q) :
    Agrees (Behind ts k t) p' p Q :=
  h.mono (fun _ hc => hc.2 ht) fun _ _ hQ => hQ

theorem behind_lexeme {l : Lexeme} (ht : t.lexeme = l) (hl : l.isFinal = false)
    (h : Agrees (·.Ready ts (k + 1)) p' p Q) : Agrees (Behind ts k t) p' p Q :=
  .behind (by simp [ht, hl]) h

theorem retreat (h : Agrees (·.Ready ts k) p' p Q) :
    Agrees (Behind ts k t) (do (watched idle endless).back; p') (do plain.back; p) Q :=
  (back.bind fun _ => h).mono (fun _ hc => hc.1) fun _ _ hQ => hQ

theorem no : Agrees (β := β) (·.Ready ts k) (return false) (return false)
    fun found c => c.Ready ts (if found then k + 1 else k) := .pure fun _ hc => hc

theorem yes (h : k + 1 ≤ j) : Agrees (β := β) (·.Ready ts j) (return true) (return true)
    fun found c => c.Ready ts (if found then k + 1 else k) := .pure fun _ hc => hc.mono h

theorem report [Builder β] (e : Event) (h : k + 1 ≤ j) : Agrees (β := β) (·.Ready ts j)
    (do Grammar.emit e; return true) (do Grammar.emit e; return true)
    fun found c => c.Ready ts (if found then k + 1 else k) :=
  (emit e).bind fun _ => yes h

theorem tried {p p' : ParseM β Bool}
    (h : Agrees P p' p fun found c => c.Ready ts (if found then k + 1 else k)) :
    Agrees P p' p fun found c => found = true → c.Ready ts (k + 1) := by
  refine h.mono (fun _ hc => hc) fun found c hc hfound => ?_
  rwa [if_pos hfound] at hc

end Agrees

/-- The same, and where the answer is yes a token has been read. -/
abbrev Advances (ts : List Token) (k : Nat) (p' p : ParseM β Bool) : Prop :=
  Agrees (·.Ready ts k) p' p fun found c => c.Ready ts (if found then k + 1 else k)

/-- The same of a production that is tried in a transaction. -/
structure Tried (ts : List Token) (k : Nat) (p' p : ParseM β Bool) : Prop where
  agrees : Agrees (·.Ready ts k) p' p fun found c => found = true → c.Ready ts (k + 1)
  declines : Declines Cursor.Stepped p p

namespace Advances
variable {p p' q q' : ParseM β Bool} {idle endless : ParseM β Unit}

/-- The answer counts from an earlier place on. -/
theorem before (h : Advances ts j p' p) (hkj : k ≤ j) : Agrees (·.Ready ts j) p' p
    fun found c => c.Ready ts (if found then k + 1 else k) := by
  refine h.mono (fun _ hc => hc) fun found c hc => ?_
  refine hc.mono ?_
  split
  · omega
  · omega

/-- Whatever the answer is, no token has been given back. -/
theorem anyway (h : Advances ts j p' p) :
    Agrees (·.Ready ts j) p' p fun _ c => c.Ready ts j := by
  refine h.mono (fun _ hc => hc) fun found c hc => ?_
  refine hc.mono ?_
  split
  · omega
  · exact Nat.le_refl _

theorem startingWith (test : Lexeme → Bool) (hp : Advances ts k p' p) :
    Advances ts k ((watched idle endless).startingWith test p') (plain.startingWith test p) := by
  refine Agrees.peek.bind fun t => ?_
  split
  · exact hp
  · exact .no

theorem either (hp : Advances ts k p' p) (hq : Advances ts k q' q) :
    Advances ts k (Grammar.either p' q') (Grammar.either p q) := by
  refine hp.bind fun found => ?_
  cases found with
  | true => exact .yes (Nat.le_refl _)
  | false => exact hq

theorem attempt (h : Tried ts k p' p) :
    Advances ts k ((watched idle endless).attempt p') (plain.attempt p) := by
  refine ⟨fun s hs => ?_⟩
  obtain ⟨heq, hpost⟩ := h.agrees.run { s with cursor := s.cursor.begin } hs.begin
  rw [attempt_run, Hooks.attempt, heq]
  cases hrun : p { s with cursor := s.cursor.begin } with
  | error e s' =>
    refine ⟨rfl, fun found s'' hok => ?_⟩
    cases hok
  | ok found s' =>
    cases found with
    | true =>
      refine ⟨rfl, fun found s'' hok => ?_⟩
      cases hok
      exact (hpost true s' hrun rfl).close
    | false =>
      -- The token at which it declines is the only one to be pushed back.
      have hcursor : s'.cursor = s.cursor.begin.next.2 := (h.declines _ _ hrun).1
      have hback : (watched idle endless).back s' = plain.back s' := if_pos (by
        rw [hcursor]
        exact hs.begin.past.positive)
      have hconsumed : s'.cursor.consumed = 1 := by
        rw [hcursor]
        rfl
      have hretreat : (watched idle endless).retreat s'.cursor.consumed s' =
          .ok () { s' with cursor := s'.cursor.rollback } := by
        rw [Cursor.rollback, hconsumed]
        show ((watched idle endless).back >>= fun _ => Pure.pure ()) s' = _
        rw [bind_run, hback]
        rfl
      simp only [hretreat]
      refine ⟨trivial, fun found s'' hok => ?_⟩
      cases hok
      have hrollback : s'.cursor.rollback.close = s.cursor.peek.2 := by
        rw [Cursor.rollback, hconsumed, hcursor]
        rfl
      rw [hrollback]
      exact hs.peek

end Advances
end

/-! ### Productions -/

section
variable {β δ : Type} [Builder β] {Q : δ → Cursor → Prop} {ts : List Token} {j k n : Nat}
  {idle endless : ParseM β Unit} {p p' : ParseM β Bool}

omit [Builder β] in
theorem Agrees.missing {f : Fault} : Agrees (·.Ready ts k)
    (do MonadExcept.throw (ParseError.required f (← (watched idle endless).peek)))
    (do MonadExcept.throw (ParseError.required f (← plain.peek))) Q :=
  peek.bind fun _ => .throw

theorem tried_named (m : Mark) (fault : Fault) (event : String → Event) :
    Tried (β := β) ts k (named m fault event) (named m fault event) where
  agrees := by
    refine .bind .next fun t => ?_
    by_cases h : isMark m t.lexeme
    · rw [if_pos h]
      refine .behind_lexeme (isMark_iff.1 h) rfl (.bind .next fun t₂ => ?_)
      cases h₂ : t₂.lexeme with
      | word name => exact .behind_lexeme h₂ rfl (.tried (.report _ (by omega)))
      | _ => exact .throw
    · rw [if_neg h]
      exact .pure fun _ _ hfalse => nomatch hfalse
  declines := declines_named _ _ _

theorem tried_attr : Tried ts k (watched idle endless).attr plain.attr where
  agrees := by
    refine .bind .next fun t => ?_
    cases h : t.lexeme with
    | word name =>
      refine .behind_lexeme h rfl (.bind .next fun t₂ => ?_)
      by_cases h₂ : isMark .equals t₂.lexeme
      · rw [if_pos h₂, if_pos h₂]
        refine .behind_lexeme (isMark_iff.1 h₂) rfl (.bind .next fun t₃ => ?_)
        cases h₃ : t₃.lexeme with
        | word value => exact .behind_lexeme h₃ rfl (.tried (.report _ (by omega)))
        | quoted value => exact .behind_lexeme h₃ rfl (.tried (.report _ (by omega)))
        | _ => exact .throw
      · rw [if_neg h₂, if_neg h₂]
        exact .retreat (.tried (.report _ (by omega)))
    | _ => exact .pure fun _ _ hfalse => nomatch hfalse
  declines := declines_attr

omit [Builder β] in
/-- Every round reads a token, and the bound is not reached. -/
theorem Advances.manyAtMost (hp : ∀ k, Advances ts k p' p) (h : ts.length ≤ k + n) :
    Agrees (·.Ready ts k) ((watched idle endless).manyAtMost p' n) (plain.manyAtMost p n)
      fun _ c => c.Ready ts k := by
  induction n generalizing k with
  | zero => exact .of_length_le h
  | succ n ih =>
    refine (hp k).bind fun found => ?_
    cases found with
    | true =>
      have hrest := ih (k := k + 1) (by omega)
      exact hrest.mono (fun _ hc => hc) fun _ _ hc => hc.mono (Nat.le_succ k)
    | false => exact .pure fun _ hc => hc

omit [Builder β] in
theorem Advances.many (hp : ∀ k, Advances ts k p' p) : Agrees (·.Ready ts k)
    ((watched idle endless).many p') (plain.many p) fun _ c => c.Ready ts k :=
  .bound fun _ _ hk h => (manyAtMost hp h).mono (fun _ hc => hc) fun _ _ hc => hc.mono hk

theorem tried_attrList : Tried ts k (watched idle endless).attrList plain.attrList where
  agrees := by
    refine .bind .next fun t => ?_
    by_cases h : isMark .openAttrs t.lexeme
    · rw [if_pos h, if_pos h]
      refine .behind_lexeme (isMark_iff.1 h) rfl
        (.bind (Advances.attempt tried_attr) fun found => ?_)
      cases found with
      | true =>
        rw [if_pos rfl, if_pos rfl, if_pos rfl]
        refine .bind (Advances.many fun _ => .attempt tried_attr) fun _ => .bind .next fun t₂ => ?_
        by_cases h₂ : isMark .closeAttrs t₂.lexeme
        · rw [if_pos h₂]
          exact .behind_lexeme (isMark_iff.1 h₂) rfl (.tried (.yes (by omega)))
        · rw [if_neg h₂]
          exact .throw
      | false => exact .missing
    · rw [if_neg h, if_neg h]
      exact .pure fun _ _ hfalse => nomatch hfalse
  declines := declines_attrList

theorem advances_decoration : Advances ts k (watched idle endless).decoration plain.decoration :=
  .either (.attempt (tried_named _ _ _))
    (.either (.attempt (tried_named _ _ _)) (.attempt tried_attrList))

theorem advances_textRun : Advances ts k (watched idle endless).textRun plain.textRun := by
  refine .bind .next fun t => ?_
  cases h : t.lexeme with
  | text content => exact .behind_lexeme h rfl (.report _ (Nat.le_refl _))
  | _ => exact .retreat .no

theorem advances_tagElement : Advances ts k (watched idle endless).tagElement plain.tagElement := by
  refine .bind .next fun t => ?_
  cases h : t.lexeme with
  | word name =>
    refine .behind_lexeme h rfl (.bind (.emit _) fun _ =>
      .bind (Advances.many fun _ => advances_decoration) fun _ => ?_)
    exact .bind advances_textRun.anyway fun _ => .yes (Nat.le_refl _)
  | _ => exact .retreat .no

theorem advances_multiplication :
    Advances ts k (watched idle endless).multiplication plain.multiplication := by
  refine .bind .next fun t => ?_
  by_cases h : isMark .times t.lexeme
  · rw [if_pos h, if_pos h]
    refine .behind_lexeme (isMark_iff.1 h) rfl (.bind .next fun t₂ => ?_)
    cases hn : count? t₂.lexeme with
    | none => exact .throw
    | some n =>
      by_cases hle : maxCount < n
      · simp only [if_pos hle]
        exact .throw
      · simp only [if_neg hle]
        exact .behind (not_isFinal_of_count? hn) (.report (.multiply n) (by omega))
  · rw [if_neg h, if_neg h]
    exact .retreat .no

theorem advances_element : Advances ts k (watched idle endless).element plain.element := by
  refine .bind (Advances.either (.startingWith _ advances_tagElement) advances_textRun)
    fun found => ?_
  cases found with
  | true =>
    exact .bind (Advances.startingWith _ advances_multiplication).anyway fun _ =>
      .yes (Nat.le_refl _)
  | false => exact .no

theorem advances_group {inner inner' : ParseM β Bool} (hi : Advances ts (k + 1) inner' inner) :
    Advances ts k ((watched idle endless).group inner') (plain.group inner) := by
  refine .bind .next fun t => ?_
  by_cases h : isMark .openGroup t.lexeme
  · rw [if_pos h, if_pos h]
    refine .behind_lexeme (isMark_iff.1 h) rfl (.bind (.emit _) fun _ =>
      .bind (Advances.startingWith _ hi).anyway fun found => ?_)
    cases found with
    | true =>
      refine .bind .next fun t₂ => ?_
      by_cases h₂ : isMark .closeGroup t₂.lexeme
      · rw [if_pos h₂, if_pos h₂]
        refine .behind_lexeme (isMark_iff.1 h₂) rfl (.bind (.emit _) fun _ => ?_)
        exact .bind (Advances.startingWith _ advances_multiplication).anyway fun _ =>
          .yes (by omega)
      · rw [if_neg h₂, if_neg h₂]
        exact .throw
    | false => exact .missing
  · rw [if_neg h, if_neg h]
    exact .retreat .no

omit [Builder β] in
/-- The token behind the marks is read as well. -/
theorem agrees_climbsAtMost (h : ts.length ≤ k + n) : Agrees (·.Ready ts k)
    ((watched idle endless).climbsAtMost n) (plain.climbsAtMost n)
    fun levels c => c.Past ts (k + levels) := by
  induction n generalizing k with
  | zero => exact .of_length_le h
  | succ n ih =>
    refine .bind .next fun t => ?_
    by_cases hmark : isMark .climb t.lexeme
    · rw [if_pos hmark, if_pos hmark]
      have hrest := ih (k := k + 1) (by omega)
      refine .behind_lexeme (isMark_iff.1 hmark) rfl (hrest.bind fun levels => ?_)
      refine .pure fun c hc => ?_
      rwa [Nat.add_right_comm] at hc
    · rw [if_neg hmark, if_neg hmark]
      exact .pure fun _ hc => hc.1

theorem advances_repeatedClimb :
    Advances ts k (watched idle endless).repeatedClimb plain.repeatedClimb := by
  refine .bound fun k' n hk h => .bind (agrees_climbsAtMost h) fun levels => .bind .back fun _ => ?_
  cases levels with
  | zero => exact .pure fun _ hc => hc.mono hk
  | succ levels => exact .report _ (by omega)

theorem advances_operator : Advances ts k (watched idle endless).operator plain.operator := by
  refine .bind .next fun t => ?_
  cases h : t.lexeme with
  | mark m =>
    cases m with
    | child => exact .behind_lexeme h rfl (.report _ (Nat.le_refl _))
    | sibling => exact .behind_lexeme h rfl (.report _ (Nat.le_refl _))
    | climb => exact .retreat advances_repeatedClimb
    | _ => exact .retreat .no
  | _ => exact .retreat .no

/-- Every item reads a token, and the bound is not reached. -/
theorem advances_abbreviationAtMost (h : ts.length ≤ k + n) : Advances ts k
    ((watched idle endless).abbreviationAtMost n) (plain.abbreviationAtMost n) := by
  induction n generalizing k with
  | zero => exact .of_length_le h
  | succ n ih =>
    have hrest : Advances ts (k + 1) _ _ := ih (by omega)
    refine .bind (Advances.either (.startingWith _ (advances_group hrest))
      (.startingWith _ advances_element)) fun found => ?_
    cases found with
    | true =>
      refine .bind (Advances.startingWith _ advances_operator).anyway fun found => ?_
      cases found with
      | true => exact (Advances.startingWith _ hrest).before (by omega)
      | false => exact .yes (Nat.le_refl _)
    | false => exact .no

theorem advances_abbreviation : Advances ts k (watched idle endless).abbreviation plain.abbreviation :=
  .bound fun _ _ hk h => (advances_abbreviationAtMost h).before hk

omit [Builder β] in
theorem agrees_ending (found : Bool) : Agrees (β := β) (·.Ready ts k) (ending found) (ending found)
    fun _ _ => True := by
  refine .bind .next fun t => ?_
  cases t.lexeme with
  | error cause => exact .throw
  | eof =>
    cases found with
    | true => exact .pure fun _ _ => trivial
    | false => exact .throw
  | _ => exact .throw

/-- No alarm is raised: nothing is pushed back in a transaction that has read nothing, and no loop or
recursion comes to its bound. -/
theorem watched_sentence (idle endless : ParseM β Unit) (source : String) (start : β) :
    (watched idle endless).sentence.run ⟨Cursor.ofString source, start⟩ = parse source start := by
  have hagrees : Agrees (·.Ready (tokenize source) 0) (watched idle endless).sentence sentence
      fun _ _ => True :=
    .bind (Advances.startingWith _ advances_abbreviation).anyway agrees_ending
  exact (hagrees.run _ (Cursor.ready_ofString source)).1

/-- Trying a production leaves no trace. One that answers no has not told the builder anything, for it
does the same with every other builder, and then the cursor is where it was and has the same counts, if
a tentative production is rolled back. Where a whole text is read, no token is pushed back in a
transaction that has read none. -/
theorem declined_without_trace :
    (∀ (x : Tentative) (s s' : Session β), x.read s = .ok false s' →
      ∀ (γ : Type) [Builder γ] (g : γ), x.read ⟨s.cursor, g⟩ = .ok false ⟨s'.cursor, g⟩) ∧
    (∀ (x : Tentative) (s s' : Session β), attempt x.read s = .ok false s' →
      s.cursor.Same s'.cursor ∧ s'.builder = s.builder) ∧
    (∀ (x : Direct) (s s' : Session β), x.read s = .ok false s' →
      (∀ (γ : Type) [Builder γ] (g : γ), x.read ⟨s.cursor, g⟩ = .ok false ⟨s'.cursor, g⟩) ∧
        s.cursor.Same s'.cursor ∧ s'.builder = s.builder) ∧
    plain.sentence = sentence (β := β) ∧
    ∀ (idle : ParseM β Unit) (source : String) (start : β),
      (watched idle (return ())).sentence.run ⟨Cursor.ofString source, start⟩ =
        parse source start := by
  -- It declines in the same way with any builder. With its own this says that the builder stays.
  have hbuilder {R : Cursor → Cursor → Prop} {p : ParseM β Bool} (hp : Declines R p p)
      {s s' : Session β} (hrun : p s = .ok false s') : s'.builder = s.builder := by
    have hsame : EStateM.Result.ok false s' = .ok false ⟨s'.cursor, s.builder⟩ :=
      hrun.symm.trans ((hp s s' hrun).2 s.builder)
    injection hsame with _ hs'
    rw [hs']
  refine ⟨?_, ?_, ?_, rfl, fun idle => watched_sentence idle _⟩
  · intro x s s' hrun γ _ g
    exact (declines_tentative x s s' hrun).2 g
  · intro x s s' hrun
    have hattempt := Declines.attempt (declines_tentative (β := β) (γ := β) x)
    exact ⟨(hattempt s s' hrun).1, hbuilder hattempt hrun⟩
  · intro x s s' hrun
    refine ⟨fun γ _ g => (declines_direct x s s' hrun).2 g, ?_⟩
    exact ⟨(declines_direct (γ := β) x s s' hrun).1, hbuilder (declines_direct x) hrun⟩

end

/-- At a word, in a transaction around the one that is tried. -/
theorem declined_at_word :
    let s : Session Recorder := ⟨(Cursor.ofString "a.b").begin, Recorder.accepting⟩
    ∃ tried left : Session Recorder, attempt Tentative.className.read s = .ok false tried ∧
      tried.cursor.position = 0 ∧ tried.cursor.counts = [0] ∧
      Direct.operator.read s = .ok false left ∧
      left.cursor.position = 0 ∧ left.cursor.counts = [0] ∧ left.builder = s.builder := by
  intro s
  obtain ⟨tried, htried⟩ : ∃ s', attempt Tentative.className.read s = .ok false s' := ⟨_, rfl⟩
  obtain ⟨left, hleft⟩ : ∃ s', Direct.operator.read s = .ok false s' := ⟨_, rfl⟩
  obtain ⟨-, htentative, hdirect, -⟩ := declined_without_trace (β := Recorder)
  obtain ⟨⟨hposition, hcounts⟩, -⟩ := htentative .className s tried htried
  obtain ⟨-, ⟨hposition', hcounts'⟩, hbuilder⟩ := hdirect .operator s left hleft
  exact ⟨tried, left, htried, hposition, hcounts, hleft, hposition', hcounts', hbuilder⟩

end Grammar
end Shorthand
