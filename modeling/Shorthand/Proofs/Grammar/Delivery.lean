import Shorthand.Proofs.Grammar.Completeness
import Shorthand.Proofs.Token.Ahead

/-! # The parser delivers the reading

`Delivers p f r` says that the production `p`, with its cursor and its builder, does what `r` says
about the lexemes ahead: the builder is fed the events up to the first that it refuses, a fault is
reported for the token in question, and otherwise the cursor stands behind what was read. There is
one lemma for every way to combine productions and then one for every production. -/

namespace Shorthand

namespace Grammar
open Reading (done)
variable {α γ δ β : Type} {past ts us : List Token} {counts : List Nat} {c : Cursor} {t : Token}

theorem bind_run (p : ParseM β γ) (q : γ → ParseM β δ) (s : Session β) :
    (p >>= q) s = match p s with
      | .ok a s => q a s
      | .error e s => .error e s := by
  show EStateM.bind p q s = _
  unfold EStateM.bind
  cases p s <;> rfl

theorem next_bind (q : Token → ParseM β γ) (s : Session β) :
    (next >>= q) s = q s.cursor.next.1 { s with cursor := s.cursor.next.2 } := rfl

theorem back_bind (q : Unit → ParseM β γ) (s : Session β) :
    (plain.back >>= q) s = q () { s with cursor := s.cursor.back } := rfl

theorem peek_bind (q : Token → ParseM β γ) (s : Session β) :
    (plain.peek >>= q) s = q s.cursor.peek.1 { s with cursor := s.cursor.peek.2 } := rfl

theorem plain_retreat (n : Nat) (s : Session β) :
    plain.retreat n s = .ok () { s with cursor := s.cursor.backN n } := by
  induction n generalizing s with
  | zero => rfl
  | succ n ih => exact ih { s with cursor := s.cursor.back }

/-- A transaction that is not kept is rolled back. -/
theorem attempt_run (p : ParseM β Bool) (s : Session β) :
    plain.attempt p s = match p { s with cursor := s.cursor.begin } with
      | .ok true s => .ok true { s with cursor := s.cursor.close }
      | .ok false s => .ok false { s with cursor := s.cursor.rollback.close }
      | .error e s => .error e { s with cursor := s.cursor.close } := by
  unfold Hooks.attempt
  simp only [plain_retreat]
  rfl

theorem isMark_iff {m : Mark} {l : Lexeme} : isMark m l = true ↔ l = .mark m := by
  simp [isMark]

def lexemes (ts : List Token) : List Lexeme := ts.map (·.lexeme)

@[simp] theorem lexemes_cons (t : Token) (ts : List Token) :
    lexemes (t :: ts) = t.lexeme :: lexemes ts := rfl

@[simp] theorem length_lexemes (ts : List Token) : (lexemes ts).length = ts.length :=
  List.length_map _

variable [Builder β] {b b' : β} {es : List Event}

/-- The result of reading in front of the tokens `ts` amounts to a reading of their lexemes. -/
inductive Delivered (past : List Token) (counts : List Nat) (ts : List Token) (b : β)
    (f : α → γ) : Reading α → EStateM.Result ParseError (Session β) γ → Prop
  | done {es : List Event} {a : α} {c : Cursor} {b' : β} (us : List Token) {rest : List Token}
    (hts : ts = us ++ rest) (hrest : Terminated rest) (hb : Builder.feed b es = (b', none))
    (hc : c.At (us.reverse ++ past) (counts.map (· + us.length)) rest) :
    Delivered past counts ts b f (.done es a (lexemes rest)) (.ok (f a) ⟨c, b'⟩)
  | faulty {es : List Event} {fault : Fault} {c : Cursor} {b' : β} (us : List Token) {t : Token}
    {rest : List Token} (hts : ts = us ++ t :: rest) (hb : Builder.feed b es = (b', none)) :
    Delivered past counts ts b f ⟨es, .error (fault, lexemes (t :: rest))⟩
      (.error (.required fault t) ⟨c, b'⟩)
  | refused {r : Reading α} {cause : BuildError} {c : Cursor} {b' : β}
    (hb : Builder.feed b r.events = (b', some cause)) :
    Delivered past counts ts b f r (.error (.build cause) ⟨c, b'⟩)

/-- In front of any tokens, `p` amounts to the reading `r` of their lexemes. -/
structure Delivers (p : ParseM β γ) (f : α → γ) (r : List Lexeme → Reading α) : Prop where
  delivered : ∀ {c : Cursor} {b : β} {past : List Token} {counts : List Nat} {ts : List Token},
    Terminated ts → c.At past counts ts →
      Delivered past counts ts b f (r (lexemes ts)) (p ⟨c, b⟩)

namespace Delivered
variable {f : α → γ} {x : Reading α} {y : EStateM.Result ParseError (Session β) γ}

/-- What is delivered behind some tokens, after some events, is delivered from their front on. -/
theorem after (us : List Token) {rest : List Token} (hts : ts = us ++ rest)
    (hb : Builder.feed b es = (b', none))
    (h : Delivered (us.reverse ++ past) (counts.map (· + us.length)) rest b' f x y) :
    Delivered past counts ts b f ⟨es ++ x.events, x.ending⟩ y := by
  subst hts
  cases h with
  | done us₂ hts hrest hb₂ hc =>
    subst hts
    refine .done (us ++ us₂) (by simp) hrest ((Builder.feed_append hb _).trans hb₂) ?_
    simpa [Nat.add_assoc, Function.comp_def] using hc
  | faulty us₂ hts hb₂ =>
    subst hts
    exact .faulty (us ++ us₂) (by simp) ((Builder.feed_append hb _).trans hb₂)
  | refused hb₂ => exact .refused ((Builder.feed_append hb _).trans hb₂)

theorem behind (us : List Token) {rest : List Token} (hts : ts = us ++ rest)
    (h : Delivered (us.reverse ++ past) (counts.map (· + us.length)) rest b f x y) :
    Delivered past counts ts b f x y := by
  have hfeed : Builder.feed b [] = (b, none) := rfl
  exact h.after us hts hfeed

theorem token (h : Delivered (t :: past) (counts.map (· + 1)) ts b f x y) :
    Delivered past counts (t :: ts) b f x y :=
  h.behind [t] rfl

theorem here (a : α) (ht : Terminated ts) (hc : c.At past counts ts) :
    Delivered past counts ts b f (.done [] a (lexemes ts)) (.ok (f a) ⟨c, b⟩) :=
  .done [] rfl ht rfl (by simpa using hc)

/-- The token that is read decides what comes. -/
theorem next {q : Token → ParseM β γ} (hc : c.At past counts (t :: ts))
    (h : Delivered (t :: past) (counts.map (· + 1)) ts b f x (q t ⟨c.next.2, b⟩)) :
    Delivered past counts (t :: ts) b f x ((Grammar.next >>= q) ⟨c, b⟩) := by
  rw [next_bind, hc.next_token]
  exact h.token

/-- The token that is read is pushed back, and nothing else is read. -/
theorem back {α : Type} {q : Token → ParseM β Bool} {l : Lexeme}
    (ht : Terminated (t :: ts)) (hc : c.At past counts (t :: ts)) (hl : t.lexeme = l)
    (hq : q t = (do plain.back; return false)) :
    Delivered (α := Option α) past counts (t :: ts) b Option.isSome
      (.done [] none (l :: lexemes ts)) ((Grammar.next >>= q) ⟨c, b⟩) := by
  subst hl
  rw [next_bind, hc.next_token, hq]
  exact .here none ht hc.next.back

theorem fault {l : Lexeme} (fault : Fault) (ht : t.lexeme = l) :
    Delivered past counts (t :: ts) b f (.fault fault (l :: lexemes ts))
      (.error (.required fault t) ⟨c, b⟩) := by
  subst ht
  exact .faulty [] rfl rfl

end Delivered

namespace Delivers
variable {p : ParseM β γ} {f : α → γ} {r : List Lexeme → Reading α}

theorem pure (a : α) : Delivers (Pure.pure (f a) : ParseM β γ) f fun ls => done [] a ls :=
  ⟨fun ht hc => .here a ht hc⟩

theorem nothing : Delivers (β := β) (return false) Option.isSome
    fun ls => done [] (none : Option α) ls :=
  ⟨fun ht hc => .here (f := Option.isSome) none ht hc⟩

theorem result (a : α) : Delivers (β := β) (return true) Option.isSome
    fun ls => done [] (some a) ls :=
  ⟨fun ht hc => .here (f := Option.isSome) (some a) ht hc⟩

theorem bind {α' : Type} {q : γ → ParseM β δ} {g : α' → δ} {r' : α → List Lexeme → Reading α'}
    (hp : Delivers p f r) (hq : ∀ a, Delivers (q (f a)) g (r' a)) :
    Delivers (p >>= q) g fun ls => (r ls).bind r' := by
  refine ⟨fun {c b past counts ts} ht hc => ?_⟩
  have h := hp.delivered (b := b) ht hc
  rw [bind_run]
  show Delivered past counts ts b g ((r (lexemes ts)).bind r') _
  generalize p ⟨c, b⟩ = y at h ⊢
  generalize r (lexemes ts) = x at h ⊢
  cases h with
  | done us hts hrest hb hc => exact ((hq _).delivered hrest hc).after us hts hb
  | faulty us hts hb => exact .faulty us hts hb
  | refused hb =>
    obtain ⟨es, _ | ⟨a, rest⟩⟩ := x
    · exact .refused hb
    · exact .refused (Builder.feed_append_of_refused hb _)

theorem report (e : Event) (hp : Delivers p f r) :
    Delivers (emit e >>= fun _ => p) f fun ls => .report e (r ls) := by
  refine ⟨fun {c b past counts ts} ht hc => ?_⟩
  rw [bind_run]
  unfold emit
  rcases hb : Builder.accept b e with ⟨b', _ | cause⟩
  · have hfeed : Builder.feed b [e] = (b', none) := by simp [Builder.feed, hb]
    exact Delivered.after [] rfl hfeed (by simpa using hp.delivered ht hc)
  · exact .refused (by simp [Reading.report, Builder.feed, hb])

section
variable {p q : ParseM β Bool} {r r' : List Lexeme → Reading (Option α)}

theorem andThen {α' : Type} {r' : α → List Lexeme → Reading (Option α')}
    (hp : Delivers p Option.isSome r) (hq : ∀ a, Delivers q Option.isSome (r' a)) :
    Delivers (do if ← p then q else return false) Option.isSome fun ls => (r ls).bindSome r' := by
  refine hp.bind fun x => ?_
  cases x with
  | none => exact Delivers.nothing
  | some a => exact hq a

theorem map {α' : Type} {h : α → α'} (hp : Delivers p Option.isSome r) :
    Delivers p Option.isSome fun ls => (r ls).map h := by
  have hpure : (fun x : Bool => (if x then return true else return false : ParseM β Bool)) =
      Pure.pure := funext fun x => by cases x <;> rfl
  have hrun : p = (do if ← p then return true else return false) := by
    rw [hpure, bind_pure]
  rw [hrun]
  exact hp.andThen fun a => .result (h a)

theorem either (hp : Delivers p Option.isSome r) (hq : Delivers q Option.isSome r') :
    Delivers (Grammar.either p q) Option.isSome fun ls => (r ls).orElse r' := by
  refine hp.bind fun x => ?_
  cases x with
  | none => exact hq
  | some a => exact Delivers.result a

theorem startingWith (test : Lexeme → Bool) (hp : Delivers p Option.isSome r) :
    Delivers (plain.startingWith test p) Option.isSome (Reading.startingWith test r) := by
  refine ⟨fun {c b past counts ts} ht hc => ?_⟩
  cases ts with
  | nil => cases ht
  | cons t ts =>
    rw [Hooks.startingWith, peek_bind, hc.peek_token, lexemes_cons, Reading.startingWith]
    split
    · exact hp.delivered ht hc.peek
    · exact .here none ht hc.peek

/-- A test that `r` makes itself. -/
theorem guarded {test : Lexeme → Bool} (hp : Delivers p Option.isSome r)
    (hr : ∀ l ls, test l = false → r (l :: ls) = done [] none (l :: ls)) :
    Delivers (plain.startingWith test p) Option.isSome r := by
  have hsame (l : Lexeme) (ls : List Lexeme) :
      Reading.startingWith test r (l :: ls) = r (l :: ls) := by
    rw [Reading.startingWith]
    split
    · rfl
    · next h => exact (hr l ls (by simpa using h)).symm
  refine ⟨fun {c b past counts ts} ht hc => ?_⟩
  cases ts with
  | nil => cases ht
  | cons t ts =>
    rw [lexemes_cons, ← hsame]
    exact (hp.startingWith test).delivered ht hc

theorem manyAtMost (hp : Delivers p Option.isSome r) (bound : Nat) :
    Delivers (plain.manyAtMost p bound) (fun _ => ()) (Reading.manyAtMost r bound) := by
  induction bound with
  | zero => exact Delivers.pure (f := fun _ => ()) []
  | succ bound ih =>
    refine hp.bind fun x => ?_
    cases x with
    | none => exact Delivers.pure (f := fun _ => ()) []
    | some a =>
      show Delivers (plain.manyAtMost p bound) _ _
      rw [← bind_pure (plain.manyAtMost p bound)]
      exact ih.bind fun as => Delivers.pure (f := fun _ => ()) (a :: as)

end

theorem expect {m : Mark} {f : Fault} {q : ParseM β γ} {g : α → γ} {r : List Lexeme → Reading α}
    (hq : Delivers q g r) :
    Delivers (do
        let found ← next
        if isMark m found.lexeme then q else throw (.required f found)) g
      fun ls => (Reading.expect m f ls).bind fun _ ls => r ls := by
  refine ⟨fun {c b past counts ts} ht hc => ?_⟩
  obtain ⟨t, ts, rfl⟩ := ht.exists_cons
  rw [next_bind, hc.next_token, lexemes_cons]
  show Delivered _ _ _ _ _ ((if t.lexeme = .mark m then _ else _ : Reading Unit).bind _) _
  by_cases h : t.lexeme = .mark m
  · rw [if_pos h, if_pos (isMark_iff.2 h)]
    exact .token (hq.delivered (ht.tail (by simp [h, Lexeme.isFinal])) hc.next)
  · rw [if_neg h, if_neg (mt isMark_iff.1 h)]
    exact .fault f rfl

theorem missing (f : Fault) {g : α → γ} :
    Delivers (do throw (.required f (← plain.peek)) : ParseM β γ) g fun ls => .fault f ls := by
  refine ⟨fun {c b past counts ts} ht hc => ?_⟩
  obtain ⟨t, ts, rfl⟩ := ht.exists_cons
  rw [peek_bind, hc.peek_token]
  exact .fault f rfl

variable {leaves : α → List Lexeme} {events : α → List Event} {p : ParseM β Bool}
  {r : List Lexeme → Reading (Option α)}

theorem many (hp : Delivers p Option.isSome r) (hs : Reading.Sound leaves events r)
    (hne : ∀ a, leaves a ≠ []) (hnil : r [] = done [] none []) :
    Delivers (plain.many p) (fun _ => ()) (Reading.many r) := by
  refine ⟨fun {c b past counts ts} ht hc => ?_⟩
  have hb : (lexemes ts).length ≤ c.unread + 1 := by
    rw [length_lexemes]
    exact hc.shows.length_le ht
  rw [Reading.many, hs.manyAtMost_congr hne hnil (Nat.le_refl _) hb]
  exact (hp.manyAtMost (c.unread + 1)).delivered ht hc

/-- In a transaction, `p` amounts to the reading `r`, or reads what `r` does not. -/
structure Attempts (p : ParseM β Bool) (r : List Lexeme → Reading (Option α)) : Prop where
  attempted : ∀ {c : Cursor} {b : β} {past : List Token} {counts : List Nat} {ts : List Token},
    Terminated ts → c.At past counts ts →
      Delivered past counts ts b Option.isSome (r (lexemes ts)) (p ⟨c, b⟩) ∨
      ∃ us rest c', ts = us ++ rest ∧ r (lexemes ts) = done [] none (lexemes ts) ∧
        p ⟨c, b⟩ = .ok false ⟨c', b⟩ ∧
        c'.At (us.reverse ++ past) (counts.map (· + us.length)) rest

theorem Attempts.marked {m : Mark} {q : ParseM β Bool} {r' : List Lexeme → Reading (Option α)}
    (hq : Delivers q Option.isSome r') (hr : ∀ ls, r (.mark m :: ls) = r' ls)
    (hn : ∀ l ls, l ≠ .mark m → r (l :: ls) = done [] none (l :: ls)) :
    Attempts (do if isMark m (← next).lexeme then q else return false) r := by
  refine ⟨fun {c b past counts ts} ht hc => ?_⟩
  obtain ⟨t, ts, rfl⟩ := ht.exists_cons
  by_cases h : t.lexeme = .mark m
  · left
    refine .next hc ?_
    rw [if_pos (isMark_iff.2 h), lexemes_cons, h, hr]
    exact hq.delivered (ht.tail (by simp [h, Lexeme.isFinal])) hc.next
  · right
    refine ⟨[t], ts, c.next.2, rfl, hn _ _ h, ?_, hc.next⟩
    rw [next_bind, hc.next_token, if_neg (mt isMark_iff.1 h)]
    rfl

theorem marked {m : Mark} {q : ParseM β Bool} {r' : List Lexeme → Reading (Option α)}
    (hq : Delivers q Option.isSome r') (hr : ∀ ls, r (.mark m :: ls) = r' ls)
    (hn : ∀ l ls, l ≠ .mark m → r (l :: ls) = done [] none (l :: ls)) :
    Delivers (do if isMark m (← next).lexeme then q else do plain.back; return false)
      Option.isSome r := by
  refine ⟨fun {c b past counts ts} ht hc => ?_⟩
  obtain ⟨t, ts, rfl⟩ := ht.exists_cons
  by_cases h : t.lexeme = .mark m
  · refine .next hc ?_
    rw [if_pos (isMark_iff.2 h), lexemes_cons, h, hr]
    exact hq.delivered (ht.tail (by simp [h, Lexeme.isFinal])) hc.next
  · rw [lexemes_cons, hn _ _ h]
    exact .back ht hc rfl (if_neg (mt isMark_iff.1 h))

/-- What was read without success is pushed back. -/
theorem attempt (hp : Attempts p r) (hs : Reading.Sound leaves events r) :
    Delivers (plain.attempt p) Option.isSome r := by
  refine ⟨fun {c b past counts ts} ht hc => ?_⟩
  rw [attempt_run]
  rcases hp.attempted (b := b) ht hc.begin with h | ⟨us, rest, c', rfl, hr, hrun, hc'⟩
  · generalize hy : p ⟨c.begin, b⟩ = y at h ⊢
    generalize hx : r (lexemes ts) = x at h ⊢
    cases h with
    | @done es x c' b' us rest hts hrest hb hc' =>
      cases x with
      | some a => exact .done us hts hrest hb hc'.close
      | none =>
        obtain ⟨hls, rfl⟩ := hs.of_none hx
        obtain rfl : us = [] := by simpa [hts] using congrArg List.length hls
        obtain rfl : ts = rest := hts
        cases hb
        exact .here none ht hc'.rollback
    | faulty us hts hb => exact .faulty us hts hb
    | refused hb => exact .refused hb
  · rw [hrun, hr]
    exact .here none ht hc'.rollback

end Delivers
end Grammar
end Shorthand
