import Shorthand.Proofs.Grammar.Acceptance
import Shorthand.Proofs.Grammar.Lookahead

/-! # How reading ends

The events and the verdict on a text do not depend on the builder. A builder is fed these events, and
the parser fails with its first refusal or else with the verdict (`parse_eq_outcome`). -/

namespace Shorthand.Grammar
open Shorthand.Derivation
variable {β : Type} [Builder β] {source : String} {us rest : List Token} {t : Token}

/-- What is wrong if `t` is the token at which the reading stops. -/
def verdict (r : Reading (Option Abbreviation)) (t : Token) : Option ParseError :=
  match r.ending with
  | .error (fault, _) => some (.required fault t)
  | .ok (x, _) =>
    match t.lexeme with
    | .error cause => some (.lex cause t.position)
    | .eof => if x.isSome then none else some (.unexpected t)
    | _ => some (if x.isSome then .trailing t else .unexpected t)

/-- The end of a parser whose builder was fed, and then has the cursor `c`. -/
def outcome (c : Cursor) (fed : β × Option BuildError) (v : Option ParseError) :
    EStateM.Result ParseError (Session β) Unit :=
  match fed.2, v with
  | some cause, _ => .error (.build cause) ⟨c, fed.1⟩
  | none, some e => .error e ⟨c, fed.1⟩
  | none, none => .ok () ⟨c, fed.1⟩

/-- The builder when reading has ended, with an error or without. -/
def built : EStateM.Result ParseError (Session β) Unit → β
  | .ok _ s => s.builder
  | .error _ s => s.builder

omit [Builder β] in
theorem built_outcome (c : Cursor) (fed : β × Option BuildError) (v : Option ParseError) :
    built (outcome c fed v) = fed.1 := by
  obtain ⟨b, _ | cause⟩ := fed
  · cases v <;> rfl
  · rfl

/-- The reading of a text stops at `t`. -/
structure Stops (source : String) (us : List Token) (t : Token) (rest : List Token) : Prop where
  tokens : tokenize source = us ++ t :: rest
  ahead : (opening source).ahead = lexemes (t :: rest)

theorem exists_stops (source : String) : ∃ us t rest, Stops source us t rest := by
  have hd := opening_delivered source Recorder.accepting
  generalize plain.startingWith Lexeme.startsAbbreviation plain.abbreviation (_ : Session Recorder) = y at hd
  generalize hx : opening source = x at hd
  cases hd with
  | done us hts hrest hb hc =>
    obtain ⟨t, rest, rfl⟩ := hrest.exists_cons
    exact ⟨us, t, rest, hts, by rw [hx]; rfl⟩
  | faulty us hts hb => exact ⟨us, _, _, hts, by rw [hx]; rfl⟩
  | refused hb =>
    rw [feed_recorder _ _ rfl] at hb
    cases hb

theorem Stops.eq {us' rest' : List Token} {t' : Token} (h : Stops source us t rest)
    (hts : tokenize source = us' ++ t' :: rest')
    (ha : (opening source).ahead = lexemes (t' :: rest')) : us' = us ∧ t' = t ∧ rest' = rest := by
  have hlen : (t' :: rest').length = (t :: rest).length := by
    rw [← length_lexemes, ← length_lexemes, ← ha, ← h.ahead]
  obtain ⟨rfl, hcons⟩ := List.append_inj' (hts.symm.trans h.tokens) hlen
  obtain ⟨rfl, rfl⟩ := List.cons.inj hcons
  exact ⟨rfl, rfl, rfl⟩

omit [Builder β] in
theorem ending_run (x : Option Abbreviation) {c : Cursor} {b : β} {past : List Token}
    {counts : List Nat} (hc : c.At past counts (t :: rest)) :
    ending x.isSome ⟨c, b⟩ = outcome c.next.2 (b, none) (verdict (.done [] x []) t) := by
  unfold ending verdict outcome
  rw [next_bind, hc.next_token]
  simp only [Reading.done]
  cases ht : t.lexeme with
  | error cause => rfl
  | eof => cases x <;> rfl
  | _ => rfl

/-- A builder is told the events of the text up to the first that it refuses. Without a refusal the
verdict counts. -/
theorem parse_eq_outcome (h : Stops source us t rest) (start : β) : ∃ c, parse source start =
    outcome c (Builder.feed start (opening source).events) (verdict (opening source) t) := by
  have hd := opening_delivered source start
  rw [parse_eq, bind_run]
  generalize plain.startingWith Lexeme.startsAbbreviation plain.abbreviation (_ : Session β) = y at hd ⊢
  generalize hx : opening source = x at hd
  cases hd with
  | @done es x c b us' rest' hts hrest hb hc =>
    obtain ⟨t', rest', rfl⟩ := hrest.exists_cons
    obtain ⟨rfl, rfl, rfl⟩ := h.eq hts (by rw [hx]; rfl)
    refine ⟨c.next.2, ?_⟩
    rw [Reading.events_done, hb]
    exact ending_run x hc
  | @faulty es fault c b us' t' rest' hts hb =>
    obtain ⟨rfl, rfl, rfl⟩ := h.eq hts (by rw [hx]; rfl)
    exact ⟨c, by rw [hb]; rfl⟩
  | @refused r cause c b hb =>
    exact ⟨c, by rw [hb]; rfl⟩

theorem built_parse (source : String) (start : β) :
    built (parse source start) = (Builder.feed start (opening source).events).1 := by
  obtain ⟨us, t, rest, h⟩ := exists_stops source
  obtain ⟨c, hc⟩ := parse_eq_outcome h start
  rw [hc, built_outcome]

/-- A recorder writes down what every builder is told. -/
theorem events_recorded (source : String) :
    (built (parse source Recorder.accepting)).events = (opening source).events := by
  rw [built_parse, feed_recorder _ _ rfl, Recorder.events, Recorder.accepting, List.append_nil,
    List.reverse_reverse]

theorem parse_eq_error_iff {start : β} {e : ParseError} (h : Stops source us t rest)
    (hfeed : (Builder.feed start (opening source).events).2 = none) :
    (∃ s, parse source start = .error e s) ↔ verdict (opening source) t = some e := by
  obtain ⟨c, hc⟩ := parse_eq_outcome h start
  generalize Builder.feed start (opening source).events = fed at hfeed hc
  obtain ⟨b, cause⟩ := fed
  obtain rfl : cause = none := hfeed
  rw [hc]
  cases verdict (opening source) t with
  | none =>
    constructor
    · rintro ⟨s, hs⟩
      cases hs
    · intro he
      cases he
  | some e' =>
    constructor
    · rintro ⟨s, hs⟩
      cases hs
      rfl
    · intro he
      cases he
      exact ⟨_, rfl⟩

end Shorthand.Grammar
