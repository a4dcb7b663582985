import Shorthand.Expansion
import Shorthand.Proofs.Grammar.Horizon
import Shorthand.Proofs.Grammar.Outcome

/-! # What reading depends on

Two texts with the same lexemes are read alike, whatever blanks stand between them, whichever quotes
they are written in and wherever they stand: every builder is told the same, and the answers differ
in the places that errors name and in nothing else (`parse_by_lexemes`). -/

namespace Shorthand
open Grammar

/-- A token without its place. -/
def Token.unplaced (t : Token) : Token := { t with position := 0 }

/-- An error without the places that it names. -/
def ParseError.unplaced : ParseError → ParseError
  | lex cause _ => lex cause 0
  | missing fault found => missing fault found.unplaced
  | build cause => build cause
  | unexpected found => unexpected found.unplaced
  | trailing found => trailing found.unplaced

/-- The same error with no position. -/
def ExpansionError.unplaced : ExpansionError → ExpansionError
  | parse cause => parse cause.unplaced
  | format cause => format cause

/-- What a parser says in the end. -/
def Grammar.answer {β γ : Type} : EStateM.Result ParseError (Session β) γ → Except ParseError γ
  | .ok a _ => .ok a
  | .error e _ => .error e

/-- Nothing tells two texts apart but the places in errors. -/
structure ReadAlike (source source' : String) : Prop where
  events : ∃ es, ∀ (β : Type) [Builder β] (start : β),
    built (parse source start) = (Builder.feed start es).1 ∧
      built (parse source' start) = (Builder.feed start es).1
  answer : ∀ (β : Type) [Builder β] (start : β),
    (answer (parse source start)).mapError ParseError.unplaced =
      (answer (parse source' start)).mapError ParseError.unplaced
  tree : (parseTree source).mapError ParseError.unplaced =
    (parseTree source').mapError ParseError.unplaced
  output : ∀ (registry : Registry) (format : String),
    (expand registry format source).mapError ExpansionError.unplaced =
      (expand registry format source').mapError ExpansionError.unplaced

variable {source source' : String} {t t' : Token}

theorem Token.unplaced_eq (h : t.lexeme = t'.lexeme) : t.unplaced = t'.unplaced := by
  obtain ⟨l, position⟩ := t
  obtain ⟨l', position'⟩ := t'
  obtain rfl : l = l' := h
  rfl

theorem mapError_bind_congr {ε ε' α γ : Type} {x x' : Except ε α} {g : ε → ε'}
    (h : x.mapError g = x'.mapError g) (f : α → Except ε γ) :
    (x >>= f).mapError g = (x' >>= f).mapError g := by
  cases x with
  | ok a =>
    cases x' with
    | ok a' => rw [Except.ok.inj h]
    | error e' => cases h
  | error e =>
    cases x' with
    | ok a' => cases h
    | error e' => exact congrArg Except.error (Except.error.inj h)

namespace Grammar

theorem unplaced_required (fault : Fault) (h : t.lexeme = t'.lexeme) :
    (ParseError.required fault t).unplaced = (ParseError.required fault t').unplaced := by
  simp only [ParseError.required, h]
  cases t'.lexeme with
  | error cause => rfl
  | _ => exact congrArg (ParseError.missing fault) (Token.unplaced_eq h)

theorem unplaced_verdict (r : Reading (Option Derivation.Abbreviation)) (h : t.lexeme = t'.lexeme) :
    (verdict r t).map ParseError.unplaced = (verdict r t').map ParseError.unplaced := by
  have ht := Token.unplaced_eq h
  obtain ⟨es, ⟨fault, rest⟩ | ⟨x, rest⟩⟩ := r
  · exact congrArg some (unplaced_required fault h)
  · simp only [verdict, h]
    cases t'.lexeme with
    | error cause => rfl
    | eof => cases x <;> simp [ParseError.unplaced, ht]
    | _ => cases x <;> simp [ParseError.unplaced, ht]

theorem answer_outcome {β : Type} (c c' : Cursor) (fed : β × Option BuildError)
    {v v' : Option ParseError} (h : v.map ParseError.unplaced = v'.map ParseError.unplaced) :
    (answer (outcome c fed v)).mapError ParseError.unplaced =
      (answer (outcome c' fed v')).mapError ParseError.unplaced := by
  obtain ⟨b, _ | cause⟩ := fed
  · cases v with
    | none =>
      cases v' with
      | none => rfl
      | some e' => cases h
    | some e =>
      cases v' with
      | none => cases h
      | some e' => exact congrArg Except.error (Option.some.inj h)
  · rfl

theorem opening_congr (h : lexemes (tokenize source) = lexemes (tokenize source')) :
    opening source = opening source' := by
  rw [opening, h]
  rfl

theorem answer_congr {β : Type} [Builder β]
    (h : lexemes (tokenize source) = lexemes (tokenize source')) (start : β) :
    (answer (parse source start)).mapError ParseError.unplaced =
      (answer (parse source' start)).mapError ParseError.unplaced := by
  obtain ⟨us, t, rest, hstops⟩ := exists_stops source
  obtain ⟨us', t', rest', hstops'⟩ := exists_stops source'
  obtain ⟨c, hc⟩ := parse_eq_outcome hstops start
  obtain ⟨c', hc'⟩ := parse_eq_outcome hstops' start
  -- What is ahead where the reading stops is the same for both, and so is the lexeme to blame.
  have hahead : lexemes (t :: rest) = lexemes (t' :: rest') := by
    rw [← hstops.ahead, ← hstops'.ahead, opening_congr h]
  rw [hc, hc', opening_congr h]
  exact answer_outcome c c' _ (unplaced_verdict _ (List.cons.inj hahead).1)

end Grammar

/-! ### Trees and output -/

theorem parseTree_eq (source : String) : parseTree source = (do
    answer (parse source TreeBuilder.start)
    (built (parse source TreeBuilder.start)).finish.mapError .build) := by
  rw [parseTree]
  cases parse source TreeBuilder.start <;> rfl

theorem parseTree_congr (h : lexemes (tokenize source) = lexemes (tokenize source')) :
    (parseTree source).mapError ParseError.unplaced =
      (parseTree source').mapError ParseError.unplaced := by
  have hbuilt : built (parse source TreeBuilder.start) = built (parse source' TreeBuilder.start) := by
    rw [built_parse, built_parse, opening_congr h]
  rw [parseTree_eq, parseTree_eq, hbuilt]
  exact mapError_bind_congr (answer_congr h _) _

theorem expand_congr (h : lexemes (tokenize source) = lexemes (tokenize source'))
    (registry : Registry) (format : String) :
    (expand registry format source).mapError ExpansionError.unplaced =
      (expand registry format source').mapError ExpansionError.unplaced := by
  have htree : ((parseTree source).mapError ExpansionError.parse).mapError ExpansionError.unplaced =
      ((parseTree source').mapError ExpansionError.parse).mapError ExpansionError.unplaced := by
    have hcomp (x : Except ParseError Tree) :
        (x.mapError ExpansionError.parse).mapError ExpansionError.unplaced =
          (x.mapError ParseError.unplaced).mapError ExpansionError.parse := by
      cases x <;> rfl
    rw [hcomp, hcomp, parseTree_congr h]
  unfold expand
  cases (registry.lookup format).mapError ExpansionError.format with
  | error e => rfl
  | ok writer => exact mapError_bind_congr htree _

/-- Nothing behind the first final token of a text is read, whatever the builder does, and texts with
the same lexemes are read alike. -/
theorem parse_by_lexemes (source source' : String) :
    (∀ (β : Type) [Builder β] (start : β),
      (left (parse source start)).cursor.log.scanned <+: tokenize source) ∧
    (lexemes (tokenize source) = lexemes (tokenize source') → ReadAlike source source') := by
  refine ⟨fun β _ start => (within_parse source start).isPrefix_scanned, fun h => ?_⟩
  refine ⟨⟨(opening source).events, fun β _ start => ⟨built_parse source start, ?_⟩⟩,
    fun β _ start => answer_congr h start, parseTree_congr h, expand_congr h⟩
  rw [opening_congr h]
  exact built_parse source' start

/-- The count is missing in another place if the text is spaced and quoted in another way, and that is
all. -/
theorem missing_count_respaced :
    tokenize "a[b=\"c\"]*x" ≠ tokenize " a [ b = 'c' ] * x " ∧
    (parseTree "a[b=\"c\"]*x").mapError ParseError.unplaced =
      (parseTree " a [ b = 'c' ] * x ").mapError ParseError.unplaced :=
  ⟨by decide +kernel, ((parse_by_lexemes _ _).2 (by decide +kernel)).tree⟩

end Shorthand
