import Mathlib.Order.Bounds.Defs
import Shorthand.Proofs.Grammar.Beginnings
import Shorthand.Proofs.Grammar.Outcome

/-! # Where a text goes wrong

The token that an error names is the first that no text with a derivation tree can have in its place,
and the kind of the error says what was read in front of it (`error_at_first_impossible`). -/

namespace Shorthand
open Grammar Reading Shorthand.Derivation

/-- The lexemes of some text with a derivation tree start with these. -/
def Viable (ls : List Lexeme) : Prop :=
  ∃ source a, Derives source a ∧ ls <+: lexemes (tokenize source)

theorem Viable.of_prefix {us more : List Lexeme} (h : Viable (us ++ more)) : Viable us := by
  obtain ⟨source, a, ha, hprefix⟩ := h
  exact ⟨source, a, ha, (List.prefix_append us more).trans hprefix⟩

/-- These are the lexemes of a whole abbreviation. -/
def Complete (ls : List Lexeme) : Prop := ∃ a : Abbreviation, ls = a.lexemes

/-- Nothing was read, or an operator outside all parentheses was the last. -/
def AwaitsItem (ls : List Lexeme) : Prop := ls = [] ∨ BreaksOff ls

/-- The token that an error names. Of a malformed one it gives the place and what is wrong. -/
def ParseError.Cites : ParseError → Token → Prop
  | lex cause position, t => t = ⟨.error cause, position⟩
  | missing _ found, t | unexpected found, t | trailing found, t => t = found
  | build _, _ => False

namespace Grammar
variable {source : String} {us ls xs : List Lexeme} {l : Lexeme} {es : List Event}
  {a : Abbreviation}

theorem isWritable_of_mem (h : l ∈ lexemes (tokenize source)) (hl : ¬ l.isFinal) :
    l.isWritable := by
  rw [lexemes, map_lexeme_tokenize] at h
  exact Scan.isWritable_of_mem h hl

theorem viable_of_begins (ha : ∀ l ∈ a.lexemes, l.isWritable)
    (h : Begins Abbreviation.lexemes Abbreviation.events us es a) : Viable us := by
  obtain ⟨more, hmore, -⟩ := h.leaves
  obtain ⟨source, hsource⟩ := exists_source ha
  refine ⟨source, a, hsource, more ++ [.eof], ?_⟩
  rw [lexemes, hsource, hmore, List.append_assoc]

def reading (ls : List Lexeme) : Reading (Option Abbreviation) :=
  Reading.startingWith Lexeme.startsAbbreviation Reading.abbreviation ls

theorem foresees_reading : Foresees reading := by
  refine foresees_abbreviation.startingWith rfl fun ls => ?_
  rw [Reading.abbreviation, abbreviationAtMost_eof]
  rfl

theorem unfinished_reading : Unfinished reading := by
  have h : Unfinished Reading.abbreviation :=
    ⟨(unfinished_abbreviationAtMost _).faulty, (unfinished_abbreviationAtMost _).brokenOff⟩
  exact h.startingWith _

theorem reading_complete (a : Abbreviation) :
    reading (a.lexemes ++ [.eof]) = done a.events (some a) [.eof] := by
  have hs := (starts_abbreviation a).append [.eof]
  rw [reading, hs.startingWith, Reading.abbreviation]
  exact abbreviation_complete (.eof []) (by simp)

theorem result_of_lexemes (hend : Ended (l :: xs))
    (hstop : (reading (a.lexemes ++ l :: xs)).ahead = l :: xs) :
    (reading (a.lexemes ++ l :: xs)).result = some (some a) := by
  have hexchange : Exchange (l :: xs) [.eof] := .intro (.inr rfl) hend ⟨[], .eof, rfl, rfl⟩
  have hresult := (foresees_reading.stops a.lexemes hexchange hstop).2
  rw [reading_complete, result_done] at hresult
  exact hresult.symm

/-- If some abbreviation goes on with the lexeme at which the reading stops, then that is the end. -/
theorem eof_of_viable (hend : Ended (l :: xs)) (hstop : (reading (us ++ l :: xs)).ahead = l :: xs)
    (h : Viable (us ++ [l])) :
    l = .eof ∧ ∃ a : Abbreviation, (reading (us ++ l :: xs)).result = some (some a) := by
  obtain ⟨source, a, ha, ys, hys⟩ := h
  rw [lexemes, ha, List.append_assoc, List.singleton_append] at hys
  have hend' : Ended (us ++ l :: ys) := ⟨a.lexemes, .eof, hys, rfl⟩
  obtain ⟨hahead, hresult⟩ := foresees_reading.stops us (.intro (.inl rfl) hend
    (hend'.of_append (List.cons_ne_nil l ys))) hstop
  rw [hys, reading_complete] at hahead hresult
  exact ⟨(List.cons.inj hahead).1.symm, a, hresult.symm⟩

/-- The three ways in which a text is read, `us` being what is read of it. -/
inductive Read (us : List Lexeme) (r : Reading (Option Abbreviation)) : Prop
  | whole {a : Abbreviation} (hr : r.result = some (some a)) (hus : us = a.lexemes)
  | part (hr : r.result = some none) (hus : AwaitsItem us)
  | faulty (hr : r.result = none) (hus : ¬ Complete us) (hus' : ¬ AwaitsItem us)

theorem not_awaitsItem_of_complete (h : Complete us) : ¬ AwaitsItem us := by
  obtain ⟨a, rfl⟩ := h
  exact not_or.2 ⟨a.lexemes_ne_nil, not_breaksOff_abbreviation a⟩

theorem exists_begins (hend : Ended xs) (hstop : (reading (us ++ xs)).ahead = xs) :
    Read us (reading (us ++ xs)) ∧
      ∃ a, Begins Abbreviation.lexemes Abbreviation.events us (reading (us ++ xs)).events a := by
  -- A part that is a whole text by itself is read as one, so reading ends neither in a fault nor
  -- half-way.
  have hwhole : Complete us → ∃ a, (reading (us ++ xs)).result = some (some a) := by
    rintro ⟨a, rfl⟩
    obtain ⟨l, xs, rfl⟩ := hend.exists_cons
    exact ⟨a, result_of_lexemes hend hstop⟩
  generalize hr : reading (us ++ xs) = r at hstop hwhole
  obtain ⟨es, ⟨f, rest⟩ | ⟨_ | a, rest⟩⟩ := r <;> obtain rfl : rest = xs := hstop
  · obtain ⟨us', a, hus, ⟨hne, hbreak⟩, ha⟩ := unfinished_reading.faulty hr
    obtain rfl := List.append_cancel_right hus
    have hnot : ¬ Complete us := fun h => by
      obtain ⟨a, ha⟩ := hwhole h
      cases ha
    exact ⟨.faulty rfl hnot (not_or.2 ⟨hne, hbreak⟩), a, ha⟩
  · obtain ⟨us', a, hus, hawaits, ha⟩ := unfinished_reading.brokenOff hr
    obtain rfl := List.append_cancel_right hus
    exact ⟨.part rfl hawaits, a, ha⟩
  · have hdone : Reading.startingWith Lexeme.startsAbbreviation Reading.abbreviation (us ++ rest) =
        done es (some a) rest := hr
    have hsome := startingWith_eq_some hdone
    obtain ⟨hus, rfl⟩ := abbreviation_sound hsome
    obtain rfl := List.append_cancel_right hus
    exact ⟨.whole rfl rfl, a, .refl _ _ a⟩

/-! ### What is said -/

variable {before after : List Token} {t : Token} {e : ParseError}

/-- What an error says about a text, `us` being in front of `t`. -/
inductive Blames (us : List Lexeme) (t : Token) : ParseError → Prop
  | lex {cause : LexError} (ht : t.lexeme = .error cause) : Blames us t (.lex cause t.position)
  | trailing (ht : ∀ cause, t.lexeme ≠ .error cause) (hus : Complete us) : Blames us t (.trailing t)
  | unexpected (ht : ∀ cause, t.lexeme ≠ .error cause) (hus : AwaitsItem us) :
    Blames us t (.unexpected t)
  | missing (fault : Fault) (ht : ∀ cause, t.lexeme ≠ .error cause) (hus : ¬ Complete us)
    (hus' : ¬ AwaitsItem us) : Blames us t (.missing fault t)

theorem Read.blames {r : Reading (Option Abbreviation)} (h : Read us r)
    (hv : verdict r t = some e) : Blames us t e := by
  obtain ⟨es, ⟨f, rest⟩ | ⟨x, rest⟩⟩ := r
  · obtain ⟨l, position⟩ := t
    cases h with
    | whole hr => cases hr
    | part hr => cases hr
    | faulty _ hus hus' =>
      cases l with
      | error cause => cases hv; exact .lex rfl
      | _ => cases hv; exact .missing f (fun _ => Lexeme.noConfusion) hus hus'
  · obtain ⟨l, position⟩ := t
    cases h with
    | @whole a hr hus =>
      cases hr
      cases l with
      | error cause => cases hv; exact .lex rfl
      | eof => cases hv
      | _ => cases hv; exact .trailing (fun _ => Lexeme.noConfusion) ⟨a, hus⟩
    | part hr hus =>
      cases hr
      cases l with
      | error cause => cases hv; exact .lex rfl
      | _ => cases hv; exact .unexpected (fun _ => Lexeme.noConfusion) hus
    | faulty hr => cases hr

theorem ended_lexemes {ts : List Token} (h : Terminated ts) : Ended (lexemes ts) := by
  induction h with
  | @last t ht => exact ⟨[], t.lexeme, rfl, ht⟩
  | @cons t ts _ _ ih => exact ih.append [t.lexeme]

namespace Stops

theorem lexemes_eq (h : Stops source before t after) :
    lexemes (tokenize source) = lexemes before ++ t.lexeme :: lexemes after := by
  rw [h.tokens, lexemes, List.map_append]
  rfl

theorem opening_eq (h : Stops source before t after) :
    opening source = reading (lexemes before ++ t.lexeme :: lexemes after) :=
  congrArg reading h.lexemes_eq

theorem terminated (h : Stops source before t after) :
    (∀ u ∈ before, ¬ u.lexeme.isFinal) ∧ Terminated (t :: after) := by
  have hend := terminated_tokenize source
  rw [h.tokens] at hend
  exact hend.of_append

theorem stop (h : Stops source before t after) :
    (reading (lexemes before ++ t.lexeme :: lexemes after)).ahead = t.lexeme :: lexemes after := by
  rw [← h.opening_eq, h.ahead, lexemes_cons]

theorem read (h : Stops source before t after) : Read (lexemes before) (opening source) ∧
    ∃ a, Begins Abbreviation.lexemes Abbreviation.events (lexemes before) (opening source).events
      a := by
  rw [h.opening_eq]
  exact exists_begins (ended_lexemes h.terminated.2) h.stop

theorem writable (h : Stops source before t after)
    (ha : Begins Abbreviation.lexemes Abbreviation.events (lexemes before) es a) :
    ∀ l ∈ a.lexemes, l.isWritable := by
  intro l hl
  obtain ⟨more, hmore, hwrite⟩ := ha.leaves
  rw [hmore, List.mem_append] at hl
  rcases hl with hl | hl
  · have hmem : l ∈ lexemes (tokenize source) := by
      rw [h.lexemes_eq]
      exact List.mem_append_left _ hl
    obtain ⟨u, hu, rfl⟩ := List.mem_map.1 hl
    exact isWritable_of_mem hmem (h.terminated.1 u hu)
  · exact hwrite l hl

theorem viable (h : Stops source before t after) : Viable (lexemes before) := by
  obtain ⟨-, a, ha⟩ := h.read
  exact viable_of_begins (h.writable ha) ha

theorem not_viable (h : Stops source before t after) (hv : verdict (opening source) t = some e) :
    ¬ Viable (lexemes before ++ [t.lexeme]) := by
  intro hviable
  have hend : Ended (t.lexeme :: lexemes after) := ended_lexemes h.terminated.2
  obtain ⟨heof, a, ha⟩ := eof_of_viable hend h.stop hviable
  rw [h.opening_eq, verdict, ending_of_result ha, heof] at hv
  cases hv

end Stops
end Grammar

variable {β : Type} [Builder β]

/-- The token that an error names is the first that cannot stand where it stands: what is in front of
it goes on to some text with a derivation tree, and with it nothing does. The error says whether it
is malformed, and otherwise what is in front of it. -/
theorem error_at_first_impossible (source : String) (start : β) {e : ParseError} {s : Session β}
    (hfeed : ∀ es, (Builder.feed start es).2 = none) (he : parse source start = .error e s) :
    ∃ before t after, tokenize source = before ++ t :: after ∧ e.Cites t ∧
      IsLeast {k | ¬ Viable ((lexemes (tokenize source)).take k)} (before.length + 1) ∧
      ((∃ cause position, e = .lex cause position) ↔ ∃ cause, t.lexeme = .error cause) ∧
      ((∀ cause, t.lexeme ≠ .error cause) →
        (e = .trailing t ↔ Complete (lexemes before)) ∧
        (e = .unexpected t ↔ AwaitsItem (lexemes before)) ∧
        ((∃ fault, e = .missing fault t) ↔
          ¬ Complete (lexemes before) ∧ ¬ AwaitsItem (lexemes before))) := by
  obtain ⟨before, t, after, h⟩ := exists_stops source
  have hv := (parse_eq_error_iff h (hfeed _)).1 ⟨s, he⟩
  have hblames := h.read.1.blames hv
  have hnot : Complete (lexemes before) → ¬ AwaitsItem (lexemes before) := not_awaitsItem_of_complete
  refine ⟨before, t, after, h.tokens, ?_, ⟨?_, ?_⟩, ?_, ?_⟩
  · cases hblames with
    | lex ht =>
      obtain ⟨l, position⟩ := t
      obtain rfl := ht
      rfl
    | _ => rfl
  · show ¬ Viable _
    rw [h.lexemes_eq, ← length_lexemes, List.take_length_add_append]
    exact h.not_viable hv
  · intro k hk
    by_contra hlt
    have hle : k ≤ (lexemes before).length := by
      rw [length_lexemes]
      omega
    refine hk ?_
    rw [h.lexemes_eq, List.take_append_of_le_length hle]
    have hviable : Viable ((lexemes before).take k ++ (lexemes before).drop k) := by
      rw [List.take_append_drop]
      exact h.viable
    exact hviable.of_prefix
  · cases hblames with
    | lex ht => exact ⟨fun _ => ⟨_, ht⟩, fun _ => ⟨_, _, rfl⟩⟩
    | trailing ht | unexpected ht | missing fault ht =>
      refine ⟨?_, fun ⟨cause, hcause⟩ => absurd hcause (ht cause)⟩
      rintro ⟨cause, position, he⟩
      cases he
  · intro ht
    cases hblames with
    | lex hcause => exact absurd hcause (ht _)
    | trailing _ hus => simp [hus, hnot hus]
    | unexpected _ hus =>
      have hcomplete : ¬ Complete (lexemes before) := fun h => hnot h hus
      simp [hus, hcomplete]
    | missing fault _ hus hus' => simp [hus, hus']

/-- Behind `p>(a#` a name has to come, and the end of the input is the first that cannot. -/
theorem missing_name_at_end : ∃ s, parse "p>(a#" Recorder.accepting =
      .error (.missing .idName ⟨.eof, 6⟩) s ∧
    IsLeast {k | ¬ Viable ((lexemes (tokenize "p>(a#")).take k)} 6 := by
  have herror : (match parse "p>(a#" Recorder.accepting with
      | .error e _ => some e
      | .ok _ _ => none) = some (.missing .idName ⟨.eof, 6⟩) := by
    decide +kernel
  have htakes (es : List Event) : (Builder.feed Recorder.accepting es).2 = none := by
    rw [feed_recorder _ _ rfl]
  generalize hparse : parse "p>(a#" Recorder.accepting = r at herror
  cases r with
  | ok => cases herror
  | error e s =>
    cases herror
    obtain ⟨before, t, after, htokens, rfl, hleast, -⟩ :=
      error_at_first_impossible _ _ htakes hparse
    have hlast : ∀ n < 6, (tokenize "p>(a#")[n]? = some ⟨.eof, 6⟩ → n = 5 := by
      decide +kernel
    have hlength : (tokenize "p>(a#").length = 6 := by
      decide +kernel
    have hbefore : before.length = 5 := by
      refine hlast before.length ?_ ?_
      · rw [htokens, List.length_append, List.length_cons] at hlength
        omega
      · rw [htokens, List.getElem?_append_right (Nat.le_refl _), Nat.sub_self]
        rfl
    rw [hbefore] at hleast
    exact ⟨s, rfl, hleast⟩

end Shorthand
