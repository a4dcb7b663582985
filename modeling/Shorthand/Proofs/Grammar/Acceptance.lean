import Shorthand.Proofs.Grammar.Productions

/-! # The accepted texts

A text is accepted if and only if it has a derivation tree and the builder takes the events of that
tree, which are all that the builder is told (`parse_iff_derives`). -/

namespace Shorthand
open Grammar Shorthand.Derivation
variable {β : Type} [Builder β] {start b' : β} {source : String} {a a' : Abbreviation}

theorem Derivation.Derives.unique (h : Derives source a) (h' : Derives source a') : a = a' :=
  Reading.lexemes_injective (List.append_cancel_right (h.symm.trans h'))

namespace Grammar

def opening (source : String) : Reading (Option Abbreviation) :=
  Reading.startingWith Lexeme.startsAbbreviation Reading.abbreviation (lexemes (tokenize source))

theorem opening_of_derives (h : Derives source a) :
    opening source = .done a.events (some a) [.eof] := by
  have hs := (Reading.starts_abbreviation a).append [.eof]
  rw [opening, lexemes, h, hs.startingWith, Reading.abbreviation]
  exact Reading.abbreviation_complete (.eof []) (by simp)

theorem opening_eq_some {es : List Event} {ls : List Lexeme}
    (h : opening source = .done es (some a) ls) :
    lexemes (tokenize source) = a.lexemes ++ ls ∧ es = a.events := by
  have h := Reading.startingWith_eq_some h
  exact Reading.abbreviation_sound h

theorem opening_delivered (source : String) (start : β) :
    Delivered [] [] (tokenize source) start Option.isSome (opening source)
      (plain.startingWith Lexeme.startsAbbreviation plain.abbreviation ⟨Cursor.ofString source, start⟩) :=
  (delivers_abbreviation.startingWith _).delivered (terminated_tokenize source)
    (Cursor.at_ofString source)

theorem parse_eq (source : String) (start : β) :
    parse source start = (plain.startingWith Lexeme.startsAbbreviation plain.abbreviation >>= ending)
      ⟨Cursor.ofString source, start⟩ := rfl

/-- The builder of an accepted text has taken the events of its tree. -/
theorem derives_of_parse {s : Session β} (h : parse source start = .ok () s) :
    ∃ a, Derives source a ∧ Builder.feed start a.events = (s.builder, none) := by
  have hd := opening_delivered source start
  rw [parse_eq, bind_run] at h
  generalize plain.startingWith Lexeme.startsAbbreviation plain.abbreviation (_ : Session β) = y at h hd
  generalize hx : opening source = x at hd
  cases hd with
  | @done es x c b' us rest hts hrest hb hc =>
    obtain ⟨t, rest, rfl⟩ := hrest.exists_cons
    simp only [ending, next_bind, hc.next_token] at h
    cases ht : t.lexeme with
    | eof =>
      rw [ht] at h
      cases x with
      | none => cases h
      | some a =>
        cases h
        obtain ⟨hls, rfl⟩ := opening_eq_some hx
        cases hrest with
        -- Only one end of input is ever scanned, so nothing can stand behind it.
        | last => exact ⟨a, by rw [Derives, ← ht]; exact hls, hb⟩
        | cons hf => exact absurd (by simp [ht, Lexeme.isFinal]) hf
    | _ => rw [ht] at h; cases h
  | faulty => cases h
  | refused => cases h

/-- A text with a tree is accepted if the builder takes the events of the tree. -/
theorem parse_of_derives (h : Derives source a)
    (hfeed : Builder.feed start a.events = (b', none)) :
    ∃ c, parse source start = .ok () ⟨c, b'⟩ := by
  have hd := opening_delivered source start
  rw [parse_eq, bind_run]
  rw [opening_of_derives h] at hd
  generalize plain.startingWith Lexeme.startsAbbreviation plain.abbreviation (_ : Session β) = y at hd ⊢
  generalize hx : Reading.done a.events (some a) [.eof] = x at hd
  cases hd with
  | @done es x c b' us rest hts hrest hb hc =>
    obtain ⟨t, rest, rfl⟩ := hrest.exists_cons
    obtain ⟨rfl, rfl, hls⟩ := Reading.done_inj.1 hx
    obtain ⟨ht, -⟩ := List.cons.inj hls
    cases hb.symm.trans hfeed
    simp only [ending, next_bind, hc.next_token, ← ht]
    exact ⟨c.next.2, rfl⟩
  | faulty => cases hx
  | refused hb =>
    subst hx
    rw [Reading.events_done, hfeed] at hb
    cases hb

end Grammar

/-- For a builder that takes everything, exactly the texts with a derivation tree are accepted, and
the tree is unique and its events are what the builder is told. -/
theorem parse_iff_derives (source : String) (start : β)
    (h : ∀ es, (Builder.feed start es).2 = none) :
    ((∃ s, parse source start = .ok () s) ↔ ∃ a, Derives source a) ∧
    ∀ s, parse source start = .ok () s → ∃ a, Derives source a ∧
      (∀ a', Derives source a' → a' = a) ∧ Builder.feed start a.events = (s.builder, none) := by
  refine ⟨⟨fun ⟨s, hs⟩ => ?_, fun ⟨a, ha⟩ => ?_⟩, fun s hs => ?_⟩
  · obtain ⟨a, ha, -⟩ := derives_of_parse hs
    exact ⟨a, ha⟩
  · have hfeed : Builder.feed start a.events = ((Builder.feed start a.events).1, none) :=
      Prod.ext rfl (h a.events)
    obtain ⟨c, hc⟩ := parse_of_derives ha hfeed
    exact ⟨_, hc⟩
  · obtain ⟨a, ha, hfeed⟩ := derives_of_parse hs
    exact ⟨a, ha, fun a' ha' => ha'.unique ha, hfeed⟩

/-- A recorder takes what comes in front of the event that it refuses. -/
theorem feed_recorder_of_le (r : Recorder) (es : List Event)
    (h : ∀ number cause, r.refusal = some (number, cause) →
      r.latest.length + es.length ≤ number) :
    Builder.feed r es = ({ r with latest := es.reverse ++ r.latest }, none) := by
  induction es generalizing r with
  | nil => rfl
  | cons e es ih =>
    have haccept : Builder.accept r e = ({ r with latest := e :: r.latest }, none) := by
      obtain ⟨latest, _ | ⟨number, cause⟩⟩ := r
      · rfl
      · have hle : latest.length + (es.length + 1) ≤ number := h number cause rfl
        simp only [Builder.accept, Option.bind_some, Prod.mk.injEq, true_and]
        exact if_neg (by omega)
    have hrest := ih { r with latest := e :: r.latest } fun number cause hr => by
      have hle : r.latest.length + (es.length + 1) ≤ number := h number cause hr
      simp only [List.length_cons]
      omega
    simp only [Builder.feed, haccept, hrest, List.reverse_cons, List.append_assoc]
    rfl

theorem feed_recorder (r : Recorder) (es : List Event) (h : r.refusal = none) :
    Builder.feed r es = ({ r with latest := es.reverse ++ r.latest }, none) :=
  feed_recorder_of_le r es fun number cause hr => by
    rw [h] at hr
    cases hr

/-- A recorder is told that there is a list of two items. -/
theorem recorded_events : ∃ s, parse "ul>li*02" Recorder.accepting = .ok () s ∧
    s.builder.events = [.element "ul", .child, .element "li", .multiply 2] := by
  have htakes (es : List Event) : (Builder.feed Recorder.accepting es).2 = none := by
    rw [feed_recorder _ _ rfl]
  obtain ⟨hiff, hevents⟩ := parse_iff_derives "ul>li*02" Recorder.accepting htakes
  have hderives : Derives "ul>li*02" (.joined (.element (.tag ⟨"ul", [], none⟩) none) .child
      (.single (.element (.tag ⟨"li", [], none⟩)
        (some ⟨"02", by decide, by decide, by decide⟩)))) := by
    decide +kernel
  obtain ⟨s, hs⟩ := hiff.2 ⟨_, hderives⟩
  obtain ⟨a, -, hunique, hfeed⟩ := hevents s hs
  rw [← hunique _ hderives, feed_recorder _ _ rfl] at hfeed
  refine ⟨s, hs, ?_⟩
  have hbuilder := congrArg Prod.fst hfeed
  simp only at hbuilder
  rw [← hbuilder]
  decide +kernel

end Shorthand
