import Shorthand.Proofs.Grammar.Dependence

/-! # Builders that refuse

Until a builder refuses an event it cannot be told from one that takes everything. With the refusal
the parser stops: no other way to read the text is tried, nothing more is told, and what is wrong with
the text itself does not matter (`parse_refusing`). -/

namespace Shorthand
open Grammar
variable {es : List Event} {number : Nat}

/-- The events in front of the one to refuse are taken. -/
theorem feed_refusing_of_le (h : es.length ≤ number) (cause : BuildError) :
    Builder.feed (Recorder.refusing number cause) es =
      (⟨es.reverse, some (number, cause)⟩, none) := by
  have htaken := feed_recorder_of_le (Recorder.refusing number cause) es fun number' cause' he => by
    cases he
    show 0 + es.length ≤ number
    rwa [Nat.zero_add]
  rw [htaken, Recorder.refusing, List.append_nil]

/-- The one to refuse is the last. -/
theorem feed_refusing_of_lt (h : number < es.length) (cause : BuildError) :
    Builder.feed (Recorder.refusing number cause) es =
      (⟨(es.take (number + 1)).reverse, some (number, cause)⟩, some cause) := by
  obtain ⟨pre, e, post, rfl, rfl⟩ : ∃ pre e post, es = pre ++ e :: post ∧ pre.length = number := by
    refine ⟨es.take number, es[number], es.drop (number + 1), ?_, ?_⟩
    · rw [← List.drop_eq_getElem_cons h, List.take_append_drop]
    · exact List.length_take_of_le (Nat.le_of_lt h)
  have htaken := feed_refusing_of_le (Nat.le_refl pre.length) cause
  have hrefused : Builder.accept (⟨pre.reverse, some (pre.length, cause)⟩ : Recorder) e =
      (⟨e :: pre.reverse, some (pre.length, cause)⟩, some cause) := by
    simp only [Builder.accept, List.length_reverse, Option.bind_some, if_true]
  have htake : (pre ++ e :: post).take (pre.length + 1) = pre ++ [e] := by
    rw [List.take_length_add_append]
    rfl
  rw [Builder.feed_append htaken, Builder.feed, hrefused, htake, List.reverse_append]
  rfl

/-- Of what a builder does only its first refusal counts for the answer. -/
theorem Grammar.answer_fed {β γ : Type} (c c' : Cursor) {fed : β × Option BuildError}
    {fed' : γ × Option BuildError} (h : fed.2 = fed'.2) (v : Option ParseError) :
    answer (outcome c fed v) = answer (outcome c' fed' v) := by
  obtain ⟨b, refusal⟩ := fed
  obtain ⟨b', refusal'⟩ := fed'
  obtain rfl : refusal = refusal' := h
  cases refusal with
  | none => cases v <;> rfl
  | some cause => rfl

theorem Grammar.answer_of_taken {β : Type} (c c' : Cursor) {fed fed' : β × Option BuildError}
    (h : fed.2 = none) (h' : fed'.2 = none) (v : Option ParseError) :
    answer (outcome c fed v) = answer (outcome c' fed' v) :=
  answer_fed c c' (h.trans h'.symm) v

/-- Compared to a builder that takes everything, one that refuses the event with the given number is
told the same, and the answer is the same, if there is no such event. Otherwise it is told that event
and those before it and nothing else, and the answer is the refusal. -/
theorem parse_refusing (source : String) (number : Nat) (cause : BuildError) :
    let accepting := parse source Recorder.accepting
    let refusing := parse source (Recorder.refusing number cause)
    ((built accepting).events.length ≤ number →
      (built refusing).events = (built accepting).events ∧ answer refusing = answer accepting) ∧
    (number < (built accepting).events.length →
      (built refusing).events = (built accepting).events.take (number + 1) ∧
        answer refusing = .error (.build cause)) := by
  intro accepting refusing
  have hevents : (built accepting).events = (opening source).events := events_recorded source
  have hbuilt : built refusing = (Builder.feed (Recorder.refusing number cause)
      (opening source).events).1 := built_parse source _
  obtain ⟨us, t, rest, hstops⟩ := exists_stops source
  obtain ⟨c, hc⟩ := parse_eq_outcome hstops Recorder.accepting
  obtain ⟨c', hc'⟩ := parse_eq_outcome hstops (Recorder.refusing number cause)
  rw [hevents, hbuilt]
  refine ⟨fun hle => ?_, fun hlt => ?_⟩
  · have htaken := feed_refusing_of_le hle cause
    refine ⟨?_, ?_⟩
    · rw [htaken, Recorder.events, List.reverse_reverse]
    · show answer (parse source _) = answer (parse source _)
      rw [hc, hc']
      exact answer_of_taken _ _ (by rw [htaken]) (by rw [feed_recorder _ _ rfl]) _
  · have hrefused := feed_refusing_of_lt hlt cause
    refine ⟨?_, ?_⟩
    · rw [hrefused, Recorder.events, List.reverse_reverse]
    · show answer (parse source _) = _
      rw [hc', hrefused]
      rfl

/-- A refusal among attributes in a group that is never closed, in front of a malformed token. -/
theorem refused_among_attributes :
    let refusing := parse "p>(a[b=c d=e \x7d" (Recorder.refusing 4 .attributeOfText)
    (built refusing).events =
        [.element "p", .child, .openGroup, .element "a", .attribute "b" "c"] ∧
      answer refusing = .error (.build .attributeOfText) := by
  have hevents : (built (parse "p>(a[b=c d=e \x7d" Recorder.accepting)).events =
      [.element "p", .child, .openGroup, .element "a", .attribute "b" "c", .attribute "d" "e"] := by
    decide +kernel
  obtain ⟨-, hrefused⟩ := parse_refusing "p>(a[b=c d=e \x7d" 4 .attributeOfText
  obtain ⟨htold, hanswer⟩ := hrefused (by rw [hevents]; decide)
  rw [hevents] at htold
  exact ⟨htold, hanswer⟩

end Shorthand
