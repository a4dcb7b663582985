/-! # Events and builders

Reading an abbreviation is reported as a sequence of events, one for each thing that it describes. A
`Builder` takes them one after the other and may refuse one. -/

namespace Shorthand

/-- What an abbreviation says, piece by piece. -/
inductive Event
  /-- A tag name. -/
  | element (name : String)
  /-- `#name` -/
  | id (name : String)
  /-- `.name` -/
  | className (name : String)
  /-- `name=value` in brackets; the value is empty where it is left out. -/
  | attribute (name value : String)
  /-- A run in braces. -/
  | text (content : String)
  /-- `*count` -/
  | multiply (count : Nat)
  /-- `>` -/
  | child
  /-- `+` -/
  | sibling
  /-- `^`, written `levels` times in a row -/
  | climb (levels : Nat)
  | openGroup
  | closeGroup
deriving DecidableEq, Repr

/-- Why a builder refuses an event, or what it has built. -/
inductive BuildError
  /-- An attribute of a text. -/
  | attributeOfText
  /-- An attribute of a node that starts with a text. -/
  | attributeBeforeText
  /-- A child of a text. -/
  | childOfText
  /-- A place was opened for a node that never came. -/
  | unresolved
deriving DecidableEq, Repr

/-- What is said to the user about what the builder refuses. -/
def BuildError.message : BuildError → String
  | attributeOfText => "attribute of Text"
  | attributeBeforeText => "attribute must appear before Text"
  | childOfText => "text cannot have children"
  | unresolved => "unresolved node in finished tree"

/-- What takes events. A refused event may still leave a mark on the state. -/
class Builder (β : Type) where
  /-- The state after an event, and the reason if the event is refused. -/
  accept : β → Event → β × Option BuildError

namespace Builder
variable {β : Type} [Builder β] {b b' : β} {es : List Event}

/-- The state of a builder after a list of events, up to and including the first that it refuses,
and the reason for that refusal. -/
def feed (b : β) : List Event → β × Option BuildError
  | [] => (b, none)
  | e :: es =>
    match accept b e with
    | (b, none) => feed b es
    | (b, some cause) => (b, some cause)

theorem feed_append (h : feed b es = (b', none)) (es' : List Event) :
    feed b (es ++ es') = feed b' es' := by
  induction es generalizing b with
  | nil => cases h; rfl
  | cons e es ih =>
    simp only [feed, List.cons_append] at h ⊢
    split at h
    · exact ih h
    · cases h

theorem feed_append_of_refused {cause : BuildError} (h : feed b es = (b', some cause))
    (es' : List Event) : feed b (es ++ es') = (b', some cause) := by
  induction es generalizing b with
  | nil => cases h
  | cons e es ih =>
    simp only [feed, List.cons_append] at h ⊢
    split at h
    · exact ih h
    · exact h

theorem feed_cons {e : Event} (h : accept b e = (b', none)) (es : List Event) :
    feed b (e :: es) = feed b' es := by
  rw [feed, h]

/-- What takes a list takes it piece by piece. -/
theorem feed_append_eq_none {es' : List Event} :
    feed b (es ++ es') = (b', none) ↔
      ∃ mid, feed b es = (mid, none) ∧ feed mid es' = (b', none) := by
  constructor
  · intro h
    rcases hmid : feed b es with ⟨mid, _ | cause⟩
    · exact ⟨mid, rfl, by rwa [feed_append hmid] at h⟩
    · rw [feed_append_of_refused hmid] at h
      cases h
  · rintro ⟨mid, hmid, h⟩
    rw [feed_append hmid, h]

end Builder

/-- A builder that writes the events down and refuses at most one of them. -/
structure Recorder where
  /-- The events so far, the last one first. A refused event is among them. -/
  latest : List Event
  /-- The number of the event to refuse, counted from zero, and the reason to give. -/
  refusal : Option (Nat × BuildError)
deriving DecidableEq, Repr

namespace Recorder

/-- A recorder that takes everything. -/
def accepting : Recorder := ⟨[], none⟩

/-- A recorder that refuses the event with the given number. -/
def refusing (number : Nat) (cause : BuildError) : Recorder := ⟨[], some (number, cause)⟩

/-- The events in the order in which they came. -/
def events (r : Recorder) : List Event := r.latest.reverse

instance : Builder Recorder where
  accept r e :=
    ({ r with latest := e :: r.latest },
      r.refusal.bind fun (number, cause) =>
        if r.latest.length = number then some cause else none)

end Recorder
end Shorthand
