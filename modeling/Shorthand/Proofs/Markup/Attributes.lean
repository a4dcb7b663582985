import Shorthand.Proofs.Markup.Quotes
import Shorthand.Proofs.Text.Runs
import Shorthand.Proofs.Token.Written

/-! # Attributes can be told apart

A backslash in a value is written as it is, so a quote behind one may end the value or be a part of
it, and nothing nearby tells which. The attributes of a tag can be told from their markup all the same
(`attributes_inj`). Two readings that disagree about a quote never meet again: where one of them opens
a value, the other one closes a value (`segments_ne_behind`), and at the end of the markup one of them
is left with an open value. -/

namespace Shorthand.Markup
variable {v w xs ys before : List Char} {l l' : List (List Char × List Char)} {m m' : NameMap String}

/-- A name that the value behind it can be told from. -/
def Legible (name : List Char) : Prop := '=' ∉ name ∧ '"' ∉ name

instance : DecidablePred Legible := fun name => inferInstanceAs (Decidable ('=' ∉ name ∧ '"' ∉ name))

/-- Whatever is scanned as a word is such a name. -/
theorem legible_of_mem_tokens {source name : String}
    (h : .word name ∈ (tokenize source).map (·.lexeme)) : Legible name.toList := by
  rw [map_lexeme_tokenize] at h
  obtain ⟨-, hends⟩ := isWritable_word (Scan.isWritable_of_mem h Bool.false_ne_true)
  have hnot (c : Char) (hc : endsWord c = true) : c ∉ name.toList := fun hmem =>
    Bool.false_ne_true ((hends c hmem).symm.trans hc)
  exact ⟨hnot '=' (by decide), hnot '"' (by decide)⟩

/-- The value `v` ends at a quote that is a part of `w`, whose rest stands behind that quote. -/
def EndsInside (v xs w ys : List Char) : Prop :=
  ∃ shared rest, v = shared ++ ['\\'] ∧ w = shared ++ '"' :: rest ∧ xs = escapeValue rest ++ '"' :: ys

theorem EndsInside.cons (h : EndsInside v xs w ys) (c : Char) :
    EndsInside (c :: v) xs (c :: w) ys := by
  obtain ⟨shared, rest, rfl, rfl, rfl⟩ := h
  exact ⟨c :: shared, rest, rfl, rfl, rfl⟩

/-- If only one value begins with a quote, the other one is a backslash and ends there. -/
theorem endsInside_of_quote {c : Char} (hc : c ≠ '"')
    (h : escapeValue (c :: v) ++ '"' :: xs = escapeValue ('"' :: w) ++ '"' :: ys) :
    EndsInside (c :: v) xs ('"' :: w) ys := by
  rw [escapeValue, if_neg hc, escapeValue, if_pos rfl] at h
  obtain ⟨rfl, hrest⟩ := List.cons.inj h
  cases v with
  | nil => exact ⟨[], w, rfl, rfl, (List.cons.inj hrest).2⟩
  | cons d v => exact absurd hrest (escapeValue_append_ne (List.cons_ne_nil d v) _)

/-- Two readings of one text from behind an opening quote agree about the value, or one of them ends
it at a quote that the other one takes for a part of it. -/
theorem eq_or_endsInside (h : escapeValue v ++ '"' :: xs = escapeValue w ++ '"' :: ys) :
    v = w ∧ xs = ys ∨ EndsInside v xs w ys ∨ EndsInside w ys v xs := by
  induction v generalizing w with
  | nil =>
    cases w with
    | nil => exact .inl ⟨rfl, (List.cons.inj h).2⟩
    | cons d w => exact absurd h.symm (escapeValue_append_ne (List.cons_ne_nil d w) _)
  | cons c v ih =>
    cases w with
    | nil => exact absurd h (escapeValue_append_ne (List.cons_ne_nil c v) _)
    | cons d w =>
      by_cases hcd : c = d
      · subst hcd
        have hrest : escapeValue v ++ '"' :: xs = escapeValue w ++ '"' :: ys := by
          rw [escapeValue, escapeValue] at h
          split at h
          · exact (List.cons.inj (List.cons.inj h).2).2
          · exact (List.cons.inj h).2
        rcases ih hrest with ⟨rfl, hxs⟩ | hends | hends
        · exact .inl ⟨rfl, hxs⟩
        · exact .inr (.inl (hends.cons c))
        · exact .inr (.inr (hends.cons c))
      -- Where the values first differ, one of them has a quote: the text of the other ends there,
      -- inside it.
      · by_cases hd : d = '"'
        · subst hd
          exact .inr (.inl (endsInside_of_quote hcd h))
        · by_cases hc : c = '"'
          · subst hc
            exact .inr (.inr (endsInside_of_quote hd h.symm))
          · rw [escapeValue, if_neg hc, escapeValue, if_neg hd] at h
            exact absurd (List.cons.inj h).1 hcd

/-- A value ends at the first quote if there is no backslash in front of it. -/
theorem eq_of_first_quote (hquote : '"' ∉ before) (hslash : before.getLast? ≠ some '\\')
    (h : escapeValue v ++ '"' :: xs = before ++ '"' :: ys) : v = before ∧ xs = ys := by
  rw [← escapeValue_of_notMem hquote] at h
  rcases eq_or_endsInside h with heq | ⟨shared, rest, -, rfl, -⟩ | ⟨shared, rest, rfl, -, -⟩
  · exact heq
  · exact absurd (List.mem_append_right _ List.mem_cons_self) hquote
  · exact absurd List.getLast?_concat hslash

/-- The markup of attributes with the given names and values. -/
def segments (l : List (List Char × List Char)) : List Char :=
  l.flatMap fun (name, value) => writeAttribute name (escapeValue value)

theorem segments_cons (name value : List Char) (l : List (List Char × List Char)) :
    segments ((name, value) :: l) =
      ' ' :: (name ++ '=' :: '"' :: (escapeValue value ++ '"' :: segments l)) := by
  simp [segments, writeAttribute]

/-- What is read from behind an opening quote is not what is read from in front of an attribute. The
first quote there opens a value, and closes the other one; then the two readings have changed places. -/
theorem segments_ne_behind : ∀ (v : List Char) (l l' : List (List Char × List Char)),
    (∀ a ∈ l, Legible a.1) → (∀ a ∈ l', Legible a.1) → escapeValue v ++ '"' :: segments l ≠ segments l'
  | v, l, [], _, _ => by simp [segments]
  | v, l, (name, value) :: l', hl, hl' => fun h => by
    obtain ⟨⟨-, hquote⟩, hl'⟩ := List.forall_mem_cons.1 hl'
    have hfirst : escapeValue v ++ '"' :: segments l =
        (' ' :: name ++ ['=']) ++ '"' :: (escapeValue value ++ '"' :: segments l') := by
      rw [h, segments_cons]
      simp
    have hbefore : '"' ∉ ' ' :: name ++ ['='] := by simp [hquote]
    have hslash : (' ' :: name ++ ['=']).getLast? ≠ some '\\' := by
      rw [List.getLast?_concat]
      decide
    obtain ⟨-, hswapped⟩ := eq_of_first_quote hbefore hslash hfirst
    exact segments_ne_behind value l' l hl' hl hswapped.symm
termination_by _ l l' => l.length + l'.length

/-- The segments of legible names tell the names and the values. -/
theorem segments_inj (hl : ∀ a ∈ l, Legible a.1) (hl' : ∀ a ∈ l', Legible a.1)
    (h : segments l = segments l') : l = l' := by
  induction l generalizing l' with
  | nil =>
    cases l' with
    | nil => rfl
    | cons a' l' =>
      rw [segments_cons] at h
      cases h
  | cons a l ih =>
    cases l' with
    | nil =>
      rw [segments_cons] at h
      cases h
    | cons a' l' =>
      obtain ⟨name, value⟩ := a
      obtain ⟨name', value'⟩ := a'
      obtain ⟨⟨hequals, -⟩, hrest⟩ := List.forall_mem_cons.1 hl
      obtain ⟨⟨hequals', -⟩, hrest'⟩ := List.forall_mem_cons.1 hl'
      rw [segments_cons, segments_cons] at h
      obtain ⟨rfl, hvalues⟩ := Text.append_cons_inj hequals hequals' (List.cons.inj h).2
      rcases eq_or_endsInside (List.cons.inj hvalues).2 with
        ⟨rfl, htails⟩ | ⟨-, rest, -, -, hbehind⟩ | ⟨-, rest, -, -, hbehind⟩
      · rw [ih hrest hrest' htails]
      · exact absurd hbehind.symm (segments_ne_behind rest l' l hrest' hrest)
      · exact absurd hbehind.symm (segments_ne_behind rest l l' hrest hrest')

/-- The names and the values of a map as lists of characters. -/
def spelled (m : NameMap String) : List (List Char × List Char) :=
  m.entries.map fun (name, value) => (name.toList, value.toList)

theorem toList_attributes_eq (m : NameMap String) : (attributes m).toList = segments (spelled m) := by
  rw [toList_attributes, segments, quoted, spelled, List.flatMap_map, List.flatMap_map]

theorem spelled_inj (h : spelled m = spelled m') : m = m' := by
  refine NameMap.ext ((List.map_inj_right ?_).1 h)
  rintro ⟨name, value⟩ ⟨name', value'⟩ he
  obtain ⟨hname, hvalue⟩ := Prod.mk.inj he
  rw [String.toList_inj.1 hname, String.toList_inj.1 hvalue]

theorem legible_spelled (h : ∀ name ∈ m.names, Legible name.toList) :
    ∀ a ∈ spelled m, Legible a.1 := by
  intro a ha
  obtain ⟨e, he, rfl⟩ := List.mem_map.1 ha
  exact h e.1 (List.mem_map_of_mem he)

/-- Attributes with legible names can be told from what a tag says of them, whatever their values are.
All words are legible. -/
theorem attributes_inj :
    (∀ source name, .word name ∈ (tokenize source).map (·.lexeme) → Legible name.toList) ∧
      ∀ m m' : NameMap String, (∀ name ∈ m.names, Legible name.toList) →
        (∀ name ∈ m'.names, Legible name.toList) → (attributes m = attributes m' ↔ m = m') := by
  refine ⟨fun _ _ => legible_of_mem_tokens, fun m m' hm hm' => ⟨fun h => ?_, congrArg attributes⟩⟩
  have hsegments : segments (spelled m) = segments (spelled m') := by
    rw [← toList_attributes_eq, ← toList_attributes_eq, h]
  exact spelled_inj (segments_inj (legible_spelled hm) (legible_spelled hm') hsegments)

/-- Two readings that part at the first value: the second map is read from the first one's markup, and
only the end of the markup shows that it is not that map. -/
theorem attributes_behind_slash :
    (∀ name ∈ (NameMap.ofList [("x", "\\"), ("y", "z")]).names, Legible name.toList) ∧
    (∀ name ∈ (NameMap.ofList [("x", "\" y=")]).names, Legible name.toList) ∧
    attributes (.ofList [("x", "\\"), ("y", "z")]) = attributes (.ofList [("x", "\" y=")]) ++ "z\"" ∧
    attributes (.ofList [("x", "\\"), ("y", "z")]) ≠ attributes (.ofList [("x", "\" y=")]) := by
  have hm : ∀ name ∈ (NameMap.ofList [("x", "\\"), ("y", "z")]).names, Legible name.toList := by
    decide +kernel
  have hm' : ∀ name ∈ (NameMap.ofList [("x", "\" y=")]).names, Legible name.toList := by
    decide +kernel
  refine ⟨hm, hm', by decide +kernel, ?_⟩
  rw [Ne, attributes_inj.2 _ _ hm hm']
  decide +kernel

end Shorthand.Markup
