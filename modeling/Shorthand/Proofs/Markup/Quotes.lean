import Shorthand.Proofs.Markup.Writing
import Shorthand.Proofs.Tree.Finished

/-! # Values between quotes

`readValue` reads an attribute value up to the quote that ends it, where `\"` stands for `"`. A value
that was escaped is read back, and nothing behind it is touched, unless it ends with a backslash: then
the quote behind it is taken for a part of the value (`readValue_escapeValue`). -/

namespace Shorthand.Markup
variable {c : Char} {text rest v r : List Char}

/-- Reads a value from behind its opening quote: the value, and what stands behind the quote that ends
it, if there is one. -/
def readValue : List Char → Option (List Char × List Char)
  | [] => none
  | '\\' :: '"' :: rest => (readValue rest).map fun (v, r) => ('"' :: v, r)
  | c :: rest =>
    if c = '"' then some ([], rest) else (readValue rest).map fun (v, r) => (c :: v, r)

theorem readValue_cons (hc : c ≠ '"') (h : ∀ ds, c = '\\' → rest ≠ '"' :: ds) :
    readValue (c :: rest) = (readValue rest).map fun (v, r) => (c :: v, r) := by
  rw [readValue]
  · exact if_neg hc
  · exact h

/-- A quote that is escaped does not come first. -/
theorem escapeValue_append_ne (h : v ≠ []) (ds : List Char) : escapeValue v ++ rest ≠ '"' :: ds := by
  cases v with
  | nil => exact absurd rfl h
  | cons c v =>
    rw [escapeValue]
    split
    · simp
    · next hc => exact fun heq => hc (List.cons.inj heq).1

/-- What was escaped is read back, and then what is behind it, unless a backslash and a quote meet. -/
theorem readValue_append (h : v.getLast? = some '\\' → ∀ ds, rest ≠ '"' :: ds) :
    readValue (escapeValue v ++ rest) = (readValue rest).map fun (v', r) => (v ++ v', r) := by
  induction v with
  | nil => exact Option.map_id'.symm
  | cons c v ih =>
    have hlast : v.getLast? = some '\\' → ∀ ds, rest ≠ '"' :: ds := by
      intro hv
      refine h ?_
      rw [List.getLast?_cons, hv]
      rfl
    have hcons (o : Option (List Char × List Char)) :
        (o.map fun (v', r) => (v ++ v', r)).map (fun (v', r) => (c :: v', r)) =
          o.map fun (v', r) => (c :: v ++ v', r) := by
      cases o <;> rfl
    rw [escapeValue, ← hcons, ← ih hlast]
    split
    · next hc =>
      rw [hc]
      rfl
    · next hc =>
      -- A backslash in front of a quote would escape it, but no quote can follow one here.
      refine readValue_cons hc fun ds hslash => ?_
      cases v with
      | nil => exact h (by rw [hslash]; rfl) ds
      | cons d v => exact escapeValue_append_ne (List.cons_ne_nil d v) ds

theorem eq_of_readValue_nil (h : readValue text = some ([], r)) : text = '"' :: r := by
  fun_cases readValue text with
  | case1 => cases h
  | case2 rest =>
    obtain ⟨_, -, hv⟩ := Option.map_eq_some_iff.1 h
    cases hv
  | case3 rest =>
    cases h
    rfl
  | case4 c rest hslash hc =>
    rw [readValue_cons hc hslash] at h
    obtain ⟨_, -, hv⟩ := Option.map_eq_some_iff.1 h
    cases hv

/-- No text is read as a value that ends with a backslash: with the quote behind it, it would be `\"`. -/
theorem getLast?_of_readValue (h : readValue text = some (v, r)) : v.getLast? ≠ some '\\' := by
  fun_induction readValue text generalizing v with
  | case1 => cases h
  | case2 rest ih =>
    obtain ⟨⟨v', r'⟩, hread, hv⟩ := Option.map_eq_some_iff.1 h
    obtain ⟨rfl, rfl⟩ := Prod.mk.inj hv
    cases v' with
    | nil => decide
    | cons d v' =>
      rw [List.getLast?_cons_cons]
      exact ih hread
  | case3 rest =>
    cases h
    nofun
  | case4 c rest hslash hc ih =>
    obtain ⟨⟨v', r'⟩, hread, hv⟩ := Option.map_eq_some_iff.1 h
    obtain ⟨rfl, rfl⟩ := Prod.mk.inj hv
    cases v' with
    | nil => exact fun heq => hslash r' (Option.some.inj heq) (eq_of_readValue_nil hread)
    | cons d v' =>
      rw [List.getLast?_cons_cons]
      exact ih hread

/-- A value that was escaped is read back up to its closing quote exactly if it does not end with a
backslash. If it does, that quote is read as a part of the value, which goes on behind it; no text at
all is read as such a value. -/
theorem readValue_escapeValue (v r : List Char) :
    (readValue (escapeValue v ++ '"' :: r) = some (v, r) ↔ v.getLast? ≠ some '\\') ∧
      (∀ w, v = w ++ ['\\'] → readValue (escapeValue v ++ '"' :: r) =
        (readValue r).map fun (v', r') => (w ++ '"' :: v', r')) ∧
      ∀ text, readValue text = some (v, r) → v.getLast? ≠ some '\\' := by
  refine ⟨⟨getLast?_of_readValue, fun hlast => ?_⟩, ?_, fun _ => getLast?_of_readValue⟩
  · rw [readValue_append fun h => absurd h hlast]
    simp [readValue]
  · rintro w rfl
    have hslash : escapeValue (w ++ ['\\']) ++ '"' :: r = escapeValue w ++ '\\' :: '"' :: r := by
      rw [escapeValue_append, List.append_assoc]
      rfl
    have hnot (ds : List Char) : '\\' :: '"' :: r ≠ '"' :: ds := fun heq =>
      absurd (List.cons.inj heq).1 (by decide)
    rw [hslash, readValue_append fun _ => hnot, readValue]
    cases readValue r <;> rfl

/-- A value that is no more than a backslash takes the beginning of the next attribute in. -/
theorem readValue_past_quote : ∃ t, parseTree "a[x='\\' y=z]" = .ok t ∧
    render t = "<a x=\"" ++ String.ofList (escapeValue ['\\']) ++ "\" y=\"z\" />" ∧
    readValue (escapeValue ['\\'] ++ '"' :: " y=\"z\" />".toList) =
      some ("\" y=".toList, "z\" />".toList) ∧
    readValue (escapeValue ['\\'] ++ '"' :: " y=\"z\" />".toList) ≠
      some (['\\'], " y=\"z\" />".toList) := by
  have hparse : ((parseTree "a[x='\\' y=z]").toOption.map render) =
      some ("<a x=\"" ++ String.ofList (escapeValue ['\\']) ++ "\" y=\"z\" />") := by
    decide +kernel
  obtain ⟨t, h, ht⟩ := exists_parseTree hparse
  exact ⟨t, h, ht, by decide, by decide⟩

end Shorthand.Markup
