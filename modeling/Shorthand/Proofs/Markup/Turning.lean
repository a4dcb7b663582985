import Shorthand.Proofs.Markup.Parts

/-! # Counting the other way

A placeholder that says where it starts can be turned to count the other way without any effect on how
the template is cut (`Parts.Fit.turned`). If all of them are turned, the same copies are written in
reverse order (`multiply_turned`). -/

namespace Shorthand.Markup
open Text
variable {c : Char} {p : Placeholder} {count i : Nat}

namespace Placeholder

/-- The placeholder with a `-` behind its `@` if it has none there, and else without it. -/
def turned (p : Placeholder) : Placeholder :=
  { p with suffix := p.suffix.map fun s => { s with descending := !s.descending } }

/-- At least one digit stands at its end. -/
def HasStart (p : Placeholder) : Prop := ∃ s ∈ p.suffix, s.digits ≠ []

theorem Written.turned (h : p.Written) : p.turned.Written where
  width := h.width
  digits s hs := by
    obtain ⟨s', hs', rfl⟩ := Option.map_eq_some_iff.1 hs
    exact h.digits s' hs'

theorem start_turned (p : Placeholder) : p.turned.start = p.start := by
  obtain ⟨width, suffix⟩ := p
  rcases suffix with _ | ⟨descending, _ | ⟨c, digits⟩⟩ <;> rfl

theorem descending_turned (h : p.HasStart) : p.turned.descending = !p.descending := by
  obtain ⟨s, hs, -⟩ := h
  simp [turned, descending, Option.mem_def.1 hs]

/-- Behind a digit there can only be further digits, whichever way it counts. -/
theorem goesOn_turned (h : p.HasStart) : p.turned.GoesOn c ↔ p.GoesOn c := by
  obtain ⟨width, suffix⟩ := p
  obtain ⟨⟨descending, digits⟩, hs, hdigits⟩ := h
  obtain rfl : suffix = some ⟨descending, digits⟩ := hs
  have hnot (descending : Bool) : ¬ (c = '-' ∧ (⟨descending, digits⟩ : Suffix) = ⟨false, []⟩) :=
    fun h => hdigits (Suffix.mk.inj h.2).2
  exact or_congr_right (iff_of_false (hnot _) (hnot _))

theorem value_turned (h : p.HasStart) (hi : i < count) :
    p.turned.value count (count - 1 - i) = p.value count i := by
  rw [value, value, start_turned, descending_turned h]
  cases p.descending with
  | true =>
    rw [Bool.not_true, if_neg Bool.false_ne_true, if_pos rfl]
    omega
  | false =>
    rw [Bool.not_false, if_pos rfl, if_neg Bool.false_ne_true]
    omega

end Placeholder

namespace Parts
variable {s : Parts}

/-- The parts with every placeholder turned. -/
def turned : Parts → Parts
  | last l => last l
  | next l p rest => next l p.turned rest.turned

theorem head?_text_turned (h : s.Fit) : s.turned.text.head? = s.text.head? := by
  cases s with
  | last l => rfl
  | next l p rest =>
    obtain ⟨k, hk⟩ : ∃ k, p.width = k + 1 := ⟨p.width - 1, by have := h.2.1.width; omega⟩
    have hturned : p.turned.width = k + 1 := hk
    cases l with
    | nil => simp only [turned, text, Placeholder.spelling, hk, hturned]; rfl
    | cons c l => rfl

theorem Fit.turned (h : s.Fit) (hs : ∀ p ∈ s.placeholders, p.HasStart) : s.turned.Fit := by
  induction s with
  | last l => exact h
  | next l p rest ih =>
    obtain ⟨hl, hp, hstop, hrest⟩ := fit_next.1 h
    obtain ⟨hstart, hstarts⟩ := List.forall_mem_cons.1 hs
    refine fit_next.2 ⟨hl, hp.turned, fun c hc hgo => ?_, ih hrest hstarts⟩
    rw [head?_text_turned hrest] at hc
    exact hstop c hc ((Placeholder.goesOn_turned hstart).1 hgo)

theorem copy_turned (hs : ∀ p ∈ s.placeholders, p.HasStart) (hi : i < count) :
    s.turned.copy count (count - 1 - i) = s.copy count i := by
  induction s with
  | last l => rfl
  | next l p rest ih =>
    obtain ⟨hstart, hstarts⟩ := List.forall_mem_cons.1 hs
    rw [turned, copy, copy, ih hstarts, Placeholder.value_turned hstart hi]
    rfl

end Parts

/-- A template and the one with its placeholders turned have the same copies, in reverse order. How the
template is cut is no choice (`Parts.existsUnique_parts`). -/
theorem multiply_turned {s : Parts} {template turned : String} (hs : s.Fit)
    (ht : s.text = template.toList) (ht' : s.turned.text = turned.toList)
    (hstart : ∀ p ∈ s.placeholders, p.HasStart) (hpos : 0 < count) :
    s.turned.Fit ∧
      (multiply template count).toList = (List.range count).flatMap (s.copy count) ∧
      (multiply turned count).toList = (List.range count).flatMap (s.turned.copy count) ∧
      ∀ i < count, s.copy count i = s.turned.copy count (count - 1 - i) := by
  have hturned : s.turned.Fit := hs.turned hstart
  exact ⟨hturned, hs.toList_multiply ht hpos, hturned.toList_multiply ht' hpos,
    fun i hi => (Parts.copy_turned hstart hi).symm⟩

/-- One placeholder counts up from three, and the other down to one, as its digit is not ASCII. -/
theorem multiply_turned_thrice : ∃ s : Parts, s.Fit ∧ (∀ p ∈ s.placeholders, p.HasStart) ∧
    s.text = "$@3-$$@-\u0663x".toList ∧ s.turned.text = "$@-3-$$@\u0663x".toList ∧
    multiply "$@3-$$@-\u0663x" 3 = "3-03x4-02x5-01x" ∧
    multiply "$@-3-$$@\u0663x" 3 = "5-01x4-02x3-03x" := by
  let first : Placeholder := ⟨1, some ⟨false, ['3']⟩⟩
  let second : Placeholder := ⟨2, some ⟨true, ['\u0663']⟩⟩
  let s : Parts := .next [] first (.next ['-'] second (.last ['x']))
  have hstart : ∀ p ∈ s.placeholders, p.HasStart := by
    refine List.forall_mem_cons.2 ⟨⟨_, rfl, by decide⟩, ?_⟩
    exact List.forall_mem_singleton.2 ⟨_, rfl, by decide⟩
  have hfit : s.Fit := by decide +kernel
  have htext : s.text = "$@3-$$@-\u0663x".toList := by decide +kernel
  have hturned : s.turned.text = "$@-3-$$@\u0663x".toList := by decide +kernel
  obtain ⟨-, hcopies, hcopies', -⟩ := multiply_turned hfit htext hturned hstart (by decide : 0 < 3)
  refine ⟨s, hfit, hstart, htext, hturned, ?_, ?_⟩
  · rw [← String.toList_inj, hcopies]
    decide +kernel
  · rw [← String.toList_inj, hcopies']
    decide +kernel

end Shorthand.Markup
