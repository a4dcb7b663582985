import Shorthand.Text.Blank
import Shorthand.Text.Digit

/-! # Runs of characters

The longest run at the front of a text ends before a character that does not belong to it, whatever
comes behind. A run of digits is read back as the number that was written. -/

namespace Shorthand.Text
variable {c : Char} {p : Char → Bool}

theorem takeWhile_append_cons (h : p c = false) (xs ys : List Char) :
    (xs ++ c :: ys).takeWhile p = xs.takeWhile p := by
  rw [List.takeWhile_append]
  split
  · next hall =>
    rw [List.takeWhile_cons_of_neg (by simp [h]), List.append_nil,
      (List.takeWhile_prefix p).eq_of_length hall]
  · rfl

theorem dropWhile_append_cons (h : p c = false) (xs ys : List Char) :
    (xs ++ c :: ys).dropWhile p = xs.dropWhile p ++ c :: ys := by
  rw [List.dropWhile_append]
  split
  · next hnil =>
    rw [List.dropWhile_cons_of_neg (by simp [h]), List.isEmpty_iff.1 hnil, List.nil_append]
  · rfl

theorem head?_dropWhile (p : Char → Bool) (cs : List Char) :
    ∀ c ∈ (cs.dropWhile p).head?, p c = false := by
  intro c hc
  have hnot := List.head?_dropWhile_not p cs
  rw [hc] at hnot
  simpa using hnot

theorem takeWhile_eq_nil {cs : List Char} (h : ∀ c ∈ cs.head?, p c = false) :
    cs.takeWhile p = [] := by
  cases cs with
  | nil => rfl
  | cons c cs => exact List.takeWhile_cons_of_neg (by simp [h c rfl])

theorem dropWhile_eq_self {cs : List Char} (h : ∀ c ∈ cs.head?, p c = false) :
    cs.dropWhile p = cs := by
  cases cs with
  | nil => rfl
  | cons c cs => exact List.dropWhile_cons_of_neg (by simp [h c rfl])

/-- A place in two texts one behind the other is in one of them. -/
theorem append_eq_append_cons {xs ys before after : List Char}
    (h : xs ++ ys = before ++ c :: after) :
    (∃ m, xs = before ++ c :: m) ∨ ∃ m, before = xs ++ m ∧ ys = m ++ c :: after := by
  induction xs generalizing before with
  | nil => exact .inr ⟨before, rfl, h⟩
  | cons x xs ih =>
    cases before with
    | nil =>
      obtain ⟨rfl, -⟩ := List.cons.inj h
      exact .inl ⟨xs, rfl⟩
    | cons b before =>
      obtain ⟨rfl, htail⟩ := List.cons.inj h
      rcases ih htail with ⟨m, rfl⟩ | ⟨m, rfl, hm⟩
      · exact .inl ⟨m, rfl⟩
      · exact .inr ⟨m, rfl, hm⟩

/-- Two texts are cut alike at the first occurrence of a character. -/
theorem append_cons_inj {xs ys us vs : List Char} (hxs : c ∉ xs) (hys : c ∉ ys)
    (h : xs ++ c :: us = ys ++ c :: vs) : xs = ys ∧ us = vs := by
  rcases append_eq_append_cons h with ⟨m, rfl⟩ | ⟨m, rfl, hm⟩
  · exact absurd (List.mem_append_right ys List.mem_cons_self) hxs
  · cases m with
    | nil => exact ⟨(List.append_nil xs).symm, (List.cons.inj hm).2⟩
    | cons d m =>
      rw [← (List.cons.inj hm).1] at hys
      exact absurd (List.mem_append_right xs List.mem_cons_self) hys

theorem utf8Length_pos {cs : List Char} (h : cs ≠ []) : 0 < utf8Length cs :=
  Nat.lt_of_lt_of_le (List.length_pos_iff.2 h) (length_le_utf8Length cs)

theorem add_utf8Length_append (n : Nat) (xs ys zs : List Char) :
    n + utf8Length xs + utf8Length ys + utf8Length zs = n + utf8Length (xs ++ (ys ++ zs)) := by
  rw [utf8Length_append, utf8Length_append]
  omega

theorem utf8ByteSize_ofList (cs : List Char) :
    (String.ofList cs).utf8ByteSize = utf8Length cs := by
  induction cs with
  | nil => rfl
  | cons c cs ih =>
    rw [String.ofList_cons, String.utf8ByteSize_append, String.utf8ByteSize_singleton, ih,
      utf8Length_cons]

theorem utf8Length_toList (s : String) : utf8Length s.toList = s.utf8ByteSize := by
  rw [← utf8ByteSize_ofList, String.ofList_toList]

theorem hexValue?_of_isDigit (h : c.isDigit) : hexValue? c = some (c.toNat - '0'.toNat) := by
  simp only [Char.isDigit, Bool.and_eq_true, decide_eq_true_eq] at h
  exact if_pos h

theorem natOfDigits_eq {cs : List Char} (h : ∀ c ∈ cs, c.isDigit) (n : Nat) :
    cs.foldl (fun n c => n * 10 + (hexValue? c).getD 0) n = Nat.ofDigitChars 10 cs n := by
  induction cs generalizing n with
  | nil => rfl
  | cons c cs ih =>
    have hc := h c List.mem_cons_self
    rw [List.foldl_cons, Nat.ofDigitChars_cons, hexValue?_of_isDigit hc, Nat.mul_comm]
    exact ih (fun d hd => h d (List.mem_cons_of_mem c hd)) _

theorem toList_toString (n : Nat) : (toString n).toList = Nat.toDigits 10 n := by
  rw [Nat.toString_eq_ofList_toDigits, String.toList_ofList]

theorem natOfDigits_toDigits (n : Nat) : natOfDigits 10 (Nat.toDigits 10 n) = n := by
  have h : ∀ c ∈ Nat.toDigits 10 n, c.isDigit := fun c hc =>
    Nat.isDigit_of_mem_toDigits (by decide) (by decide) hc
  rw [natOfDigits, natOfDigits_eq h, Nat.ofDigitChars_ten_toDigits]

end Shorthand.Text
