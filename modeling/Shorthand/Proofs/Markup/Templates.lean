import Shorthand.Markup.Numbering
import Shorthand.Proofs.Text.Runs

/-! # Templates in parts

No placeholder continues over a `Separator`, so a template is numbered in parts
(`numbered_separator`). What was numbered holds no placeholder any more. -/

namespace Shorthand.Markup
open Text
variable {c : Char} {cs xs ys : List Char}

/-- The copy that a text is written for and their number; without one it stands as it is written. -/
abbrev Copy := Option (Nat × Nat)

/-- A template in one of its copies, or as it stands where nothing is copied. -/
def numbered : Copy → List Char → List Char
  | none, cs => cs
  | some (i, count), cs => (pieces cs).flatMap (Piece.numbered count i)

/-- The copies of what depends on the copy that it is written for. -/
def copies (count : Nat) (copy : Copy) (f : Copy → List Char) : List Char :=
  if count = 0 then f copy else (List.range count).flatMap fun i => f (some (i, count))

theorem toList_multiply (template : String) (count : Nat) :
    (multiply template count).toList = copies count none (numbered · template.toList) := by
  rw [multiply, copies]
  split
  · rfl
  · rw [String.toList_join, List.flatMap_map]
    simp only [copy, String.toList_ofList]
    rfl

theorem copies_of_pos {count : Nat} (h : 0 < count) (copy : Copy) (f : Copy → List Char) :
    copies count copy f = (List.range count).flatMap fun i => f (some (i, count)) :=
  if_neg (Nat.pos_iff_ne_zero.1 h)

/-- A character that cannot belong to a placeholder. -/
def Separator (c : Char) : Prop := c ≠ '$' ∧ c ≠ '@' ∧ c ≠ '-' ∧ isDecimalDigit c = false

instance (c : Char) : Decidable (Separator c) := inferInstanceAs (Decidable (_ ∧ _))

@[simp] theorem pieces_nil : pieces [] = [] := by rw [pieces]

theorem pieces_cons (h : c ≠ '$') (cs : List Char) : pieces (c :: cs) = .literal c :: pieces cs := by
  rw [pieces, if_neg h]

theorem pieces_dollar (cs : List Char) : pieces ('$' :: cs) =
    .placeholder ⟨(cs.takeWhile (· == '$')).length + 1,
      (Suffix.split (cs.dropWhile (· == '$'))).1⟩ ::
        pieces (Suffix.split (cs.dropWhile (· == '$'))).2 := by
  rw [pieces, if_pos rfl]

theorem split_of_ne (h : c ≠ '@') (cs : List Char) : Suffix.split (c :: cs) = (none, c :: cs) := by
  rw [Suffix.split]
  · intro ds hds
    exact h (List.cons.inj hds).1
  · intro ds hds
    exact h (List.cons.inj hds).1

theorem split_append_cons (h : Separator c) (xs ys : List Char) :
    Suffix.split (xs ++ c :: ys) = ((Suffix.split xs).1, (Suffix.split xs).2 ++ c :: ys) := by
  obtain ⟨-, hat, hminus, hdigit⟩ := h
  fun_cases Suffix.split xs with
  | case1 cs =>
    simp only [List.cons_append, Suffix.split, takeWhile_append_cons hdigit,
      dropWhile_append_cons hdigit]
  | case2 cs hcs =>
    have hcs' : ∀ ds, cs ++ c :: ys ≠ '-' :: ds := by
      intro ds hds
      cases cs with
      | nil => exact hminus (List.cons.inj hds).1
      | cons d cs => exact hcs cs (by rw [(List.cons.inj hds).1])
    rw [List.cons_append, Suffix.split, takeWhile_append_cons hdigit, dropWhile_append_cons hdigit]
    exact hcs'
  | case3 cs _ hcs =>
    cases xs with
    | nil => exact split_of_ne hat ys
    | cons d xs =>
      have hd : d ≠ '@' := by
        rintro rfl
        exact hcs xs rfl
      exact split_of_ne hd _

/-- A template is split at a separator. -/
theorem pieces_separator (h : Separator c) (xs ys : List Char) :
    pieces (xs ++ c :: ys) = pieces xs ++ .literal c :: pieces ys := by
  fun_induction pieces xs with
  | case1 => rw [List.nil_append, pieces_cons h.1, List.nil_append]
  | case2 cs found ih =>
    have hdollar : (c == '$') = false := beq_eq_false_iff_ne.2 h.1
    rw [List.cons_append, pieces_dollar, takeWhile_append_cons (p := (· == '$')) hdollar,
      dropWhile_append_cons (p := (· == '$')) hdollar, split_append_cons h, ih, List.cons_append]
  | case3 d cs hd ih => rw [List.cons_append, pieces_cons hd, ih, List.cons_append]

@[simp] theorem numbered_nil (copy : Copy) : numbered copy [] = [] := by
  rcases copy with _ | ⟨i, count⟩
  · rfl
  · rw [numbered, pieces_nil]
    rfl

theorem numbered_separator (h : Separator c) (copy : Copy) (xs ys : List Char) :
    numbered copy (xs ++ c :: ys) = numbered copy xs ++ c :: numbered copy ys := by
  rcases copy with _ | ⟨i, count⟩
  · rfl
  · simp only [numbered, pieces_separator h, List.flatMap_append, List.flatMap_cons]
    rfl

theorem numbered_cons (h : Separator c) (copy : Copy) (ys : List Char) :
    numbered copy (c :: ys) = c :: numbered copy ys := by
  simpa using numbered_separator h copy [] ys

theorem numbered_concat (h : Separator c) (copy : Copy) (xs : List Char) :
    numbered copy (xs ++ [c]) = numbered copy xs ++ [c] := by
  simpa using numbered_separator h copy xs []

/-! ### What is left after numbering -/

theorem split_sublist (cs : List Char) : (Suffix.split cs).2.Sublist cs := by
  fun_cases Suffix.split cs with
  | case1 cs => exact ((List.dropWhile_sublist _).cons _).cons _
  | case2 cs => exact (List.dropWhile_sublist _).cons _
  | case3 => exact List.Sublist.refl _

theorem literal_mem_pieces (h : .literal c ∈ pieces cs) : c ∈ cs ∧ c ≠ '$' := by
  fun_induction pieces cs with
  | case1 => cases h
  | case2 cs found ih =>
    rcases List.mem_cons.1 h with h | h
    · cases h
    · obtain ⟨hc, hne⟩ := ih h
      have hsub := (split_sublist _).trans (List.dropWhile_sublist (l := cs) (· == '$'))
      exact ⟨List.mem_cons_of_mem _ (hsub.subset hc), hne⟩
  | case3 d cs hd ih =>
    rcases List.mem_cons.1 h with h | h
    · cases h
      exact ⟨List.mem_cons_self, hd⟩
    · obtain ⟨hc, hne⟩ := ih h
      exact ⟨List.mem_cons_of_mem _ hc, hne⟩

theorem isDigit_of_mem_padded {p : Placeholder} {n : Nat} (h : c ∈ p.padded n) : c.isDigit := by
  rcases List.mem_append.1 h with h | h
  · rw [List.eq_of_mem_replicate h]
    rfl
  · exact Nat.isDigit_of_mem_toDigits (by decide) (by decide) h

/-- A numbered copy consists of characters of the template and of digits. -/
theorem mem_numbered {i count : Nat} (h : c ∈ numbered (some (i, count)) cs) :
    (c ∈ cs ∧ c ≠ '$') ∨ c.isDigit := by
  obtain ⟨p, hp, hc⟩ := List.mem_flatMap.1 h
  cases p with
  | literal d =>
    obtain rfl : c = d := List.mem_singleton.1 hc
    exact .inl (literal_mem_pieces hp)
  | placeholder p => exact .inr (isDigit_of_mem_padded hc)

theorem dollar_notMem_numbered (i count : Nat) (cs : List Char) :
    '$' ∉ numbered (some (i, count)) cs := by
  intro h
  rcases mem_numbered h with ⟨-, h⟩ | h
  · exact h rfl
  · revert h
    decide

theorem pieces_append_of_dollar_notMem (h : '$' ∉ xs) (ys : List Char) :
    pieces (xs ++ ys) = xs.map .literal ++ pieces ys := by
  induction xs with
  | nil => rfl
  | cons x xs ih =>
    have hx : x ≠ '$' := (List.ne_of_not_mem_cons h).symm
    rw [List.cons_append, pieces_cons hx, ih (List.not_mem_of_not_mem_cons h), List.map_cons,
      List.cons_append]

theorem pieces_of_dollar_notMem (h : '$' ∉ cs) : pieces cs = cs.map .literal := by
  simpa using pieces_append_of_dollar_notMem h []

theorem numbered_of_dollar_notMem (h : '$' ∉ cs) (copy : Copy) : numbered copy cs = cs := by
  rcases copy with _ | ⟨i, count⟩
  · rfl
  · rw [numbered, pieces_of_dollar_notMem h, List.flatMap_map]
    exact List.flatMap_singleton' cs

/-- Numbering the copies of a template once more changes nothing. -/
theorem numbered_copies {count : Nat} (h : 0 < count) (copy : Copy) (cs : List Char) :
    numbered copy (copies count none (numbered · cs)) = copies count none (numbered · cs) := by
  refine numbered_of_dollar_notMem ?_ copy
  rw [copies_of_pos h]
  intro hmem
  obtain ⟨i, -, hi⟩ := List.mem_flatMap.1 hmem
  exact dollar_notMem_numbered i count cs hi

end Shorthand.Markup
