import Mathlib.Data.List.Basic
import Shorthand.Proofs.Markup.Templates

/-! # The parts of a template

Read from left to right, a template is texts without `$` and placeholders in turn, and a placeholder is
as long as it can be. `Parts` says this without reading from left to right: there is one way to cut a
template, and each of its copies is written part by part (`multiply_parts`). -/

namespace Shorthand.Markup
open Text
variable {c : Char} {cs l rest : List Char} {p : Placeholder}

theorem pieces_cons_ne_nil (c : Char) (cs : List Char) : pieces (c :: cs) ≠ [] := by
  by_cases hc : c = '$'
  · rw [hc, pieces_dollar]
    exact List.cons_ne_nil _ _
  · rw [pieces_cons hc]
    exact List.cons_ne_nil _ _

namespace Placeholder

/-- A run of `$`, and a suffix that ends with nothing but digits. -/
structure Written (p : Placeholder) : Prop where
  width : 0 < p.width
  digits : ∀ s ∈ p.suffix, ∀ c ∈ s.digits, isDecimalDigit c

/-- What is written of `p` with `c` behind it is a placeholder, too. -/
def ExtendedBy (p : Placeholder) (c : Char) : Prop :=
  ∃ q : Placeholder, q.Written ∧ q.spelling = p.spelling ++ [c]

/-- The characters that a placeholder goes on with. -/
def GoesOn (p : Placeholder) (c : Char) : Prop :=
  match p.suffix with
  | none => c = '$' ∨ c = '@'
  | some s => isDecimalDigit c ∨ (c = '-' ∧ s = ⟨false, []⟩)

instance (p : Placeholder) : Decidable p.Written :=
  decidable_of_iff (0 < p.width ∧ p.suffix.all fun s => s.digits.all isDecimalDigit)
    ⟨fun h => ⟨h.1, by simpa [Option.all_eq_true] using h.2⟩,
      fun h => ⟨h.width, by simpa [Option.all_eq_true] using h.digits⟩⟩

instance (p : Placeholder) (c : Char) : Decidable (p.GoesOn c) :=
  match p with
  | ⟨_, none⟩ => inferInstanceAs (Decidable (_ ∨ _))
  | ⟨_, some _⟩ => inferInstanceAs (Decidable (_ ∨ _))

theorem Written.split_suffix (hp : p.Written) (hrest : ∀ c ∈ rest.head?, ¬ p.GoesOn c) :
    Suffix.split ((p.suffix.map Suffix.spelling).getD [] ++ rest) = (p.suffix, rest) := by
  obtain ⟨width, suffix⟩ := p
  cases suffix with
  | none =>
    cases rest with
    | nil => rfl
    | cons c rest => exact split_of_ne (fun hc => hrest c rfl (.inr hc)) rest
  | some s =>
    obtain ⟨descending, digits⟩ := s
    have hdigits : ∀ c ∈ digits, isDecimalDigit c := hp.digits _ rfl
    have hstop : ∀ c ∈ rest.head?, isDecimalDigit c = false := fun c hc =>
      Bool.eq_false_iff.2 fun hd => hrest c hc (.inl hd)
    have htake : (digits ++ rest).takeWhile isDecimalDigit = digits := by
      rw [List.takeWhile_append_of_pos hdigits, takeWhile_eq_nil hstop, List.append_nil]
    have hdrop : (digits ++ rest).dropWhile isDecimalDigit = rest := by
      rw [List.dropWhile_append_of_pos hdigits, dropWhile_eq_self hstop]
    cases descending with
    | true =>
      show Suffix.split ('@' :: '-' :: (digits ++ rest)) = _
      rw [Suffix.split, htake, hdrop]
    | false =>
      have hminus : ∀ ds, digits ++ rest ≠ '-' :: ds := by
        intro ds hds
        cases digits with
        | nil =>
          refine hrest '-' ?_ (.inr ⟨rfl, rfl⟩)
          rw [List.nil_append] at hds
          rw [hds]
          rfl
        | cons d digits =>
          obtain ⟨rfl, -⟩ := List.cons.inj hds
          have := hdigits _ List.mem_cons_self
          revert this
          decide +kernel
      show Suffix.split ('@' :: (digits ++ rest)) = _
      rw [Suffix.split, htake, hdrop]
      exact hminus

/-- A placeholder is found whole if it does not go on. -/
theorem Written.pieces_spelling (hp : p.Written) (hrest : ∀ c ∈ rest.head?, ¬ p.GoesOn c) :
    pieces (p.spelling ++ rest) = .placeholder p :: pieces rest := by
  have hsplit := hp.split_suffix hrest
  obtain ⟨k, hk⟩ : ∃ k, p.width = k + 1 := ⟨p.width - 1, by have := hp.width; omega⟩
  have hstop : ∀ c ∈ ((p.suffix.map Suffix.spelling).getD [] ++ rest).head?, (c == '$') = false := by
    intro c hc
    rw [beq_eq_false_iff_ne]
    rintro rfl
    cases hs : p.suffix with
    | none =>
      rw [hs] at hc
      exact hrest '$' hc (by rw [GoesOn, hs]; exact .inl rfl)
    | some s =>
      rw [hs] at hc
      cases hc
  have hrun : ∀ c ∈ List.replicate k '$', (c == '$') = true := fun c hc =>
    beq_iff_eq.2 (List.eq_of_mem_replicate hc)
  rw [spelling, hk, List.replicate_succ, List.cons_append, List.cons_append, List.append_assoc,
    pieces_dollar, List.takeWhile_append_of_pos hrun, takeWhile_eq_nil hstop,
    List.dropWhile_append_of_pos hrun, dropWhile_eq_self hstop, hsplit, List.append_nil,
    List.length_replicate, ← hk]

/-- What goes on is still a placeholder, and nothing else is: it would be found whole. -/
theorem Written.extendedBy_iff (hp : p.Written) : p.ExtendedBy c ↔ p.GoesOn c := by
  constructor
  -- What goes on as `q` would be read as `q` alone, but `p` is read and `c` is left.
  · rintro ⟨q, hq, hspelling⟩
    refine Classical.byContradiction fun hstop => ?_
    have hread : pieces (p.spelling ++ [c]) = .placeholder p :: pieces [c] :=
      hp.pieces_spelling fun d hd => by cases hd; exact hstop
    have hwhole : pieces (q.spelling ++ []) = .placeholder q :: pieces [] := hq.pieces_spelling nofun
    rw [List.append_nil, hspelling, hread, pieces_nil] at hwhole
    exact pieces_cons_ne_nil c [] (List.cons.inj hwhole).2
  · intro h
    obtain ⟨width, suffix⟩ := p
    cases suffix with
    | none =>
      rcases h with rfl | rfl
      · exact ⟨⟨width + 1, none⟩, ⟨Nat.succ_pos _, nofun⟩, by simp [spelling, List.replicate_succ']⟩
      · exact ⟨⟨width, some ⟨false, []⟩⟩, ⟨hp.width, by simp⟩, by simp [spelling, Suffix.spelling]⟩
    | some s =>
      rcases h with hc | ⟨rfl, rfl⟩
      · refine ⟨⟨width, some { s with digits := s.digits ++ [c] }⟩, ⟨hp.width, ?_⟩, ?_⟩
        · rintro _ ⟨⟩ d hd
          rcases List.mem_append.1 hd with hd | hd
          · exact hp.digits s rfl d hd
          · rwa [List.mem_singleton.1 hd]
        · cases hdesc : s.descending <;> simp [spelling, Suffix.spelling, hdesc]
      · exact ⟨⟨width, some ⟨true, []⟩⟩, ⟨hp.width, by simp⟩, by simp [spelling, Suffix.spelling]⟩

/-- What `pieces` takes off the front of a text behind a run of `$`. -/
theorem split_spec (width : Nat) (cs : List Char) (h : ∀ c ∈ cs.head?, c ≠ '$') :
    (⟨width + 1, (Suffix.split cs).1⟩ : Placeholder).Written ∧
      ((Suffix.split cs).1.map Suffix.spelling).getD [] ++ (Suffix.split cs).2 = cs ∧
      ∀ c ∈ (Suffix.split cs).2.head?, ¬ (⟨width + 1, (Suffix.split cs).1⟩ : Placeholder).GoesOn c := by
  have hwritten (descending : Bool) (cs : List Char) :
      (⟨width + 1, some ⟨descending, cs.takeWhile isDecimalDigit⟩⟩ : Placeholder).Written := by
    refine ⟨Nat.succ_pos _, ?_⟩
    rintro _ ⟨⟩
    exact List.all_eq_true.1 List.all_takeWhile
  have hstop {cs : List Char} {c : Char} (hc : c ∈ (cs.dropWhile isDecimalDigit).head?) :
      ¬ isDecimalDigit c := Bool.eq_false_iff.1 (head?_dropWhile isDecimalDigit cs c hc)
  fun_cases Suffix.split cs with
  | case1 cs =>
    refine ⟨hwritten true cs, by simp [Suffix.spelling], ?_⟩
    rintro c hc (hd | ⟨-, hs⟩)
    · exact hstop hc hd
    · cases hs
  | case2 cs hcs =>
    refine ⟨hwritten false cs, by simp [Suffix.spelling], ?_⟩
    rintro c hc (hd | ⟨rfl, hs⟩)
    · exact hstop hc hd
    · -- Without digits a `-` would stand right behind the `@`.
      obtain ⟨-, hnil⟩ := Suffix.mk.inj hs
      rw [← List.takeWhile_append_dropWhile (p := isDecimalDigit) (l := cs), hnil] at hcs
      obtain ⟨ds, hds⟩ := List.head?_eq_some_iff.1 hc
      exact hcs ds hds
  | case3 cs _ hcs =>
    refine ⟨⟨Nat.succ_pos _, by simp⟩, rfl, ?_⟩
    rintro c hc (rfl | rfl)
    · exact h _ hc rfl
    · obtain ⟨ds, hds⟩ := List.head?_eq_some_iff.1 hc
      exact hcs ds hds

end Placeholder

/-! ### Parts -/

/-- Texts and placeholders in turn, with a text at both ends. -/
inductive Parts
  | last (l : List Char)
  | next (l : List Char) (p : Placeholder) (rest : Parts)

namespace Parts
variable {s : Parts}

/-- The template that is cut into these parts. -/
def text : Parts → List Char
  | last l => l
  | next l p rest => l ++ (p.spelling ++ rest.text)

def placeholders : Parts → List Placeholder
  | last _ => []
  | next _ p rest => p :: rest.placeholders

/-- No text has a `$` in it, and no placeholder can be extended by the character behind it. -/
def Fit : Parts → Prop
  | last l => '$' ∉ l
  | next l p rest => '$' ∉ l ∧ p.Written ∧ (∀ c ∈ rest.text.head?, ¬ p.ExtendedBy c) ∧ rest.Fit

theorem fit_next : (next l p s).Fit ↔
    '$' ∉ l ∧ p.Written ∧ (∀ c ∈ s.text.head?, ¬ p.GoesOn c) ∧ s.Fit :=
  and_congr_right fun _ => and_congr_right fun hp =>
    and_congr_left' (forall₂_congr fun _ _ => not_congr hp.extendedBy_iff)

instance decidableFit : (s : Parts) → Decidable s.Fit
  | last l => inferInstanceAs (Decidable ('$' ∉ l))
  | next l p rest =>
    have := decidableFit rest
    decidable_of_iff
      ('$' ∉ l ∧ p.Written ∧ (rest.text.head?.all fun c => decide (¬ p.GoesOn c)) ∧ rest.Fit)
      (by simp [fit_next, Option.all_eq_true])

/-- The pieces that the parts stand for. -/
def pieces : Parts → List Piece
  | last l => l.map .literal
  | next l p rest => l.map .literal ++ .placeholder p :: rest.pieces

/-- The parts with more literal characters in front. -/
def prepend (l : List Char) : Parts → Parts
  | last l' => last (l ++ l')
  | next l' p rest => next (l ++ l') p rest

/-- Pieces in parts: the literal characters between two placeholders are taken together. -/
def ofPieces : List Piece → Parts
  | [] => last []
  | .literal c :: ps => (ofPieces ps).prepend [c]
  | .placeholder p :: ps => next [] p (ofPieces ps)

theorem prepend_nil (s : Parts) : s.prepend [] = s := by cases s <;> rfl

theorem prepend_prepend (l l' : List Char) (s : Parts) :
    (s.prepend l').prepend l = s.prepend (l ++ l') := by
  cases s <;> simp [prepend]

theorem text_prepend (l : List Char) (s : Parts) : (s.prepend l).text = l ++ s.text := by
  cases s <;> simp [prepend, text]

theorem Fit.prepend (h : s.Fit) (hl : '$' ∉ l) : (s.prepend l).Fit := by
  cases s with
  | last l' => exact List.not_mem_append hl h
  | next l' p rest => exact ⟨List.not_mem_append hl h.1, h.2⟩

theorem ofPieces_literals (l : List Char) (ps : List Piece) :
    ofPieces (l.map .literal ++ ps) = (ofPieces ps).prepend l := by
  induction l with
  | nil => exact (prepend_nil _).symm
  | cons c l ih => rw [List.map_cons, List.cons_append, ofPieces, ih, prepend_prepend]; rfl

theorem ofPieces_pieces (s : Parts) : ofPieces s.pieces = s := by
  induction s with
  | last l =>
    rw [pieces, ← List.append_nil (l.map _), ofPieces_literals, ofPieces, prepend, List.append_nil]
  | next l p rest ih => rw [pieces, ofPieces_literals, ofPieces, ih, prepend, List.append_nil]

theorem Fit.pieces_text (h : s.Fit) : Markup.pieces s.text = s.pieces := by
  induction s with
  | last l => exact pieces_of_dollar_notMem h
  | next l p rest ih =>
    obtain ⟨hl, hp, hstop, hrest⟩ := fit_next.1 h
    rw [text, pieces_append_of_dollar_notMem hl, hp.pieces_spelling hstop, ih hrest, pieces]

theorem fit_ofPieces (cs : List Char) :
    (ofPieces (Markup.pieces cs)).Fit ∧ (ofPieces (Markup.pieces cs)).text = cs := by
  fun_induction Markup.pieces cs with
  | case1 => exact ⟨List.not_mem_nil, rfl⟩
  | case2 cs found ih =>
    obtain ⟨hp, htext, hstop⟩ := Placeholder.split_spec (cs.takeWhile (· == '$')).length
      (cs.dropWhile (· == '$')) fun c hc => beq_eq_false_iff_ne.1 (head?_dropWhile _ cs c hc)
    refine ⟨fit_next.2 ⟨List.not_mem_nil, hp, ih.2.symm ▸ hstop, ih.1⟩, ?_⟩
    · have hrun : List.replicate (cs.takeWhile (· == '$')).length '$' = cs.takeWhile (· == '$') :=
        (List.eq_replicate_of_mem fun c hc =>
          beq_iff_eq.1 (List.all_eq_true.1 List.all_takeWhile c hc)).symm
      rw [ofPieces, text, ih.2, List.nil_append, Placeholder.spelling, List.append_assoc, htext,
        List.replicate_succ, hrun, List.cons_append, List.takeWhile_append_dropWhile]
  | case3 c cs hc ih =>
    exact ⟨ih.1.prepend (by simpa using Ne.symm hc), by rw [ofPieces, text_prepend, ih.2]; rfl⟩

theorem existsUnique_parts (cs : List Char) : ∃! s : Parts, s.Fit ∧ s.text = cs := by
  refine ⟨ofPieces (Markup.pieces cs), fit_ofPieces cs, ?_⟩
  rintro s ⟨hs, rfl⟩
  rw [hs.pieces_text, ofPieces_pieces]

end Parts

/-! ### Numbers -/

namespace Placeholder

/-- Starts are read as signed words of 64 bits. -/
def startLimit : Nat := Nat.pow 2 63

/-- Numbers are worked out in signed words of 128 bits. -/
def wordLimit : Nat := Nat.pow 2 127

/-- Where a placeholder starts to count: at the number that its digits are, if they are ASCII digits and
it is below the limit, and otherwise at one. -/
def start (p : Placeholder) : Nat :=
  match p.suffix with
  | some ⟨_, c :: digits⟩ =>
    if (c :: digits).all Char.isDigit ∧ Nat.ofDigitChars 10 (c :: digits) 0 < startLimit then
      Nat.ofDigitChars 10 (c :: digits) 0
    else 1
  | _ => 1

/-- The number in copy `i` of `count`. -/
def value (p : Placeholder) (count i : Nat) : Nat :=
  if p.descending then p.start + count - 1 - i else p.start + i

/-- A number that is neither negative nor too large for a word. -/
def word (x : Int) : Option Int := if 0 ≤ x ∧ x < wordLimit then some x else none

/-- The number in copy `i` of `count` as it is worked out in such words, step by step. -/
def worked (p : Placeholder) (count i : Nat) : Option Int := do
  let start ← word p.start
  let count ← word count
  let i ← word i
  if p.descending then
    let above ← word (start + count)
    let highest ← word (above - 1)
    word (highest - i)
  else word (start + i)

theorem base_eq_start (p : Placeholder) : p.base = p.start := by
  obtain ⟨width, suffix⟩ := p
  rcases suffix with _ | ⟨descending, _ | ⟨c, digits⟩⟩
  · rfl
  · rfl
  · rw [base, start, Option.map_some, Option.getD_some, Suffix.base]
    by_cases hall : (c :: digits).all Char.isDigit
    · have hvalue : natOfDigits 10 (c :: digits) = Nat.ofDigitChars 10 (c :: digits) 0 :=
        natOfDigits_eq (List.all_eq_true.1 hall) 0
      rw [hvalue]
      exact if_congr (and_iff_right (List.cons_ne_nil c digits)) rfl rfl
    · rw [if_neg fun h => hall h.2.1]
      exact (if_neg fun h => hall h.1).symm

theorem start_lt (p : Placeholder) : p.start < startLimit := by
  have hone : 1 < startLimit := by decide
  unfold start
  split
  · split
    · next h => exact h.2
    · exact hone
  · exact hone

theorem number_eq_value {count i : Nat} (hi : i < count) (p : Placeholder) :
    p.number count i = p.value count i := by
  rw [number, value, base_eq_start]
  split <;> omega

theorem word_eq {x : Int} {n : Nat} (hx : x = n) (hn : n < wordLimit) :
    word x = some (n : Int) := by
  subst hx
  exact if_pos ⟨Int.natCast_nonneg n, Int.ofNat_lt.2 hn⟩

theorem word_bind {x : Int} {n : Nat} (hx : x = n) (hn : n < wordLimit) (f : Int → Option Int) :
    word x >>= f = f n := by
  rw [word_eq hx hn]
  rfl

/-- No number on the way is greater than the sum of the start and the count. -/
theorem worked_eq {count i : Nat} (hcount : count < Nat.pow 2 64) (hi : i < count)
    (p : Placeholder) : p.worked count i = some (p.value count i : Int) := by
  have hlimits : startLimit + Nat.pow 2 64 ≤ wordLimit := by decide
  have hfits {n : Nat} (hn : n ≤ p.start + count) : n < wordLimit :=
    Nat.lt_of_le_of_lt hn (Nat.lt_of_lt_of_le (Nat.add_lt_add p.start_lt hcount) hlimits)
  clear hlimits hcount
  rw [worked, value, word_bind rfl (hfits (Nat.le_add_right _ _)),
    word_bind rfl (hfits (Nat.le_add_left _ _)), word_bind rfl (hfits (by omega))]
  cases p.descending with
  | true =>
    have habove : (p.start + count : Int) = (p.start + count : Nat) := (Int.natCast_add ..).symm
    have hhighest : ((p.start + count : Nat) - 1 : Int) = (p.start + count - 1 : Nat) := by omega
    rw [if_pos rfl, if_pos rfl, word_bind habove (hfits (Nat.le_refl _)),
      word_bind hhighest (hfits (Nat.sub_le _ _))]
    exact word_eq (by omega) (hfits (by omega))
  | false =>
    rw [if_neg Bool.false_ne_true, if_neg Bool.false_ne_true]
    exact word_eq (Int.natCast_add ..).symm (hfits (by omega))

end Placeholder

namespace Parts
variable {s : Parts} {count i : Nat}

/-- Copy `i` of `count`: every placeholder is its number in decimal, with zeros in front if it has fewer
digits than the placeholder has `$`. -/
def copy (count i : Nat) : Parts → List Char
  | last l => l
  | next l p rest =>
    l ++ ((Nat.toDigits 10 (p.value count i)).leftpad p.width '0' ++ rest.copy count i)

theorem numbered_pieces (hi : i < count) (s : Parts) :
    s.pieces.flatMap (Piece.numbered count i) = s.copy count i := by
  have hliterals (l : List Char) : (l.map Piece.literal).flatMap (Piece.numbered count i) = l := by
    rw [List.flatMap_map]
    exact List.flatMap_singleton' l
  induction s with
  | last l => exact hliterals l
  | next l p rest ih =>
    rw [pieces, List.flatMap_append, hliterals, List.flatMap_cons, ih, Piece.numbered,
      p.number_eq_value hi]
    rfl

theorem Fit.toList_multiply {template : String} (h : s.Fit) (ht : s.text = template.toList)
    (hpos : 0 < count) :
    (multiply template count).toList = (List.range count).flatMap (s.copy count) := by
  rw [Markup.toList_multiply, copies_of_pos hpos]
  refine List.flatMap_congr fun i hi => ?_
  rw [numbered, ← ht, h.pieces_text, s.numbered_pieces (List.mem_range.1 hi)]

end Parts

/-- A template is cut in one way, its copies are written part by part, and no number in them is negative
or too large on the way to it. -/
theorem multiply_parts (template : String) {count : Nat} (hpos : 0 < count)
    (hlt : count < Nat.pow 2 64) : (∃! s : Parts, s.Fit ∧ s.text = template.toList) ∧
      ∀ s : Parts, s.Fit → s.text = template.toList →
        (multiply template count).toList = (List.range count).flatMap (s.copy count) ∧
          ∀ p ∈ s.placeholders, ∀ i < count, p.worked count i = some (p.value count i : Int) :=
  ⟨Parts.existsUnique_parts _, fun _ hs ht =>
    ⟨hs.toList_multiply ht hpos, fun p _ _ hi => p.worked_eq hlt hi⟩⟩

/-- A start at the limit, a digit that is not ASCII, and a `-` that no placeholder goes on with. -/
theorem multiply_at_limit : (0 < 2 ∧ 2 < Nat.pow 2 64) ∧
    multiply "$$@-9223372036854775806.$@\u0663$$$-" 2 =
      "9223372036854775807.1001-9223372036854775806.2002-" ∧
    Placeholder.worked ⟨2, some ⟨true, "9223372036854775806".toList⟩⟩ 2 0 =
      some 9223372036854775807 := by
  let first : Placeholder := ⟨2, some ⟨true, "9223372036854775806".toList⟩⟩
  let second : Placeholder := ⟨1, some ⟨false, ['\u0663']⟩⟩
  let third : Placeholder := ⟨3, none⟩
  let s : Parts := .next [] first (.next ['.'] second (.next [] third (.last ['-'])))
  obtain ⟨hcopies, hworked⟩ := (multiply_parts "$$@-9223372036854775806.$@\u0663$$$-"
    (by decide : 0 < 2) (by decide)).2 s (by decide +kernel) (by decide +kernel)
  refine ⟨by decide, ?_, ?_⟩
  · rw [← String.toList_inj, hcopies]
    decide +kernel
  · rw [hworked first List.mem_cons_self 0 (by decide)]
    decide +kernel

end Shorthand.Markup
