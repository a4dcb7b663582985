import Mathlib.Data.List.TakeWhile
import Shorthand.Proofs.Text.Runs
import Shorthand.Token.Scanner

/-! # Texts one behind the other

A mark ends every lexeme before it, so a text that is scanned without an error and then goes on with
a mark has its own lexemes first (`lexemes_append`). -/

namespace Shorthand
open Text

namespace Scan
variable {c close : Char} {cs ds content rest : List Char} {m : Mark} {ls : List Lexeme}

/-- The lexemes of a text up to and including the first final one. -/
def lexemes (cs : List Char) : List Lexeme :=
  if (of (cs.dropWhile isBlank)).lexeme.isFinal then [(of (cs.dropWhile isBlank)).lexeme]
  else (of (cs.dropWhile isBlank)).lexeme :: lexemes (of (cs.dropWhile isBlank)).rest
termination_by cs.length
decreasing_by
  refine Scanner.next_rest_length_lt (s := ⟨cs, 0⟩) fun h => ?_
  simp only [Scanner.next] at h
  simp_all [Lexeme.isFinal]

theorem map_lexeme_tokens (s : Scanner) : s.tokens.map (·.lexeme) = lexemes s.rest := by
  fun_induction Scanner.tokens s with
  | case1 s h =>
    rw [lexemes, if_pos (show (of (s.rest.dropWhile isBlank)).lexeme.isFinal from h)]
    rfl
  | case2 s h ih =>
    rw [lexemes, if_neg (show ¬ (of (s.rest.dropWhile isBlank)).lexeme.isFinal from h), List.map_cons,
      ih]
    rfl

theorem lexemes_nil : lexemes [] = [.eof] := by
  rw [lexemes]
  rfl

theorem ne_of_mark (h : Mark.ofChar? c = some m) :
    c ≠ '}' ∧ c ≠ '"' ∧ c ≠ '\'' ∧ isBlank c = false ∧ endsWord c = true := by
  obtain rfl := Mark.char_of_ofChar? h
  cases m <;> decide

theorem of_mark (h : Mark.ofChar? c = some m) (cs : List Char) : of (c :: cs) = ⟨.mark m, [c], cs⟩ := by
  simp only [of, h]

theorem dropWhile_isBlank_mark (h : Mark.ofChar? c = some m) (cs : List Char) :
    (c :: cs).dropWhile isBlank = c :: cs :=
  List.dropWhile_cons_of_neg (by rw [(ne_of_mark h).2.2.2.1]; exact Bool.false_ne_true)

theorem lexemes_mark (h : Mark.ofChar? c = some m) (cs : List Char) :
    lexemes (c :: cs) = .mark m :: lexemes cs := by
  rw [lexemes, dropWhile_isBlank_mark h, of_mark h]
  rfl

theorem splitRun_append (h : splitRun close cs = some (content, rest)) (hc : c ≠ close)
    (ds : List Char) : splitRun close (cs ++ c :: ds) = some (content, rest ++ c :: ds) := by
  fun_induction splitRun close cs generalizing content with
  | case1 => cases h
  | case2 =>
    cases h
    simp [splitRun, hc]
  | case3 => cases h
  | case4 cs ih =>
    obtain ⟨⟨content', rest'⟩, h', he⟩ := Option.map_eq_some_iff.1 h
    cases he
    simp [splitRun, ih h']
  | case5 d cs hd =>
    cases h
    simp [splitRun, hd]
  | case6 b d cs hb ih =>
    obtain ⟨⟨content', rest'⟩, h', he⟩ := Option.map_eq_some_iff.1 h
    cases he
    have h' := ih h'
    rw [List.cons_append] at h'
    simp [splitRun, hb, h']

theorem run_append {opening : Char} {lexeme : String → Lexeme}
    (h : ¬ (run opening close lexeme cs).lexeme.isFinal) (hc : c ≠ close) (ds : List Char) :
    run opening close lexeme (cs ++ c :: ds) =
      ⟨(run opening close lexeme cs).lexeme, (run opening close lexeme cs).spelling,
        (run opening close lexeme cs).rest ++ c :: ds⟩ := by
  cases hs : splitRun close cs with
  | none =>
    refine absurd ?_ h
    rw [run, hs]
    rfl
  | some found =>
    obtain ⟨content, rest⟩ := found
    rw [run, run, splitRun_append hs hc, hs]

/-- A mark behind a text does not change the first lexeme. -/
theorem of_append (h : ¬ (of cs).lexeme.isFinal) (hc : Mark.ofChar? c = some m) (ds : List Char) :
    of (cs ++ c :: ds) = ⟨(of cs).lexeme, (of cs).spelling, (of cs).rest ++ c :: ds⟩ := by
  obtain ⟨hbrace, hdouble, hsingle, -, hword⟩ := ne_of_mark hc
  cases cs with
  | nil => exact absurd rfl h
  | cons d cs =>
    cases hd : Mark.ofChar? d with
    | some m' =>
      rw [List.cons_append, of_mark hd, of_mark hd]
    | none =>
      simp only [List.cons_append, of, hd] at h ⊢
      by_cases h₁ : d = '{'
      · rw [if_pos h₁] at h ⊢
        rw [if_pos h₁]
        exact run_append h hbrace ds
      · rw [if_neg h₁] at h ⊢
        rw [if_neg h₁]
        by_cases h₂ : d = '}'
        · rw [if_pos h₂] at h
          exact absurd rfl h
        · rw [if_neg h₂] at h ⊢
          rw [if_neg h₂]
          by_cases h₃ : d = '"' ∨ d = '\''
          · rw [if_pos h₃] at h ⊢
            rw [if_pos h₃]
            refine run_append h ?_ ds
            rcases h₃ with rfl | rfl
            · exact hdouble
            · exact hsingle
          · rw [if_neg h₃, if_neg h₃]
            -- The mark ends the word, which is read up to it as it was up to the end of the text.
            have hend : (!endsWord c) = false := by rw [hword]; rfl
            rw [takeWhile_append_cons (p := (!endsWord ·)) hend,
              dropWhile_append_cons (p := (!endsWord ·)) hend]

theorem exists_of_run_eof {opening : Char} {lexeme : String → Lexeme}
    (h : (run opening close lexeme cs).lexeme = .eof) : ∃ s, lexeme s = .eof := by
  rw [run] at h
  cases hs : splitRun close cs with
  | none => rw [hs] at h; cases h
  | some found => rw [hs] at h; exact ⟨_, h⟩

/-- Only the empty text starts with the end of the input. -/
theorem eq_nil_of_eof (h : (of cs).lexeme = .eof) : cs = [] := by
  cases cs with
  | nil => rfl
  | cons d cs =>
    exfalso
    rw [of] at h
    split at h
    · cases h
    · split at h
      · obtain ⟨s, hs⟩ := exists_of_run_eof h
        cases hs
      · split at h
        · cases h
        · split at h
          · obtain ⟨s, hs⟩ := exists_of_run_eof h
            cases hs
          · cases h

/-- The lexemes of a text come first, if it goes on with a mark. -/
theorem lexemes_append (h : lexemes cs = ls ++ [.eof]) (hc : Mark.ofChar? c = some m)
    (ds : List Char) : lexemes (cs ++ c :: ds) = ls ++ lexemes (c :: ds) := by
  have hblank := (ne_of_mark hc).2.2.2.1
  have hskip (cs : List Char) := dropWhile_append_cons hblank cs ds
  fun_induction lexemes cs generalizing ls with
  | case1 cs hfinal =>
    have h : [] ++ [(of (cs.dropWhile isBlank)).lexeme] = ls ++ [.eof] := h
    obtain ⟨hls, heof⟩ := List.append_inj' h rfl
    have hnil := eq_nil_of_eof (List.cons.inj heof).1
    rw [lexemes, hskip, hnil, List.nil_append, of_mark hc, lexemes_mark hc, ← hls]
    rfl
  | case2 cs hfinal ih =>
    cases ls with
    | nil =>
      have heof := (List.cons.inj h).1
      rw [heof] at hfinal
      exact absurd rfl hfinal
    | cons l ls =>
      obtain ⟨hl, hrest⟩ := List.cons.inj h
      have happend := of_append hfinal hc ds
      rw [lexemes, hskip, happend, if_neg hfinal, ih hrest, hl, List.cons_append]

theorem ne_of_word (h : endsWord c = false) :
    Mark.ofChar? c = none ∧ c ≠ '{' ∧ c ≠ '}' ∧ ¬ (c = '"' ∨ c = '\'') ∧ isBlank c = false := by
  simp only [endsWord, Bool.or_eq_false_iff, beq_eq_false_iff_ne, Option.isSome_eq_false_iff,
    Option.isNone_iff_eq_none] at h
  obtain ⟨⟨⟨⟨⟨hmark, hopen⟩, hclose⟩, hsingle⟩, hdouble⟩, hblank⟩ := h
  exact ⟨hmark, hopen, hclose, not_or.2 ⟨hdouble, hsingle⟩, hblank⟩

theorem lexemes_word (hne : cs ≠ []) (h : ∀ c ∈ cs, endsWord c = false) :
    lexemes cs = [.word (String.ofList cs), .eof] := by
  cases cs with
  | nil => exact absurd rfl hne
  | cons d cs =>
    have hall : ∀ c ∈ cs, (!endsWord c) = true := fun c hc => by
      rw [h c (List.mem_cons_of_mem d hc)]
      rfl
    obtain ⟨hmark, hopen, hclose, hquote, hblank⟩ := ne_of_word (h d List.mem_cons_self)
    have hskip : (d :: cs).dropWhile isBlank = d :: cs :=
      List.dropWhile_cons_of_neg (by rw [hblank]; exact Bool.false_ne_true)
    have hof : of (d :: cs) = ⟨.word (String.ofList (d :: cs)), d :: cs, []⟩ := by
      have htake : cs.takeWhile (!endsWord ·) = cs := List.takeWhile_eq_self_iff.2 hall
      have hdrop : cs.dropWhile (!endsWord ·) = [] := List.dropWhile_eq_nil_iff.2 hall
      simp only [of, hmark, if_neg hopen, if_neg hclose, if_neg hquote, htake, hdrop]
    rw [lexemes, hskip, hof, lexemes_nil]
    rfl

theorem endsWord_of_isDigit (h : c.isDigit) : endsWord c = false := by
  have hall : ∀ n < 58, 48 ≤ n → endsWord (Char.ofNat n) = false := by decide
  simp only [Char.isDigit, Bool.and_eq_true, decide_eq_true_eq, UInt32.le_iff_toNat_le] at h
  have hc := hall c.toNat (Nat.lt_succ_of_le h.2) h.1
  rwa [Char.ofNat_toNat] at hc

theorem lexemes_toDigits (n : Nat) : lexemes (Nat.toDigits 10 n) =
    [.word (String.ofList (Nat.toDigits 10 n)), .eof] :=
  lexemes_word Nat.toDigits_ne_nil fun _ hc =>
    endsWord_of_isDigit (Nat.isDigit_of_mem_toDigits (by decide) (by decide) hc)

end Scan

theorem map_lexeme_tokenize (source : String) :
    (tokenize source).map (·.lexeme) = Scan.lexemes source.toList :=
  Scan.map_lexeme_tokens (Scanner.ofString source)

end Shorthand
