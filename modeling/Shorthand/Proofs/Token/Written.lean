import Shorthand.Proofs.Token.Spelling

/-! # Lexemes as texts

Scanning gives exactly those lexemes in front of the end that some text is written with: each of them
can be spelled with a blank behind it (`lexemes_written`, `isWritable_of_mem`). -/

namespace Shorthand
open Text

/-- Stands in front of the last lexeme of some text. -/
def Lexeme.isWritable : Lexeme → Bool
  | word s => !s.toList.isEmpty && s.toList.all (!endsWord ·)
  | l => !l.isFinal

/-- How a lexeme can be spelled. -/
def Lexeme.spelling : Lexeme → List Char
  | mark m => [m.char]
  | word s => s.toList
  | text s => '{' :: (doubled '}' s.toList ++ ['}'])
  | quoted s => '"' :: (doubled '"' s.toList ++ ['"'])
  | _ => []

/-- The lexemes one behind the other, with blanks between them. -/
def written (ls : List Lexeme) : List Char := ls.flatMap fun l => l.spelling ++ [' ']

/-- How a lexeme is spelled with either kind of quotes. -/
def Lexeme.writtenWith (q : Char) : Lexeme → List Char
  | quoted s => q :: (doubled q s.toList ++ [q])
  | l => l.spelling

variable {l : Lexeme} {spelling rest : List Char} {q c : Char}

theorem isWritable_word {s : String} (h : (Lexeme.word s).isWritable) :
    s.toList ≠ [] ∧ ∀ d ∈ s.toList, endsWord d = false := by
  simpa [Lexeme.isWritable] using h

theorem endsWord_of_isBlank (hc : isBlank c = true) : endsWord c = true := by
  simp [endsWord, hc]

theorem head?_ne_of_blank (hrest : ∀ c ∈ rest.head?, isBlank c = true) (hc : isBlank c = false) :
    rest.head? ≠ some c := by
  intro h
  rw [hrest c h] at hc
  cases hc

/-- Every lexeme in front of the last can be written, if a blank or nothing follows. -/
theorem spells_writtenWith (h : l.isWritable) (hq : q = '"' ∨ q = '\'')
    (hrest : ∀ c ∈ rest.head?, isBlank c = true) : Spells l (l.writtenWith q) rest := by
  cases l with
  | eof => cases h
  | error cause => cases h
  | mark m => exact .mark m rest
  | word s =>
    obtain ⟨hne, hall⟩ := isWritable_word h
    exact .word hne hall fun c hc => endsWord_of_isBlank (hrest c hc)
  | text s => exact .text s (head?_ne_of_blank hrest rfl)
  | quoted s =>
    refine .quoted s hq (head?_ne_of_blank hrest ?_)
    rcases hq with rfl | rfl <;> rfl

theorem Lexeme.spelling_eq (l : Lexeme) : l.spelling = l.writtenWith '"' := by
  cases l <;> rfl

theorem Spells.isWritable (h : Spells l spelling rest) (hl : ¬ l.isFinal) : l.isWritable := by
  cases h with
  | word hne hs => simpa [Lexeme.isWritable] using And.intro hne hs
  | mark | text | quoted => rfl
  | stray | unended => exact absurd rfl hl

namespace Scan
variable {ls : List Lexeme} {cs : List Char}

theorem lexemes_blank (hc : isBlank c) (cs : List Char) : lexemes (c :: cs) = lexemes cs := by
  rw [lexemes, List.dropWhile_cons_of_pos hc, ← lexemes]

theorem not_isFinal_of_isWritable (h : l.isWritable) : ¬ l.isFinal := by
  cases l with
  | eof | error cause => cases h
  | _ => exact Bool.false_ne_true

theorem lexemes_written (h : ∀ l ∈ ls, l.isWritable) : lexemes (written ls) = ls ++ [.eof] := by
  induction ls with
  | nil => exact lexemes_nil
  | cons l ls ih =>
    have hl := h l List.mem_cons_self
    have hrest := ih fun l' hl' => h l' (List.mem_cons_of_mem l hl')
    have hspells : Spells l l.spelling (' ' :: written ls) := by
      rw [l.spelling_eq]
      exact spells_writtenWith hl (.inl rfl) fun c hc => by cases hc; rfl
    have hof := of_spelling_append hspells
    have hskip : (l.spelling ++ ' ' :: written ls).dropWhile isBlank =
        l.spelling ++ ' ' :: written ls := by
      obtain ⟨d, ds, hs, hd⟩ := hspells.head_not_blank
      rw [hs]
      exact List.dropWhile_cons_of_neg (by rw [hd]; exact Bool.false_ne_true)
    have hwritten : written (l :: ls) = l.spelling ++ ' ' :: written ls := by
      simp [written]
    rw [hwritten, lexemes, hskip, hof, if_neg (not_isFinal_of_isWritable hl),
      lexemes_blank rfl, hrest, List.cons_append]

theorem of_isWritable (hblank : ∀ d ∈ cs.head?, isBlank d = false) (h : ¬ (of cs).lexeme.isFinal) :
    (of cs).lexeme.isWritable := by
  cases cs with
  | nil => exact absurd rfl h
  | cons d ds => exact (spells_of (hblank d rfl) ds).isWritable h

theorem isWritable_of_mem (h : l ∈ lexemes cs) (hl : ¬ l.isFinal) : l.isWritable := by
  fun_induction lexemes cs with
  | case1 cs hfinal =>
    rw [List.mem_singleton.1 h] at hl
    exact absurd hfinal hl
  | case2 cs hfinal ih =>
    rcases List.mem_cons.1 h with rfl | h
    · exact of_isWritable (head?_dropWhile isBlank cs) hfinal
    · exact ih h

end Scan

theorem exists_source {ls : List Lexeme} (h : ∀ l ∈ ls, l.isWritable) :
    ∃ source, (tokenize source).map (·.lexeme) = ls ++ [.eof] := by
  refine ⟨String.ofList (written ls), ?_⟩
  rw [map_lexeme_tokenize, String.toList_ofList]
  exact Scan.lexemes_written h

end Shorthand
