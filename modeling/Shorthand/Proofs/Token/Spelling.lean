import Shorthand.Proofs.Token.Joining

/-! # How lexemes are written

`Spells` lists the ways to write a lexeme, the malformed ones included, with what may come behind it.
The two halves of the scanner are one: it finds a lexeme that is written there (`Scan.spells_of`), and
it finds any lexeme where that is written (`Scan.of_spelling_append`). -/

namespace Shorthand
open Text

/-- The delimiters of a run. -/
inductive Delimits : Char → Char → Prop
  | braces : Delimits '{' '}'
  | quotes {q : Char} (hq : q = '"' ∨ q = '\'') : Delimits q q

/-- A lexeme can be written with these characters, in front of that rest. -/
inductive Spells : Lexeme → List Char → List Char → Prop
  | mark (m : Mark) (rest : List Char) : Spells (.mark m) [m.char] rest
  /-- A word goes as far as it can. -/
  | word {s : String} {rest : List Char} (hne : s.toList ≠ [])
    (hs : ∀ c ∈ s.toList, endsWord c = false) (hrest : ∀ c ∈ rest.head?, endsWord c = true) :
    Spells (.word s) s.toList rest
  | text (s : String) {rest : List Char} (hrest : rest.head? ≠ some '}') :
    Spells (.text s) ('{' :: (doubled '}' s.toList ++ ['}'])) rest
  | quoted (s : String) {q : Char} {rest : List Char} (hq : q = '"' ∨ q = '\'')
    (hrest : rest.head? ≠ some q) : Spells (.quoted s) (q :: (doubled q s.toList ++ [q])) rest
  | stray (rest : List Char) : Spells (.error .strayBrace) ['}'] rest
  /-- A run without an end: every closing delimiter behind a content stands in front of another. -/
  | unended {opening close : Char} {cs : List Char} (hd : Delimits opening close)
    (h : ∀ content rest, cs = doubled close content ++ close :: rest → rest.head? = some close) :
    Spells (.error .suddenEnd) (opening :: cs) []

variable {l : Lexeme} {spelling rest cs content : List Char} {c opening close : Char}

theorem head?_of_splitRun (h : splitRun close cs = some (content, rest)) :
    rest.head? ≠ some close := by
  fun_induction splitRun close cs generalizing content with
  | case1 => cases h
  | case2 =>
    cases h
    simp
  | case3 => cases h
  | case4 cs ih =>
    obtain ⟨⟨content', rest'⟩, h', he⟩ := Option.map_eq_some_iff.1 h
    cases he
    exact ih h'
  | case5 d cs hd =>
    cases h
    simpa using hd
  | case6 c d cs hc ih =>
    obtain ⟨⟨content', rest'⟩, h', he⟩ := Option.map_eq_some_iff.1 h
    cases he
    exact ih h'

theorem splitRun_doubled_append (hrest : rest.head? ≠ some close) (content : List Char) :
    splitRun close (doubled close content ++ close :: rest) = some (content, rest) := by
  induction content with
  | nil =>
    cases rest with
    | nil => simp [doubled, splitRun]
    | cons d rest =>
      have hd : d ≠ close := by simpa using hrest
      simp [doubled, splitRun, hd]
  | cons d ds ih =>
    rw [doubled]
    split
    · next hd =>
      subst hd
      simp [splitRun, ih]
    · next hd =>
      obtain ⟨x, xs, hx⟩ : ∃ x xs, doubled close ds ++ close :: rest = x :: xs :=
        List.exists_cons_of_ne_nil (by simp)
      rw [hx] at ih
      rw [List.cons_append, hx, splitRun, if_neg hd, ih]
      rfl

/-- A run ends at the first closing delimiter that no other follows. -/
theorem splitRun_eq_some_iff : splitRun close cs = some (content, rest) ↔
    cs = doubled close content ++ close :: rest ∧ rest.head? ≠ some close := by
  constructor
  · intro h
    exact ⟨(doubled_append_of_splitRun h).symm, head?_of_splitRun h⟩
  · rintro ⟨rfl, hrest⟩
    exact splitRun_doubled_append hrest content

namespace Spells

theorem ne_nil (h : Spells l spelling rest) : spelling ≠ [] := by
  cases h with
  | word hne => exact hne
  | _ => exact List.cons_ne_nil _ _

theorem ne_eof (h : Spells l spelling rest) : l ≠ .eof := by
  rintro rfl
  cases h

/-- Blanks come in front of a lexeme only. -/
theorem head_not_blank (h : Spells l spelling rest) :
    ∃ c cs, spelling = c :: cs ∧ isBlank c = false := by
  cases h with
  | mark m => exact ⟨m.char, [], rfl, (Scan.ne_of_mark (Mark.ofChar?_char m)).2.2.2.1⟩
  | word hne hs =>
    obtain ⟨c, cs, hcs⟩ := List.exists_cons_of_ne_nil hne
    obtain ⟨-, -, -, -, hblank⟩ := Scan.ne_of_word (hs c (by rw [hcs]; exact List.mem_cons_self))
    exact ⟨c, cs, hcs, hblank⟩
  | text => exact ⟨'{', _, rfl, rfl⟩
  | quoted s hq =>
    refine ⟨_, _, rfl, ?_⟩
    rcases hq with rfl | rfl <;> rfl
  | stray => exact ⟨'}', [], rfl, rfl⟩
  | unended hd =>
    refine ⟨_, _, rfl, ?_⟩
    rcases hd with _ | hq
    · rfl
    · rcases hq with rfl | rfl <;> rfl

end Spells

namespace Scan

theorem spells_ofList (hne : cs ≠ []) (hs : ∀ c ∈ cs, endsWord c = false)
    (hrest : ∀ c ∈ rest.head?, endsWord c = true) : Spells (.word (String.ofList cs)) cs rest := by
  obtain ⟨s, rfl⟩ : ∃ s : String, cs = s.toList := ⟨String.ofList cs, String.toList_ofList.symm⟩
  rw [String.ofList_toList]
  exact .word hne hs hrest

theorem spells_run {lexeme : String → Lexeme} (hd : Delimits opening close)
    (hl : ∀ s rest, rest.head? ≠ some close →
      Spells (lexeme s) (opening :: (doubled close s.toList ++ [close])) rest) (cs : List Char) :
    Spells (run opening close lexeme cs).lexeme (run opening close lexeme cs).spelling
      (run opening close lexeme cs).rest := by
  rw [run]
  split
  · next content rest h =>
    have hrun := hl (String.ofList content) rest (head?_of_splitRun h)
    rwa [String.toList_ofList] at hrun
  · next h =>
    refine .unended hd fun content rest hcs => ?_
    by_contra hrest
    have hsome := splitRun_eq_some_iff.2 ⟨hcs, hrest⟩
    rw [h] at hsome
    cases hsome

theorem spells_of (hblank : isBlank c = false) (cs : List Char) :
    Spells (of (c :: cs)).lexeme (of (c :: cs)).spelling (of (c :: cs)).rest := by
  cases hmark : Mark.ofChar? c with
  | some m =>
    rw [of_mark hmark, ← Mark.char_of_ofChar? hmark]
    exact .mark m cs
  | none =>
    simp only [of, hmark]
    split_ifs with hopen hclose hquote
    · subst hopen
      exact spells_run .braces (fun s rest => .text s) cs
    · subst hclose
      exact .stray cs
    · exact spells_run (.quotes hquote) (fun s rest => .quoted s hquote) cs
    · obtain ⟨hdouble, hsingle⟩ := not_or.1 hquote
      have hc : endsWord c = false := by
        simp [endsWord, hmark, hopen, hclose, hdouble, hsingle, hblank]
      have hin : ∀ d ∈ c :: cs.takeWhile (!endsWord ·), endsWord d = false := by
        refine List.forall_mem_cons.2 ⟨hc, fun d hd => ?_⟩
        simpa using List.mem_takeWhile_imp hd
      have hout : ∀ d ∈ (cs.dropWhile (!endsWord ·)).head?, endsWord d = true := by
        intro d hd
        simpa using head?_dropWhile (!endsWord ·) cs d hd
      exact spells_ofList (List.cons_ne_nil _ _) hin hout

/-! ### What is written is scanned -/

theorem run_of_closed {lexeme : String → Lexeme} (s : String) (hrest : rest.head? ≠ some close) :
    run opening close lexeme (doubled close s.toList ++ [close] ++ rest) =
      ⟨lexeme s, opening :: (doubled close s.toList ++ [close]), rest⟩ := by
  have h := splitRun_doubled_append hrest s.toList
  rw [List.append_assoc, List.singleton_append]
  simp only [run, h, String.ofList_toList]

theorem run_of_unended {lexeme : String → Lexeme}
    (h : ∀ content rest, cs = doubled close content ++ close :: rest → rest.head? = some close) :
    run opening close lexeme cs = ⟨.error .suddenEnd, opening :: cs, []⟩ := by
  cases hs : splitRun close cs with
  | none => simp only [run, hs]
  | some found =>
    obtain ⟨hcs, hrest⟩ := splitRun_eq_some_iff.1 hs
    exact absurd (h _ _ hcs) hrest

theorem of_word_append (hne : cs ≠ []) (hs : ∀ d ∈ cs, endsWord d = false)
    (hrest : ∀ d ∈ rest.head?, endsWord d = true) :
    of (cs ++ rest) = ⟨.word (String.ofList cs), cs, rest⟩ := by
  obtain ⟨c, cs, rfl⟩ := List.exists_cons_of_ne_nil hne
  obtain ⟨hmark, hopen, hclose, hquote, -⟩ := ne_of_word (hs c List.mem_cons_self)
  have hin : ∀ d ∈ cs, (!endsWord d) = true := fun d hd => by
    rw [hs d (List.mem_cons_of_mem c hd)]
    rfl
  have hout : ∀ d ∈ rest.head?, (!endsWord d) = false := fun d hd => by
    rw [hrest d hd]
    rfl
  simp only [List.cons_append, of, hmark, if_neg hopen, if_neg hclose, if_neg hquote,
    List.takeWhile_append_of_pos hin, List.dropWhile_append_of_pos hin,
    takeWhile_eq_nil hout, dropWhile_eq_self hout, List.append_nil]

theorem of_openBrace (cs : List Char) : of ('{' :: cs) = run '{' '}' .text cs := rfl

theorem of_quote {q : Char} (hq : q = '"' ∨ q = '\'') (cs : List Char) :
    of (q :: cs) = run q q .quoted cs := by
  rcases hq with rfl | rfl <;> rfl

theorem of_spelling_append (h : Spells l spelling rest) :
    of (spelling ++ rest) = ⟨l, spelling, rest⟩ := by
  cases h with
  | mark m => exact of_mark (Mark.ofChar?_char m) rest
  | word hne hs hrest =>
    have hof := of_word_append hne hs hrest
    rwa [String.ofList_toList] at hof
  | text s hrest =>
    rw [List.cons_append, of_openBrace, run_of_closed s hrest]
  | quoted s hq hrest =>
    rw [List.cons_append, of_quote hq, run_of_closed s hrest]
  | stray => rfl
  | unended hd h =>
    rw [List.append_nil]
    cases hd with
    | braces => rw [of_openBrace, run_of_unended h]
    | quotes hq => rw [of_quote hq, run_of_unended h]

end Scan
end Shorthand
