import Shorthand.Text.Blank
import Shorthand.Token.Basic

/-! # Scanning

`Scan.of` reads one lexeme off the front of a text, and `Scanner.next` the next token, blanks before
it skipped. Scanning never fails: what cannot be a token is an error lexeme, and reading goes on
behind it. `spelling_append_rest` says that nothing is lost between a lexeme and what follows it. -/

namespace Shorthand
open Text

/-- Whether a character cannot be part of a word. -/
def endsWord (c : Char) : Bool :=
  (Mark.ofChar? c).isSome || c == '{' || c == '}' || c == '\'' || c == '"' || isBlank c

/-- The content of a delimited run, with each `close` in it written twice. -/
def doubled (close : Char) : List Char → List Char
  | [] => []
  | c :: cs => if c = close then close :: close :: doubled close cs else c :: doubled close cs

/-- Splits a text that starts inside a run into the run's content and what follows its closing
delimiter. A doubled `close` is part of the content. -/
def splitRun (close : Char) : List Char → Option (List Char × List Char)
  | [] => none
  | [c] => if c = close then some ([], []) else none
  | c :: d :: cs =>
    if c = close then
      if d = close then (splitRun close cs).map fun (content, rest) => (close :: content, rest)
      else some ([], d :: cs)
    else (splitRun close (d :: cs)).map fun (content, rest) => (c :: content, rest)

/-- The written form of a run is its opening delimiter, its content and its closing delimiter. -/
theorem doubled_append_of_splitRun {close : Char} {cs content rest : List Char}
    (h : splitRun close cs = some (content, rest)) :
    doubled close content ++ close :: rest = cs := by
  fun_induction splitRun close cs generalizing content with
  | case1 => simp at h
  | case2 => simp_all [doubled]
  | case3 => simp at h
  | case4 cs ih =>
    obtain ⟨⟨content', rest'⟩, h', he⟩ := Option.map_eq_some_iff.1 h
    cases he
    simp [doubled, ih h']
  | case5 => simp_all [doubled]
  | case6 c d cs hc ih =>
    obtain ⟨⟨content', rest'⟩, h', he⟩ := Option.map_eq_some_iff.1 h
    cases he
    simp [doubled, hc, ih h']

/-- One lexeme read off the front of a text. -/
structure Scan where
  lexeme : Lexeme
  /-- The characters that the lexeme is written with. -/
  spelling : List Char
  /-- The text behind them. -/
  rest : List Char

namespace Scan

/-- A run after its opening delimiter; one without an end takes up the whole text. -/
def run (opening close : Char) (lexeme : String → Lexeme) (cs : List Char) : Scan :=
  match splitRun close cs with
  | some (content, rest) =>
    ⟨lexeme (String.ofList content), opening :: (doubled close content ++ [close]), rest⟩
  | none => ⟨.error .suddenEnd, opening :: cs, []⟩

/-- The lexeme at the front of a text that does not start with a blank. -/
def of : List Char → Scan
  | [] => ⟨.eof, [], []⟩
  | c :: cs =>
    match Mark.ofChar? c with
    | some m => ⟨.mark m, [c], cs⟩
    | none =>
      if c = '{' then run c '}' .text cs
      else if c = '}' then ⟨.error .strayBrace, [c], cs⟩
      else if c = '"' ∨ c = '\'' then run c c .quoted cs
      else ⟨.word (String.ofList (c :: cs.takeWhile (!endsWord ·))),
        c :: cs.takeWhile (!endsWord ·), cs.dropWhile (!endsWord ·)⟩

theorem run_spelling_append_rest (opening close : Char) (lexeme : String → Lexeme)
    (cs : List Char) :
    (run opening close lexeme cs).spelling ++ (run opening close lexeme cs).rest
      = opening :: cs := by
  simp only [run]
  split
  · next content rest h => simpa using doubled_append_of_splitRun h
  · simp

theorem spelling_append_rest (cs : List Char) : (of cs).spelling ++ (of cs).rest = cs := by
  cases cs with
  | nil => rfl
  | cons c cs =>
    simp only [of]
    split
    · simp
    · split
      · exact run_spelling_append_rest ..
      · split
        · simp
        · split
          · exact run_spelling_append_rest ..
          · simp [List.takeWhile_append_dropWhile]

theorem run_spelling_ne_nil (opening close : Char) (lexeme : String → Lexeme) (cs : List Char) :
    (run opening close lexeme cs).spelling ≠ [] := by
  simp only [run]; split <;> simp

theorem spelling_cons_ne_nil (c : Char) (cs : List Char) : (of (c :: cs)).spelling ≠ [] := by
  simp only [of]
  split
  · simp
  · split
    · exact run_spelling_ne_nil _ _ _ _
    · split
      · simp
      · split
        · exact run_spelling_ne_nil _ _ _ _
        · simp

/-- Whatever is not empty loses at least a character to its first lexeme. -/
theorem length_rest_lt (c : Char) (cs : List Char) :
    (of (c :: cs)).rest.length < (c :: cs).length := by
  have h := congrArg List.length (spelling_append_rest (c :: cs))
  have := List.length_pos_iff.2 (spelling_cons_ne_nil c cs)
  rw [List.length_append] at h
  omega

end Scan

/-- A place in a text: what is still to be read, and how many bytes lie before it. -/
structure Scanner where
  rest : List Char
  offset : Nat
deriving Repr

namespace Scanner

def ofString (source : String) : Scanner := ⟨source.toList, 0⟩

/-- The next token and the place behind it. At the end of the text this is the end-of-input token,
again and again. -/
def next (s : Scanner) : Token × Scanner :=
  let start := s.offset + utf8Length (s.rest.takeWhile isBlank)
  let found := Scan.of (s.rest.dropWhile isBlank)
  (⟨found.lexeme, start + 1⟩, ⟨found.rest, start + utf8Length found.spelling⟩)

theorem length_dropWhile_le (p : Char → Bool) (cs : List Char) :
    (cs.dropWhile p).length ≤ cs.length :=
  (List.dropWhile_sublist p).length_le

/-- Unless it is the end of the input, a token shortens the text. -/
theorem next_rest_length_lt {s : Scanner} (h : s.next.1.lexeme ≠ .eof) :
    s.next.2.rest.length < s.rest.length := by
  simp only [next] at h ⊢
  have hle := length_dropWhile_le isBlank s.rest
  cases hd : s.rest.dropWhile isBlank with
  | nil => simp [hd, Scan.of] at h
  | cons c cs => rw [hd] at hle; exact Nat.lt_of_lt_of_le (Scan.length_rest_lt c cs) hle

/-- The tokens from a place up to and including the first final one. -/
def tokens (s : Scanner) : List Token :=
  if s.next.1.lexeme.isFinal then [s.next.1] else s.next.1 :: s.next.2.tokens
termination_by s.rest.length
decreasing_by
  refine next_rest_length_lt fun h => ?_
  simp_all [Lexeme.isFinal]

end Scanner

/-- The tokens of a text up to and including the first end of input or error. -/
def tokenize (source : String) : List Token := (Scanner.ofString source).tokens

end Shorthand
