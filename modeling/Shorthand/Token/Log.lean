import Shorthand.Token.Scanner

/-! # Reading with push-back

A `TokenLog` reads the tokens of a text one by one and can push back every token it has read, down
to the first. Scanning is on demand: a token that was pushed back is read again from the log. -/

namespace Shorthand

/-- A text that is read token by token. -/
structure TokenLog where
  /-- The tokens read so far, the last one first. -/
  read : List Token
  /-- The tokens pushed back, in the order in which they come again. -/
  pushedBack : List Token
  /-- The text behind all of these. -/
  scanner : Scanner
deriving Repr

namespace TokenLog

/-- The log before the first token of a text. -/
def ofString (source : String) : TokenLog := ⟨[], [], Scanner.ofString source⟩

/-- The number of tokens read and not pushed back. -/
def position (l : TokenLog) : Nat := l.read.length

/-- Reads the next token: the last one pushed back, or else a new one. -/
def next (l : TokenLog) : Token × TokenLog :=
  match l.pushedBack with
  | t :: ts => (t, ⟨t :: l.read, ts, l.scanner⟩)
  | [] => (l.scanner.next.1, ⟨l.scanner.next.1 :: l.read, [], l.scanner.next.2⟩)

/-- Pushes the last token back. Before the first token nothing happens. -/
def back (l : TokenLog) : TokenLog :=
  match l.read with
  | t :: ts => ⟨ts, t :: l.pushedBack, l.scanner⟩
  | [] => l

/-- The next token, which stays to be read, and the log that knows it. -/
def peek (l : TokenLog) : Token × TokenLog := (l.next.1, l.next.2.back)

/-- A bound on the tokens that come before the end of the input. -/
def unread (l : TokenLog) : Nat := l.pushedBack.length + l.scanner.rest.length

@[simp] theorem position_next (l : TokenLog) : l.next.2.position = l.position + 1 := by
  simp only [next, position]; split <;> simp

@[simp] theorem position_back (l : TokenLog) : l.back.position = l.position - 1 := by
  simp only [back, position]; split <;> simp_all

@[simp] theorem position_peek (l : TokenLog) : l.peek.2.position = l.position := by
  simp [peek]

end TokenLog
end Shorthand
