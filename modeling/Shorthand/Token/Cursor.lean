import Shorthand.Token.Log

/-! # Transactions on a token log

A `Cursor` is a token log with any number of transactions open on it, one inside the other. Each
counts the tokens read through it, those of the transactions inside it included, so that a rollback
knows how many to push back. -/

namespace Shorthand

/-- A token log and the counts of its open transactions, the innermost first. -/
structure Cursor where
  log : TokenLog
  counts : List Nat
deriving Repr

namespace Cursor

def ofString (source : String) : Cursor := ⟨TokenLog.ofString source, []⟩

/-- The number of tokens read from the log. -/
def position (c : Cursor) : Nat := c.log.position

/-- The number of tokens read through the innermost transaction, zero without one. -/
def consumed (c : Cursor) : Nat := c.counts.headD 0

/-- How many transactions are open. -/
def depth (c : Cursor) : Nat := c.counts.length

/-- Reads a token, which every open transaction counts. -/
def next (c : Cursor) : Token × Cursor :=
  (c.log.next.1, ⟨c.log.next.2, c.counts.map (· + 1)⟩)

/-- Pushes a token back. A count that is zero stays so, but the log still moves. -/
def back (c : Cursor) : Cursor := ⟨c.log.back, c.counts.map (· - 1)⟩

/-- The next token, which stays to be read. -/
def peek (c : Cursor) : Token × Cursor := (c.next.1, c.next.2.back)

/-- Pushes tokens back, one after the other. -/
def backN : Nat → Cursor → Cursor
  | 0, c => c
  | n + 1, c => backN n c.back

/-- Opens a transaction inside those that are open. -/
def begin (c : Cursor) : Cursor := ⟨c.log, 0 :: c.counts⟩

/-- Pushes back what the innermost transaction has read. -/
def rollback (c : Cursor) : Cursor := c.backN c.consumed

/-- Drops the innermost transaction and keeps what was read through it. -/
def close (c : Cursor) : Cursor := ⟨c.log, c.counts.tail⟩

/-- A bound on the tokens that come before the end of the input. -/
def unread (c : Cursor) : Nat := c.log.unread

@[simp] theorem position_next (c : Cursor) : c.next.2.position = c.position + 1 :=
  c.log.position_next

@[simp] theorem position_back (c : Cursor) : c.back.position = c.position - 1 :=
  c.log.position_back

@[simp] theorem counts_peek (c : Cursor) : c.peek.2.counts = c.counts := by
  simp [peek, next, back, Function.comp_def]

@[simp] theorem position_peek (c : Cursor) : c.peek.2.position = c.position := by
  simp [peek]

theorem position_backN (n : Nat) (c : Cursor) : (c.backN n).position = c.position - n := by
  induction n generalizing c with
  | zero => rfl
  | succ n ih => simp only [backN, ih, position_back]; omega

end Cursor
end Shorthand
