import Shorthand.Text.Hidden

/-! # Quoted texts

How messages show a text: between quotes, with quotes, backslashes, line breaks, tabs and everything
that could not be seen written as escapes. -/

namespace Shorthand.Text.Quoted

/-- A character by its code point in hexadecimal. -/
def codePoint (c : Char) : List Char :=
  '\\' :: 'u' :: '\x7b' :: (Nat.toDigits 16 c.toNat ++ ['\x7d'])

/-- A character as it is shown in quotes. -/
def escapeChar (c : Char) : List Char :=
  if c = '"' then ['\\', '"']
  else if c = '\\' then ['\\', '\\']
  else if c = '\n' then ['\\', 'n']
  else if c = '\t' then ['\\', 't']
  else if c = '\r' then ['\\', 'r']
  else if c = '\x00' then ['\\', '0']
  else if isHidden c then codePoint c
  else [c]

/-- A text in quotes, with everything escaped that could not be seen. -/
def encode (cs : List Char) : List Char := '"' :: (cs.flatMap escapeChar ++ ['"'])

end Quoted

def quote (s : String) : String := String.ofList (Quoted.encode s.toList)

end Shorthand.Text
