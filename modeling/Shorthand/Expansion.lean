import Shorthand.Format.Standard
import Shorthand.Tree.Builder

/-! # Expanding an abbreviation

From the text of an abbreviation to the text of its tree in some format. -/

namespace Shorthand

/-- Why an abbreviation was not expanded. -/
inductive ExpansionError
  | parse (cause : ParseError)
  | format (cause : FormatError)
deriving DecidableEq, Repr

/-- What the user is told, which does not say from which stage it comes. -/
def ExpansionError.message : ExpansionError → String
  | parse cause => cause.message
  | format cause => cause.message

/-- Reads an abbreviation and writes its tree in the format of the given name. The format is looked
up first, so that an unknown one is reported for every text. -/
def expand (registry : Registry) (format source : String) : Except ExpansionError String := do
  let writer ← (registry.lookup format).mapError .format
  let tree ← (parseTree source).mapError .parse
  (writer.write tree).mapError .format

end Shorthand
