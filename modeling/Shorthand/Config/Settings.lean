import Shorthand.Config.Value
import Shorthand.Text.Lowercase
import Shorthand.Toml.Document

/-! # Settings

The settings of the program, as they are taken from the sections of a configuration. A section is a
table of its settings, or a list of them in the order of the section; what else a table holds does
not matter. -/

namespace Shorthand.Config
open Text

/-- Why a configuration has no settings. -/
inductive Error
  /-- A text that is no key. -/
  | badKey (key : String)
  | missingFile (name : String)
  /-- A file that is no document. -/
  | malformed (name : String) (cause : Toml.SyntaxError)
  /-- A file that is a document of something else than keys and values. -/
  | noTable (found name : String)
  /-- A value that cannot be taken for what a setting needs, and the file it comes from. -/
  | mistyped (found expected key : String) (origin : Option String)
  /-- A section that is neither a table nor a list. -/
  | noSection (found title : String)
  | noSetting (name : String)
  /-- A section that is a list with too few items. -/
  | shortSection (length : Nat) (title : String) (expected : Nat)
deriving DecidableEq, Repr

/-- A number of things. -/
def counted (n : Nat) (thing : String) : String :=
  toString n ++ " " ++ thing ++ if n = 1 then "" else "s"

/-- What is said to the user about a configuration. -/
def Error.message : Error → String
  | badKey key => "invalid key " ++ quote key
  | missingFile name => "configuration file \"" ++ name ++ "\" not found"
  | malformed name cause => cause.message ++ "\n in " ++ name
  | noTable found name =>
    "invalid type: " ++ found ++ ", expected a map in " ++ name ++ " in " ++ name
  | mistyped found expected key origin =>
    "invalid type: " ++ found ++ ", expected " ++ expected ++ " for key `" ++ key ++ "`" ++
      match origin with
      | some name => " in " ++ name
      | none => ""
  | noSection found title => "invalid type: " ++ found ++ ", expected struct " ++ title
  | noSetting name => "missing field `" ++ name ++ "`"
  | shortSection length title expected =>
    "invalid length " ++ toString length ++ ", expected struct " ++ title ++ " with " ++
      counted expected "element"

/-- The words for the two truth values. -/
def truthWords : List (String × Bool) :=
  [("1", true), ("true", true), ("on", true), ("yes", true),
   ("0", false), ("false", false), ("off", false), ("no", false)]

/-- The text that a value gives; every scalar but nothing has one. -/
def Value.toText (key : String) (v : Value) : Except Error String :=
  match v with
  | .scalar _ (.text s) => .ok s
  | .scalar _ (.boolean b) => .ok (toString b)
  | .scalar _ (.integer n) => .ok (toString n)
  | .scalar _ (.float x) => .ok x.text
  | _ => .error (.mistyped v.describe "a string" key v.origin)

/-- The truth value that a value gives: a number is true unless it is zero, and there are words for
both. -/
def Value.toTruth (key : String) (v : Value) : Except Error Bool :=
  match v with
  | .scalar _ (.boolean b) => .ok b
  | .scalar _ (.integer n) => .ok (n ≠ 0)
  | .scalar _ (.float x) => .ok !x.isZero
  | .scalar origin (.text s) =>
    let word := lowercase s
    match truthWords.lookup word with
    | some b => .ok b
    | none => .error (.mistyped ("string " ++ quote word) "a boolean" key origin)
  | _ => .error (.mistyped v.describe "a boolean" key v.origin)

/-- A part of the configuration that is read as a record. -/
structure Section where
  name : String
  /-- What messages call it. -/
  title : String
  /-- The names of the settings in their order. -/
  settings : List String

namespace Section

/-- The value of a setting and the key that messages give it. -/
def setting? (s : Section) (v : Value) (name : String) : Option (String × Value) :=
  match v with
  | .table _ entries => (entries.lookup name).map fun w => (s.name ++ "." ++ name, w)
  | .list _ items =>
    let i := s.settings.idxOf name
    (items[i]?).map fun w => (s.name ++ "[" ++ toString i ++ "]", w)
  | .scalar .. => none

/-- The error for a setting that is not there. -/
def absent (s : Section) (v : Value) (name : String) : Error :=
  match v with
  | .table .. => .noSetting name
  | .list _ items => .shortSection items.length s.title s.settings.length
  | .scalar .. => .noSection v.describe s.title

/-- Reads a setting of a section, if the section has it. -/
def read? {α : Type} (s : Section) (v : Value) (name : String)
    (read : String → Value → Except Error α) : Except Error (Option α) :=
  match s.setting? v name with
  | some (key, w) => some <$> read key w
  | none => .ok none

/-- A setting that has been read, or else the error that it is not there. -/
def require {α : Type} (s : Section) (v : Value) (name : String) : Option α → Except Error α
  | some a => .ok a
  | none => .error (s.absent v name)

/-- The value of a section, which must be there. -/
def value (s : Section) (root : Value) : Except Error Value :=
  match root.find? s.name with
  | some v => .ok v
  | none => .error (.noSetting s.name)

end Section

/-- How expansions are written. -/
def outputSection : Section := ⟨"output", "OutputConfig", ["format", "trailing_newline"]⟩

def loggingSection : Section := ⟨"logging", "LoggingConfig", ["level"]⟩

/-- What a run needs to know of its configuration. -/
structure Settings where
  format : String
  /-- Whether every expansion ends its line. -/
  trailingNewline : Bool
  /-- How much is logged. -/
  level : String
deriving DecidableEq, Repr

/-- The settings of a configuration. A setting of the wrong type is reported before one that is not
there. -/
def Settings.ofValue (root : Value) : Except Error Settings := do
  let output ← outputSection.value root
  let format ← outputSection.read? output "format" Value.toText
  let newline ← outputSection.read? output "trailing_newline" Value.toTruth
  let format ← outputSection.require output "format" format
  let newline ← outputSection.require output "trailing_newline" newline
  let logging ← loggingSection.value root
  let level ← loggingSection.read? logging "level" Value.toText
  let level ← loggingSection.require logging "level" level
  return ⟨format, newline, level⟩

end Shorthand.Config
