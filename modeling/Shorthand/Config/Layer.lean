import Shorthand.Config.Key
import Shorthand.Config.Settings

/-! # Configuration layers

A configuration starts from defaults. Files are merged into it in their order, a later one winning
over an earlier one, key by key; then single settings are put in, again in their order. So a single
setting wins over every file, wherever it stands among the layers. -/

namespace Shorthand.Config

/-- A file as it was found: what messages call it, and what it holds. -/
structure File where
  origin : String
  contents : String
deriving DecidableEq, Repr

/-- What can be put on top of a configuration. -/
inductive Layer
  /-- The file asked for by a name, if it was found. A required one must be there. -/
  | file (required : Bool) (name : String) (found : Option File)
  | setting (key : String) (value : Scalar)
deriving DecidableEq, Repr

/-- The value of every setting that no layer gives. -/
def defaults : Value :=
  .table none [("logging", .table none [("level", .scalar none (.text "warn"))]),
    ("output", .table none [("format", .scalar none (.text "markup")),
      ("trailing_newline", .scalar none (.boolean true))])]

/-- The key for a name at the top of a file: what it writes, or else just that name. -/
def topKey (name : String) : Key := (Key.parse? name).getD (.ofName name)

/-- The entries of a document, put in one after the other. -/
def merge (document : Entries) (root : Value) : Value :=
  document.foldl (fun root (name, v) => root.assign (topKey name) v) root

/-- The key and the value of a single setting. -/
def Layer.setting? : Layer → Option (String × Scalar)
  | .setting key value => some (key, value)
  | .file .. => none

/-- The single settings among the layers. A text that is no key is an error. -/
def overrides (layers : List Layer) : Except Error (List (Key × Scalar)) :=
  (layers.filterMap Layer.setting?).mapM fun (key, value) =>
    match Key.parse? key with
    | some k => .ok (k, value)
    | none => .error (.badKey key)

/-- What a file adds; a missing one is an error only if it is required. -/
def mergeFile (root : Value) : Layer → Except Error Value
  | .file _ _ (some file) =>
    match Value.ofToml file.origin <$> Toml.parse file.contents with
    | .ok (.table _ document) => .ok (merge document root)
    | .ok v => .error (.noTable v.describe file.origin)
    | .error cause => .error (.malformed file.origin cause)
  | .file true name none => .error (.missingFile name)
  | .file false _ none | .setting .. => .ok root

/-- The settings that layers give on top of the defaults. -/
def load (layers : List Layer) : Except Error Settings := do
  let settings ← overrides layers
  let root ← layers.foldlM mergeFile defaults
  Settings.ofValue (settings.foldl (fun root (k, s) => root.assign k (.scalar none s)) root)

end Shorthand.Config
