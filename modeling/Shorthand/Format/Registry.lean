import Shorthand.Tree.Basic

/-! # Output formats

A `Format` writes a finished tree as text. A `Registry` holds formats in the order of their names,
where they are found by bisection; a format takes the place of a former one of the same name. -/

namespace Shorthand

/-- Why a tree was not written. -/
inductive FormatError
  /-- There is no format of this name among the available ones. -/
  | unknown (name : String) (available : List String)
  /-- A format could not write the tree. -/
  | unwritable (message : String)
deriving DecidableEq, Repr

/-- What the user is told about it. -/
def FormatError.message : FormatError → String
  | unknown name available =>
    "unknown format '" ++ name ++ "' (available: " ++ ", ".intercalate available ++ ")"
  | unwritable message => "Serialization error: " ++ message

/-- A way to write trees. -/
structure Format where
  name : String
  /-- What the format writes, in one line. -/
  description : String
  write : Tree → Except FormatError String

/-- The formats that can be asked for. -/
structure Registry where
  /-- In increasing order of the names, which are distinct. -/
  formats : Array Format

namespace Registry

def empty : Registry := ⟨#[]⟩

/-- Looks among the `size` formats from `base` on for the last one whose name is not above the given
one. If all are above it, this is `base`. -/
def bisect (formats : Array Format) (name : String) (base size : Nat) : Nat :=
  if 1 < size then
    let middle := base + size / 2
    if formats[middle]?.any (name < ·.name) then bisect formats name base (size - size / 2)
    else bisect formats name middle (size - size / 2)
  else base
termination_by size

/-- Where a name is in a registry. -/
inductive Place
  | found (i : Nat) (f : Format)
  /-- A format of this name would have to be put here. -/
  | missing (i : Nat)

/-- Where a format stands, or where it would have to be put in. -/
def place (r : Registry) (name : String) : Place :=
  let i := bisect r.formats name 0 r.formats.size
  match r.formats[i]? with
  | none => .missing i
  | some f =>
    if f.name = name then .found i f
    else if f.name < name then .missing (i + 1)
    else .missing i

/-- Adds a format, in place of a former one of the same name. -/
def register (r : Registry) (f : Format) : Registry :=
  match r.place f.name with
  | .found i _ => ⟨r.formats.setIfInBounds i f⟩
  | .missing i => ⟨r.formats.insertIdxIfInBounds i f⟩

/-- The formats in the order of their names. -/
def toList (r : Registry) : List Format := r.formats.toList

/-- The names of the formats in increasing order. -/
def names (r : Registry) : List String := r.toList.map (·.name)

def lookup (r : Registry) (name : String) : Except FormatError Format :=
  match r.place name with
  | .found _ f => .ok f
  | .missing _ => .error (.unknown name r.names)

end Registry
end Shorthand
