/-! # Command-line arguments

Arguments are abbreviations, options with a value, and flags. An option is written in full, as
`--format json` or `--format=json`, or by its letter, as `-f json`, `-fjson` or `-f=json`; the
letters of flags may stand together. Behind `--` everything is an abbreviation. Help and version are
shown as soon as they are asked for. -/

namespace Shorthand.CommandLine

/-- An option that takes a value. -/
inductive ValueOption
  | format
  | config
deriving DecidableEq, Repr

/-- An option without a value. -/
inductive Flag
  | listFormats
  | help
  | version
deriving DecidableEq, Repr

/-- What an argument that starts with `-` can name. -/
inductive Switch
  | option (o : ValueOption)
  | flag (f : Flag)
deriving DecidableEq, Repr

/-- The switch of a name written in full. -/
def Switch.ofLong? : List Char → Option Switch := fun name =>
  [("format", Switch.option .format), ("config", .option .config),
    ("list-formats", .flag .listFormats), ("help", .flag .help),
    ("version", .flag .version)].lookup (String.ofList name)

/-- The switch of a letter. -/
def Switch.ofLetter? : Char → Option Switch
  | 'f' => some (.option .format)
  | 'c' => some (.option .config)
  | 'h' => some (.flag .help)
  | 'V' => some (.flag .version)
  | _ => none

/-- What arguments ask for. -/
inductive Request
  | help
  | version
  | listFormats
  /-- Expansion of the sources, or of the lines of the input if there are none. -/
  | expand (sources : List String) (format config : Option String)
deriving DecidableEq, Repr

/-- What is wrong with arguments. -/
inductive UsageError
  | unknown (argument : String)
  | missingValue (argument : String)
  | unexpectedValue (argument : String)
  | repeated (argument : String)
deriving DecidableEq, Repr

/-- What is said to the user about wrong arguments. -/
def UsageError.message : UsageError → String
  | unknown argument => "unexpected argument '" ++ argument ++ "' found"
  | missingValue argument => "a value is required for '" ++ argument ++ "' but none was supplied"
  | unexpectedValue argument => "unexpected value in '" ++ argument ++ "' found"
  | repeated argument => "the argument '" ++ argument ++ "' cannot be used multiple times"

/-- What arguments have given so far. -/
structure Given where
  sources : List String := []
  format : Option String := none
  config : Option String := none
  listFormats : Bool := false
deriving DecidableEq, Repr

namespace Given

/-- What has been asked for when there are no more arguments. -/
def request (g : Given) : Request :=
  if g.listFormats then .listFormats else .expand g.sources g.format g.config

def value? (g : Given) : ValueOption → Option String
  | .format => g.format
  | .config => g.config

/-- Gives a value to an option that has none yet. -/
def setValue (g : Given) (argument value : String) (o : ValueOption) : Except UsageError Given :=
  if (g.value? o).isSome then .error (.repeated argument)
  else match o with
    | .format => .ok { g with format := some value }
    | .config => .ok { g with config := some value }

end Given

/-- How reading goes on behind an argument. -/
inductive Effect
  | next (g : Given)
  /-- The next argument is the value of an option. -/
  | awaits (o : ValueOption) (g : Given)
  /-- The other arguments do not matter. -/
  | finished (r : Request)
deriving DecidableEq, Repr

/-- What a flag does; only the list of formats may not be asked for twice. -/
def Given.raise (g : Given) (argument : String) : Flag → Except UsageError Effect
  | .help => .ok (.finished .help)
  | .version => .ok (.finished .version)
  | .listFormats =>
    if g.listFormats then .error (.repeated argument)
    else .ok (.next { g with listFormats := true })

/-- An argument behind its two dashes. -/
def Given.readLong (g : Given) (argument : String) (cs : List Char) : Except UsageError Effect :=
  let value := match cs.dropWhile (· ≠ '=') with
    | _ :: v => some (String.ofList v)
    | [] => none
  match Switch.ofLong? (cs.takeWhile (· ≠ '=')), value with
  | none, _ => .error (.unknown argument)
  | some (.option o), some v => (g.setValue argument v o).map .next
  | some (.option o), none => .ok (.awaits o g)
  | some (.flag _), some _ => .error (.unexpectedValue argument)
  | some (.flag f), none => g.raise argument f

/-- An argument behind its single dash. -/
def Given.readLetters (g : Given) (argument : String) : List Char → Except UsageError Effect
  | [] => .ok (.next g)
  | c :: cs =>
    match Switch.ofLetter? c with
    | none => .error (.unknown argument)
    | some (.flag f) =>
      match g.raise argument f with
      | .ok (.next g) => g.readLetters argument cs
      | result => result
    | some (.option o) =>
      match cs with
      | [] => .ok (.awaits o g)
      | '=' :: v | v => (g.setValue argument (String.ofList v) o).map .next

def Given.read (g : Given) (argument : String) : Except UsageError Effect :=
  match argument.toList with
  | '-' :: '-' :: cs => g.readLong argument cs
  | '-' :: c :: cs => g.readLetters argument (c :: cs)
  | _ => .ok (.next { g with sources := g.sources ++ [argument] })

/-- Whether an argument may be the value of the option in front of it. -/
def isValue (argument : String) : Bool := argument == "-" || argument.toList.head? != some '-'

/-- What all arguments ask for. An option may take the next argument as its value. -/
def Given.readAll (g : Given) : List String → Except UsageError Request
  | [] => .ok g.request
  | argument :: rest =>
    if argument = "--" then .ok { g with sources := g.sources ++ rest }.request
    else match g.read argument with
      | .error e => .error e
      | .ok (.finished r) => .ok r
      | .ok (.next g) => g.readAll rest
      | .ok (.awaits o g) =>
        match rest with
        | [] => .error (.missingValue argument)
        | v :: rest =>
          if isValue v then
            match g.setValue argument v o with
            | .ok g => g.readAll rest
            | .error e => .error e
          else .error (.missingValue argument)

/-- What the arguments of the program ask for. -/
def Request.ofArguments (arguments : List String) : Except UsageError Request :=
  Given.readAll {} arguments

end Shorthand.CommandLine
