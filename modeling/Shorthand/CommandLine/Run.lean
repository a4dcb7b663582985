import Shorthand.CommandLine.Arguments
import Shorthand.Config.Layer
import Shorthand.Expansion

/-! # A run of the program

What the program prints and how it ends, for given arguments, input and configuration files. Sources
are expanded one after the other; the first that fails ends the run, and what was printed before
stays. -/

namespace Shorthand.CommandLine

/-- What is left of a run when it has ended. -/
structure Outcome where
  /-- Zero for success, one for a failure, two for arguments that are wrong. -/
  code : Nat
  stdout : String
  stderr : String
deriving DecidableEq, Repr

namespace Outcome

/-- A run that succeeded. -/
def printed (text : String) : Outcome := ⟨0, text, ""⟩

/-- A run that could not do what it was asked for. -/
def failed (message : String) : Outcome := ⟨1, "", "Error: " ++ message ++ "\n"⟩

/-- A run whose arguments are wrong. -/
def misused (message : String) : Outcome :=
  ⟨2, "", "error: " ++ message ++ "\n\nFor more information, try '--help'.\n"⟩

/-- The outcome when `text` has been printed before. -/
def after (text : String) (o : Outcome) : Outcome := { o with stdout := text ++ o.stdout }

end Outcome

def helpLines : List String :=
  ["Expand Emmet-like abbreviations into markup",
    "",
    "Usage: ennet [OPTIONS] [abbreviation]...",
    "",
    "Arguments:",
    "  [abbreviation]...  Abbreviations to expand (reads stdin lines when omitted)",
    "",
    "Options:",
    "  -f, --format <format>  Output format (e.g., 'markup', 'treeviz', 'json')",
    "  -c, --config <config>  Configuration file layered over the defaults and ./ennet.toml",
    "      --list-formats     List available output formats",
    "  -h, --help             Print help",
    "  -V, --version          Print version"]

def helpText : String := String.join (helpLines.map (· ++ "\n"))

def versionText : String := "ennet 0.1.0\n"

/-- The list of the formats in a registry. -/
def formatList (r : Registry) : String :=
  "Available formats:\n\n" ++
    String.join (r.toList.map fun f => "  " ++ f.name ++ "\n    " ++ f.description ++ "\n")

/-- The configuration file that is read if it is there. -/
def localConfig : String := "ennet.toml"

/-- Whether a step of a path stays where it is. -/
def isIdle (step : String) : Bool := step == "" || step == "."

/-- The steps of a path that lead on. -/
def steps (path : String) : List String := (path.splitOn "/").filter (!isIdle ·)

/-- A path without steps that stay where they are. -/
def normalPath (path : String) : String :=
  (if path.startsWith "/" then "/" else "") ++ "/".intercalate (steps path)

/-- Where a configuration file of the given name may be: there, or with an ending behind the name. A
path whose last step stays where it is leads to no file, but the ending stands behind the step in
front of that one. A path that ends by going up has no name at its end. -/
def candidates (name : String) : List String :=
  let path := normalPath name
  match (steps name).getLast? with
  | none | some ".." => []
  | some _ =>
    if (name.splitOn "/").getLast?.any isIdle then [path ++ ".toml"]
    else [path, path ++ ".toml"]

/-- The first of the places for a name where there is a file. -/
def findFile (files : List Config.File) (name : String) : Option Config.File :=
  (candidates name).findSome? fun path => files.find? (·.origin == path)

/-- The layers of a configuration on top of the defaults. -/
def layers (files : List Config.File) (format config : Option String) : List Config.Layer :=
  [.file false localConfig (findFile files localConfig)] ++
    config.toList.map (fun name => .file true name (findFile files name)) ++
    format.toList.map (fun name => .setting "output.format" (.text name))

/-- An expansion as it is printed: if the settings say so, its last line is ended. -/
def finish (settings : Config.Settings) (output : String) : String :=
  if settings.trailingNewline && output.toList.getLast? != some '\n' then output ++ "\n" else output

/-- The outputs of sources, one behind the other, up to the first source that fails. -/
def expandAll (registry : Registry) (settings : Config.Settings) : List String → Outcome
  | [] => .printed ""
  | source :: rest =>
    match expand registry settings.format source with
    | .ok output => (expandAll registry settings rest).after (finish settings output)
    | .error e => .failed e.message

/-- Nothing is printed behind the first source that fails. -/
theorem expandAll_cons_error {registry : Registry} {settings : Config.Settings} {source : String}
    {e : ExpansionError} (h : expand registry settings.format source = .error e)
    (rest : List String) :
    expandAll registry settings (source :: rest) = .failed e.message := by
  rw [expandAll, h]

/-- What a source gives is printed in front of what the others give. -/
theorem expandAll_cons_ok {registry : Registry} {settings : Config.Settings}
    {source output : String} (h : expand registry settings.format source = .ok output)
    (rest : List String) :
    expandAll registry settings (source :: rest) =
      (expandAll registry settings rest).after (finish settings output) := by
  rw [expandAll, h]

/-- The parts of a text between its line breaks. -/
def lines : List Char → List (List Char)
  | [] => [[]]
  | c :: cs =>
    if c = '\n' then [] :: lines cs
    else match lines cs with
      | l :: ls => (c :: l) :: ls
      | [] => [[c]]

/-- The sources in a text: its lines without blanks at their ends, except for empty ones. -/
def sources (text : String) : List String :=
  (((lines text.toList).map Text.trim).filter (· ≠ [])).map String.ofList

/-- Expands the sources that were given, or else those in the input, which must be UTF-8. -/
def expandGiven (registry : Registry) (settings : Config.Settings) (given : List String)
    (input : ByteArray) : Outcome :=
  if given.isEmpty then
    match String.fromUTF8? input with
    | some text => expandAll registry settings (sources text)
    | none => .failed "IO error: stream did not contain valid UTF-8"
  else expandAll registry settings given

def perform (registry : Registry) (files : List Config.File) (input : ByteArray) :
    Request → Outcome
  | .help => .printed helpText
  | .version => .printed versionText
  | .listFormats => .printed (formatList registry)
  | .expand given format config =>
    match Config.load (layers files format config) with
    | .ok settings => expandGiven registry settings given input
    | .error e => .failed ("Configuration error: " ++ e.message)

/-- The outcome for arguments, the configuration files that there are, and the input. -/
def run (arguments : List String) (files : List Config.File) (input : ByteArray) : Outcome :=
  match Request.ofArguments arguments with
  | .ok request => perform .standard files input request
  | .error e => .misused e.message

/-- Where a run looks for configuration files. -/
def places (arguments : List String) : List String :=
  match Request.ofArguments arguments with
  | .ok (.expand _ _ config) => candidates localConfig ++ config.toList.flatMap candidates
  | _ => []

/-- Whether a run needs its input at all. -/
def readsInput (arguments : List String) : Bool :=
  match Request.ofArguments arguments with
  | .ok (.expand given _ _) => given.isEmpty
  | _ => false

end Shorthand.CommandLine
