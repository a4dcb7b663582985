import Shorthand.Format.Registry
import Shorthand.Json.Writer
import Shorthand.Markup.Render
import Shorthand.Outline
import Shorthand.Yaml.Writer

/-! # The standard formats

Markup, which is what an abbreviation stands for, the outline of the tree, and its snapshot as JSON
and as YAML. -/

namespace Shorthand

namespace Format

/-- The expansion itself. -/
def markup : Format := ⟨"markup", "Expanded markup", fun t => .ok (Markup.render t)⟩

/-- The outline of the tree. -/
def treeviz : Format :=
  ⟨"treeviz", "Indented outline of the parsed tree", fun t => .ok (Outline.ofTree t)⟩

/-- The snapshot over several lines of JSON. -/
def json : Format :=
  ⟨"json", "Tree snapshot as JSON", fun t => .ok (Json.pretty (Snapshot.ofTree t).toData)⟩

/-- The snapshot as a YAML document. -/
def yaml : Format :=
  ⟨"yaml", "Tree snapshot as YAML", fun t => .ok (Yaml.write (Snapshot.ofTree t).toData)⟩

/-- The formats that every run has. -/
def standard : List Format := [markup, treeviz, json, yaml]

end Format

/-- The registry of a run. -/
def Registry.standard : Registry := Format.standard.foldl Registry.register .empty

end Shorthand
