import Shorthand.Data
import Shorthand.Json.Reader

/-! # Snapshots read from JSON

A snapshot is read from a record of its fields, or from a list of their values in the order in which
they are written. Only the kind is required; fields of other names are skipped. -/

namespace Shorthand.Json

/-- How many lists and records may be open at a time. -/
def maxDepth : Nat := 127

/-- The fields of a snapshot that have been read. -/
structure SnapshotFields where
  kind : Option NodeKind := none
  name : Option String := none
  attributes : Option (NameMap String) := none
  count : Option Nat := none
  children : Option (List Snapshot) := none

/-- The snapshot with these fields, the ones that were not read being empty. -/
def SnapshotFields.finish (f : SnapshotFields) : Reader Snapshot := do
  match f.kind with
  | none => throw .mistyped
  | some kind =>
    return ⟨kind, f.name.getD "", f.attributes.getD .empty, f.count.getD 0, f.children.getD []⟩

/-- Opens a list or a record, if one more may be open, and reads it with `body`, which is told how
many more may be open inside. -/
def nested {α : Type} (body : Nat → Reader α) : Nat → Reader α
  | 0 => throw .malformed
  | depth + 1 => do
    let _ ← take
    body depth

/-- The kind that a name stands for. -/
def kindName : Reader NodeKind := do
  let name ← text
  match NodeKind.all.find? (·.dataName == name) with
  | some kind => return kind
  | none => throw .mistyped

/-- A kind as the name of a field. -/
def quotedKind : Reader NodeKind := do
  match ← upcoming with
  | '"' => kindName
  | _ => throw .malformed

/-- The word for no value. -/
def nothing : Reader Unit := do
  match ← upcoming with
  | 'n' => word "null".toList
  | _ => wrongShape

/-- A kind is written as its name, or as a record with that name as its only field. -/
def kind (depth : Nat) : Reader NodeKind := do
  match ← upcoming with
  | '"' => kindName
  | '{' =>
    nested (fun _ => do
      let kind ← quotedKind
      colon
      nothing
      match ← upcoming with
      | '}' => let _ ← take; return kind
      | _ => throw .malformed) depth
  | _ => throw .malformed

/-- A record of texts. Of two fields of the same name the last one counts. -/
def attributes (depth : Nat) : Reader (NameMap String) := do
  match ← upcoming with
  | '{' =>
    nested (fun _ =>
      fields true (fun name m => do colon; return m.insert name (← text)) .empty) depth
  | _ => wrongShape

/-- The value of a field that may be given once. -/
def once {α : Type} (former : Option α) (value : Reader α) : Reader (Option α) := do
  match former with
  | some _ => throw .mistyped
  | none => colon; return some (← value)

/-- A field of a snapshot, from its colon on. -/
def snapshotField (depth : Nat) (children : Reader (List Snapshot)) (name : String)
    (f : SnapshotFields) : Reader SnapshotFields := do
  match name with
  | "kind" => return { f with kind := ← once f.kind (kind depth) }
  | "name" => return { f with name := ← once f.name text }
  | "attributes" => return { f with attributes := ← once f.attributes (attributes depth) }
  | "repeat" => return { f with count := ← once f.count natural }
  | "children" => return { f with children := ← once f.children children }
  | _ => colon; skip; return f

/-- The first item of a list, unless the list ends. -/
def firstItem {α : Type} (item : Reader α) : Reader (Option α) := do
  match ← upcoming with
  | ']' => return none
  | _ => return some (← item)

/-- A further item of a list, unless the list ends. -/
def nextItem {α : Type} (item : Reader α) : Reader (Option α) := do
  match ← upcoming with
  | ']' => return none
  | ',' =>
    let _ ← take
    match ← upcoming with
    | ']' => throw .malformed
    | _ => return some (← item)
  | _ => throw .malformed

/-- The values of a snapshot's fields behind an opening bracket. -/
def snapshotItems (depth : Nat) (children : Reader (List Snapshot)) : Reader Snapshot := do
  match ← firstItem (kind depth) with
  | none => throw .mistyped
  | some kind =>
    let name ← nextItem text
    let attributes ← nextItem (attributes depth)
    let count ← nextItem natural
    let children ← nextItem children
    match ← upcoming with
    | ']' =>
      let _ ← take
      SnapshotFields.finish ⟨some kind, name, attributes, count, children⟩
    | _ => throw .malformed

mutual
/-- A snapshot, with at most `depth` lists and records open inside. -/
def snapshot : Nat → Reader Snapshot
  | 0 => do
    match ← upcoming with
    | '{' | '[' => throw .malformed
    | _ => wrongShape
  | depth + 1 => do
    match ← upcoming with
    | '{' =>
      let _ ← take
      (← fields true (snapshotField depth (snapshots depth)) {}).finish
    | '[' =>
      let _ ← take
      snapshotItems depth (snapshots depth)
    | _ => wrongShape
/-- A list of snapshots, if lists may be nested deeper. -/
def snapshots : Nat → Reader (List Snapshot)
  | 0 => do
    match ← upcoming with
    | '[' => throw .malformed
    | _ => wrongShape
  | depth + 1 => do
    match ← upcoming with
    | '[' =>
      let _ ← take
      items (snapshot depth)
    | _ => wrongShape
end

/-- The snapshot that a whole text writes. -/
def readSnapshot (source : String) : Except ReadError Snapshot := do
  let (s, rest) ← (snapshot maxDepth).run source.toList
  if rest.all isBlank then return s else throw .malformed

end Shorthand.Json
