import Shorthand.Markup.Numbering
import Shorthand.Tree.Basic

/-! # Markup of a tree

A root or a group is written as its children, a text as its content, and an element as a tag around
its children. A node with a count is written once as a template, whose numbered copies take its
place. -/

namespace Shorthand.Markup

/-- An attribute value as it stands between its quotes: every `"` has a `\` in front. -/
def escapeValue : List Char → List Char
  | [] => []
  | c :: cs => if c = '"' then '\\' :: '"' :: escapeValue cs else c :: escapeValue cs

/-- The attributes of a tag, each behind a space, by name. -/
def attributes (m : NameMap String) : String :=
  String.join (m.entries.map fun (name, value) =>
    " " ++ name ++ "=\"" ++ String.ofList (escapeValue value.toList) ++ "\"")

/-- An element, around the markup of its children if it has any. -/
def element (name : String) (m : NameMap String) (inner : Option String) : String :=
  match inner with
  | some inner => "<" ++ name ++ attributes m ++ ">" ++ inner ++ "</" ++ name ++ ">"
  | none => "<" ++ name ++ attributes m ++ " />"

/-- The markup of node `i` and what is below it, down to the given depth. -/
def node (t : Tree) : Nat → Nat → String
  | 0, _ => ""
  | depth + 1, i =>
    match t.node? i with
    | none => ""
    | some n =>
      match n.kind with
      | .text => multiply n.name n.count
      | .inProgress => ""
      | .root | .group => multiply (String.join ((t.children i).map (node t depth))) n.count
      | .element =>
        let inner :=
          if t.hasChildren i then some (String.join ((t.children i).map (node t depth)))
          else none
        multiply (element n.name n.attributes inner) n.count

def render (t : Tree) : String := node t t.size Tree.root

end Shorthand.Markup
