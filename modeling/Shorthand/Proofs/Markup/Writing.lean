import Shorthand.Markup.Render
import Shorthand.Proofs.Markup.Templates
import Shorthand.Proofs.Tree.Links

/-! # The markup of a snapshot

`render` by recursion on the snapshot of a tree (`render_eq`): every node is written once, and the
copies of what was written take its place. -/

namespace Shorthand.Markup
variable {c : Char} {cs xs ys : List Char} {copy : Copy}

theorem escapeValue_append (xs ys : List Char) :
    escapeValue (xs ++ ys) = escapeValue xs ++ escapeValue ys := by
  induction xs with
  | nil => rfl
  | cons x xs ih =>
    simp only [List.cons_append, escapeValue, ih]
    split <;> rfl

theorem escapeValue_of_notMem (h : '"' ∉ cs) : escapeValue cs = cs := by
  induction cs with
  | nil => rfl
  | cons c cs ih =>
    have hc : c ≠ '"' := (List.ne_of_not_mem_cons h).symm
    rw [escapeValue, if_neg hc, ih (List.not_mem_of_not_mem_cons h)]

theorem quote_notMem_numbered (h : '"' ∉ cs) (copy : Copy) : '"' ∉ numbered copy cs := by
  rcases copy with _ | ⟨i, count⟩
  · exact h
  · intro hmem
    rcases mem_numbered hmem with ⟨hmem, -⟩ | hdigit
    · exact h hmem
    · revert hdigit
      decide

/-- It does not matter whether a value is numbered before or after it is escaped. -/
theorem numbered_escapeValue (copy : Copy) (cs : List Char) :
    numbered copy (escapeValue cs) = escapeValue (numbered copy cs) := by
  by_cases h : '"' ∈ cs
  · obtain ⟨xs, ys, hcs, hxs⟩ := List.eq_append_cons_of_mem h
    have hlt : ys.length < cs.length := by
      rw [hcs, List.length_append, List.length_cons]
      omega
    have hquote : Separator '"' := by decide +kernel
    have hslash : Separator '\\' := by decide +kernel
    have ih := numbered_escapeValue copy ys
    rw [hcs, numbered_separator hquote, escapeValue_append, escapeValue_append, escapeValue_of_notMem hxs,
      escapeValue_of_notMem (quote_notMem_numbered hxs copy), escapeValue, escapeValue, if_pos rfl,
      if_pos rfl, numbered_separator hslash, numbered_cons hquote, ih]
  · rw [escapeValue_of_notMem h, escapeValue_of_notMem (quote_notMem_numbered h copy)]
termination_by cs.length

/-- An attribute in a tag, whose value is written as it is given. -/
def writeAttribute (name value : List Char) : List Char :=
  ' ' :: name ++ '=' :: '"' :: value ++ ['"']

/-- A tag around what is inside; a value stands as it is between its quotes. -/
def writeTag (name : List Char) (attributes : List (List Char × List Char)) :
    Option (List Char) → List Char
  | none =>
    '<' :: name ++ attributes.flatMap (fun (n, v) => writeAttribute n v) ++ [' ', '/', '>']
  | some inner =>
    '<' :: name ++ attributes.flatMap (fun (n, v) => writeAttribute n v) ++
      '>' :: inner ++ '<' :: '/' :: name ++ ['>']

/-- The attributes of a map with their values escaped. -/
def quoted (m : NameMap String) : List (List Char × List Char) :=
  m.entries.map fun (n, v) => (n.toList, escapeValue v.toList)

theorem toList_attributes (m : NameMap String) :
    (attributes m).toList = (quoted m).flatMap fun (n, v) => writeAttribute n v := by
  rw [attributes, quoted, String.toList_join, List.flatMap_map, List.flatMap_map]
  congr 1
  funext ⟨n, v⟩
  simp [writeAttribute]

theorem toList_element (name : String) (m : NameMap String) (inner : Option String) :
    (element name m inner).toList = writeTag name.toList (quoted m) (inner.map String.toList) := by
  cases inner <;> simp [element, writeTag, toList_attributes]

mutual
/-- The markup of one copy of a node, before it is numbered. -/
def template : Snapshot → List Char
  | ⟨kind, name, m, _, cs⟩ =>
    match kind with
    | .text => name.toList
    | .inProgress => []
    | .root | .group => markups cs
    | .element =>
      writeTag name.toList (quoted m) (if cs.isEmpty then none else some (markups cs))
def markups : List Snapshot → List Char
  | [] => []
  | c :: cs => copies c.count none (numbered · (template c)) ++ markups cs
end

/-- The markup of a node in all its copies. -/
def markup (s : Snapshot) : List Char := copies s.count none (numbered · (template s))

theorem markups_eq (cs : List Snapshot) : markups cs = cs.flatMap markup := by
  induction cs with
  | nil => rfl
  | cons c cs ih => rw [markups, ih, List.flatMap_cons, markup]

theorem copies_nil (count : Nat) (copy : Copy) : copies count copy (numbered · []) = [] := by
  rw [copies]
  split
  · exact numbered_nil copy
  · simp

theorem toList_nodes {t : Tree} {depth : Nat} (is : List Nat)
    (h : ∀ i, (node t depth i).toList = markup (Snapshot.ofNode t depth i)) :
    (String.join (is.map (node t depth))).toList = markups (is.map (Snapshot.ofNode t depth)) := by
  rw [String.toList_join, markups_eq, List.flatMap_map, List.flatMap_map]
  simp only [h]

theorem toList_node {t : Tree} (ht : t.Linked) (depth i : Nat) :
    (node t depth i).toList = markup (Snapshot.ofNode t depth i) := by
  induction depth generalizing i with
  | zero => rfl
  | succ depth ih =>
    rw [node, Snapshot.ofNode]
    cases hn : t.node? i with
    | none => rfl
    | some n =>
      obtain ⟨kind, name, m, count, parent, first, last, prev, next⟩ := n
      cases kind with
      | root => simp only [toList_multiply, toList_nodes _ ih, markup, template]
      | inProgress => simp only [markup, template, copies_nil]; rfl
      | element =>
        have hchildren : t.hasChildren i = !(t.children i).isEmpty := by
          rw [ht.hasChildren, ht.children]
        simp only [toList_multiply, toList_element, markup, template, hchildren, List.isEmpty_map]
        cases (t.children i).isEmpty <;> simp [toList_nodes _ ih]
      | text => rw [toList_multiply]; rfl
      | group => simp only [toList_multiply, toList_nodes _ ih, markup, template]

/-- The markup of a tree, by recursion on its snapshot. -/
theorem render_eq {t : Tree} (ht : t.Linked) :
    render t = String.ofList (markup (Snapshot.ofTree t)) := by
  rw [Snapshot.ofTree, ← toList_node ht, String.ofList_toList]
  rfl

end Shorthand.Markup
