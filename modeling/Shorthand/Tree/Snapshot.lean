import Shorthand.Tree.Basic

/-! # Snapshots

A `Snapshot` is a tree without indices and links: a node and the snapshots of its children. It is
what outlines and data formats are written from. -/

namespace Shorthand

/-- A node with everything below it, without the places in the arena. -/
structure Snapshot where
  kind : NodeKind
  /-- The tag name of an element, the content of a text. -/
  name : String
  attributes : NameMap String := .empty
  /-- How many times the node is written out; zero for a node that is not multiplied. -/
  count : Nat := 0
  children : List Snapshot := []

namespace Snapshot

instance : Inhabited Snapshot := ⟨{ kind := .root, name := "" }⟩

mutual
/-- Equality of snapshots, decided from the roots down. -/
def decEq : (a b : Snapshot) → Decidable (a = b)
  | ⟨k, n, as, m, cs⟩, ⟨k', n', as', m', cs'⟩ =>
    if h : k = k' ∧ n = n' ∧ as = as' ∧ m = m' then
      match decEqList cs cs' with
      | .isTrue hcs => .isTrue (by obtain ⟨rfl, rfl, rfl, rfl⟩ := h; rw [hcs])
      | .isFalse hcs => .isFalse (by simp [hcs])
    else .isFalse fun he => h (by injection he; simp_all)
def decEqList : (as bs : List Snapshot) → Decidable (as = bs)
  | [], [] => .isTrue rfl
  | [], _ :: _ => .isFalse (by simp)
  | _ :: _, [] => .isFalse (by simp)
  | a :: as, b :: bs =>
    match decEq a b with
    | .isTrue h =>
      match decEqList as bs with
      | .isTrue hs => .isTrue (by rw [h, hs])
      | .isFalse hs => .isFalse (by simp [hs])
    | .isFalse h => .isFalse (by simp [h])
end

instance : DecidableEq Snapshot := decEq

/-- The snapshot of node `i` and what is below it, down to the given depth. -/
def ofNode (t : Tree) : Nat → Nat → Snapshot
  | 0, _ => default
  | depth + 1, i =>
    match t.node? i with
    | none => default
    | some n => ⟨n.kind, n.name, n.attributes, n.count, (t.children i).map (ofNode t depth)⟩

/-- The snapshot of a whole tree. -/
def ofTree (t : Tree) : Snapshot := ofNode t t.size Tree.root

/-- Gives an attribute, in place of a former one of that name. -/
def withAttribute (s : Snapshot) (name value : String) : Snapshot :=
  { s with attributes := s.attributes.insert name value }

def withCount (s : Snapshot) (count : Nat) : Snapshot := { s with count }

def withChild (s : Snapshot) (child : Snapshot) : Snapshot :=
  { s with children := s.children ++ [child] }

end Snapshot
end Shorthand
