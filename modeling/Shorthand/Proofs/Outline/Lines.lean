import Mathlib.Data.List.Chain
import Mathlib.Data.List.Forall2
import Shorthand.Outline
import Shorthand.Proofs.Tree.Walks

/-! # The lines of an outline

Every node below the root has one line, and the lines come in preorder. What stands in front of the
kind of a node can be read off its place among its siblings and those of the nodes above it
(`Tree.Drawn`, `Tree.Linked.drawn_of_rowOf`). -/

namespace Shorthand

namespace Outline

/-- What a line of an outline shows. -/
structure Row where
  /-- For each node between the root and the parent, from the top down, whether it is a last child. -/
  above : List Bool
  isLast : Bool
  node : Snapshot

/-- The line that a row is drawn as. -/
def Row.line (r : Row) : String :=
  String.join (r.above.map column) ++ connector r.isLast ++ " " ++ r.node.kind.name ++ ": " ++
    label r.node

mutual
/-- The rows of a node and of what is below it, in preorder. -/
def rows (above : List Bool) (isLast : Bool) : Snapshot → List Row
  | ⟨kind, name, attributes, count, cs⟩ =>
    ⟨above, isLast, ⟨kind, name, attributes, count, []⟩⟩ :: siblingRows (above ++ [isLast]) cs
def siblingRows (above : List Bool) : List Snapshot → List Row
  | [] => []
  | c :: cs => rows above cs.isEmpty c ++ siblingRows above cs
end

theorem join_concat_column (above : List Bool) (isLast : Bool) :
    String.join ((above ++ [isLast]).map column) =
      String.join (above.map column) ++ column isLast := by
  rw [List.map_append, String.join_append]
  exact congrArg _ (String.empty_append)

mutual
theorem lines_eq (above : List Bool) (isLast : Bool) : ∀ s : Snapshot,
    lines (String.join (above.map column)) isLast s = (rows above isLast s).map Row.line
  | ⟨kind, name, attributes, count, cs⟩ => by
    rw [lines, rows, ← join_concat_column, siblingLines_eq (above ++ [isLast]) cs, List.map_cons]
    rfl
theorem siblingLines_eq (above : List Bool) : ∀ cs : List Snapshot,
    siblingLines (String.join (above.map column)) cs = (siblingRows above cs).map Row.line
  | [] => rfl
  | c :: cs => by
    rw [siblingLines, siblingRows, lines_eq above cs.isEmpty c, siblingLines_eq above cs,
      List.map_append]
end

end Outline

namespace Tree
open Outline (Row rows siblingRows)
variable {t : Tree} {i p depth : Nat} {above : List Nat}

/-- The nodes `above`, from the top down, are those between the root and `i`. -/
def Lineage (t : Tree) (above : List Nat) (i : Nat) : Prop :=
  (root :: (above ++ [i])).IsChain fun p c => t.parent? c = some p

/-- A sibling comes behind the node. -/
def HasYounger (t : Tree) (i : Nat) : Prop := ∃ j, t.nextSibling? i = some j

instance : Decidable (t.HasYounger i) :=
  decidable_of_iff (t.nextSibling? i).isSome Option.isSome_iff_exists

/-- The node is the last child of its parent. -/
def IsLastChild (t : Tree) (i : Nat) : Prop := (t.parent? i).bind t.lastChild? = some i

instance : Decidable (t.IsLastChild i) := inferInstanceAs (Decidable (_ = _))

theorem lineage_top (hi : t.parent? i = some root) : t.Lineage [] i := .cons_cons hi (.singleton _)

theorem Lineage.child (h : t.Lineage above p) (hi : t.parent? i = some p) :
    t.Lineage (above ++ [p]) i := by
  rw [Lineage, ← List.cons_append, List.isChain_append]
  refine ⟨h, .singleton _, fun q hq c hc => ?_⟩
  rw [← List.cons_append, List.getLast?_concat] at hq
  obtain rfl := Option.some.inj hq
  obtain rfl := Option.some.inj hc
  exact hi

theorem Lineage.exists_parent (h : t.Lineage above i) : ∃ p, t.parent? i = some p := by
  rw [Lineage, ← List.cons_append, List.isChain_append] at h
  exact ⟨_, h.2.2 _ (List.getLast?_eq_some_getLast (List.cons_ne_nil _ _)) i rfl⟩

/-- The last child is the one without a sibling behind it. -/
theorem Linked.isLastChild_iff (h : t.Linked) (hi : t.parent? i = some p) :
    t.IsLastChild i ↔ ¬ t.HasYounger i := by
  obtain ⟨xs, ys, hp⟩ := List.append_of_mem (mem_offspring.2 hi)
  have hnext : t.nextSibling? i = ys.head? := (h.neighbours p xs i ys hp).2
  rw [IsLastChild, hi, Option.bind_some, h.last, hp, HasYounger, hnext]
  cases ys with
  | nil => simp
  | cons y ys =>
    refine iff_of_false (fun hlast => ?_) (not_not_intro ⟨y, rfl⟩)
    rw [List.getLast?_append_of_ne_nil _ (List.cons_ne_nil _ _), List.getLast?_cons_cons] at hlast
    -- the node would come twice among its siblings
    have hnodup : (xs ++ i :: y :: ys).Nodup := by
      rw [← hp, ← h.children]
      exact h.nodup_children p
    exact (List.nodup_cons.1 (List.nodup_append.1 hnodup).2.1).1 (List.mem_of_getLast? hlast)

/-- The row of a node. -/
def RowOf (t : Tree) (i : Nat) (r : Row) : Prop :=
  ∃ above n, t.Lineage above i ∧ t.node? i = some n ∧
    r = ⟨above.map fun a => ¬ t.HasYounger a, ¬ t.HasYounger i, n.bare⟩

theorem Linked.rowOf_siblings (h : t.Linked) {flags : List Bool} {xs ys : List Nat}
    (hp : t.offspring p = xs ++ ys)
    (hys : ∀ c ∈ ys, List.Forall₂ t.RowOf (t.visits (fun _ => true) depth c)
      (rows flags (¬ t.HasYounger c) (Snapshot.ofNode t depth c))) :
    List.Forall₂ t.RowOf (ys.flatMap (t.visits (fun _ => true) depth))
      (siblingRows flags (ys.map (Snapshot.ofNode t depth))) := by
  induction ys generalizing xs with
  | nil => exact .nil
  | cons y ys ih =>
    rw [List.forall_mem_cons] at hys
    have hyounger : t.HasYounger y ↔ ys ≠ [] := by
      rw [HasYounger, (h.neighbours p xs y ys hp).2]
      cases ys <;> simp
    have hlast : (ys.map (Snapshot.ofNode t depth)).isEmpty = decide (¬ t.HasYounger y) := by
      simp only [hyounger]
      cases ys <;> simp
    rw [List.flatMap_cons, List.map_cons, siblingRows, hlast]
    exact List.rel_append hys.1 (ih (by rw [hp, List.append_cons]) hys.2)

theorem visits_succ (hi : i < t.size) (depth : Nat) : t.visits (fun _ => true) (depth + 1) i =
    i :: (t.children i).flatMap (t.visits (fun _ => true) depth) := by
  obtain ⟨n, hn⟩ := exists_node? hi
  rw [visits, if_pos (by rw [kind?, hn]; rfl)]

/-- The walk through a subtree meets the nodes in the order of the rows. -/
theorem Linked.rowOf_node (h : t.Linked) (hi : i < t.size) (hd : t.size - i ≤ depth)
    (habove : t.Lineage above i) :
    List.Forall₂ t.RowOf (t.visits (fun _ => true) depth i)
      (rows (above.map fun a => ¬ t.HasYounger a) (¬ t.HasYounger i)
        (Snapshot.ofNode t depth i)) := by
  induction depth generalizing i above with
  | zero => omega
  | succ depth ih =>
    obtain ⟨n, hn⟩ := exists_node? hi
    simp only [visits_succ hi, Snapshot.ofNode, hn, rows]
    refine .cons ⟨above, n, habove, hn, rfl⟩ ?_
    rw [h.children]
    refine h.rowOf_siblings (List.nil_append _).symm fun c hc => ?_
    have hparent := mem_offspring.1 hc
    have hlt := h.older c i hparent
    have hc := ih (lt_size_of_parent? hparent) (by omega) (habove.child hparent)
    rwa [List.map_append] at hc

/-- What the outline shows of a node: a column for each node above it, which is a bar if that node
has siblings behind it, then a corner for a last child and a tee for any other, and then what the
node is. -/
def Drawn (t : Tree) (i : Nat) (line : String) : Prop :=
  ∃ above n, t.Lineage above i ∧ t.node? i = some n ∧ line =
    String.join (above.map fun a => if t.HasYounger a then "│ " else "  ") ++
      (if t.IsLastChild i then "└─" else "├─") ++ " " ++ n.kind.name ++ ": " ++
      Outline.label n.bare

theorem Linked.drawn_of_rowOf (h : t.Linked) {r : Row} (hr : t.RowOf i r) : t.Drawn i r.line := by
  obtain ⟨above, n, habove, hn, rfl⟩ := hr
  obtain ⟨p, hp⟩ := habove.exists_parent
  refine ⟨above, n, habove, hn, ?_⟩
  have hcolumn (a : Nat) :
      Outline.column (¬ t.HasYounger a) = if t.HasYounger a then "│ " else "  " := by
    by_cases ha : t.HasYounger a <;> simp [Outline.column, ha]
  have hconnector :
      Outline.connector (¬ t.HasYounger i) = if t.IsLastChild i then "└─" else "├─" := by
    simp only [h.isLastChild_iff hp]
    by_cases hi : t.HasYounger i <;> simp [Outline.connector, hi]
  simp only [Row.line, List.map_map, Function.comp_def, hcolumn, hconnector]
  rfl

/-- The rows of a whole outline. -/
def outlineRows (t : Tree) : List Row := siblingRows [] (Snapshot.ofTree t).children

theorem outline_eq (t : Tree) : Outline.ofTree t =
    String.join ((t.outlineRows.map Row.line).map (· ++ "\n")) := by
  rw [outlineRows, ← Outline.siblingLines_eq]
  rfl

theorem Rooted.rowOf_outline (h : t.Rooted) : ∃ nodes,
    t.visits (fun _ => true) t.size root = root :: nodes ∧
      List.Forall₂ t.RowOf nodes t.outlineRows := by
  obtain ⟨depth, hsize⟩ : ∃ depth, t.size = depth + 1 :=
    Nat.exists_eq_add_one.2 (Nat.zero_lt_of_lt h.root_lt)
  obtain ⟨n, hn⟩ := exists_node? h.root_lt
  rw [outlineRows, Snapshot.ofTree, hsize]
  simp only [visits_succ h.root_lt, Snapshot.ofNode, hn]
  refine ⟨_, rfl, ?_⟩
  rw [h.linked.children]
  refine h.linked.rowOf_siblings (List.nil_append _).symm fun c hc => ?_
  have hparent := mem_offspring.1 hc
  have hlt := h.linked.older c root hparent
  exact h.linked.rowOf_node (lt_size_of_parent? hparent) (by omega) (lineage_top hparent)

end Tree
end Shorthand
