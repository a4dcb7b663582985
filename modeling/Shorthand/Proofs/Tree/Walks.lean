import Mathlib.Data.List.Nodup
import Shorthand.Markup.Render
import Shorthand.Proofs.Tree.Growth

/-! # Walks through a tree

Snapshots and markup are made by a walk from the root that calls itself for the children of a node.
In a tree that has grown such a walk comes to every node once (`Rooted.visits_perm`). That of the
markup does not go on below a text or a node in progress (`Markup.logged_eq`). -/

namespace Shorthand

mutual
/-- The nodes without their children, each in front of its children. -/
def Snapshot.preorder : Snapshot → List Snapshot
  | ⟨kind, name, attributes, count, cs⟩ =>
    ⟨kind, name, attributes, count, []⟩ :: Snapshot.preorderAll cs
def Snapshot.preorderAll : List Snapshot → List Snapshot
  | [] => []
  | c :: cs => c.preorder ++ Snapshot.preorderAll cs
end

theorem Snapshot.preorderAll_eq (cs : List Snapshot) :
    preorderAll cs = cs.flatMap preorder := by
  induction cs with
  | nil => rfl
  | cons c cs ih => rw [preorderAll, ih, List.flatMap_cons]

/-- The subtree that a path of child numbers leads to. -/
def Snapshot.at? : Snapshot → List Nat → Option Snapshot
  | s, [] => some s
  | s, k :: path => (s.children[k]?).bind (Snapshot.at? · path)

namespace Tree
variable {t : Tree} {shown : NodeKind → Bool} {i j p depth depth' : Nat}

/-- The nodes from `i` down to the given depth, each in front of its children. What is below a node
counts only if the node's kind is shown. -/
def visits (t : Tree) (shown : NodeKind → Bool) : Nat → Nat → List Nat
  | 0, _ => []
  | depth + 1, i =>
    i :: if (t.kind? i).any shown then (t.children i).flatMap (t.visits shown depth) else []

theorem Linked.of_mem_visits (h : t.Linked) (hj : j ∈ t.visits shown depth i) :
    (i = j ∨ t.Above i j) ∧ ∀ a, t.Above a j → t.Above a i ∨ (t.kind? a).any shown := by
  induction depth generalizing i with
  | zero => cases hj
  | succ depth ih =>
    rw [visits, List.mem_cons] at hj
    rcases hj with rfl | hj
    · exact ⟨.inl rfl, fun a ha => .inl ha⟩
    · split at hj
      · next hshown =>
        obtain ⟨c, hc, hj⟩ := List.mem_flatMap.1 hj
        have hparent := h.mem_children.1 hc
        obtain ⟨hcj, hall⟩ := ih hj
        refine ⟨.inr ?_, fun a ha => ?_⟩
        · rcases hcj with rfl | hcj
          · exact .single hparent
          · exact .head hparent hcj
        -- What is above the child is above `i`, or is `i` itself, which is shown.
        · rcases hall a ha with hac | ha
          · obtain ⟨q, hq, hai⟩ := above_iff.1 hac
            obtain rfl : i = q := Option.some.inj (hparent.symm.trans hq)
            rcases hai with rfl | hai
            · exact .inr hshown
            · exact .inl hai
          · exact .inr ha
      · cases hj

theorem Linked.mem_visits_of_parent (h : t.Linked) (hd : t.size - i ≤ depth)
    (hp : p ∈ t.visits shown depth i) (hshown : (t.kind? p).any shown)
    (hj : t.parent? j = some p) : j ∈ t.visits shown depth i := by
  induction depth generalizing i with
  | zero => cases hp
  | succ depth ih =>
    rw [visits, List.mem_cons] at hp ⊢
    right
    rcases hp with rfl | hp
    · rw [if_pos hshown]
      -- Children are later than their parents, so the depth suffices for one more step.
      have := h.older j p hj
      have := lt_size_of_parent? hj
      refine List.mem_flatMap.2 ⟨j, h.mem_children.2 hj, ?_⟩
      cases depth with
      | zero => omega
      | succ depth =>
        rw [visits]
        exact List.mem_cons_self
    · split at hp
      · next hi =>
        rw [if_pos hi]
        obtain ⟨c, hc, hp⟩ := List.mem_flatMap.1 hp
        have := h.lt_of_mem_children hc
        exact List.mem_flatMap.2 ⟨c, hc, ih (by omega) hp⟩
      · cases hp

theorem Rooted.mem_visits_iff (h : t.Rooted) : j ∈ t.visits shown t.size root ↔
    j < t.size ∧ ∀ a, t.Above a j → (t.kind? a).any shown := by
  constructor
  · intro hj
    obtain ⟨hroot, hall⟩ := h.linked.of_mem_visits hj
    refine ⟨?_, fun a ha => (hall a ha).resolve_left (h.not_above_root a)⟩
    rcases hroot with rfl | hroot
    · exact h.root_lt
    · obtain ⟨q, hq, -⟩ := above_iff.1 hroot
      exact lt_size_of_parent? hq
  · rintro ⟨hj, hall⟩
    induction j using Nat.strongRecOn with
    | ind j ih =>
      by_cases hroot : j = root
      · obtain ⟨size, hsize⟩ : ∃ size, t.size = size + 1 := ⟨t.size - 1, by omega⟩
        rw [hroot, hsize, visits]
        exact List.mem_cons_self
      · obtain ⟨p, hp⟩ := h.parent_other j hj hroot
        have hlt := h.linked.older j p hp
        have habove (a : Nat) (ha : t.Above a p) : (t.kind? a).any shown := hall a (.tail ha hp)
        exact h.linked.mem_visits_of_parent (Nat.sub_le _ _)
          (ih p hlt (Nat.lt_trans hlt hj) habove) (hall p (.single hp)) hp

theorem Linked.nodup_visits (h : t.Linked) (depth i : Nat) : (t.visits shown depth i).Nodup := by
  induction depth generalizing i with
  | zero => exact .nil
  | succ depth ih =>
    rw [visits, List.nodup_cons]
    split
    · constructor
      · intro hi
        obtain ⟨c, hc, hi⟩ := List.mem_flatMap.1 hi
        have := (h.lt_of_mem_children hc).1
        rcases (h.of_mem_visits hi).1 with rfl | hci
        · omega
        · have := h.lt_of_above hci
          omega
      · refine List.nodup_flatMap.2 ⟨fun c _ => ih c, ?_⟩
        refine List.Pairwise.imp_of_mem ?_ (h.nodup_children i)
        intro c c' hc hc' hne j hj hj'
        exact hne (h.eq_of_below (h.mem_children.1 hc) (h.mem_children.1 hc')
          (h.of_mem_visits hj).1 (h.of_mem_visits hj').1)
    · exact ⟨List.not_mem_nil, .nil⟩

/-- A walk that goes on below every node comes to each of them once. -/
theorem Rooted.visits_perm (h : t.Rooted) :
    (t.visits (fun _ => true) t.size root).Perm (List.range t.size) := by
  refine (List.perm_ext_iff_of_nodup (h.linked.nodup_visits _ _) List.nodup_range).2 fun j => ?_
  rw [h.mem_visits_iff, List.mem_range]
  refine ⟨And.left, fun hj => ⟨hj, fun a ha => ?_⟩⟩
  obtain ⟨n, hn⟩ := exists_node? (Nat.lt_trans (h.linked.lt_of_above ha) hj)
  rw [kind?, hn]
  rfl

/-! ### Snapshots -/

theorem Linked.ofNode_congr (h : t.Linked) (hd : t.size - i ≤ depth) (hd' : t.size - i ≤ depth')
    (hi : i < t.size) : Snapshot.ofNode t depth i = Snapshot.ofNode t depth' i := by
  induction depth generalizing i depth' with
  | zero => omega
  | succ depth ih =>
    cases depth' with
    | zero => omega
    | succ depth' =>
      have hcs : (t.children i).map (Snapshot.ofNode t depth) =
          (t.children i).map (Snapshot.ofNode t depth') := by
        refine List.map_congr_left fun c hc => ?_
        have := h.lt_of_mem_children hc
        exact ih (by omega) (by omega) this.2
      rw [Snapshot.ofNode, Snapshot.ofNode, hcs]

theorem Linked.preorder_ofNode (h : t.Linked) (hd : t.size - i ≤ depth) (hi : i < t.size) :
    (Snapshot.ofNode t depth i).preorder.map some =
      (t.visits (fun _ => true) depth i).map fun j => (t.node? j).map Node.bare := by
  induction depth generalizing i with
  | zero => omega
  | succ depth ih =>
    obtain ⟨n, hn⟩ := exists_node? hi
    have hkind : (t.kind? i).any fun _ => true := by
      rw [kind?, hn]
      rfl
    have hcs : (t.children i).flatMap (fun c => (Snapshot.ofNode t depth c).preorder.map some) =
        (t.children i).flatMap fun c => (t.visits (fun _ => true) depth c).map
          fun j => (t.node? j).map Node.bare := by
      refine List.flatMap_congr fun c hc => ?_
      have := h.lt_of_mem_children hc
      exact ih (by omega) this.2
    rw [visits, if_pos hkind, List.map_cons, List.map_flatMap, ← hcs, hn]
    simp only [Snapshot.ofNode, hn, Snapshot.preorder, Snapshot.preorderAll_eq, List.map_cons,
      List.map_flatMap, List.flatMap_map]
    rfl

/-- A path leads to the same place in a tree and in its snapshot. -/
theorem Linked.at?_ofNode (h : t.Linked) (path : List Nat) (hd : t.size - i ≤ depth)
    (hi : i < t.size) : (Snapshot.ofNode t depth i).at? path =
      (t.descend i path).map (Snapshot.ofNode t t.size) := by
  induction path generalizing i depth with
  | nil => exact congrArg some (h.ofNode_congr hd (Nat.sub_le _ _) hi)
  | cons k path ih =>
    obtain ⟨n, hn⟩ := exists_node? hi
    cases depth with
    | zero => omega
    | succ depth =>
      simp only [Snapshot.ofNode, hn, Snapshot.at?, descend, List.getElem?_map]
      cases hk : (t.children i)[k]? with
      | none => rfl
      | some c =>
        have := h.lt_of_mem_children (List.mem_of_getElem? hk)
        exact ih (by omega) this.2

end Tree

namespace Markup

/-- The kinds that are written with their children. -/
def shows : NodeKind → Bool
  | .text | .inProgress => false
  | .root | .element | .group => true

/-- The markup of a node as `node` makes it, with the nodes for which that calls itself. -/
def logged (t : Tree) : Nat → Nat → List Nat × String
  | 0, _ => ([], "")
  | depth + 1, i =>
    match t.node? i with
    | none => ([i], "")
    | some n =>
      match n.kind with
      | .text => ([i], multiply n.name n.count)
      | .inProgress => ([i], "")
      | .root | .group =>
        let inner := (t.children i).map (logged t depth)
        (i :: inner.flatMap (·.1), multiply (String.join (inner.map (·.2))) n.count)
      | .element =>
        let inner := (t.children i).map (logged t depth)
        let content := if t.hasChildren i then some (String.join (inner.map (·.2))) else none
        (i :: inner.flatMap (·.1), multiply (element n.name n.attributes content) n.count)

theorem logged_eq (t : Tree) (depth i : Nat) :
    logged t depth i = (t.visits shows depth i, node t depth i) := by
  induction depth generalizing i with
  | zero => rfl
  | succ depth ih =>
    have hinner : (t.children i).map (logged t depth) =
        (t.children i).map fun c => (t.visits shows depth c, node t depth c) :=
      List.map_congr_left fun c _ => ih c
    rw [logged, node, Tree.visits, Tree.kind?]
    cases t.node? i with
    | none => rfl
    | some n =>
      simp only [hinner, List.flatMap_map, List.map_map, Function.comp_def]
      cases hkind : n.kind <;> simp [hkind, shows]

end Markup
end Shorthand
