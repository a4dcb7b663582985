import Mathlib.Logic.Function.Basic
import Shorthand.Proofs.Tree.Growth
import Shorthand.Proofs.Tree.Zipper

/-! # Tidy nodes

What the nodes of a tree are like while it is built, whichever of them is the current one
(`Tree.TidyWith`). Which children a node has is said apart from the tree, so that a node can be
changed for the sake of a child that is only appended then. -/

namespace Shorthand
open Grammar
open Snapshot (leaf)

/-- What a node of this kind may have. -/
def NodeKind.Allows (name : String) (attributes : NameMap String) (children : List Nat) :
    NodeKind → Prop
  | inProgress => children = [] ∧ attributes = .empty ∧ name = ""
  | text => children = [] ∧ attributes = .empty
  | group => children ≠ [] ∧ attributes = .empty ∧ name = ""
  | root => attributes = .empty ∧ name = ""
  | element => name ≠ ""

/-- What the kind of a node lets it have, and a count that can be written. -/
def Node.Tidy (n : Node) (children : List Nat) : Prop :=
  n.kind.Allows n.name n.attributes children ∧ n.count ≤ maxCount

namespace Node
variable {n m : Node} {children : List Nat} {kind : NodeKind}

theorem Tidy.allows (h : n.Tidy children) (hk : n.kind = kind) :
    kind.Allows n.name n.attributes children := hk ▸ h.1

theorem tidy_of_allows (hk : n.kind = kind) (h : kind.Allows n.name n.attributes children)
    (hcount : n.count ≤ maxCount) : n.Tidy children := ⟨hk ▸ h, hcount⟩

theorem Tidy.of_bare (h : m.Tidy children) (hbare : n.bare = m.bare) : n.Tidy children := by
  show n.bare.kind.Allows n.bare.name n.bare.attributes children ∧ n.bare.count ≤ maxCount
  rw [hbare]
  exact h

theorem Tidy.concat (h : n.Tidy children) (hprogress : n.kind ≠ .inProgress)
    (htext : n.kind ≠ .text) (i : Nat) : n.Tidy (children ++ [i]) := by
  refine ⟨?_, h.2⟩
  cases hk : n.kind with
  | inProgress => exact absurd hk hprogress
  | text => exact absurd hk htext
  | group => exact ⟨by simp, (h.allows hk).2⟩
  | root => exact h.allows hk
  | element => exact h.allows hk

theorem tidy_of_leaf (hkind : kind = .inProgress ∨ kind = .text) (hbare : n.bare = leaf kind) :
    n.Tidy [] := by
  show n.bare.kind.Allows n.bare.name n.bare.attributes [] ∧ n.bare.count ≤ maxCount
  rw [hbare]
  rcases hkind with rfl | rfl
  · exact ⟨⟨rfl, rfl, rfl⟩, Nat.zero_le _⟩
  · exact ⟨⟨rfl, rfl⟩, Nat.zero_le _⟩

end Node

namespace Tree
variable {t : Tree} {i j parent current : Nat} {kind : NodeKind} {children : Nat → List Nat} {n : Node}

/-- With these children every node is tidy, and only the current one may be in progress. -/
def TidyWith (t : Tree) (current : Nat) (children : Nat → List Nat) : Prop :=
  ∀ i n, t.node? i = some n → n.Tidy (children i) ∧ (n.kind = .inProgress → i = current)

/-- The current node may change if it is not in progress. -/
theorem TidyWith.move (h : t.TidyWith current children) (hn : t.node? current = some n)
    (hk : n.kind ≠ .inProgress) (i : Nat) : t.TidyWith i children := by
  intro j m hm
  obtain ⟨htidy, honly⟩ := h j m hm
  refine ⟨htidy, fun hkind => absurd hkind ?_⟩
  rintro hkind
  obtain rfl := honly hkind
  rw [hn] at hm
  obtain rfl := Option.some.inj hm
  exact hk hkind

theorem TidyWith.relabel (h : t.TidyWith current children) (g : Snapshot → Snapshot)
    {own : List Nat} (hn : t.node? i = some n) (hown : (n.relabel g).Tidy own)
    (honly : (n.relabel g).kind = .inProgress → i = current) :
    (t.modify i (Node.relabel g)).TidyWith current (Function.update children i own) := by
  intro j m hm
  rw [node?_modify] at hm
  by_cases hj : i = j
  · subst hj
    rw [if_pos rfl, hn, Option.map_some] at hm
    obtain rfl := Option.some.inj hm
    rw [Function.update_self]
    exact ⟨hown, honly⟩
  · rw [if_neg hj] at hm
    rw [Function.update_of_ne (Ne.symm hj)]
    exact h j m hm

theorem children_append (hl : t.Linked) (hp : parent < t.size) (kind : NodeKind) :
    (t.append parent kind).children =
      Function.update t.children parent (t.children parent ++ [t.size]) := by
  funext j
  rw [(hl.append hp kind).children, offspring_append, ← hl.children]
  by_cases hj : j = parent
  · subst hj
    rw [if_pos rfl, Function.update_self]
  · rw [if_neg hj, Function.update_of_ne hj]

theorem children_relabel (hl : t.Linked) (i : Nat) (g : Snapshot → Snapshot) :
    (t.modify i (Node.relabel g)).children = t.children := by
  funext j
  rw [(hl.relabel g i).children, offspring_relabel, ← hl.children]

theorem children_size (hl : t.Linked) : t.children t.size = [] :=
  List.eq_nil_iff_forall_not_mem.2 fun i hi => by
    obtain ⟨hlt, hsize⟩ := hl.lt_of_mem_children hi
    omega

theorem node?_append (h : (t.append parent kind).node? j = some n) :
    (j = t.size ∧ n.bare = leaf kind) ∨ ∃ m, t.node? j = some m ∧ n.bare = m.bare := by
  have hentry : (t.append parent kind).entries[j]? = some n.entry := by
    rw [getElem?_entries, h, Option.map_some]
  rw [entries_append] at hentry
  rcases Nat.lt_trichotomy j t.size with hj | rfl | hj
  · rw [List.getElem?_append_left (by rwa [length_entries]), getElem?_entries] at hentry
    obtain ⟨m, hm, he⟩ := Option.map_eq_some_iff.1 hentry
    exact .inr ⟨m, hm, (congrArg Prod.snd he).symm⟩
  · rw [← length_entries, List.getElem?_concat_length] at hentry
    exact .inl ⟨rfl, (congrArg Prod.snd (Option.some.inj hentry)).symm⟩
  · rw [node?_eq_none_iff.2 (by rw [size_append]; omega)] at h
    cases h

theorem TidyWith.append (hl : t.Linked) (hp : parent < t.size)
    (h : t.TidyWith current (Function.update t.children parent (t.children parent ++ [t.size])))
    (hkind : kind = .inProgress ∧ current = t.size ∨ kind = .text) :
    (t.append parent kind).TidyWith current (t.append parent kind).children := by
  rw [children_append hl hp]
  intro j n hn
  rcases node?_append hn with ⟨rfl, hbare⟩ | ⟨m, hm, hbare⟩
  · rw [Function.update_of_ne (Nat.ne_of_gt hp), children_size hl]
    refine ⟨Node.tidy_of_leaf (hkind.imp_left And.left) hbare, fun hk => ?_⟩
    rw [show n.kind = kind from congrArg Snapshot.kind hbare] at hk
    rcases hkind with ⟨-, rfl⟩ | rfl
    · rfl
    · cases hk
  · obtain ⟨htidy, honly⟩ := h j m hm
    refine ⟨htidy.of_bare hbare, fun hk => honly ?_⟩
    rw [← show n.kind = m.kind from congrArg Snapshot.kind hbare]
    exact hk

theorem TidyWith.concat (h : t.TidyWith current t.children) (hn : t.node? parent = some n)
    (hprogress : n.kind ≠ .inProgress) (htext : n.kind ≠ .text) (i : Nat) :
    t.TidyWith current (Function.update t.children parent (t.children parent ++ [i])) := by
  intro j m hm
  obtain ⟨htidy, honly⟩ := h j m hm
  refine ⟨?_, honly⟩
  by_cases hj : j = parent
  · subst hj
    rw [hn] at hm
    obtain rfl := Option.some.inj hm
    rw [Function.update_self]
    exact htidy.concat hprogress htext i
  · rw [Function.update_of_ne hj]
    exact htidy

theorem TidyWith.kind_parent (h : t.TidyWith current t.children) (hl : t.Linked)
    (hi : t.parent? i = some parent) : ∃ n, t.node? parent = some n ∧ n.kind ≠ .inProgress ∧
      n.kind ≠ .text := by
  have hmem : i ∈ t.children parent := hl.mem_children.2 hi
  have hlt : parent < t.size := by
    obtain ⟨hlt, hsize⟩ := hl.lt_of_mem_children hmem
    omega
  obtain ⟨n, hn⟩ := exists_node? hlt
  obtain ⟨htidy, -⟩ := h parent n hn
  refine ⟨n, hn, fun hk => ?_, fun hk => ?_⟩
  · rw [(htidy.allows hk).1] at hmem
    cases hmem
  · rw [(htidy.allows hk).1] at hmem
    cases hmem

end Tree

end Shorthand
