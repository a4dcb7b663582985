import Shorthand.Proofs.Tree.Walks

/-! # The nodes of a tree that has grown

Nothing is lost and nothing comes twice in a tree that has grown, wherever nodes were appended and
whatever they were made into (`arena_of_grown`). Only the markup leaves nodes out, those below a text
or a node in progress (`unseen_below_text`). -/

namespace Shorthand.Tree
variable {t : Tree}

/-- The links, the walks and the paths of a tree fit together. -/
structure Arena (t : Tree) : Prop where
  orphan : ∀ i, i < t.size → (t.parent? i = none ↔ i = root)
  older : ∀ i p, t.parent? i = some p → p < i
  /-- The links to the next sibling list the children of a node, and end. -/
  chain : ∀ p, t.Chain (t.firstChild? p) (t.children p)
  ascending : ∀ p, (t.children p).Pairwise (· < ·)
  child : ∀ p i, i ∈ t.children p ↔ t.parent? i = some p
  neighbours : ∀ i j, t.nextSibling? i = some j ↔ t.prevSibling? j = some i
  ends : ∀ p, t.firstChild? p = (t.children p).head? ∧ t.lastChild? p = (t.children p).getLast?
  /-- The walk of the snapshot comes to every node once. -/
  visited : (t.visits (fun _ => true) t.size root).Perm (List.range t.size)
  snapshot : (Snapshot.ofTree t).preorder.map some =
    (t.visits (fun _ => true) t.size root).map fun i => (t.node? i).map Node.bare
  /-- The walk of the markup comes once to every node that is not below one whose children it does
  not show. -/
  markup : ∃ log, Markup.logged t t.size root = (log, Markup.render t) ∧ log.Nodup ∧
    ∀ i, i ∈ log ↔ i < t.size ∧ ∀ a, t.Above a i → (t.kind? a).any Markup.shows
  path : ∀ i, i < t.size → ∃! path, t.atPath path = some i
  node : ∀ path i, t.atPath path = some i → i < t.size
  /-- The same paths lead somewhere in the snapshot, and to the snapshot of the same node. -/
  subtree : ∀ path, (Snapshot.ofTree t).at? path =
    (t.atPath path).map (Snapshot.ofNode t t.size)

theorem arena_of_grown (h : t.Grown) : t.Arena := by
  have hr := h.rooted
  have hl := hr.linked
  constructor
  case orphan =>
    intro i hi
    constructor
    -- Only the root has no parent, because every other node was appended below one.
    · intro hnone
      by_contra hne
      obtain ⟨p, hp⟩ := hr.parent_other i hi hne
      rw [hnone] at hp
      cases hp
    · rintro rfl
      exact hr.parent_root
  case older => exact hl.older
  case chain =>
    intro p
    rw [hl.first, hl.children]
    exact hl.chain (List.nil_append _).symm
  case ascending =>
    intro p
    rw [hl.children]
    exact pairwise_offspring t p
  case child => exact fun p i => hl.mem_children
  case neighbours => exact fun i j => hl.nextSibling?_iff
  case ends =>
    intro p
    rw [hl.children]
    exact ⟨hl.first p, hl.last p⟩
  case visited => exact hr.visits_perm
  case snapshot => exact hl.preorder_ofNode (Nat.sub_le _ _) hr.root_lt
  case markup =>
    exact ⟨_, Markup.logged_eq t t.size root, hl.nodup_visits _ _, fun i => hr.mem_visits_iff⟩
  case path => exact fun i hi => hr.existsUnique_path hi
  case node => exact fun path i hi => hr.lt_of_atPath hi
  case subtree => exact fun path => hl.at?_ofNode path (Nat.sub_le _ _) hr.root_lt

/-- A child of an element whose elder sibling is a text, appended last. -/
theorem path_to_last_node :
    let t := ((empty.append root .element).append root .text).append 1 .text
    t.Grown ∧ ∃! path, t.atPath path = some 3 := by
  intro t
  have h : t.Grown := .append (.append (.append .empty (by decide) _) (by decide) _) (by decide) _
  exact ⟨h, (arena_of_grown h).path 3 (by decide)⟩

/-- An element below a text is in the tree, and the markup never comes to it. -/
theorem unseen_below_text :
    let t := (empty.append root .text).append 1 .element
    t.Grown ∧ (Markup.logged t t.size root).2 = Markup.render t ∧
      ¬ (Markup.logged t t.size root).1.Perm (List.range t.size) := by
  intro t
  have hlog : (Markup.logged t t.size root).1 = [0, 1] := by decide +kernel
  refine ⟨.append (.append .empty (by decide) _) (by decide) _, ?_, ?_⟩
  · rw [Markup.logged_eq]
    rfl
  · rw [hlog]
    intro h
    exact absurd h.length_eq (by decide)

end Shorthand.Tree
