import Shorthand.Format.Standard
import Shorthand.Proofs.Markup.Writing
import Shorthand.Proofs.Tree.Growth

/-! # Formats and snapshots

The markup follows the links of a tree, and the other formats are written from its snapshot. For a
tree that has grown this comes to the same (`Markup.render_of_grown`): the markup is a matter of the
snapshot too, and where a node is kept and when it was made shows nowhere. -/

namespace Shorthand

namespace Markup

mutual
/-- The markup of a snapshot, written as that of a node of a tree is. -/
def ofSnapshot : Snapshot → String
  | ⟨kind, name, attributes, count, cs⟩ =>
    match kind with
    | .text => multiply name count
    | .inProgress => ""
    | .root | .group => multiply (ofSnapshots cs) count
    | .element =>
      multiply (element name attributes (if cs.isEmpty then none else some (ofSnapshots cs))) count
def ofSnapshots : List Snapshot → String
  | [] => ""
  | c :: cs => ofSnapshot c ++ ofSnapshots cs
end

mutual
theorem toList_ofSnapshot : ∀ s : Snapshot, (ofSnapshot s).toList = markup s
  | ⟨kind, name, attributes, count, cs⟩ => by
    have hcs := toList_ofSnapshots cs
    cases kind with
    | root => simp only [ofSnapshot, markup, template, toList_multiply, hcs]
    | inProgress => simp only [ofSnapshot, markup, template, copies_nil]; rfl
    | element =>
      simp only [ofSnapshot, markup, template, toList_multiply, toList_element]
      cases cs.isEmpty <;> simp [hcs]
    | text => simp only [ofSnapshot, markup, template, toList_multiply]
    | group => simp only [ofSnapshot, markup, template, toList_multiply, hcs]
theorem toList_ofSnapshots : ∀ cs : List Snapshot, (ofSnapshots cs).toList = markups cs
  | [] => rfl
  | c :: cs => by
    rw [ofSnapshots, markups, String.toList_append, toList_ofSnapshot c, toList_ofSnapshots cs]
    rfl
end

theorem render_eq_ofSnapshot {t : Tree} (h : t.Linked) :
    render t = ofSnapshot (Snapshot.ofTree t) := by
  rw [render_eq h, ← toList_ofSnapshot, String.ofList_toList]

/-- The markup of a tree that has grown is that of its snapshot, and all standard formats write
trees with the same snapshot alike, in whatever order their nodes were made. -/
theorem render_of_grown {t : Tree} (h : t.Grown) :
    render t = ofSnapshot (Snapshot.ofTree t) ∧
      ∀ t' : Tree, t'.Grown → Snapshot.ofTree t' = Snapshot.ofTree t →
        ∀ f ∈ Format.standard, f.write t' = f.write t := by
  have hrender := render_eq_ofSnapshot h.rooted.linked
  refine ⟨hrender, fun t' h' hsame f hf => ?_⟩
  have hrender' := render_eq_ofSnapshot h'.rooted.linked
  simp only [Format.standard, List.mem_cons, List.not_mem_nil, or_false] at hf
  rcases hf with rfl | rfl | rfl | rfl
  · simp only [Format.markup, hrender, hrender', hsame]
  · simp only [Format.treeviz, Outline.ofTree, hsame]
  · simp only [Format.json, hsame]
  · simp only [Format.yaml, hsame]

/-- The child of a text, which has a placeholder in it, is made before the sibling of the text or
behind it. -/
theorem render_of_nodes_reordered :
    let named (name : String) (s : Snapshot) : Snapshot := { s with name, count := 2 }
    let first : Tree := (Tree.empty.append Tree.root .text).modify 1 (Node.relabel (named "$"))
    let t := ((first.append 1 .root).append Tree.root .element).append 2 .inProgress
    let t' := ((first.append Tree.root .element).append 1 .root).append 3 .inProgress
    t ≠ t' ∧ t.Grown ∧ render t = ofSnapshot (Snapshot.ofTree t) ∧ t'.Grown ∧
      Snapshot.ofTree t' = Snapshot.ofTree t ∧ ∀ f ∈ Format.standard, f.write t' = f.write t := by
  intro named first t t'
  have hfirst : first.Grown := .edit (.append .empty (by decide) _) 1 _
  have h : t.Grown := .append (.append (.append hfirst (by decide) _) (by decide) _) (by decide) _
  have h' : t'.Grown := .append (.append (.append hfirst (by decide) _) (by decide) _) (by decide) _
  have hsame : Snapshot.ofTree t' = Snapshot.ofTree t := by decide +kernel
  obtain ⟨hrender, hwrite⟩ := render_of_grown h
  exact ⟨by decide +kernel, h, hrender, h', hsame, hwrite t' h' hsame⟩

end Markup
end Shorthand
