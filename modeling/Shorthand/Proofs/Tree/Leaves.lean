import Mathlib.Data.List.Induction
import Shorthand.Proofs.Tree.Making
import Shorthand.Proofs.Tree.Order

/-! # Texts as leaves

A text takes no attributes and no children, and a builder refuses both when they are asked for. There
are two ways around that, neither of which is refused: a group opened at a text becomes its child, and
a place that was left with children can still become a text. Whatever a builder is told, its texts
have no attributes, and they have no children if and only if it was never told such a thing
(`TreeBuilder.leaves_iff`). -/

namespace Shorthand

/-- What is a text, or can become one, has no attributes. -/
def Node.Plain (n : Node) : Prop :=
  n.kind = .text ∨ n.kind = .inProgress → n.attributes = .empty

namespace Tree
variable {t t' t'' : Tree} {i j parent : Nat} {kind : NodeKind} {n : Node} {g : Snapshot → Snapshot}
  {P Q : Prop}

/-- No node that is a text, or can become one, has attributes. -/
def Plain (t : Tree) : Prop := ∀ i n, t.node? i = some n → n.Plain

/-- Some node is the child of a text. -/
def TextWithChild (t : Tree) : Prop := ∃ i p, t.parent? i = some p ∧ t.kind? p = some .text

/-- On the way from `t` to `t'` no text gets an attribute, and one gets a child only if `P` holds. -/
structure Grafted (t t' : Tree) (P : Prop) : Prop where
  plain : t.Plain → t'.Plain
  textWithChild : t'.TextWithChild ↔ t.TextWithChild ∨ P

namespace Grafted

theorem refl (t : Tree) : t.Grafted t False := ⟨fun h => h, by rw [or_false]⟩

theorem trans (h : t.Grafted t' P) (h' : t'.Grafted t'' Q) : t.Grafted t'' (P ∨ Q) where
  plain ht := h'.plain (h.plain ht)
  textWithChild := by rw [h'.textWithChild, h.textWithChild, or_assoc]

/-- The condition can be said in another way, and need not say what is so before. -/
theorem congr (h : t.Grafted t' P) (hPQ : P → t.TextWithChild ∨ Q) (hQP : Q → P) :
    t.Grafted t' Q where
  plain := h.plain
  textWithChild := by
    rw [h.textWithChild]
    constructor
    · rintro (ht | hP)
      · exact .inl ht
      · exact hPQ hP
    · exact Or.imp_right hQP

end Grafted

theorem kind?_eq_some : t.kind? i = some kind ↔ ∃ n, t.node? i = some n ∧ n.kind = kind :=
  Option.map_eq_some_iff

theorem kind?_entries (t : Tree) (i : Nat) : t.kind? i = t.entries[i]?.map (·.2.kind) := by
  rw [getElem?_entries, kind?, Option.map_map]
  rfl

theorem kind?_append_of_ne (h : i ≠ t.size) : (t.append parent kind).kind? i = t.kind? i := by
  rw [kind?_entries, kind?_entries, entries_append]
  rcases Nat.lt_or_gt_of_ne h with h | h
  · rw [List.getElem?_append_left (by rwa [length_entries])]
  · rw [List.getElem?_eq_none (by simp; omega), List.getElem?_eq_none (by simp; omega)]

theorem Linked.kind?_parent_append (h : t.Linked) {p : Nat} (hi : t.parent? i = some p) :
    (t.append parent kind).kind? p = t.kind? p := by
  have hlt := h.older i p hi
  have hsize := lt_size_of_parent? hi
  exact kind?_append_of_ne (by omega)

theorem grafted_append (hl : t.Linked) (hp : parent < t.size) (kind : NodeKind) :
    t.Grafted (t.append parent kind) (t.kind? parent = some .text) where
  plain ht i n hn := by
    rcases node?_append hn with ⟨-, hbare⟩ | ⟨m, hm, hbare⟩
    · intro _
      exact congrArg Snapshot.attributes hbare
    · show n.bare.kind = .text ∨ n.bare.kind = .inProgress → n.bare.attributes = .empty
      rw [hbare]
      exact ht i m hm
  textWithChild := by
    constructor
    · rintro ⟨i, p, hi, hk⟩
      rw [parent?_append] at hi
      split at hi
      · obtain rfl := Option.some.inj hi
        rw [kind?_append_of_ne (Nat.ne_of_lt hp)] at hk
        exact .inr hk
      · rw [hl.kind?_parent_append hi] at hk
        exact .inl ⟨i, p, hi, hk⟩
    · rintro (⟨i, p, hi, hk⟩ | hk)
      · refine ⟨i, p, ?_, ?_⟩
        · rw [parent?_append, if_neg (Nat.ne_of_lt (lt_size_of_parent? hi)), hi]
        · rw [hl.kind?_parent_append hi, hk]
      · refine ⟨t.size, parent, ?_, ?_⟩
        · rw [parent?_append, if_pos rfl]
        · rw [kind?_append_of_ne (Nat.ne_of_lt hp), hk]

theorem kind?_relabel (hn : t.node? i = some n) (j : Nat) :
    (t.modify i (Node.relabel g)).kind? j =
      if i = j then some (n.relabel g).kind else t.kind? j := by
  rw [kind?, node?_modify]
  split
  · next h =>
    subst h
    rw [hn]
    rfl
  · rfl

/-- A node may change what it is, but a text stays a text. -/
theorem grafted_relabel (hn : t.node? i = some n) (hplain : n.Plain → (n.relabel g).Plain)
    (htext : n.kind = .text → (n.relabel g).kind = .text) :
    t.Grafted (t.modify i (Node.relabel g))
      ((n.relabel g).kind = .text ∧ ∃ j, t.parent? j = some i) where
  plain ht j m hm := by
    rw [node?_modify] at hm
    split at hm
    · next h =>
      subst h
      rw [hn] at hm
      obtain rfl := Option.some.inj hm
      exact hplain (ht _ n hn)
    · exact ht j m hm
  textWithChild := by
    constructor
    · rintro ⟨j, p, hj, hk⟩
      rw [parent?_relabel] at hj
      rw [kind?_relabel hn] at hk
      split at hk
      · next h =>
        subst h
        exact .inr ⟨Option.some.inj hk, j, hj⟩
      · exact .inl ⟨j, p, hj, hk⟩
    · rintro (⟨j, p, hj, hk⟩ | ⟨hk, j, hj⟩)
      · refine ⟨j, p, ?_, ?_⟩
        · rw [parent?_relabel, hj]
        · rw [kind?_relabel hn]
          split
          · next h =>
            subst h
            -- A text that is relabelled stays one, so its child is still the child of a text.
            obtain ⟨m, hm, hkind⟩ := kind?_eq_some.1 hk
            rw [hn] at hm
            obtain rfl := Option.some.inj hm
            rw [htext hkind]
          · exact hk
      · refine ⟨j, i, ?_, ?_⟩
        · rw [parent?_relabel, hj]
        · rw [kind?_relabel hn, if_pos rfl, hk]

theorem grafted_relabel_other (hn : t.node? i = some n) (hplain : n.Plain → (n.relabel g).Plain)
    (htext : (n.relabel g).kind = .text ↔ n.kind = .text) :
    t.Grafted (t.modify i (Node.relabel g)) False := by
  refine (grafted_relabel hn hplain htext.2).congr ?_ False.elim
  rintro ⟨hk, j, hj⟩
  exact .inl ⟨j, i, hj, kind?_eq_some.2 ⟨n, hn, htext.1 hk⟩⟩

end Tree

/-! ### Events -/

namespace TreeBuilder

/-- An event that gives a child to a text, or makes a text of a place that has children. -/
def Grafts (b : TreeBuilder) : Event → Prop
  | .openGroup => b.isKind b.current .text
  | .text _ => b.isKind b.current .inProgress ∧ b.tree.hasChildren b.current
  | _ => False

end TreeBuilder

namespace Represents
variable {b : TreeBuilder} {z : Zipper}

theorem kind? (h : Represents b z) : b.tree.kind? b.current = some z.node.kind := by
  obtain ⟨n, hn, -, hbare⟩ := h.node?
  exact Tree.kind?_eq_some.2 ⟨n, hn, congrArg Snapshot.kind hbare⟩

theorem isKind_iff (h : Represents b z) (kind : NodeKind) :
    b.isKind b.current kind = true ↔ z.node.kind = kind := by
  rw [h.isKind, beq_iff_eq]

/-- What is done to the current node while it does not become a text. -/
theorem grafted_change (h : Represents b z) (g : Snapshot → Snapshot)
    (hg : ∀ n : Node, n.kind = z.node.kind →
      (n.Plain → (n.relabel g).Plain) ∧ ((n.relabel g).kind = .text ↔ n.kind = .text)) :
    b.tree.Grafted (b.modifyCurrent (Node.relabel g)).tree False := by
  obtain ⟨n, hn, -, hbare⟩ := h.node?
  obtain ⟨hplain, htext⟩ := hg n (congrArg Snapshot.kind hbare)
  exact Tree.grafted_relabel_other hn hplain htext

theorem grafted_append (h : Represents b z) (kind : NodeKind) :
    b.tree.Grafted (b.tree.append b.current kind) (z.node.kind = .text) := by
  refine (Tree.grafted_append h.linked h.current_lt kind).congr ?_ ?_
  · rw [h.kind?]
    exact fun hk => .inr (Option.some.inj hk)
  · rw [h.kind?]
    exact congrArg some

/-- A node in progress becomes an element or a group. -/
theorem grafted_resolve (h : Represents b z) (hz : z.node.kind = .inProgress) (kind : NodeKind)
    (hkind : ¬ (kind = .text ∨ kind = .inProgress)) {g : Snapshot → Snapshot}
    (hg : ∀ s, (g s).kind = kind) :
    b.tree.Grafted (b.modifyCurrent (Node.relabel g)).tree False := by
  refine h.grafted_change g fun n hn => ?_
  have hk : (n.relabel g).kind = kind := hg n.bare
  refine ⟨fun _ hor => ?_, fun htext => ?_, fun htext => ?_⟩
  · rw [hk] at hor
    exact absurd hor hkind
  · rw [hk] at htext
    exact absurd (.inl htext) hkind
  · rw [hn, hz] at htext
    cases htext

theorem grafted_element (h : Represents b z) (name : String) :
    b.tree.Grafted (b.element name).tree False := by
  rw [TreeBuilder.element]
  split
  · next hk =>
    exact h.grafted_resolve ((h.isKind_iff _).1 hk) .element (by decide)
      (g := ({ · with kind := .element, name })) fun _ => rfl
  · exact .refl _

theorem grafted_putAttribute (h : Represents b z)
    (hz : ¬ (z.node.kind = .text ∨ z.node.kind = .inProgress)) (name value : String) :
    b.tree.Grafted (if (b.tree.firstChild? b.current).any (b.isKind · .text) then
      (b, some .attributeBeforeText)
      else (b.modifyCurrent fun n =>
        { n with attributes := TreeBuilder.joinAttribute n.attributes name value }, none) :
      TreeBuilder × Option BuildError).1.tree False := by
  split
  · exact .refl _
  · refine h.grafted_change (fun s =>
      { s with attributes := TreeBuilder.joinAttribute s.attributes name value }) fun n hn => ?_
    refine ⟨fun _ hor => ?_, Iff.rfl⟩
    have hkind : n.kind = .text ∨ n.kind = .inProgress := hor
    rw [hn] at hkind
    exact absurd hkind hz

theorem grafted_addAttribute (h : Represents b z) (name value : String) :
    b.tree.Grafted (b.addAttribute name value).1.tree False := by
  rw [TreeBuilder.addAttribute, h.isKind, h.isKind]
  simp only [beq_iff_eq]
  by_cases htext : z.node.kind = .text
  · rw [if_pos htext]
    exact .refl _
  · rw [if_neg htext]
    by_cases hk : z.node.kind = .inProgress
    · rw [if_pos hk]
      have hresolve := h.grafted_resolve hk .element (by decide)
        (g := ({ · with kind := .element })) fun _ => rfl
      have hchange := h.change ({ · with kind := .element }) (fun _ => rfl) fun _ => rfl
      have helement : ¬ (NodeKind.element = .text ∨ NodeKind.element = .inProgress) := by decide
      have hput := hchange.grafted_putAttribute helement name value
      exact (hresolve.trans hput).congr (fun hor => .inr (hor.elim id id)) .inl
    · rw [if_neg hk]
      exact h.grafted_putAttribute (not_or.2 ⟨htext, hk⟩) name value

theorem grafted_text (h : Represents b z) (content : String) :
    b.tree.Grafted (b.text content).tree (b.Grafts (.text content)) := by
  have hgrafts : b.Grafts (.text content) ↔
      z.node.kind = .inProgress ∧ ∃ j, b.tree.parent? j = some b.current := by
    rw [TreeBuilder.Grafts, h.isKind_iff, h.linked.hasChildren]
    refine and_congr_right fun _ => ?_
    rw [Bool.not_eq_true', List.isEmpty_eq_false_iff_exists_mem]
    exact exists_congr fun j => Tree.mem_offspring
  rw [TreeBuilder.text, h.isKind, h.isKind]
  simp only [beq_iff_eq]
  by_cases htext : z.node.kind = .text
  · rw [if_pos htext]
    have hchange := h.grafted_change (fun s => { s with name := s.name ++ content })
      fun n _ => ⟨fun hn => hn, Iff.rfl⟩
    refine hchange.congr False.elim fun hg => ?_
    rw [hgrafts, htext] at hg
    cases hg.1
  · rw [if_neg htext]
    by_cases hk : z.node.kind = .inProgress
    -- A place becomes the text itself; what it has below it becomes the children of a text.
    · rw [if_pos hk]
      obtain ⟨n, hn, -, hbare⟩ := h.node?
      have hkind : n.kind = .inProgress := (congrArg Snapshot.kind hbare).trans hk
      have hrelabel := Tree.grafted_relabel hn
        (g := fun s => { s with kind := .text, name := s.name ++ content })
        (fun hn _ => hn (.inr hkind)) fun _ => rfl
      exact hrelabel.congr (fun hj => .inr (hgrafts.2 ⟨hk, hj.2⟩)) fun hg => ⟨rfl, (hgrafts.1 hg).2⟩
    -- Any other node gets a new child, which is the text and has nothing below it.
    · rw [if_neg hk]
      have hname := (h.descend .text).grafted_change ({ · with name := content })
        fun n _ => ⟨fun hn => hn, Iff.rfl⟩
      refine ((h.grafted_append .text).trans hname).congr ?_ fun hg => ?_
      · rintro (he | hf)
        · exact absurd he htext
        · exact hf.elim
      · exact absurd (hgrafts.1 hg).1 hk

theorem grafted_child (h : Represents b z) : b.tree.Grafted b.child.1.tree False := by
  rw [TreeBuilder.child]
  split
  · exact .refl _
  · next hk =>
    refine (h.grafted_append .inProgress).congr (fun htext => ?_) False.elim
    exact absurd ((h.isKind_iff _).2 htext) hk

/-- Below a parent that is a text there is a child already. -/
theorem grafted_sibling (h : Represents b z) (hz : z.Seated) :
    b.tree.Grafted b.sibling.tree False := by
  obtain ⟨s, above⟩ := z
  cases above with
  | nil => exact absurd rfl hz.above.ne_nil
  | cons a above =>
    have hparent : b.tree.parent? b.current = some (Snapshot.sizeAll above) := h.parent?
    have hlt := h.linked.older _ _ hparent
    rw [TreeBuilder.sibling, hparent]
    refine (Tree.grafted_append h.linked (hlt.trans h.current_lt) .inProgress).congr ?_ False.elim
    exact fun hk => .inl ⟨_, _, hparent, hk⟩

theorem grafted_climb (h : Represents b z) (hz : z.Seated) (levels : Nat) :
    b.tree.Grafted (b.climb levels).tree False := by
  have hsibling := (h.ascend levels).grafted_sibling (hz.ascend levels)
  rwa [TreeBuilder.ascend_tree] at hsibling

theorem grafted_openGroup (h : Represents b z) :
    b.tree.Grafted b.openGroup.tree (b.Grafts .openGroup) := by
  have hgrafts : b.Grafts .openGroup ↔ z.node.kind = .text := h.isKind_iff .text
  rw [TreeBuilder.openGroup, h.isKind]
  simp only [beq_iff_eq]
  by_cases hk : z.node.kind = .inProgress
  · rw [if_pos hk]
    have hresolve := h.grafted_resolve hk .group (by decide) (g := ({ · with kind := .group }))
      fun _ => rfl
    have hchange := h.change ({ · with kind := .group }) (fun _ => rfl) fun _ => rfl
    refine (hresolve.trans (hchange.grafted_append .inProgress)).congr ?_ fun hg => ?_
    · rintro (hf | hgroup)
      · exact hf.elim
      · cases hgroup
    · rw [hgrafts, hk] at hg
      cases hg
  · rw [if_neg hk]
    refine ((h.grafted_append .group).trans ((h.descend .group).grafted_append .inProgress)).congr
      ?_ fun hg => .inl (hgrafts.1 hg)
    rintro (htext | hgroup)
    · exact .inr (hgrafts.2 htext)
    · cases hgroup

/-- What an event does to the texts of a tree, whether it is refused or not. -/
theorem grafted_accept (h : Represents b z) (hz : z.Seated) (e : Event) :
    b.tree.Grafted (Builder.accept b e).1.tree (b.Grafts e) := by
  cases e with
  | element name => exact h.grafted_element name
  | id name => exact h.grafted_addAttribute "id" name
  | className name => exact h.grafted_addAttribute "class" name
  | «attribute» name value => exact h.grafted_addAttribute name value
  | text content => exact h.grafted_text content
  | multiply count =>
    exact h.grafted_change (·.withCount count) fun n _ => ⟨fun hn => hn, Iff.rfl⟩
  | child => exact h.grafted_child
  | sibling => exact h.grafted_sibling hz
  | climb levels => exact h.grafted_climb hz levels
  | openGroup => exact h.grafted_openGroup
  | closeGroup =>
    show b.tree.Grafted b.closeGroup.tree False
    rw [TreeBuilder.closeGroup_tree]
    exact .refl _

end Represents

namespace Tree
variable {t : Tree}

theorem Linked.textWithChild_iff (h : t.Linked) :
    t.TextWithChild ↔ ∃ i, t.kind? i = some .text ∧ t.children i ≠ [] := by
  constructor
  · rintro ⟨i, p, hi, hk⟩
    exact ⟨p, hk, List.ne_nil_of_mem (h.mem_children.2 hi)⟩
  · rintro ⟨p, hk, hne⟩
    obtain ⟨i, hi⟩ := List.exists_mem_of_ne_nil _ hne
    exact ⟨i, p, h.mem_children.1 hi, hk⟩

end Tree

namespace TreeBuilder
variable {b : TreeBuilder}

theorem plain_start : start.tree.Plain := by
  intro i n hn
  match i with
  | 0 | 1 =>
    cases hn
    exact fun _ => rfl
  | i + 2 => cases hn

theorem not_textWithChild_start : ¬ start.tree.TextWithChild := by
  rintro ⟨i, p, hi, hk⟩
  match p with
  | 0 | 1 => cases hk
  | p + 2 => cases hk

/-- With one more event, it is that event or one of those before that does it. -/
theorem exists_grafts_concat {es : List Event} {e : Event} :
    (∃ pre e' post, es ++ [e] = pre ++ e' :: post ∧ (Builder.run start pre).Grafts e') ↔
      (∃ pre e' post, es = pre ++ e' :: post ∧ (Builder.run start pre).Grafts e') ∨
        (Builder.run start es).Grafts e := by
  constructor
  · rintro ⟨pre, e', post, he, hg⟩
    rcases List.eq_nil_or_concat post with rfl | ⟨post, e'', rfl⟩
    · obtain ⟨rfl, hlast⟩ := List.append_inj' he rfl
      rw [(List.cons.inj hlast).1]
      exact .inr hg
    · have he' : es ++ [e] = (pre ++ e' :: post) ++ [e''] := by simpa using he
      exact .inl ⟨pre, e', post, (List.append_inj' he' rfl).1, hg⟩
  · rintro (⟨pre, e', post, rfl, hg⟩ | hg)
    · exact ⟨pre, e', post ++ [e], by simp, hg⟩
    · exact ⟨es, e, [], rfl, hg⟩

/-- In the tree after a list of events nothing that is or can become a text has attributes, and the
texts have children if and only if one of the events has given them some. -/
theorem grafted_run (es : List Event) : (Builder.run start es).tree.Plain ∧
    ((Builder.run start es).tree.TextWithChild ↔
      ∃ pre e post, es = pre ++ e :: post ∧ (Builder.run start pre).Grafts e) := by
  induction es using List.reverseRecOn with
  | nil =>
    refine ⟨plain_start, fun h => absurd h not_textWithChild_start, ?_⟩
    rintro ⟨pre, e, post, he, -⟩
    simp at he
  | append_singleton es e ih =>
    obtain ⟨hplain, htext⟩ := ih
    obtain ⟨h, hz⟩ := Represents.start.run .start es
    have hgrafted := h.grafted_accept hz e
    rw [Builder.run_concat]
    refine ⟨hgrafted.plain hplain, ?_⟩
    rw [hgrafted.textWithChild, htext, exists_grafts_concat]

/-- Texts have no attributes, and no children either unless a group was opened at a text or a place
with children was made one. Those two are never refused, in contrast to the attributes and the children
that are asked of a text. -/
theorem leaves_iff (es : List Event) :
    let b := Builder.run start es
    (∀ i n, b.tree.node? i = some n → n.kind = .text → n.attributes = .empty) ∧
    ((∀ i, b.tree.kind? i = some .text → b.tree.children i = []) ↔
      ∀ pre e post, es = pre ++ e :: post → ¬ (Builder.run start pre).Grafts e) ∧
    (∀ e, b.Grafts e → (Builder.accept b e).2 = none) ∧
    (b.isKind b.current .text → Builder.accept b .child = (b, some .childOfText) ∧
      ∀ name value,
        Builder.accept b (.id name) = (b, some .attributeOfText) ∧
        Builder.accept b (.className name) = (b, some .attributeOfText) ∧
        Builder.accept b (.attribute name value) = (b, some .attributeOfText)) := by
  intro b
  obtain ⟨hplain, htext⟩ := grafted_run es
  obtain ⟨h, -⟩ := Represents.start.run .start es
  rw [h.linked.textWithChild_iff] at htext
  refine ⟨fun i n hn hk => hplain i n hn (.inl hk), ?_, fun e hg => ?_, fun hk => ?_⟩
  -- Denied on both sides: some text has a child just if some event gave it one.
  · rw [← not_iff_not]
    push Not
    exact htext
  · cases e with
    | openGroup => rfl
    | text => rfl
    | _ => exact hg.elim
  · have hattribute (name value : String) : b.addAttribute name value =
        (b, some .attributeOfText) := if_pos hk
    exact ⟨if_pos hk, fun name value =>
      ⟨hattribute "id" name, hattribute "class" name, hattribute name value⟩⟩

/-- A group below a text, and a text around the place that was opened below it. -/
theorem child_below_text :
    (Builder.run start [.text "t", .openGroup]).tree.kind? 1 = some .text ∧
    (Builder.run start [.text "t", .openGroup]).tree.children 1 = [2] ∧
    (Builder.run start [.child, .closeGroup, .text "t"]).tree.kind? 1 = some .text ∧
    (Builder.run start [.child, .closeGroup, .text "t"]).tree.children 1 = [2] := by
  decide +kernel

end TreeBuilder
end Shorthand
