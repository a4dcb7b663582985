import Shorthand.Proofs.Tree.Traces
import Shorthand.Proofs.Tree.Containment

/-! # Attributes behind a text

A node that has a text among its children should not get an attribute any more. The builder asks for
the first child only, and so an attribute is taken where a text stands behind another child. That is
the only way in which a node gets an attribute later than a text (`TreeBuilder.late_iff`). -/

namespace Shorthand

namespace Tree
variable {t t' t'' : Tree} {i j parent : Nat} {kind : NodeKind} {given : Nat → Prop}

def attributes? (t : Tree) (i : Nat) : Option (NameMap String) := (t.node? i).map (·.attributes)

/-- A text is among the children of `i`. -/
def HasText (t : Tree) (i : Nat) : Prop := ∃ c ∈ t.children i, t.kind? c = some .text

theorem Linked.hasText_iff (h : t.Linked) :
    t.HasText i ↔ ∃ c, t.parent? c = some i ∧ t.kind? c = some .text :=
  exists_congr fun _ => and_congr_left' h.mem_children

theorem Linked.lt_of_hasText (h : t.Linked) (hi : t.HasText i) : i < t.size := by
  obtain ⟨c, hc, -⟩ := hi
  obtain ⟨hlt, hsize⟩ := h.lt_of_mem_children hc
  exact hlt.trans hsize

/-- On the way from `t` to `t'` all texts stay texts, and no node but those of `given` gets an
attribute. -/
structure Kept (t t' : Tree) (given : Nat → Prop) : Prop where
  size : t.size ≤ t'.size
  text : ∀ i, t.kind? i = some .text → t'.kind? i = some .text
  attributes : ∀ i, i < t.size → ¬ given i → t'.attributes? i = t.attributes? i

namespace Kept

theorem refl (t : Tree) (given : Nat → Prop) : t.Kept t given :=
  ⟨Nat.le_refl _, fun _ h => h, fun _ _ _ => rfl⟩

theorem trans (h : t.Kept t' given) (h' : t'.Kept t'' given) : t.Kept t'' given where
  size := h.size.trans h'.size
  text i hi := h'.text i (h.text i hi)
  attributes i hi hnot := by
    rw [h'.attributes i (Nat.lt_of_lt_of_le hi h.size) hnot, h.attributes i hi hnot]

end Kept

theorem attributes?_entries (t : Tree) (i : Nat) :
    t.attributes? i = t.entries[i]?.map (·.2.attributes) := by
  rw [getElem?_entries, attributes?, Option.map_map]
  rfl

theorem attributes?_modify {f : Node → Node} (hf : i = j → ∀ n, (f n).attributes = n.attributes) :
    (t.modify i f).attributes? j = t.attributes? j := by
  rw [attributes?, node?_modify, attributes?]
  split
  · next hij =>
    rw [Option.map_map]
    exact congrArg (Option.map · _) (funext (hf hij))
  · rfl

theorem kept_append (t : Tree) (parent : Nat) (kind : NodeKind) (given : Nat → Prop) :
    t.Kept (t.append parent kind) given where
  size := by
    rw [size_append]
    exact Nat.le_succ _
  text i hi := by
    obtain ⟨n, hn, -⟩ := kind?_eq_some.1 hi
    rw [kind?_append_of_ne (Nat.ne_of_lt (Array.getElem?_eq_some_iff.1 hn).1), hi]
  attributes i hi _ := by
    rw [attributes?_entries, attributes?_entries, entries_append,
      List.getElem?_append_left (by rwa [length_entries])]

theorem kept_modify {f : Node → Node}
    (htext : ∀ n, t.node? i = some n → n.kind = .text → (f n).kind = .text)
    (hattributes : ¬ given i → ∀ n, (f n).attributes = n.attributes) :
    t.Kept (t.modify i f) given where
  size := Nat.le_of_eq (size_modify ..).symm
  text j hj := by
    obtain ⟨n, hn, hk⟩ := kind?_eq_some.1 hj
    rw [kind?, node?_modify]
    split
    · next hij =>
      subst hij
      rw [hn]
      exact congrArg some (htext n hn hk)
    · exact hj
  attributes j _ hnot := attributes?_modify fun hij => hattributes (hij ▸ hnot)

end Tree

namespace TreeBuilder
variable {b : TreeBuilder} {e : Event} {i : Nat} {name value : String} {given : Nat → Prop}

/-- A node in progress can become anything. -/
theorem kept_inProgress (hk : b.isKind b.current .inProgress) {f : Node → Node}
    (hf : ∀ n, (f n).attributes = n.attributes) :
    b.tree.Kept (b.modifyCurrent f).tree given := by
  refine Tree.kept_modify (fun n hn htext => ?_) fun _ => hf
  rw [kind_of_isKind hk hn] at htext
  cases htext

theorem kept_resolved (b : TreeBuilder) (given : Nat → Prop) :
    b.tree.Kept b.resolved.tree given := by
  rw [resolved]
  split
  · next hk => exact kept_inProgress hk fun _ => rfl
  · exact .refl _ _

theorem attributes?_resolved (b : TreeBuilder) (i : Nat) :
    b.resolved.tree.attributes? i = b.tree.attributes? i := by
  rw [resolved]
  split
  · exact Tree.attributes?_modify fun _ _ => rfl
  · rfl

theorem current_resolved (b : TreeBuilder) : b.resolved.current = b.current := by
  rw [resolved]
  split <;> rfl

/-- What is put at the current node is put nowhere else. -/
theorem kept_put (b : TreeBuilder) (name value : String) :
    b.tree.Kept (b.put name value).tree (· = b.current) :=
  Tree.kept_modify (fun _ _ hk => hk) fun hnot => absurd rfl hnot

theorem kept_element (b : TreeBuilder) (name : String) (given : Nat → Prop) :
    b.tree.Kept (b.element name).tree given := by
  rw [element]
  split
  · next hk => exact kept_inProgress hk fun _ => rfl
  · exact .refl _ _

theorem kept_text (b : TreeBuilder) (content : String) (given : Nat → Prop) :
    b.tree.Kept (b.text content).tree given := by
  rw [text]
  split
  · exact Tree.kept_modify (fun _ _ hk => hk) fun _ _ => rfl
  · split
    · next hk => exact kept_inProgress hk fun _ => rfl
    · exact (Tree.kept_append ..).trans (Tree.kept_modify (fun _ _ hk => hk) fun _ _ => rfl)

theorem kept_openGroup (b : TreeBuilder) (given : Nat → Prop) :
    b.tree.Kept b.openGroup.tree given := by
  rw [openGroup]
  split
  · next hk =>
    have hgroup : b.tree.Kept (b.modifyCurrent ({ · with kind := .group })).tree given :=
      kept_inProgress hk fun _ => rfl
    exact hgroup.trans (Tree.kept_append _ b.current .inProgress given)
  · exact (Tree.kept_append _ b.current .group given).trans
      (Tree.kept_append _ b.tree.size .inProgress given)

/-- An attribute of the current node, if it is not refused. -/
def Gives (b : TreeBuilder) (e : Event) : Prop :=
  e.given?.isSome ∧ (Builder.accept b e).2 = none

theorem kept_addAttribute (h : e.given? = some (name, value)) :
    b.tree.Kept (b.addAttribute name value).1.tree fun i => i = b.current ∧ b.Gives e := by
  have haccept := accept_of_given (b := b) h
  rw [Gives, haccept, h, addAttribute_eq]
  split
  · exact .refl _ _
  · split
    · exact b.kept_resolved _
    · have hput := b.resolved.kept_put name value
      rw [current_resolved] at hput
      refine (b.kept_resolved _).trans ⟨hput.size, hput.text, fun i hi hnot => ?_⟩
      exact hput.attributes i hi fun hcurrent => hnot ⟨hcurrent, rfl, rfl⟩

theorem kept_accept (b : TreeBuilder) (e : Event) :
    b.tree.Kept (Builder.accept b e).1.tree fun i => i = b.current ∧ b.Gives e := by
  cases e with
  | element name => exact b.kept_element name _
  | id name => exact kept_addAttribute rfl
  | className name => exact kept_addAttribute rfl
  | «attribute» name value => exact kept_addAttribute rfl
  | text content => exact b.kept_text content _
  | multiply count => exact Tree.kept_modify (fun _ _ hk => hk) fun _ _ => rfl
  | child =>
    show b.tree.Kept b.child.1.tree _
    rw [child]
    split
    · exact .refl _ _
    · exact Tree.kept_append ..
  | sibling => exact Tree.kept_append ..
  | climb levels =>
    have hsibling (given : Nat → Prop) : (b.ascend levels).tree.Kept (b.climb levels).tree given :=
      Tree.kept_append ..
    rw [ascend_tree] at hsibling
    exact hsibling _
  | openGroup => exact b.kept_openGroup _
  | closeGroup =>
    show b.tree.Kept b.closeGroup.tree _
    rw [closeGroup_tree]
    exact .refl _ _

/-- Once a node has a text, it has one for ever. -/
theorem hasText_run (hl : b.tree.Linked) {es : List Event}
    (hl' : (Builder.run b es).tree.Linked) (h : b.tree.HasText i) :
    (Builder.run b es).tree.HasText i := by
  obtain ⟨c, hparent, hk⟩ := hl.hasText_iff.1 h
  refine hl'.hasText_iff.2 ⟨c, (b.extends_run es).parent c i hparent, ?_⟩
  clear hl hl' h hparent
  induction es generalizing b with
  | nil => exact hk
  | cons e es ih => exact ih ((b.kept_accept e).text c hk)

/-! ### Late attributes -/

/-- An attribute of a node with a text that is not its first child. -/
def Overlooks (b : TreeBuilder) (e : Event) : Prop :=
  e.given?.isSome ∧ ¬ b.isKind b.current .text ∧ b.tree.HasText b.current ∧ ¬ b.startsWithText

theorem gives_iff (h : e.given?.isSome) :
    b.Gives e ↔ ¬ b.isKind b.current .text ∧ ¬ b.startsWithText := by
  obtain ⟨name, value, he⟩ := exists_given h
  rw [Gives, accept_of_given he, addAttribute_eq, and_iff_right h]
  split
  · next htext => simp [htext]
  · next htext =>
    split
    · next hstarts => simp [hstarts]
    · next hstarts => simp [htext, hstarts]

theorem overlooks_iff : b.Overlooks e ↔ b.Gives e ∧ b.tree.HasText b.current := by
  constructor
  · rintro ⟨hgiven, htext, hhas, hstarts⟩
    exact ⟨(gives_iff hgiven).2 ⟨htext, hstarts⟩, hhas⟩
  · rintro ⟨hgives, hhas⟩
    obtain ⟨htext, hstarts⟩ := (gives_iff hgives.1).1 hgives
    exact ⟨hgives.1, htext, hhas, hstarts⟩

theorem joinAttribute_ne (m : NameMap String) (name value : String) :
    joinAttribute m name value ≠ m := by
  intro h
  have hfind := congrArg (·.find? name) h
  simp only [joinAttribute, NameMap.find?_insert, if_true] at hfind
  cases hm : m.find? name with
  | none =>
    rw [hm] at hfind
    cases hfind
  | some former =>
    rw [hm] at hfind
    have hlength := congrArg String.length (Option.some.inj hfind)
    simp only [String.length_append] at hlength
    have hspace : " ".length = 1 := rfl
    omega

theorem attributes?_put_ne (hi : b.current < b.tree.size) (name value : String) :
    (b.put name value).tree.attributes? b.current ≠ b.tree.attributes? b.current := by
  obtain ⟨n, hn⟩ := Tree.exists_node? hi
  rw [put, modifyCurrent, Tree.attributes?, Tree.node?_modify, if_pos rfl, Tree.attributes?, hn]
  exact fun heq => joinAttribute_ne _ _ _ (Option.some.inj heq)

/-- What is given is there afterwards. -/
theorem Gives.attributes?_ne (h : b.Gives e) (hi : b.current < b.tree.size) :
    (Builder.accept b e).1.tree.attributes? b.current ≠ b.tree.attributes? b.current := by
  obtain ⟨name, value, he⟩ := exists_given h.1
  obtain ⟨htext, hstarts⟩ := (gives_iff h.1).1 h
  rw [accept_of_given he, addAttribute_eq, if_neg htext, if_neg hstarts]
  have hsize := (b.kept_resolved fun _ => False).size
  have hput := b.resolved.attributes?_put_ne (by rw [current_resolved]; omega) name value
  rwa [current_resolved, attributes?_resolved] at hput

/-- An attribute that does not overlook the text of a node is refused, and no attributes change. -/
theorem refused_of_not_overlooks (hgiven : e.given?.isSome) (htext : ¬ b.isKind b.current .text)
    (hhas : b.tree.HasText b.current) (hnot : ¬ b.Overlooks e) :
    (Builder.accept b e).2 = some .attributeBeforeText ∧
      ∀ i, (Builder.accept b e).1.tree.attributes? i = b.tree.attributes? i := by
  have hstarts : b.startsWithText := by
    by_contra hstarts
    exact hnot ⟨hgiven, htext, hhas, hstarts⟩
  obtain ⟨name, value, he⟩ := exists_given hgiven
  rw [accept_of_given he, addAttribute_eq, if_neg htext, if_pos hstarts]
  exact ⟨rfl, b.attributes?_resolved⟩

/-- A node with a text gets an attribute only by an event that overlooks the text. -/
theorem overlooks_of_ne (hi : i < b.tree.size) (hhas : b.tree.HasText i)
    (hne : (Builder.accept b e).1.tree.attributes? i ≠ b.tree.attributes? i) : b.Overlooks e := by
  by_contra hnot
  refine hne ((b.kept_accept e).attributes i hi ?_)
  rintro ⟨rfl, hgives⟩
  exact hnot (overlooks_iff.2 ⟨hgives, hhas⟩)

/-- Whatever a builder is told, a node with a text gets no attribute, except where a text that is not
the first child is overlooked. If the current node is no text, but has one, an attribute is refused and
leaves all attributes as they are, unless it overlooks the text; then it is taken. -/
theorem late_iff (es : List Event) :
    let b := Builder.run start es
    (∀ e, e.given?.isSome → ¬ b.isKind b.current .text → b.tree.HasText b.current →
      (¬ b.Overlooks e → (Builder.accept b e).2 = some .attributeBeforeText ∧
        ∀ i, (Builder.accept b e).1.tree.attributes? i = b.tree.attributes? i) ∧
      (b.Overlooks e → (Builder.accept b e).2 = none)) ∧
    ((∃ before between e after i, es = before ++ between ++ e :: after ∧
        (Builder.run start before).tree.HasText i ∧
        (Builder.run start (before ++ between ++ [e])).tree.attributes? i ≠
          (Builder.run start (before ++ between)).tree.attributes? i) ↔
      ∃ before e after, es = before ++ e :: after ∧ (Builder.run start before).Overlooks e) := by
  intro b
  have hlinked (es : List Event) : (Builder.run start es).tree.Linked :=
    (Represents.start.run .start es).1.linked
  refine ⟨fun e hgiven htext hhas =>
    ⟨refused_of_not_overlooks hgiven htext hhas, fun h => (overlooks_iff.1 h).1.2⟩, ?_, ?_⟩
  · rintro ⟨before, between, e, after, i, rfl, hhas, hne⟩
    have hrun : Builder.run start (before ++ between) = Builder.run (Builder.run start before) between :=
      List.foldl_append ..
    have hlater := hlinked (before ++ between)
    -- The text stays below the node, so the attribute that comes later finds it there.
    have hstill : (Builder.run start (before ++ between)).tree.HasText i := by
      rw [hrun] at hlater ⊢
      exact hasText_run (hlinked before) hlater hhas
    rw [Builder.run_concat] at hne
    exact ⟨before ++ between, e, after, rfl,
      overlooks_of_ne (hlater.lt_of_hasText hstill) hstill hne⟩
  · rintro ⟨before, e, after, rfl, hoverlooks⟩
    obtain ⟨hgives, hhas⟩ := overlooks_iff.1 hoverlooks
    refine ⟨before, [], e, after, (Builder.run start before).current, by simp, hhas, ?_⟩
    rw [List.append_nil, Builder.run_concat]
    exact hgives.attributes?_ne ((hlinked before).lt_of_hasText hhas)

/-- A text behind another child is overlooked, and the node gets an attribute after its text. -/
theorem attribute_behind_text :
    let b := Builder.run start [.element "a", .child, .element "b", .closeGroup, .text "t"]
    b.tree.kind? b.current = some .element ∧
    b.tree.children b.current = [2, 3] ∧ b.tree.kind? 3 = some .text ∧
    (Builder.accept b (.attribute "x" "y")).2 = none ∧
    b.tree.attributes? b.current = some .empty ∧
    (Builder.accept b (.attribute "x" "y")).1.tree.attributes? b.current =
      some (.ofList [("x", "y")]) := by
  decide +kernel

end TreeBuilder
end Shorthand
