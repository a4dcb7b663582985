import Shorthand.Proofs.Tree.Containment

/-! # The nodes of a parsed tree

What can be relied on in the tree of an accepted text: its nodes are tidy (`node_of_parseTree`), they
are those of its snapshot (`exists_node_of_mem_preorder`), and the names of elements are words. The
name of a node that is no text is that of an event, or empty (`Tree.Named`), and the names that a text
gives have nothing in them that ends a word (`named_built`). -/

namespace Shorthand
open Grammar Shorthand.Derivation

namespace Tree
variable {t : Tree} {P : String → Prop}

/-- Whatever is no text has a name like this. -/
def Named (t : Tree) (P : String → Prop) : Prop :=
  ∀ i n, t.node? i = some n → n.kind ≠ .text → P n.name

theorem Named.append (h : t.Named P) (hempty : P "") (parent : Nat) (kind : NodeKind) :
    (t.append parent kind).Named P := by
  intro i n hn htext
  rcases node?_append hn with ⟨-, hbare⟩ | ⟨m, hm, hbare⟩
  · have hname : n.name = "" := congrArg Snapshot.name hbare
    rwa [hname]
  · have hname : n.name = m.name := congrArg Snapshot.name hbare
    have hkind : n.kind = m.kind := congrArg Snapshot.kind hbare
    rw [hkind] at htext
    rw [hname]
    exact h i m hm htext

/-- What a change makes of one node is all that has to be looked at. -/
theorem Named.relabel (h : t.Named P) {i : Nat} {f : Snapshot → Snapshot}
    (hf : ∀ n, t.node? i = some n → (n.relabel f).kind ≠ .text → P (n.relabel f).name) :
    (t.modify i (Node.relabel f)).Named P := by
  intro j n hn htext
  rw [node?_modify] at hn
  by_cases hij : i = j
  · subst hij
    rw [if_pos rfl] at hn
    obtain ⟨m, hm, rfl⟩ := Option.map_eq_some_iff.1 hn
    exact hf m hm htext
  · rw [if_neg hij] at hn
    exact h j n hn htext

end Tree

namespace TreeBuilder
variable {b : TreeBuilder} {P : String → Prop} {f : Snapshot → Snapshot}

/-- A change that leaves the name alone, and makes a text of nothing else. -/
theorem named_keep (h : b.tree.Named P)
    (hf : ∀ n, b.tree.node? b.current = some n → n.kind = .text → (n.relabel f).kind = .text)
    (hname : ∀ n : Node, (n.relabel f).name = n.name) :
    (b.modifyCurrent (Node.relabel f)).tree.Named P := by
  refine h.relabel fun n hn htext => ?_
  rw [hname]
  exact h _ n hn (mt (hf n hn) htext)

theorem named_element (h : b.tree.Named P) {name : String} (hname : P name) :
    (b.element name).tree.Named P := by
  rw [element]
  split
  · exact h.relabel (f := ({ · with kind := .element, name })) fun _ _ _ => hname
  · exact h

theorem named_addAttribute (h : b.tree.Named P) (name value : String) :
    (b.addAttribute name value).1.tree.Named P := by
  obtain ⟨b', hb', hput⟩ := b.addAttribute_cases name value
  have hresolved : b'.tree.Named P := by
    rcases hb' with rfl | ⟨hk, rfl⟩
    · exact h
    · refine named_keep h (fun n hn htext => ?_) fun _ => rfl
      rw [kind_of_isKind hk hn] at htext
      cases htext
  rcases hput with hput | hput
  · rwa [hput]
  · rw [hput]
    exact named_keep hresolved (fun _ _ hk => hk) fun _ => rfl

theorem named_text (h : b.tree.Named P) (hempty : P "") (content : String) :
    (b.text content).tree.Named P := by
  rw [text]
  split
  · next hk =>
    refine h.relabel (f := fun s => { s with name := s.name ++ content }) fun n hn htext => ?_
    exact absurd (kind_of_isKind hk hn) htext
  · split
    · exact h.relabel (f := fun s => { s with kind := .text, name := s.name ++ content })
        fun _ _ htext => absurd rfl htext
    · refine (h.append hempty _ _).relabel (f := ({ · with name := content })) fun n hn htext => ?_
      have hkind := Tree.kind?_append_size b.tree b.current .text
      rw [Tree.kind?, hn] at hkind
      exact absurd (Option.some.inj hkind) htext

theorem named_openGroup (h : b.tree.Named P) (hempty : P "") : b.openGroup.tree.Named P := by
  rw [openGroup]
  split
  · next hk =>
    refine Tree.Named.append (named_keep (f := ({ · with kind := .group })) h (fun n hn htext => ?_)
      fun _ => rfl) hempty _ _
    rw [kind_of_isKind hk hn] at htext
    cases htext
  · exact (h.append hempty _ _).append hempty _ _

theorem named_accept (h : b.tree.Named P) (hempty : P "") {e : Event}
    (he : ∀ name, e = .element name → P name) : (Builder.accept b e).1.tree.Named P := by
  cases e with
  | element name => exact named_element h (he name rfl)
  | id name => exact named_addAttribute h "id" name
  | className name => exact named_addAttribute h "class" name
  | «attribute» name value => exact named_addAttribute h name value
  | text content => exact named_text h hempty content
  | multiply count => exact named_keep (f := (·.withCount count)) h (fun _ _ hk => hk) fun _ => rfl
  | child =>
    show b.child.1.tree.Named P
    rw [child]
    split
    · exact h
    · exact h.append hempty _ _
  | sibling => exact h.append hempty _ _
  | climb levels =>
    rw [← b.ascend_tree levels] at h
    exact h.append hempty _ _
  | openGroup => exact named_openGroup h hempty
  | closeGroup =>
    show b.closeGroup.tree.Named P
    rwa [closeGroup_tree]

theorem named_feed {es : List Event} (h : b.tree.Named P) (hempty : P "")
    (hes : ∀ name, .element name ∈ es → P name) : (Builder.feed b es).1.tree.Named P := by
  induction es generalizing b with
  | nil => exact h
  | cons e es ih =>
    have haccept : (Builder.accept b e).1.tree.Named P :=
      named_accept h hempty fun name hname => hes name (hname ▸ List.mem_cons_self)
    rw [Builder.feed]
    split
    · next b' hb =>
      rw [hb] at haccept
      exact ih haccept fun name hname => hes name (List.mem_cons_of_mem e hname)
    · next b' cause hb =>
      rwa [hb] at haccept

end TreeBuilder

/-! ### Texts -/

namespace Derivation

/-- The name of an element is read off a word. -/
theorem word_mem_lexemes {name : String} :
    (∀ i : Item, .element name ∈ i.events → .word name ∈ i.lexemes) ∧
      ∀ a : Abbreviation, .element name ∈ a.events → .word name ∈ a.lexemes := by
  -- Names are told only of tags, where they are words.
  have hcount (count : Option Numeral) : .element name ∉ countEvents count := by
    cases count <;> simp [countEvents]
  have hattributes (ds : List Decoration) : .element name ∉ ds.flatMap Decoration.events := by
    intro h
    obtain ⟨d, -, hd⟩ := List.mem_flatMap.1 h
    cases d <;> simp [Decoration.events, Attr.event] at hd
  refine Derivation.induction ?element ?group ?single ?joined
  case element =>
    intro e count h
    rcases List.mem_append.1 h with h | h
    · rcases e with ⟨tag, ds, x⟩ | content
      · rw [Element.events, Tag.events, List.cons_append, List.mem_cons, List.mem_append] at h
        rcases h with h | h | h
        · cases h
          exact List.mem_cons_self
        · exact absurd h (hattributes ds)
        · cases x <;> simp [textEvents] at h
      · simp [Element.events] at h
    · exact absurd h (hcount count)
  case group =>
    intro inner count ih h
    have hinner : .element name ∈ inner.events := by
      simpa [Item.events, hcount] using h
    simp [Item.lexemes, ih hinner]
  case single => exact fun i ih h => ih h
  case joined =>
    intro i op rest ihi ihr h
    have hop : .element name ≠ op.event := by
      intro hop
      cases op <;> cases hop
    rw [Abbreviation.events, List.mem_append, List.mem_cons] at h
    rw [Abbreviation.lexemes, List.mem_append, List.mem_append]
    rcases h with h | h | h
    · exact .inl (.inl (ihi h))
    · exact absurd h hop
    · exact .inr (ihr h)

end Derivation

namespace Grammar

theorem isWritable_of_mem_opening {source name : String}
    (h : .element name ∈ (opening source).events) : (Lexeme.word name).isWritable := by
  obtain ⟨before, t, after, hstops⟩ := exists_stops source
  obtain ⟨-, a, ha⟩ := hstops.read
  exact hstops.writable ha _ (Derivation.word_mem_lexemes.2 a (ha.events.subset h))

end Grammar

/-- Nothing ends a word in the name of a node that is no text, whether the text is accepted or not. -/
theorem named_built (source : String) : (built (parse source TreeBuilder.start)).tree.Named
    fun name => ∀ c ∈ name.toList, endsWord c = false := by
  rw [built_parse]
  refine TreeBuilder.named_feed ?_ nofun fun name h => (isWritable_word (isWritable_of_mem_opening h)).2
  have hroot : Tree.empty.Named fun name => ∀ c ∈ name.toList, endsWord c = false := by
    intro i n hn _
    cases i with
    | zero => cases hn; nofun
    | succ i => cases hn
  exact hroot.append nofun _ _

section
variable {source : String} {t : Tree} {i : Nat} {n : Node}

theorem node_of_parseTree (h : parseTree source = .ok t) (hn : t.node? i = some n) :
    n.Tidy (t.children i) ∧ n.kind ≠ .inProgress := by
  obtain ⟨-, hstates, htree⟩ := tidy_throughout source
  obtain ⟨rfl, hkind⟩ := htree t h
  exact ⟨(hstates _ List.mem_cons_self).node i n hn, (hkind i n hn).1⟩

theorem name_of_parseTree (h : parseTree source = .ok t) (hn : t.node? i = some n)
    (hk : n.kind = .element) : ∀ c ∈ n.name.toList, endsWord c = false := by
  obtain ⟨hlatest, -, htree⟩ := tidy_throughout source
  obtain ⟨htree, -⟩ := htree t h
  have hnamed := named_built source
  rw [← hlatest, ← htree] at hnamed
  exact hnamed i n hn (by rw [hk]; nofun)

theorem layout_of_parseTree (h : parseTree source = .ok t) :
    t.Linked ∧ t.entries = Snapshot.layout none 0 (Snapshot.ofTree t) := by
  obtain ⟨-, b, z, -, -, hb, rfl⟩ := exists_represents h
  have hentries : b.tree.entries = Snapshot.layout none 0 z.root := by
    rw [hb.entries, Snapshot.spine_plug]
    rfl
  rw [hb.linked.ofTree_eq hentries]
  exact ⟨hb.linked, hentries⟩

theorem rooted_of_parseTree (h : parseTree source = .ok t) : t.Rooted := by
  obtain ⟨hl, hentries⟩ := layout_of_parseTree h
  have hentry {i : Nat} {n : Node} (hn : t.node? i = some n) :
      (Snapshot.layout none 0 (Snapshot.ofTree t))[i]? = some n.entry := by
    rw [← hentries, Tree.getElem?_entries, hn, Option.map_some]
  have hlt : Tree.root < t.size := Tree.size_of_layout hentries ▸ Snapshot.size_pos _
  refine ⟨hl, hlt, ?_, fun i hi hne => ?_⟩
  · obtain ⟨n, hn⟩ := Tree.exists_node? hlt
    have hroot := hentry hn
    rw [Snapshot.layout_eq] at hroot
    rw [Tree.parent?, hn]
    exact congrArg Prod.fst (Option.some.inj hroot).symm
  · obtain ⟨n, hn⟩ := Tree.exists_node? hi
    obtain ⟨k, rfl⟩ := Nat.exists_eq_succ_of_ne_zero hne
    have hbelow := hentry hn
    rw [Snapshot.layout_eq, List.getElem?_cons_succ] at hbelow
    rw [Tree.parent?, hn]
    rcases Snapshot.parent_layoutAll (List.mem_of_getElem? hbelow) with hp | ⟨p, hp, -⟩
    · exact ⟨0, hp⟩
    · exact ⟨p, hp⟩

/-- The nodes of the snapshot are those of the tree. -/
theorem exists_node_of_mem_preorder (h : parseTree source = .ok t) {e : Snapshot}
    (he : e ∈ (Snapshot.ofTree t).preorder) : ∃ i n, t.node? i = some n ∧ n.bare = e := by
  obtain ⟨hl, hentries⟩ := layout_of_parseTree h
  have hlt : Tree.root < t.size := Tree.size_of_layout hentries ▸ Snapshot.size_pos _
  have hmem : some e ∈ (Snapshot.ofTree t).preorder.map some := List.mem_map_of_mem he
  rw [Snapshot.ofTree, hl.preorder_ofNode (Nat.sub_le _ _) hlt] at hmem
  obtain ⟨i, -, hi⟩ := List.mem_map.1 hmem
  obtain ⟨n, hn, hbare⟩ := Option.map_eq_some_iff.1 hi
  exact ⟨i, n, hn, hbare⟩

end

end Shorthand
