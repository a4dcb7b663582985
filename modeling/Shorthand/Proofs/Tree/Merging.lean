import Mathlib.Data.List.Sort
import Shorthand.Markup.Render
import Shorthand.Proofs.Text.Bytes
import Shorthand.Proofs.Tree.Traces

/-! # Attributes that are merged

The values that are given for one name are joined in the order in which they come, behind the value
that was there before (`find?_merged`). Since a map is what is found in it (`NameMap.ext_find?`),
attributes with different names can be given in any order (`TreeBuilder.attributes_joined`). -/

namespace Shorthand

namespace NameMap
variable {α : Type} {m m' : NameMap α} {name : String} {value : α}

theorem mem_entries_iff : (name, value) ∈ m.entries ↔ m.find? name = some value := by
  rw [find?, List.lookup_eq_some_iff]
  constructor
  · intro hmem
    obtain ⟨before, after, heq⟩ := List.append_of_mem hmem
    refine ⟨before, after, heq, fun e he => ?_⟩
    have hascending := m.ascending
    rw [heq, List.pairwise_append] at hascending
    have hlt : e.1 < name := hascending.2.2 e he _ List.mem_cons_self
    rw [bne_iff_ne]
    rintro rfl
    exact String.lt_irrefl _ hlt
  · rintro ⟨before, after, heq, -⟩
    rw [heq]
    exact List.mem_append_right _ List.mem_cons_self

theorem ext_find? (h : ∀ name, m.find? name = m'.find? name) : m = m' := by
  have hasymm : Std.Asymm fun e e' : String × α => e.1 < e'.1 := ⟨fun _ _ => String.lt_asymm⟩
  refine NameMap.ext (m.ascending.eq_of_mem_iff m'.ascending fun ⟨name, value⟩ => ?_)
  rw [mem_entries_iff, mem_entries_iff, h]

/-- The names are in the order of their bytes. -/
theorem pairwise_bytes (m : NameMap α) :
    m.entries.Pairwise fun e e' => Text.bytes e.1 < Text.bytes e'.1 :=
  m.ascending.imp Text.bytes_lt_bytes

end NameMap

/-- One value for all that are given; none, if none is given. -/
def joined (values : List String) : Option String :=
  if values = [] then none else some (" ".intercalate values)

theorem joined_of_ne_nil {values : List String} (h : values ≠ []) :
    joined values = some (" ".intercalate values) := if_neg h

theorem joined_toList (former : Option String) : joined former.toList = former := by
  cases former with
  | none => rfl
  | some former =>
    rw [Option.toList_some, joined_of_ne_nil (List.cons_ne_nil _ _), String.intercalate_singleton]

/-- Some of the values can be joined before. -/
theorem joined_joined_append (values others : List String) :
    joined ((joined values).toList ++ others) = joined (values ++ others) := by
  by_cases hvalues : values = []
  · subst hvalues
    rfl
  · by_cases hothers : others = []
    · subst hothers
      rw [List.append_nil, List.append_nil, joined_toList]
    · have hone : [" ".intercalate values] ≠ [] := List.cons_ne_nil _ _
      rw [joined_of_ne_nil hvalues, Option.toList_some, joined_of_ne_nil (by simp),
        joined_of_ne_nil (by simp [hvalues]), String.intercalate_append_of_ne_nil hone hothers,
        String.intercalate_append_of_ne_nil hvalues hothers, String.intercalate_singleton]

namespace Event

/-- Whether an event gives an attribute of that name. -/
def isFor (name : String) (e : Event) : Bool := e.given?.any (·.1 == name)

/-- The values that a list of events gives for a name. -/
def valuesFor (name : String) (es : List Event) : List String :=
  (es.filter (·.isFor name)).filterMap fun e => e.given?.map (·.2)

theorem valuesFor_cons (name : String) (e : Event) (es : List Event) :
    valuesFor name (e :: es) = valuesFor name [e] ++ valuesFor name es := by
  rw [valuesFor, ← List.singleton_append, List.filter_append, List.filterMap_append]
  rfl

theorem valuesFor_singleton {name : String} {e : Event} {given : String × String}
    (h : e.given? = some given) :
    valuesFor name [e] = if name = given.1 then [given.2] else [] := by
  have hfor : e.isFor name = (given.1 == name) := by rw [isFor, h, Option.any_some]
  rw [valuesFor]
  by_cases hname : name = given.1
  · have htrue : e.isFor name = true := by rw [hfor, hname, beq_self_eq_true]
    rw [List.filter_cons_of_pos htrue, List.filterMap_cons, h, if_pos hname]
    rfl
  · have hfalse : ¬ e.isFor name = true := by
      rw [hfor, beq_iff_eq]
      exact Ne.symm hname
    rw [List.filter_cons_of_neg hfalse, if_neg hname]
    rfl

/-- The attributes after those that the events give. -/
def merged (m : NameMap String) (es : List Event) : NameMap String :=
  (es.filterMap given?).foldl (fun m given => TreeBuilder.joinAttribute m given.1 given.2) m

theorem merged_cons {e : Event} {given : String × String} (h : e.given? = some given)
    (m : NameMap String) (es : List Event) :
    merged m (e :: es) = merged (TreeBuilder.joinAttribute m given.1 given.2) es := by
  rw [merged, List.filterMap_cons, h, List.foldl_cons]
  rfl

end Event
open Event (valuesFor merged)

theorem find?_joinAttribute (m : NameMap String) (name other value : String) :
    (TreeBuilder.joinAttribute m name value).find? other =
      joined ((m.find? other).toList ++ if other = name then [value] else []) := by
  rw [TreeBuilder.joinAttribute, NameMap.find?_insert]
  split
  · next hname =>
    subst hname
    cases m.find? other with
    | none => rw [Option.toList_none, List.nil_append, joined_of_ne_nil (by simp),
        String.intercalate_singleton]
    | some former => rw [Option.toList_some, List.singleton_append, joined_of_ne_nil (by simp),
        String.intercalate_cons_cons, String.intercalate_singleton]
  · rw [List.append_nil, joined_toList]

/-- Every attribute has its former value and then the new ones. -/
theorem find?_merged {es : List Event} (hes : ∀ e ∈ es, e.given?.isSome) (m : NameMap String)
    (name : String) :
    (merged m es).find? name = joined ((m.find? name).toList ++ valuesFor name es) := by
  induction es generalizing m with
  | nil =>
    show m.find? name = joined ((m.find? name).toList ++ [])
    rw [List.append_nil, joined_toList]
  | cons e es ih =>
    obtain ⟨he, hes⟩ := List.forall_mem_cons.1 hes
    obtain ⟨given, hgiven⟩ := Option.isSome_iff_exists.1 he
    rw [Event.merged_cons hgiven, ih hes, find?_joinAttribute, ← Event.valuesFor_singleton hgiven,
      joined_joined_append, List.append_assoc, ← Event.valuesFor_cons]

/-- Only the order of the values for one name matters. -/
theorem merged_congr {es es' : List Event} (hes : ∀ e ∈ es, e.given?.isSome)
    (hes' : ∀ e ∈ es', e.given?.isSome) (h : ∀ name, es'.filter (·.isFor name) = es.filter (·.isFor name))
    (m : NameMap String) : merged m es' = merged m es := by
  refine NameMap.ext_find? fun name => ?_
  rw [find?_merged hes', find?_merged hes, valuesFor, valuesFor, h name]

namespace Tree
variable {t t' : Tree} {i : Nat} {f g : Node → Node}

theorem ext_node? (h : ∀ i, t.node? i = t'.node? i) : t = t' := congrArg mk (Array.ext_getElem? h)

theorem modify_modify (t : Tree) (i : Nat) (f g : Node → Node) :
    (t.modify i f).modify i g = t.modify i (g ∘ f) := by
  refine ext_node? fun j => ?_
  rw [node?_modify, node?_modify, node?_modify]
  split
  · rw [Option.map_map]
  · rfl

/-- What is done to a node depends on that node only. -/
theorem modify_congr (h : ∀ n, t.node? i = some n → f n = g n) : t.modify i f = t.modify i g := by
  refine ext_node? fun j => ?_
  rw [node?_modify, node?_modify]
  split
  · next hij =>
    subst hij
    exact Option.map_congr h
  · rfl

theorem modify_id (t : Tree) (i : Nat) : t.modify i id = t := by
  refine ext_node? fun j => ?_
  rw [node?_modify, Option.map_id_apply, ite_self]

end Tree

namespace TreeBuilder
variable {b : TreeBuilder} {n : Node} {e : Event} {es : List Event}

/-- The builder with another current node. -/
def setCurrent (b : TreeBuilder) (n : Node) : TreeBuilder := b.modifyCurrent fun _ => n

theorem node?_setCurrent (hn : b.tree.node? b.current = some n) (n' : Node) :
    (b.setCurrent n').tree.node? b.current = some n' := by
  rw [setCurrent, modifyCurrent, Tree.node?_modify, if_pos rfl, hn]
  rfl

theorem modifyCurrent_eq (hn : b.tree.node? b.current = some n) (f : Node → Node) :
    b.modifyCurrent f = b.setCurrent (f n) := by
  refine congrArg (TreeBuilder.mk · b.current) (Tree.modify_congr fun n' hn' => ?_)
  rw [Option.some.inj (hn.symm.trans hn')]

theorem setCurrent_self (hn : b.tree.node? b.current = some n) : b.setCurrent n = b :=
  calc b.setCurrent n
    _ = b.modifyCurrent id := (modifyCurrent_eq hn id).symm
    _ = b := congrArg (TreeBuilder.mk · b.current) (Tree.modify_id ..)

theorem setCurrent_setCurrent (b : TreeBuilder) (n n' : Node) :
    (b.setCurrent n).setCurrent n' = b.setCurrent n' :=
  congrArg (TreeBuilder.mk · b.current) (Tree.modify_modify ..)

theorem isKind_current (hn : b.tree.node? b.current = some n) (kind : NodeKind) :
    b.isKind b.current kind ↔ n.kind = kind := by
  rw [isKind, Tree.kind?, hn, Option.map_some, beq_iff_eq, Option.some_inj]

/-! ### Attributes of a node without children -/

/-- A node that takes attributes: an element, or one that can become an element, that has no children. -/
def Takes (n : Node) : Prop :=
  (n.kind = .element ∨ n.kind = .inProgress) ∧ n.firstChild = none

theorem Takes.resolved (h : Takes n) (hn : b.tree.node? b.current = some n) :
    b.resolved = b.setCurrent { n with kind := .element } := by
  rw [TreeBuilder.resolved]
  split
  · exact modifyCurrent_eq hn _
  · next hnot =>
    rcases h.1 with helement | hprogress
    · rw [← helement]
      exact (setCurrent_self hn).symm
    · exact absurd ((isKind_current hn _).2 hprogress) hnot

theorem Takes.accept (h : Takes n) (hn : b.tree.node? b.current = some n)
    {name value : String} (he : e.given? = some (name, value)) :
    Builder.accept b e = (b.setCurrent { n with
      kind := .element, attributes := joinAttribute n.attributes name value }, none) := by
  have htext : ¬ b.isKind b.current .text := by
    rw [isKind_current hn]
    rcases h.1 with hk | hk <;> rw [hk] <;> decide
  have hstarts : ¬ b.startsWithText := by
    rw [startsWithText, Tree.firstChild?, hn, Option.bind_some, h.2]
    exact Bool.false_ne_true
  rw [accept_of_given he, addAttribute_eq, if_neg htext, if_neg hstarts, h.resolved hn, put,
    modifyCurrent_eq (node?_setCurrent hn _), setCurrent_setCurrent]

/-- What becomes of the current node, when it is given some attributes. -/
def adorned (n : Node) (es : List Event) : Node :=
  { n with kind := if es = [] then n.kind else .element, attributes := merged n.attributes es }

/-- An element without children is written as one tag. -/
theorem Takes.markup (h : Takes n) {t : Tree} {i : Nat} (hn : t.node? i = some n)
    (hk : n.kind = .element) (depth : Nat) :
    Markup.node t (depth + 1) i =
      Markup.multiply (Markup.element n.name n.attributes none) n.count := by
  have hchildren : t.hasChildren i = false := by
    rw [Tree.hasChildren, Tree.firstChild?, hn, Option.bind_some, h.2]
    rfl
  rw [Markup.node, hn]
  simp only [hk, hchildren, Bool.false_eq_true, if_false]

/-- Attributes with different names can change places. -/
theorem adorned_congr {es' : List Event} (hes : ∀ e ∈ es, e.given?.isSome) (hperm : es'.Perm es)
    (h : ∀ name, es'.filter (·.isFor name) = es.filter (·.isFor name)) (n : Node) :
    adorned n es' = adorned n es := by
  have hes' : ∀ e ∈ es', e.given?.isSome := fun e he => hes e (hperm.mem_iff.1 he)
  have hnil : es' = [] ↔ es = [] := by
    rw [← List.length_eq_zero_iff, hperm.length_eq, List.length_eq_zero_iff]
  rw [adorned, adorned, merged_congr hes hes' h]
  simp only [hnil]

/-- All attributes are taken, and only the current node changes. -/
theorem Takes.feed (h : Takes n) (hn : b.tree.node? b.current = some n)
    (hes : ∀ e ∈ es, e.given?.isSome) :
    Builder.feed b es = (b.setCurrent (adorned n es), none) := by
  induction es generalizing b n with
  | nil => rw [adorned, if_pos rfl]; exact congrArg (·, none) (setCurrent_self hn).symm
  | cons e es ih =>
    obtain ⟨he, hes⟩ := List.forall_mem_cons.1 hes
    obtain ⟨name, value, hgiven⟩ := exists_given he
    have htakes : Takes { n with
      kind := .element, attributes := joinAttribute n.attributes name value } := ⟨.inl rfl, h.2⟩
    rw [Builder.feed_cons (h.accept hn hgiven), ih htakes (node?_setCurrent hn _) hes,
      setCurrent_setCurrent, adorned, adorned, Event.merged_cons hgiven, ite_self,
      if_neg (List.cons_ne_nil e es)]

/-- Attributes for a node without children are all taken and change nothing else. Every attribute has
its former value and then the new ones, in the order in which they came, with a space between each two;
so attributes with different names can be given in any order. A tag shows every name once, and the
names in the order of their bytes. -/
theorem attributes_joined (hn : b.tree.node? b.current = some n)
    (hkind : n.kind = .element ∨ n.kind = .inProgress) (hchild : ¬ b.tree.hasChildren b.current)
    (hes : ∀ e ∈ es, e.given?.isSome) :
    ∃ m : NameMap String,
      let b' := b.modifyCurrent fun n =>
        { n with kind := if es = [] then n.kind else .element, attributes := m }
      Builder.feed b es = (b', none) ∧
      (∀ name, m.find? name = joined ((n.attributes.find? name).toList ++ valuesFor name es)) ∧
      (∀ es', es'.Perm es → (∀ name, es'.filter (·.isFor name) = es.filter (·.isFor name)) →
        Builder.feed b es' = (b', none)) ∧
      (m.entries.Pairwise fun a a' => Text.bytes a.1 < Text.bytes a'.1) ∧
      (b'.tree.kind? b.current = some .element → ∀ depth,
        Markup.node b'.tree (depth + 1) b.current = Markup.multiply
          ("<" ++ n.name ++ String.join (m.entries.map fun (name, value) =>
            " " ++ name ++ "=\"" ++ String.ofList (Markup.escapeValue value.toList) ++ "\"") ++ " />")
          n.count) := by
  have htakes : Takes n := by
    refine ⟨hkind, ?_⟩
    rw [Tree.hasChildren, Tree.firstChild?, hn, Option.bind_some] at hchild
    exact Option.not_isSome_iff_eq_none.1 hchild
  -- The node takes all of them, so that feeding them sets it to `adorned n es`.
  refine ⟨merged n.attributes es, ?_⟩
  intro b'
  have hb' : b' = b.setCurrent (adorned n es) := modifyCurrent_eq hn _
  refine ⟨?feed, fun name => find?_merged hes n.attributes name, ?reordered, NameMap.pairwise_bytes _,
    ?markup⟩
  case feed => rw [hb', htakes.feed hn hes]
  case reordered =>
    intro es' hperm hfilter
    have hes' : ∀ e ∈ es', e.given?.isSome := fun e he => hes e (hperm.mem_iff.1 he)
    rw [hb', htakes.feed hn hes', adorned_congr hes hperm hfilter]
  case markup =>
    intro helement depth
    have hnode : b'.tree.node? b.current = some (adorned n es) := by
      rw [hb']
      exact node?_setCurrent hn _
    have hk : (adorned n es).kind = .element := by
      rwa [Tree.kind?, hnode, Option.map_some, Option.some_inj] at helement
    have hadorned : Takes (adorned n es) := ⟨.inl hk, htakes.2⟩
    exact hadorned.markup hnode hk depth

/-- Values for two names, in two orders. An empty value is joined like any other. -/
theorem attributes_joined_in_turns :
    let b := Builder.run start [.element "a", .className "x"]
    let n : Node :=
      { kind := .element, name := "a", attributes := .ofList [("class", "x")], parent := some 0 }
    let es : List Event := [.className "", .id "k", .attribute "class" "y", .attribute "id" ""]
    let es' : List Event := [.id "k", .className "", .attribute "id" "", .attribute "class" "y"]
    b.tree.node? b.current = some n ∧ ¬ b.tree.hasChildren b.current ∧
    (∀ e ∈ es, e.given?.isSome) ∧ es'.Perm es ∧
    (∀ name, es'.filter (·.isFor name) = es.filter (·.isFor name)) ∧
    ∃ m : NameMap String,
      let b' := b.modifyCurrent fun n => { n with kind := .element, attributes := m }
      Builder.feed b es = (b', none) ∧ Builder.feed b es' = (b', none) ∧
      m.find? "class" = some "x  y" ∧ m.find? "id" = some "k " ∧
      Markup.node b'.tree 1 b.current = "<a class=\"x  y\" id=\"k \" />" := by
  intro b n es es'
  have hn : b.tree.node? b.current = some n := by decide +kernel
  have hchild : ¬ b.tree.hasChildren b.current := by decide +kernel
  have hes : ∀ e ∈ es, e.given?.isSome := by decide
  have hperm : es'.Perm es := by decide
  have hfilter (name : String) : es'.filter (·.isFor name) = es.filter (·.isFor name) := by
    by_cases hid : "id" = name
    · subst hid
      rfl
    · simp [es, es', Event.isFor, Event.given?, List.filter_cons, hid]
  obtain ⟨m, hfeed, hfind, hreordered, -⟩ := attributes_joined hn (.inl rfl) hchild hes
  refine ⟨hn, hchild, hes, hperm, hfilter, m, hfeed, hreordered es' hperm hfilter,
    (hfind "class").trans (by decide +kernel), (hfind "id").trans (by decide +kernel), ?_⟩
  have hb' : b.modifyCurrent (fun n => { n with kind := .element, attributes := m }) =
      (Builder.feed b es).1 := congrArg Prod.fst hfeed.symm
  rw [hb']
  decide +kernel

end TreeBuilder
end Shorthand
