import Mathlib.Data.List.Lex
import Shorthand.Proofs.Tree.Containment
import Shorthand.Proofs.Tree.Merging
import Shorthand.Proofs.Tree.Parsed
import Shorthand.Proofs.Tree.Placement
import Shorthand.Tree.Expectation

/-! # What a description is met by

The description of a parsed tree is met by that tree and by no other. If another parsed tree does not
meet it, then the mismatch is at the first node, in the order of a walk, that is not like the node at
the same path in the tree described (`Tree.met_by_described`). Paths are in the order of the walk
exactly if they are in lexicographic order, a path in front of those that go on from it. -/

namespace Shorthand

namespace NameMap
variable {α : Type} {m m' : NameMap α}

/-- A map with no more entries than another that has them all is that one. -/
theorem eq_of_entries (hsize : m.size = m'.size)
    (h : ∀ e ∈ m.entries, m'.find? e.1 = some e.2) : m = m' := by
  have hasymm : Std.Asymm fun e e' : String × α => e.1 < e'.1 := ⟨fun _ _ => String.lt_asymm⟩
  have hnodup : m.entries.Nodup := m.ascending.imp fun hlt he => by
    rw [he] at hlt
    exact String.lt_irrefl _ hlt
  have hsub : m.entries ⊆ m'.entries := fun e he => mem_entries_iff.2 (h e he)
  have hperm : m.entries.Perm m'.entries :=
    (List.subperm_of_subset hnodup hsub).perm_of_length_le (Nat.le_of_eq hsize.symm)
  exact ext (m.ascending.eq_of_mem_iff m'.ascending fun _ => hperm.mem_iff)

end NameMap

namespace Snapshot
variable {s s' : Snapshot} {e : Expectation} {es es' : List Expectation} {m : Mismatch}

section differ
variable {α : Type} [DecidableEq α] {expected found : α} {d : Difference}

theorem differ_eq_none_iff : differ expected found d = none ↔ found = expected := by
  unfold differ
  split <;> simp_all

theorem path_of_differ (h : differ expected found d = some m) : m.path = [] := by
  unfold differ at h
  split at h
  · cases h
  · cases h
    rfl

end differ

theorem kindMismatch?_eq_none_iff {kind : NodeKind} :
    s.kindMismatch? kind = none ↔ s.kind = kind := differ_eq_none_iff

/-- Only what is expected of a child can be missed below the node. -/
theorem path_of_mismatch? (he : ∀ i es, e ≠ .child i es) (h : s.mismatch? e = some m) :
    m.path = [] := by
  cases e with
  | element name | text content =>
    rw [mismatch?, Option.or_eq_some_iff] at h
    rcases h with h | ⟨-, h⟩ <;> exact path_of_differ h
  | group => exact path_of_differ h
  | «attribute» name value =>
    rw [mismatch?] at h
    split at h
    · exact path_of_differ h
    · cases h
      rfl
  | attributeCount n | count n | childCount n => exact path_of_differ h
  | child i es => exact absurd rfl (he i es)

theorem firstMismatch?_append :
    s.firstMismatch? (es ++ es') = (s.firstMismatch? es).or (s.firstMismatch? es') := by
  induction es with
  | nil => rfl
  | cons e es ih => rw [List.cons_append, firstMismatch?, ih, firstMismatch?, Option.or_assoc]

theorem firstMismatch?_eq_none_iff :
    s.firstMismatch? es = none ↔ ∀ e ∈ es, s.mismatch? e = none := by
  induction es with
  | nil => simp [firstMismatch?]
  | cons e es ih => simp [firstMismatch?, ih]

theorem exists_of_firstMismatch? (h : s.firstMismatch? es = some m) :
    ∃ e ∈ es, s.mismatch? e = some m := by
  induction es with
  | nil => cases h
  | cons e es ih =>
    rw [firstMismatch?, Option.or_eq_some_iff] at h
    rcases h with h | ⟨-, h⟩
    · exact ⟨e, List.mem_cons_self, h⟩
    · obtain ⟨e', he', h⟩ := ih h
      exact ⟨e', List.mem_cons_of_mem e he', h⟩

/-- What can be seen of a node: the node without its children, and how many there are. -/
def view (s : Snapshot) : Snapshot × Nat := (s.bare, s.children.length)

/-- A description tells all nodes of such a kind and name apart. -/
def Told (s : Snapshot) : Prop :=
  match s.kind with
  | .element | .text => True
  | .group => s.name = ""
  | .root | .inProgress => False

theorem preorder_eq (s : Snapshot) : s.preorder = s.bare :: preorderAll s.children := by
  cases s
  rfl

/-- What a description says of the node itself. -/
def ownDescription (s : Snapshot) : List Expectation :=
  kindExpectation s.kind s.name ++ [.attributeCount s.attributes.size] ++
    s.attributes.entries.map (fun (k, v) => .attribute k v) ++
    [.count s.count, .childCount s.children.length]

theorem description_eq (s : Snapshot) :
    s.description = s.ownDescription ++ describeFrom 0 s.children := by
  cases s
  rfl

theorem kind_and_name_of_met (h : s.Told) (h' : s'.Told)
    (hmet : ∀ e ∈ kindExpectation s.kind s.name, s'.mismatch? e = none) :
    s.kind = s'.kind ∧ s.name = s'.name := by
  unfold Told at h
  cases hk : s.kind with
  | root | inProgress => simp [hk] at h
  | element | text =>
    have he := hmet _ (by rw [hk]; exact List.mem_singleton_self _)
    rw [mismatch?, Option.or_eq_none_iff, kindMismatch?_eq_none_iff, differ_eq_none_iff] at he
    exact ⟨he.1.symm, he.2.symm⟩
  | group =>
    have he := hmet _ (by rw [hk]; exact List.mem_singleton_self _)
    have hk' : s'.kind = .group := kindMismatch?_eq_none_iff.1 he
    simp only [hk] at h
    simp only [Told, hk'] at h'
    exact ⟨hk'.symm, h.trans h'.symm⟩

theorem attributes_of_met (hcount : s'.mismatch? (.attributeCount s.attributes.size) = none)
    (h : ∀ k v, (k, v) ∈ s.attributes.entries → s'.mismatch? (.attribute k v) = none) :
    s.attributes = s'.attributes := by
  have hsize : s'.attributes.names.length = s.attributes.size := differ_eq_none_iff.1 hcount
  rw [NameMap.names, List.length_map] at hsize
  refine NameMap.eq_of_entries hsize.symm fun (k, v) hkv => ?_
  have hfound := h k v hkv
  rw [mismatch?] at hfound
  split at hfound
  · next found hfind => rw [hfind, differ_eq_none_iff.1 hfound]
  · cases hfound

/-- Whoever meets what is said of the node itself looks like it. -/
theorem view_of_met (h : s.Told) (h' : s'.Told)
    (hmet : s'.firstMismatch? s.ownDescription = none) : s.view = s'.view := by
  rw [firstMismatch?_eq_none_iff] at hmet
  simp only [ownDescription, List.mem_append, List.mem_map, List.mem_cons, List.not_mem_nil,
    or_false] at hmet
  obtain ⟨hkind, hname⟩ := kind_and_name_of_met h h' fun e he => hmet e (.inl (.inl (.inl he)))
  have hattributes := attributes_of_met (hmet _ (.inl (.inl (.inr rfl)))) fun k v hkv =>
    hmet _ (.inl (.inr ⟨(k, v), hkv, rfl⟩))
  have hcount : s'.count = s.count := differ_eq_none_iff.1 (hmet _ (.inr (.inl rfl)))
  have hchildren : s'.childSummaries.length = s.children.length :=
    differ_eq_none_iff.1 (hmet _ (.inr (.inr rfl)))
  rw [childSummaries, List.length_map] at hchildren
  simp [view, bare, hkind, hname, hattributes, hcount, hchildren]

theorem not_child_of_mem (he : e ∈ s.ownDescription) (i : Nat) (es : List Expectation) :
    e ≠ .child i es := by
  rintro rfl
  cases hk : s.kind <;> simp [ownDescription, kindExpectation, hk] at he

theorem path_of_own (h : s'.firstMismatch? s.ownDescription = some m) : m.path = [] := by
  obtain ⟨e, he, h⟩ := exists_of_firstMismatch? h
  exact path_of_mismatch? (not_child_of_mem he) h

/-! ### All nodes -/

/-- What can be seen where a path leads to. -/
def viewAt (s : Snapshot) (path : List Nat) : Option (Snapshot × Nat) := (s.at? path).map view

/-- The path leads to different nodes, and all paths in front of it to like ones. -/
structure Departs (s s' : Snapshot) (path : List Nat) : Prop where
  led : (s.at? path).isSome ∧ (s'.at? path).isSome
  view_ne : s.viewAt path ≠ s'.viewAt path
  view_eq : ∀ q < path, s.viewAt q = s'.viewAt q

theorem Departs.ne {path : List Nat} (h : Departs s s' path) : s ≠ s' := by
  rintro rfl
  exact h.view_ne rfl

theorem viewAt_nil (s : Snapshot) : s.viewAt [] = some s.view := rfl

theorem viewAt_cons (s : Snapshot) (k : Nat) (path : List Nat) :
    s.viewAt (k :: path) = (s.children[k]?).bind (viewAt · path) := by
  rw [viewAt, at?, Option.map_bind]
  rfl

theorem departs_nil (h : s.view ≠ s'.view) : Departs s s' [] where
  led := ⟨rfl, rfl⟩
  view_ne := by
    rw [viewAt_nil, viewAt_nil]
    simpa using h
  view_eq q hq := absurd hq (List.not_lt_nil q)

theorem eq_of_view (h : s.view = s'.view) (hchildren : s.children = s'.children) : s = s' := by
  obtain ⟨kind, name, attributes, count, cs⟩ := s
  obtain ⟨kind', name', attributes', count', cs'⟩ := s'
  obtain rfl : cs = cs' := hchildren
  simp only [view, bare, Prod.mk.injEq, Snapshot.mk.injEq] at h
  obtain ⟨⟨rfl, rfl, rfl, rfl, -⟩, -⟩ := h
  rfl

/-- Where a child departs, the node does, if it looks alike and the children in front are the same. -/
theorem Departs.below {k : Nat} {c c' : Snapshot} {path : List Nat} (hview : s.view = s'.view)
    (hbefore : ∀ j < k, s.children[j]? = s'.children[j]?) (hc : s.children[k]? = some c)
    (hc' : s'.children[k]? = some c') (h : Departs c c' path) : Departs s s' (k :: path) where
  led := by
    rw [at?, at?, hc, hc']
    exact h.led
  view_ne := by
    rw [viewAt_cons, viewAt_cons, hc, hc']
    exact h.view_ne
  view_eq q hq := by
    cases q with
    | nil => rw [viewAt_nil, viewAt_nil, hview]
    | cons j q =>
      rw [viewAt_cons, viewAt_cons]
      rcases List.cons_lt_cons_iff.1 hq with hlt | ⟨rfl, hlt⟩
      · rw [hbefore j hlt]
      · rw [hc, hc']
        exact h.view_eq q hlt

/-- These expectations are met by `s` only, and by another node only up to where it departs. -/
structure Judge (s s' : Snapshot) (es : List Expectation) : Prop where
  met : s'.firstMismatch? es = none → s = s'
  missed : ∀ m, s'.firstMismatch? es = some m → Departs s s' m.path

theorem Judge.eq_none_iff (h : Judge s s' es) : s'.firstMismatch? es = none ↔ s = s' := by
  refine ⟨h.met, fun heq => ?_⟩
  cases hm : s'.firstMismatch? es with
  | none => rfl
  | some m => exact absurd heq (h.missed m hm).ne

/-- The expectations of the node itself come first, and then those of its children. -/
theorem Judge.of_own {own : List Expectation}
    (hmet : s'.firstMismatch? own = none ↔ s.view = s'.view)
    (hpath : ∀ m, s'.firstMismatch? own = some m → m.path = [])
    (hchildren : s.view = s'.view → Judge s s' (describeFrom 0 s.children)) :
    Judge s s' (own ++ describeFrom 0 s.children) := by
  constructor
  · intro h
    rw [firstMismatch?_append, Option.or_eq_none_iff] at h
    exact (hchildren (hmet.1 h.1)).met h.2
  · intro m h
    rw [firstMismatch?_append, Option.or_eq_some_iff] at h
    rcases h with h | ⟨hown, h⟩
    · rw [hpath m h]
      refine departs_nil fun hview => ?_
      rw [hmet.2 hview] at h
      cases h
    · exact (hchildren (hmet.1 hown)).missed m h

theorem met_of_view (h : s.Told) (hview : s.view = s'.view) :
    s'.firstMismatch? s.ownDescription = none := by
  obtain ⟨kind, name, attributes, count, cs⟩ := s
  obtain ⟨kind', name', attributes', count', cs'⟩ := s'
  simp only [view, bare, Prod.mk.injEq, Snapshot.mk.injEq] at hview
  obtain ⟨⟨rfl, rfl, rfl, rfl, -⟩, hlength⟩ := hview
  have hkind : ∀ e ∈ kindExpectation kind name,
      (⟨kind, name, attributes, count, cs'⟩ : Snapshot).mismatch? e = none := by
    cases kind <;> simp [kindExpectation, mismatch?, kindMismatch?, differ]
  have hattributes : ∀ k v, (k, v) ∈ attributes.entries →
      (⟨kind, name, attributes, count, cs'⟩ : Snapshot).mismatch? (.attribute k v) = none := by
    intro k v hkv
    rw [mismatch?, NameMap.mem_entries_iff.1 hkv]
    exact differ_eq_none_iff.2 rfl
  rw [firstMismatch?_eq_none_iff]
  intro e he
  simp only [ownDescription, List.mem_append, List.mem_map, List.mem_cons, List.not_mem_nil,
    or_false] at he
  rcases he with ((he | rfl) | ⟨⟨k, v⟩, hkv, rfl⟩) | rfl | rfl
  · exact hkind e he
  · simp [mismatch?, differ, NameMap.names, NameMap.size]
  · exact hattributes k v hkv
  · simp [mismatch?, differ]
  · simp [mismatch?, differ, childSummaries, hlength]

mutual
/-- The induction is on the tree described; the other one is only looked at where a path leads. -/
theorem judge_description : ∀ {s s' : Snapshot}, (∀ e ∈ s.preorder, e.Told) →
    (∀ e ∈ s'.preorder, e.Told) → Judge s s' s.description
  | ⟨kind, name, attributes, count, cs⟩, ⟨kind', name', attributes', count', cs'⟩, h, h' => by
    rw [preorder, List.forall_mem_cons] at h h'
    rw [description_eq]
    refine Judge.of_own ⟨view_of_met h.1 h'.1, met_of_view h.1⟩ (fun m => path_of_own) fun hview => ?_
    exact @judge_describeFrom _ _ cs cs' [] hview rfl rfl h.2 h'.2
/-- The children in front are the same already. -/
theorem judge_describeFrom {s s' : Snapshot} : ∀ {cs cs' front : List Snapshot}, s.view = s'.view →
    s.children = front ++ cs → s'.children = front ++ cs' → (∀ e ∈ preorderAll cs, e.Told) →
    (∀ e ∈ preorderAll cs', e.Told) → Judge s s' (describeFrom front.length cs)
  | [], cs', front, hview, hs, hs', _, _ => by
    have hlength : s.children.length = s'.children.length := congrArg Prod.snd hview
    rw [hs, hs', List.length_append, List.length_append, List.length_nil] at hlength
    obtain rfl : cs' = [] := List.length_eq_zero_iff.1 (by omega)
    exact ⟨fun _ => eq_of_view hview (hs.trans hs'.symm), nofun⟩
  | c :: cs, [], front, hview, hs, hs', _, _ => by
    have hlength : s.children.length = s'.children.length := congrArg Prod.snd hview
    rw [hs, hs', List.length_append, List.length_append, List.length_nil, List.length_cons]
      at hlength
    omega
  | c :: cs, c' :: cs', front, hview, hs, hs', h, h' => by
    rw [preorderAll, List.forall_mem_append] at h h'
    have hc : s.children[front.length]? = some c := by
      rw [hs, List.getElem?_append_right (Nat.le_refl _), Nat.sub_self, List.getElem?_cons_zero]
    have hc' : s'.children[front.length]? = some c' := by
      rw [hs', List.getElem?_append_right (Nat.le_refl _), Nat.sub_self, List.getElem?_cons_zero]
    have hfirst : s'.firstMismatch? (describeFrom front.length (c :: cs)) =
        ((c'.firstMismatch? c.description).map (·.below front.length)).or
          (s'.firstMismatch? (describeFrom (front.length + 1) cs)) := by
      rw [describeFrom, firstMismatch?, mismatch?, hc']
    have hchild := judge_description h.1 h'.1
    have hrest (heq : c = c') : Judge s s' (describeFrom (front.length + 1) cs) := by
      rw [← heq] at hs'
      rw [show front.length + 1 = (front ++ [c]).length by simp]
      exact judge_describeFrom hview (by rw [hs, List.append_assoc]; rfl)
        (by rw [hs', List.append_assoc]; rfl) h.2 h'.2
    constructor
    · intro hnone
      rw [hfirst, Option.or_eq_none_iff, Option.map_eq_none_iff] at hnone
      exact (hrest (hchild.met hnone.1)).met hnone.2
    · intro m hm
      rw [hfirst, Option.or_eq_some_iff, Option.map_eq_some_iff, Option.map_eq_none_iff] at hm
      rcases hm with ⟨m, hm, rfl⟩ | ⟨hnone, hm⟩
      · refine (hchild.missed m hm).below hview (fun j hj => ?_) hc hc'
        rw [hs, hs', List.getElem?_append_left hj, List.getElem?_append_left hj]
      · exact (hrest (hchild.met hnone)).missed m hm
end

theorem judge_childDescription {r : Snapshot} (hs : s.bare = r) (hs' : s'.bare = r)
    (h : ∀ e ∈ preorderAll s.children, e.Told) (h' : ∀ e ∈ preorderAll s'.children, e.Told) :
    Judge s s' s.childDescription := by
  have hcount : s'.firstMismatch? [.childCount s.children.length] = none ↔ s.view = s'.view := by
    simp [firstMismatch?, mismatch?, differ, childSummaries, view, hs, hs', eq_comm]
  refine Judge.of_own hcount ?_ fun hview => ?_
  · intro m hm
    obtain ⟨e, he, hm⟩ := exists_of_firstMismatch? hm
    obtain rfl := List.mem_singleton.1 he
    exact path_of_mismatch? (fun i es => Expectation.noConfusion) hm
  · exact @judge_describeFrom _ _ _ _ [] hview rfl rfl h h'

end Snapshot

namespace Tree
variable {t : Tree}

/-- No node below the root is a root. -/
def LoneRoot (t : Tree) : Prop := ∀ i, t.kind? i = some .root → i = root

theorem LoneRoot.append (h : t.LoneRoot) (parent : Nat) {kind : NodeKind} (hk : kind ≠ .root) :
    (t.append parent kind).LoneRoot := by
  intro i hi
  by_cases hnew : i = t.size
  · rw [hnew, kind?_append_size] at hi
    exact absurd (Option.some.inj hi) hk
  · rw [kind?_append_of_ne hnew] at hi
    exact h i hi

theorem LoneRoot.modify (h : t.LoneRoot) (i : Nat) {f : Node → Node}
    (hf : ∀ n, (f n).kind = .root → n.kind = .root) : (t.modify i f).LoneRoot := by
  intro j hj
  rw [kind?, node?_modify] at hj
  split at hj
  · rw [Option.map_map, Option.map_eq_some_iff] at hj
    obtain ⟨n, hn, hroot⟩ := hj
    exact h j (kind?_eq_some.2 ⟨n, hn, hf n hroot⟩)
  · exact h j hj

end Tree

namespace TreeBuilder
variable {b : TreeBuilder}

theorem loneRoot_addAttribute (h : b.tree.LoneRoot) (name value : String) :
    (b.addAttribute name value).1.tree.LoneRoot := by
  obtain ⟨b', hb', hput⟩ := b.addAttribute_cases name value
  have h' : b'.tree.LoneRoot := by
    rcases hb' with rfl | ⟨-, rfl⟩
    · exact h
    · exact h.modify _ (by simp [Node.relabel])
  rcases hput with hput | hput
  · rwa [hput]
  · rw [hput]
    exact h'.modify _ fun _ hk => hk

theorem loneRoot_accept (h : b.tree.LoneRoot) (e : Event) :
    (Builder.accept b e).1.tree.LoneRoot := by
  cases e with
  | element name =>
    show (b.element name).tree.LoneRoot
    unfold element
    split
    · exact h.modify _ (by simp)
    · exact h
  | id name => exact loneRoot_addAttribute h "id" name
  | className name => exact loneRoot_addAttribute h "class" name
  | «attribute» name value => exact loneRoot_addAttribute h name value
  | text content =>
    show (b.text content).tree.LoneRoot
    unfold text
    split
    · exact h.modify _ fun _ hk => hk
    · split
      · exact h.modify _ (by simp)
      · exact (h.append _ (by decide)).modify _ fun _ hk => hk
  | multiply count =>
    show (b.modifyCurrent ({ · with count })).tree.LoneRoot
    exact h.modify _ fun _ hk => hk
  | child =>
    show b.child.1.tree.LoneRoot
    unfold child
    split
    · exact h
    · exact h.append _ (by decide)
  | sibling => exact h.append _ (by decide)
  | climb levels =>
    rw [← b.ascend_tree levels] at h
    exact h.append _ (by decide)
  | openGroup =>
    show b.openGroup.tree.LoneRoot
    unfold openGroup
    split
    · exact (h.modify _ (by simp)).append _ (by decide)
    · exact (h.append _ (by decide)).append _ (by decide)
  | closeGroup =>
    show b.closeGroup.tree.LoneRoot
    rwa [closeGroup_tree]

theorem loneRoot_feed (h : b.tree.LoneRoot) (es : List Event) :
    (Builder.feed b es).1.tree.LoneRoot := by
  induction es generalizing b with
  | nil => exact h
  | cons e es ih =>
    have haccept := loneRoot_accept h e
    unfold Builder.feed
    split
    · next b' hb =>
      rw [hb] at haccept
      exact ih haccept
    · next b' cause hb => rwa [hb] at haccept

end TreeBuilder

theorem loneRoot_of_parseTree {source : String} {t : Tree} (h : parseTree source = .ok t) :
    t.LoneRoot := by
  obtain ⟨rfl, -⟩ := TreeBuilder.of_finish (finish_of_parseTree h)
  have hempty : Tree.empty.LoneRoot := by
    intro i hi
    cases i with
    | zero => rfl
    | succ i => cases hi
  have hstart : TreeBuilder.start.tree.LoneRoot := hempty.append _ (by decide)
  rw [Grammar.built_parse]
  exact TreeBuilder.loneRoot_feed hstart _

/-! ### The order of the paths -/

namespace Tree
variable {t : Tree} {shown : NodeKind → Bool} {i j depth : Nat} {path q : List Nat}

/-- The paths from `i` to the nodes that `visits` comes to, in the same order. -/
def routes (t : Tree) (shown : NodeKind → Bool) : Nat → Nat → List (List Nat)
  | 0, _ => []
  | depth + 1, i =>
    [] :: if (t.kind? i).any shown then
      (t.children i).zipIdx.flatMap fun (c, k) => (t.routes shown depth c).map (k :: ·) else []

theorem map_descend_routes (t : Tree) (shown : NodeKind → Bool) (depth i : Nat) :
    (t.routes shown depth i).map (t.descend i) = (t.visits shown depth i).map some := by
  induction depth generalizing i with
  | zero => rfl
  | succ depth ih =>
    unfold routes visits
    split
    · have hchild : ∀ ck ∈ (t.children i).zipIdx,
          ((t.routes shown depth ck.1).map (ck.2 :: ·)).map (t.descend i) =
            (t.visits shown depth ck.1).map some := by
        intro ck hck
        rw [← ih, List.map_map]
        refine List.map_congr_left fun q _ => ?_
        rw [Function.comp_apply, descend, List.mem_zipIdx_iff_getElem?.1 hck]
        rfl
      rw [List.map_cons, List.map_cons, List.map_flatMap, List.map_flatMap,
        List.flatMap_congr hchild]
      conv_rhs => rw [← List.zipIdx_map_fst 0 (t.children i), List.flatMap_map]
      rfl
    · rfl

/-- A walk follows the paths in lexicographic order. -/
theorem pairwise_routes (t : Tree) (shown : NodeKind → Bool) (depth i : Nat) :
    (t.routes shown depth i).Pairwise (· < ·) := by
  induction depth generalizing i with
  | zero => exact .nil
  | succ depth ih =>
    unfold routes
    rw [List.pairwise_cons]
    split
    · constructor
      · intro q hq
        obtain ⟨ck, -, hq⟩ := List.mem_flatMap.1 hq
        obtain ⟨q, -, rfl⟩ := List.mem_map.1 hq
        exact List.nil_lt_cons _ _
      · rw [List.pairwise_flatMap]
        constructor
        · intro ck _
          rw [List.pairwise_map]
          exact (ih ck.1).imp List.cons_lt_cons_self.2
        -- Routes through different children differ in their first number.
        · have hnumbers : (t.children i).zipIdx.Pairwise fun ck ck' => ck.2 < ck'.2 := by
            rw [← List.pairwise_map (f := Prod.snd), List.zipIdx_map_snd]
            exact List.pairwise_lt_range'
          refine hnumbers.imp fun hlt q hq q' hq' => ?_
          obtain ⟨q, -, rfl⟩ := List.mem_map.1 hq
          obtain ⟨q', -, rfl⟩ := List.mem_map.1 hq'
          exact List.cons_lt_cons_iff.2 (.inl hlt)
    · exact ⟨nofun, .nil⟩

/-- The nodes in front of another one have smaller paths. -/
theorem Rooted.exists_path_lt (h : t.Rooted) {before after : List Nat}
    (hvisits : t.visits shown t.size root = before ++ i :: after) (hi : t.atPath path = some i)
    (hj : j ∈ before) : ∃ q, t.atPath q = some j ∧ q < path := by
  have hroutes := t.map_descend_routes shown t.size root
  have hlt := t.pairwise_routes shown t.size root
  rw [hvisits, List.map_append, List.map_cons] at hroutes
  obtain ⟨front, rest, hsplit, hfront, hrest⟩ := List.map_eq_append_iff.1 hroutes
  obtain ⟨path', back, rfl, hpath', -⟩ := List.map_eq_cons_iff.1 hrest
  obtain rfl := h.path_unique hi hpath'
  rw [hsplit, List.pairwise_append] at hlt
  have hmem : some j ∈ front.map (t.descend root) := by
    rw [hfront]
    exact List.mem_map_of_mem hj
  obtain ⟨q, hq, hdescend⟩ := List.mem_map.1 hmem
  exact ⟨q, hdescend, hlt.2.2 q hq path List.mem_cons_self⟩

/-- What can be seen of the node that a path leads to. -/
def viewAt (t : Tree) (path : List Nat) : Option (Snapshot × Nat) :=
  (t.atPath path).bind fun i => (t.node? i).map fun n => (n.bare, (t.children i).length)

theorem Rooted.viewAt_ofTree (h : t.Rooted) (path : List Nat) :
    (Snapshot.ofTree t).viewAt path = t.viewAt path := by
  rw [Snapshot.viewAt, Snapshot.ofTree, h.linked.at?_ofNode path (Nat.sub_le _ _) h.root_lt,
    viewAt, atPath]
  cases hi : t.descend root path with
  | none => rfl
  | some i =>
    have hlt := h.lt_of_atPath hi
    obtain ⟨n, hn⟩ := exists_node? hlt
    obtain ⟨depth, hdepth⟩ : ∃ depth, t.size = depth + 1 := ⟨t.size - 1, by omega⟩
    simp [hdepth, Snapshot.ofNode, hn, Snapshot.view, Snapshot.bare, Node.bare]

theorem Rooted.isSome_at? (h : t.Rooted) (path : List Nat) :
    ((Snapshot.ofTree t).at? path).isSome = (t.atPath path).isSome := by
  rw [Snapshot.ofTree, h.linked.at?_ofNode path (Nat.sub_le _ _) h.root_lt, Option.isSome_map]
  rfl

end Tree

/-! ### Parsed trees -/

section
variable {source source' : String} {t t' : Tree}

theorem bare_ofTree (h : parseTree source = .ok t) :
    (Snapshot.ofTree t).bare = Snapshot.leaf .root := by
  obtain ⟨a, b, z, -, hz, hb, rfl⟩ := exists_represents h
  rw [hb.ofTree, Zipper.root_eq hz]
  rfl

/-- Below the root there are only elements, texts and groups without a name. -/
theorem told_of_parseTree (h : parseTree source = .ok t) :
    ∀ e ∈ Snapshot.preorderAll (Snapshot.ofTree t).children, e.Told := by
  intro e he
  have hr := rooted_of_parseTree h
  have hnodes := hr.linked.preorder_ofNode (Nat.sub_le t.size Tree.root) hr.root_lt
  have hnodup : (t.visits (fun _ => true) t.size Tree.root).Nodup :=
    hr.linked.nodup_visits t.size Tree.root
  obtain ⟨rest, hvisits⟩ : ∃ rest, t.visits (fun _ => true) t.size Tree.root = Tree.root :: rest := by
    have hlt := hr.root_lt
    cases hsize : t.size with
    | zero => omega
    | succ depth => exact ⟨_, rfl⟩
  rw [hvisits, ← Snapshot.ofTree, Snapshot.preorder_eq, List.map_cons, List.map_cons,
    List.cons.injEq] at hnodes
  rw [hvisits, List.nodup_cons] at hnodup
  have hmem : some e ∈ (Snapshot.preorderAll (Snapshot.ofTree t).children).map some :=
    List.mem_map_of_mem he
  rw [hnodes.2] at hmem
  obtain ⟨i, hi, hnode⟩ := List.mem_map.1 hmem
  obtain ⟨n, hn, rfl⟩ := Option.map_eq_some_iff.1 hnode
  obtain ⟨htidy, hprogress⟩ := node_of_parseTree h hn
  -- A root below the root would be visited twice, and no place is left open in a finished tree.
  show match n.kind with
    | .element | .text => True
    | .group => n.name = ""
    | .root | .inProgress => False
  cases hk : n.kind with
  | element | text => trivial
  | group => exact (htidy.allows hk).2.2
  | root =>
    rw [loneRoot_of_parseTree h i (Tree.kind?_eq_some.2 ⟨n, hn, hk⟩)] at hi
    exact hnodup.1 hi
  | inProgress => exact hprogress hk

/-- All that there is to expect of a tree is met by the same tree only. If it is not met, then the
message names the path to the first node that differs from the one at the same path in the tree
described. -/
theorem Tree.met_by_described (h : parseTree source = .ok t) (h' : parseTree source' = .ok t') :
    (t'.firstMismatch? (Snapshot.ofTree t).childDescription = none ↔
      Snapshot.ofTree t = Snapshot.ofTree t') ∧
    ∀ m, t'.firstMismatch? (Snapshot.ofTree t).childDescription = some m →
      m.message = "children" ++ String.join (m.path.map fun k => "[" ++ toString k ++ "]") ++ ": " ++
        m.difference.message ∧
      ∃ before i after, t'.visits (fun _ => true) t'.size root = before ++ i :: after ∧
        t'.atPath m.path = some i ∧ (t.atPath m.path).isSome ∧ t.viewAt m.path ≠ t'.viewAt m.path ∧
        ∀ j ∈ before, ∃ path, t'.atPath path = some j ∧ t.viewAt path = t'.viewAt path := by
  have hr := rooted_of_parseTree h
  have hr' := rooted_of_parseTree h'
  have hjudge := Snapshot.judge_childDescription (bare_ofTree h) (bare_ofTree h')
    (told_of_parseTree h) (told_of_parseTree h')
  refine ⟨hjudge.eq_none_iff, fun m hm => ⟨rfl, ?_⟩⟩
  obtain ⟨⟨hled, hled'⟩, hne, hsame⟩ := hjudge.missed m hm
  rw [hr.isSome_at?] at hled
  rw [hr'.isSome_at?] at hled'
  rw [hr.viewAt_ofTree, hr'.viewAt_ofTree] at hne
  obtain ⟨i, hi⟩ := Option.isSome_iff_exists.1 hled'
  have hmem : i ∈ t'.visits (fun _ => true) t'.size root :=
    hr'.visits_perm.mem_iff.2 (List.mem_range.2 (hr'.lt_of_atPath hi))
  obtain ⟨before, after, hvisits⟩ := List.append_of_mem hmem
  refine ⟨before, i, after, hvisits, hi, hled, hne, fun j hj => ?_⟩
  -- What comes before `i` in the walk has a smaller path, where both trees look the same.
  obtain ⟨path, hpath, hlt⟩ := hr'.exists_path_lt hvisits hi hj
  have hview := hsame path hlt
  rw [hr.viewAt_ofTree, hr'.viewAt_ofTree] at hview
  exact ⟨path, hpath, hview⟩

/-- The second item of the group has another name. -/
theorem Tree.met_by_described_item : ∃ t t', parseTree "ul>(li.x+a)*2" = .ok t ∧
    parseTree "ul>(li.x+b>i)*2" = .ok t' ∧ ∃ m,
      t'.firstMismatch? (Snapshot.ofTree t).childDescription = some m ∧
      m.message = "children[0][0][1]: Expected element <a>, found <b>" ∧
      t'.atPath [0, 0, 1] = some 4 ∧ t.viewAt [0, 0, 1] ≠ t'.viewAt [0, 0, 1] := by
  let li : Snapshot := { Snapshot.leaf .element with
    name := "li", attributes := .ofList [("class", "x")] }
  let list (item : Snapshot) : Snapshot := { Snapshot.leaf .root with children := [
    { Snapshot.leaf .element with name := "ul", children := [
      { Snapshot.leaf .group with count := 2, children := [li, item] }] }] }
  let a : Snapshot := { Snapshot.leaf .element with name := "a" }
  let b : Snapshot := { Snapshot.leaf .element with
    name := "b", children := [{ Snapshot.leaf .element with name := "i" }] }
  have hparse : (parseTree "ul>(li.x+a)*2").toOption.map Snapshot.ofTree = some (list a) := by
    decide +kernel
  have hparse' : (parseTree "ul>(li.x+b>i)*2").toOption.map
      (fun t => (Snapshot.ofTree t, t.atPath [0, 0, 1])) = some (list b, some 4) := by
    decide +kernel
  obtain ⟨t, h, ht⟩ := exists_parseTree hparse
  obtain ⟨t', h', ht'⟩ := exists_parseTree hparse'
  obtain ⟨hlist, hpath⟩ := Prod.mk.inj ht'
  have hm : t'.firstMismatch? (Snapshot.ofTree t).childDescription =
      some ⟨[0, 0, 1], .element "a" "b"⟩ := by
    rw [Tree.firstMismatch?, ht, hlist]
    decide +kernel
  obtain ⟨-, before, i, after, -, -, -, hne, -⟩ := (Tree.met_by_described h h').2 _ hm
  exact ⟨t, t', h, h', _, hm, by decide +kernel, hpath, hne⟩

end
end Shorthand
