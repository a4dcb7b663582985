import Mathlib.Data.List.Infix
import Shorthand.Proofs.Tree.Leaves

/-! # Groups hold what is written in them

A builder keeps no list of the groups that are open. All the same, what it is told while a group is
open stays below the node of that group (`nothing_escapes`): a climb stops below the nearest group, and
the end of a group leads to the nearest group around, which is the one that ends or one inside it. -/

namespace Shorthand
open Grammar

namespace Tree
variable {t t' t'' : Tree} {g i parent : Nat} {kind : NodeKind} {f : Snapshot → Snapshot}

/-- On the way from `t` to `t'` every group stays one, and every node stays where it is. -/
structure Extends (t t' : Tree) : Prop where
  group : ∀ g, t.kind? g = some .group → t'.kind? g = some .group
  parent : ∀ i p, t.parent? i = some p → t'.parent? i = some p

namespace Extends

theorem refl (t : Tree) : t.Extends t := ⟨fun _ h => h, fun _ _ h => h⟩

theorem trans (h : t.Extends t') (h' : t'.Extends t'') : t.Extends t'' where
  group g hg := h'.group g (h.group g hg)
  parent i p hp := h'.parent i p (h.parent i p hp)

theorem above (h : t.Extends t') (hi : t.Above g i) : t'.Above g i :=
  Relation.TransGen.mono (fun p i => h.parent i p) g i hi

end Extends

theorem extends_append (t : Tree) (parent : Nat) (kind : NodeKind) :
    t.Extends (t.append parent kind) where
  group g hg := by
    obtain ⟨n, hn, -⟩ := kind?_eq_some.1 hg
    have hne : g ≠ t.size := by
      rintro rfl
      rw [node?_eq_none_iff.2 (Nat.le_refl _)] at hn
      cases hn
    rw [kind?_append_of_ne hne, hg]
  parent i p hp := by
    rw [parent?_append, if_neg (Nat.ne_of_lt (lt_size_of_parent? hp)), hp]

theorem extends_relabel (h : ∀ n, t.node? i = some n → n.kind = .group → (n.relabel f).kind = .group) :
    t.Extends (t.modify i (Node.relabel f)) where
  group g hg := by
    obtain ⟨n, hn, hk⟩ := kind?_eq_some.1 hg
    rw [kind?_eq_some]
    by_cases hi : i = g
    · subst hi
      exact ⟨_, by rw [node?_modify, if_pos rfl, hn, Option.map_some], h n hn hk⟩
    · exact ⟨n, by rw [node?_modify, if_neg hi, hn], hk⟩
  parent j p hp := by rw [parent?_relabel, hp]

theorem kind?_append_size (t : Tree) (parent : Nat) (kind : NodeKind) :
    (t.append parent kind).kind? t.size = some kind := by
  rw [kind?_entries, entries_append, ← length_entries, List.getElem?_concat_length]
  rfl

/-- Every node that is new in `t'` is below `g`. -/
def Encloses (g : Nat) (t t' : Tree) : Prop := ∀ i, t.size ≤ i → i < t'.size → t'.Above g i

theorem encloses_of_size_le (h : t'.size ≤ t.size) : Encloses g t t' := fun _ hlo hhi =>
  absurd (Nat.lt_of_lt_of_le hhi h) (Nat.not_lt_of_le hlo)

theorem Encloses.trans (h : Encloses g t t') (h' : Encloses g t' t'') (he : t'.Extends t'') :
    Encloses g t t'' := by
  intro i hlo hhi
  by_cases hi : i < t'.size
  · exact he.above (h i hlo hi)
  · exact h' i (Nat.le_of_not_lt hi) hhi

/-- The new node is below all that its parent is below. -/
theorem above_append (h : g = parent ∨ t.Above g parent) : (t.append parent kind).Above g t.size := by
  have hparent : (t.append parent kind).parent? t.size = some parent := by
    rw [parent?_append, if_pos rfl]
  exact above_iff.2 ⟨parent, hparent, h.imp_right (extends_append t parent kind).above⟩

theorem encloses_append (h : g = parent ∨ t.Above g parent) :
    Encloses g t (t.append parent kind) := by
  intro i hlo hhi
  rw [size_append] at hhi
  obtain rfl : i = t.size := by omega
  exact above_append h

end Tree

namespace TreeBuilder
variable {b b' b'' : TreeBuilder} {g i parent : Nat} {kind : NodeKind} {n : Node} {e : Event}

theorem kind_of_isKind (hk : b.isKind i kind) (hn : b.tree.node? i = some n) : n.kind = kind := by
  rw [isKind, Tree.kind?, hn] at hk
  exact Option.some.inj (beq_iff_eq.1 hk)

/-- Nothing is appended, and the builder stays at its node. -/
structure Relabelled (b b' : TreeBuilder) : Prop where
  tree : b.tree.Extends b'.tree
  size : b'.tree.size = b.tree.size
  current : b'.current = b.current

theorem Relabelled.refl (b : TreeBuilder) : b.Relabelled b := ⟨.refl _, rfl, rfl⟩

theorem Relabelled.trans (h : b.Relabelled b') (h' : b'.Relabelled b'') : b.Relabelled b'' :=
  ⟨h.tree.trans h'.tree, h'.size.trans h.size, h'.current.trans h.current⟩

theorem relabelled_modify (b : TreeBuilder) (f : Snapshot → Snapshot)
    (h : ∀ n, b.tree.node? b.current = some n → n.kind = .group → (n.relabel f).kind = .group) :
    b.Relabelled (b.modifyCurrent (Node.relabel f)) :=
  ⟨Tree.extends_relabel h, Tree.size_modify .., rfl⟩

/-- A node in progress is no group, so it can become anything. -/
theorem relabelled_resolve (hk : b.isKind b.current .inProgress) (f : Snapshot → Snapshot) :
    b.Relabelled (b.modifyCurrent (Node.relabel f)) := by
  refine relabelled_modify b f fun n hn hg => ?_
  rw [kind_of_isKind hk hn] at hg
  cases hg

theorem relabelled_element (b : TreeBuilder) (name : String) : b.Relabelled (b.element name) := by
  rw [element]
  split
  · next hk => exact relabelled_resolve hk ({ · with kind := .element, name })
  · exact .refl b

/-- An attribute makes a node in progress an element, and is put there unless it comes too late. -/
theorem addAttribute_cases (b : TreeBuilder) (name value : String) : ∃ b' : TreeBuilder,
    (b' = b ∨ b.isKind b.current .inProgress ∧
      b' = b.modifyCurrent (Node.relabel ({ · with kind := .element }))) ∧
    ((b.addAttribute name value).1 = b' ∨ (b.addAttribute name value).1 = b'.modifyCurrent
      (Node.relabel fun s => { s with attributes := joinAttribute s.attributes name value })) := by
  rw [addAttribute]
  split
  · exact ⟨b, .inl rfl, .inl rfl⟩
  · obtain ⟨b', hb'⟩ : ∃ b', b' =
        if b.isKind b.current .inProgress then b.modifyCurrent ({ · with kind := .element }) else b :=
      ⟨_, rfl⟩
    rw [← hb']
    refine ⟨b', ?_, ?_⟩
    · rw [hb']
      split
      · next hk => exact .inr ⟨hk, rfl⟩
      · exact .inl rfl
    · dsimp only
      split
      · exact .inl rfl
      · exact .inr rfl

theorem relabelled_addAttribute (b : TreeBuilder) (name value : String) :
    b.Relabelled (b.addAttribute name value).1 := by
  obtain ⟨b', hb', h⟩ := b.addAttribute_cases name value
  have hresolved : b.Relabelled b' := by
    rcases hb' with rfl | ⟨hk, rfl⟩
    · exact .refl _
    · exact relabelled_resolve hk _
  rcases h with h | h
  · rwa [h]
  · rw [h]
    exact hresolved.trans (relabelled_modify b' _ fun _ _ hg => hg)

theorem relabelled_multiply (b : TreeBuilder) (count : Nat) :
    b.Relabelled (b.modifyCurrent ({ · with count })) :=
  relabelled_modify b (·.withCount count) fun _ _ hg => hg

/-- A node is appended, and the builder moves there. -/
def appendAndMove (b : TreeBuilder) (parent : Nat) (kind : NodeKind) : TreeBuilder :=
  ⟨b.tree.append parent kind, b.tree.size⟩

/-- A text that does not fill the place becomes a child. -/
theorem text_cases (b : TreeBuilder) (content : String) :
    b.Relabelled (b.text content) ∨
      (b.appendAndMove b.current .text).Relabelled { b.text content with current := b.tree.size } ∧
        (b.text content).current = b.current := by
  rw [text]
  split
  · exact .inl (relabelled_modify b (fun s => { s with name := s.name ++ content }) fun _ _ hg => hg)
  · split
    · next hk =>
      exact .inl (relabelled_resolve hk fun s => { s with kind := .text, name := s.name ++ content })
    · exact .inr ⟨relabelled_modify _ ({ · with name := content }) fun _ _ hg => hg, rfl⟩

/-- The node that becomes the group if one is opened. -/
def groupToOpen (b : TreeBuilder) : Nat :=
  if b.isKind b.current .inProgress then b.current else b.tree.size

theorem kind?_groupToOpen (b : TreeBuilder) : b.tree.kind? b.groupToOpen ≠ some .group := by
  rw [groupToOpen]
  split
  · next hk =>
    rw [isKind, beq_iff_eq] at hk
    rw [hk]
    decide
  · rw [Tree.kind?, Tree.node?_eq_none_iff.2 (Nat.le_refl _)]
    exact (Option.some_ne_none _).symm

/-- A group is made, and a place is opened in it. -/
theorem openGroup_cases (b : TreeBuilder) :
    ∃ b', (b.Relabelled b' ∨ b' = b.appendAndMove b.current .group) ∧
      b'.current = b.groupToOpen ∧ b'.tree.kind? b'.current = some .group ∧
      b.openGroup = b'.appendAndMove b'.current .inProgress := by
  rw [openGroup, groupToOpen]
  split
  · next hk =>
    refine ⟨_, .inl (relabelled_resolve hk ({ · with kind := .group })), rfl, ?_, rfl⟩
    obtain ⟨n, hn, -⟩ := Tree.kind?_eq_some.1 (beq_iff_eq.1 hk)
    exact (Tree.kind?_relabel hn _).trans (if_pos rfl)
  · exact ⟨_, .inr rfl, rfl, Tree.kind?_append_size .., rfl⟩

/-! ### Below a group -/

/-- The builder stands below the group `g`. -/
structure Inside (b : TreeBuilder) (g : Nat) : Prop where
  group : b.tree.kind? g = some .group
  above : b.tree.Above g b.current

/-- On the way from `b` to `b'` the tree grows below `g`, where the builder stays. -/
structure Stays (g : Nat) (b b' : TreeBuilder) : Prop where
  tree : b.tree.Extends b'.tree
  inside : b'.Inside g
  encloses : Tree.Encloses g b.tree b'.tree

theorem Stays.trans (h : Stays g b b') (h' : Stays g b' b'') : Stays g b b'' where
  tree := h.tree.trans h'.tree
  inside := h'.inside
  encloses := h.encloses.trans h'.encloses h'.tree

namespace Inside

theorem relabelled (h : b.Inside g) (hb : b.Relabelled b') : Stays g b b' where
  tree := hb.tree
  inside := ⟨hb.tree.group g h.group, hb.current ▸ hb.tree.above h.above⟩
  encloses := Tree.encloses_of_size_le (Nat.le_of_eq hb.size)

theorem appended (h : b.Inside g) (hp : g = parent ∨ b.tree.Above g parent) (kind : NodeKind) :
    Stays g b (b.appendAndMove parent kind) where
  tree := Tree.extends_append ..
  inside := ⟨(Tree.extends_append ..).group g h.group, Tree.above_append hp⟩
  encloses := Tree.encloses_append hp

theorem ne_of_not_isScope (h : b.Inside g) (hp : ¬ b.isScope parent) : g ≠ parent := by
  rintro rfl
  rw [isScope, isKind, isKind, h.group] at hp
  exact hp rfl

/-- A climb does not leave the group. -/
theorem ascend (h : b.Inside g) (levels : Nat) : (b.ascend levels).Inside g := by
  induction levels generalizing b with
  | zero => exact h
  | succ levels ih =>
    obtain ⟨p, hp, hg⟩ := Tree.above_iff.1 h.above
    rw [TreeBuilder.ascend, hp]
    dsimp only
    split
    · exact h
    · next hscope => exact ih ⟨h.group, hg.resolve_left (h.ne_of_not_isScope hscope)⟩

theorem sibling (h : b.Inside g) : Stays g b b.sibling := by
  obtain ⟨p, hp, hg⟩ := Tree.above_iff.1 h.above
  rw [TreeBuilder.sibling, hp]
  exact h.appended hg .inProgress

theorem climb (h : b.Inside g) (levels : Nat) : Stays g b (b.climb levels) := by
  have hsibling := (h.ascend levels).sibling
  have htree := b.ascend_tree levels
  exact ⟨htree ▸ hsibling.tree, hsibling.inside, htree ▸ hsibling.encloses⟩

theorem child (h : b.Inside g) : Stays g b b.child.1 := by
  rw [TreeBuilder.child]
  split
  · exact h.relabelled (.refl b)
  · exact h.appended (.inr h.above) .inProgress

theorem text (h : b.Inside g) (content : String) : Stays g b (b.text content) := by
  rcases b.text_cases content with hb | ⟨hb, hcurrent⟩
  · exact h.relabelled hb
  · have happend := h.appended (.inr h.above) .text
    have hstays := happend.trans (happend.inside.relabelled hb)
    refine ⟨hstays.tree, ⟨hstays.inside.group, ?_⟩, hstays.encloses⟩
    rw [hcurrent]
    exact hstays.tree.above h.above

theorem openGroup (h : b.Inside g) : Stays g b b.openGroup := by
  obtain ⟨b', hb', -, -, hopen⟩ := b.openGroup_cases
  have hstays : Stays g b b' := by
    rcases hb' with hb' | rfl
    · exact h.relabelled hb'
    · exact h.appended (.inr h.above) .group
  rw [hopen]
  exact hstays.trans (hstays.inside.appended (.inr hstays.inside.above) .inProgress)

/-- What does not end a group is done below all groups that are open. -/
theorem accept (h : b.Inside g) (he : e ≠ .closeGroup) : Stays g b (Builder.accept b e).1 := by
  cases e with
  | element name => exact h.relabelled (b.relabelled_element name)
  | id name => exact h.relabelled (b.relabelled_addAttribute "id" name)
  | className name => exact h.relabelled (b.relabelled_addAttribute "class" name)
  | «attribute» name value => exact h.relabelled (b.relabelled_addAttribute name value)
  | text content => exact h.text content
  | multiply count => exact h.relabelled (b.relabelled_multiply count)
  | child => exact h.child
  | sibling => exact h.sibling
  | climb levels => exact h.climb levels
  | openGroup => exact h.openGroup
  | closeGroup => exact absurd rfl he

end Inside

/-- The group `g` is where the builder stands, or above. -/
def AtOrInside (b : TreeBuilder) (g : Nat) : Prop :=
  b.tree.kind? g = some .group ∧ (g = b.current ∨ b.tree.Above g b.current)

theorem Inside.stepOut (h : b.Inside g) : b.stepOut.AtOrInside g := by
  obtain ⟨p, hp, hg⟩ := Tree.above_iff.1 h.above
  rw [TreeBuilder.stepOut, hp]
  dsimp only
  split
  · exact ⟨h.group, .inr h.above⟩
  · exact ⟨h.group, hg⟩

theorem AtOrInside.inside (h : b.AtOrInside g) (hk : ¬ b.isKind b.current .group) : b.Inside g := by
  obtain ⟨hgroup, hg⟩ := h
  have hne : g ≠ b.current := by
    rintro rfl
    rw [isKind, hgroup] at hk
    exact hk rfl
  exact ⟨hgroup, hg.resolve_left hne⟩

theorem AtOrInside.stepToGroup (h : b.AtOrInside g) (bound : Nat) :
    (b.stepToGroup bound).AtOrInside g := by
  induction bound generalizing b with
  | zero => exact h
  | succ bound ih =>
    rw [TreeBuilder.stepToGroup]
    split
    · exact h
    · next hk => exact ih (h.inside hk).stepOut

/-- The end of a group does not lead farther than to the innermost group around. -/
theorem Inside.closeGroup (h : b.Inside g) : b.closeGroup.AtOrInside g :=
  h.stepOut.stepToGroup b.tree.size

theorem extends_accept (b : TreeBuilder) (e : Event) :
    b.tree.Extends (Builder.accept b e).1.tree := by
  cases e with
  | element name => exact (b.relabelled_element name).tree
  | id name => exact (b.relabelled_addAttribute "id" name).tree
  | className name => exact (b.relabelled_addAttribute "class" name).tree
  | «attribute» name value => exact (b.relabelled_addAttribute name value).tree
  | text content =>
    rcases b.text_cases content with hb | ⟨hb, -⟩
    · exact hb.tree
    · exact (Tree.extends_append ..).trans hb.tree
  | multiply count => exact (b.relabelled_multiply count).tree
  | child =>
    show b.tree.Extends b.child.1.tree
    rw [child]
    split
    · exact .refl _
    · exact Tree.extends_append ..
  | sibling => exact Tree.extends_append ..
  | climb levels =>
    have hsibling : (b.ascend levels).tree.Extends (b.climb levels).tree := Tree.extends_append ..
    rwa [ascend_tree] at hsibling
  | openGroup =>
    obtain ⟨b', hb', -, -, hopen⟩ := b.openGroup_cases
    show b.tree.Extends b.openGroup.tree
    rw [hopen]
    rcases hb' with hb' | rfl
    · exact hb'.tree.trans (Tree.extends_append ..)
    · exact (Tree.extends_append ..).trans (Tree.extends_append ..)
  | closeGroup =>
    show b.tree.Extends b.closeGroup.tree
    rw [closeGroup_tree]
    exact .refl _

theorem extends_run (b : TreeBuilder) (es : List Event) : b.tree.Extends (Builder.run b es).tree := by
  induction es generalizing b with
  | nil => exact .refl _
  | cons e es ih => exact (b.extends_accept e).trans (ih _)

/-! ### Open groups -/

/-- The groups that are open, the innermost one first. -/
structure Open (b : TreeBuilder) (gs : List Nat) : Prop where
  inside : ∀ g ∈ gs, b.Inside g
  nested : gs.Pairwise fun inner outer => b.tree.Above outer inner

theorem parent?_openGroup (b : TreeBuilder) :
    b.openGroup.tree.parent? b.openGroup.current = some b.groupToOpen := by
  obtain ⟨b', -, hcurrent, -, hopen⟩ := b.openGroup_cases
  rw [hopen, ← hcurrent]
  exact Tree.parent?_append.trans (if_pos rfl)

theorem inside_openGroup (b : TreeBuilder) : b.openGroup.Inside b.groupToOpen where
  group := by
    obtain ⟨b', -, hcurrent, hgroup, hopen⟩ := b.openGroup_cases
    rw [hopen, ← hcurrent]
    exact (Tree.extends_append ..).group _ hgroup
  above := Tree.above_iff.2 ⟨_, b.parent?_openGroup, .inl rfl⟩

/-- A group that is opened inside another is below it. -/
theorem Inside.above_groupToOpen (h : b.Inside g) : b.openGroup.tree.Above g b.groupToOpen := by
  obtain ⟨q, hq, hg⟩ := Tree.above_iff.1 h.openGroup.inside.above
  obtain rfl : b.groupToOpen = q := Option.some.inj (b.parent?_openGroup.symm.trans hq)
  refine hg.resolve_left ?_
  rintro rfl
  exact b.kind?_groupToOpen h.group

namespace Open
variable {gs : List Nat} {es : List Event}

theorem openGroup (h : b.Open gs) : b.openGroup.Open (b.groupToOpen :: gs) where
  inside := by
    rw [List.forall_mem_cons]
    exact ⟨b.inside_openGroup, fun g hg => (h.inside g hg).openGroup.inside⟩
  nested := by
    refine .cons (fun g hg => (h.inside g hg).above_groupToOpen) ?_
    refine h.nested.imp_of_mem fun _ hg habove => ?_
    exact (h.inside _ hg).openGroup.tree.above habove

theorem closeGroup (h : b.Open (g :: gs)) : b.closeGroup.Open gs := by
  obtain ⟨hg, hgs⟩ := List.forall_mem_cons.1 h.inside
  obtain ⟨houter, hnested⟩ := List.pairwise_cons.1 h.nested
  have hclose := hg.closeGroup
  rw [AtOrInside, closeGroup_tree] at hclose
  constructor
  case inside =>
    intro outer hmem
    have habove : b.tree.Above outer b.closeGroup.current := by
      rcases hclose.2 with heq | hlt
      · exact heq ▸ houter outer hmem
      · exact (houter outer hmem).trans hlt
    rw [← closeGroup_tree] at habove
    exact ⟨b.closeGroup_tree ▸ (hgs outer hmem).group, habove⟩
  case nested =>
    rwa [closeGroup_tree]

theorem accept (h : b.Open gs) (hc : e ≠ .closeGroup) :
    (Builder.accept b e).1.Open gs where
  inside g hg := ((h.inside g hg).accept hc).inside
  nested := h.nested.imp_of_mem fun _ hg habove => ((h.inside _ hg).accept hc).tree.above habove

end Open

end TreeBuilder

/-- None of the events ends a group that was open before. -/
def StaysOpen (es : List Event) : Prop :=
  ∀ pre, pre <+: es → pre.count .closeGroup ≤ pre.count .openGroup

namespace StaysOpen
variable {es : List Event} {e : Event}

instance (es : List Event) : Decidable (StaysOpen es) :=
  decidable_of_iff (∀ pre ∈ es.inits, pre.count .closeGroup ≤ pre.count .openGroup) <| by
    simp only [StaysOpen, List.mem_inits]

theorem of_concat (h : StaysOpen (es ++ [e])) : StaysOpen es :=
  fun pre hpre => h pre (hpre.trans (List.prefix_append es [e]))

theorem count_le (h : StaysOpen es) : es.count .closeGroup ≤ es.count .openGroup :=
  h es (List.prefix_refl es)

end StaysOpen

namespace TreeBuilder
variable {b : TreeBuilder} {g : Nat} {es : List Event}

/-- As long as the group `g` is open, there are `g` and the groups that were opened in it. -/
theorem Open.run (h : b.Open [g]) (hes : StaysOpen es) :
    Stays g b (Builder.run b es) ∧ ∃ inner : List Nat,
      (Builder.run b es).Open (inner ++ [g]) ∧
        inner.length + es.count .closeGroup = es.count .openGroup := by
  induction es using List.reverseRecOn with
  | nil =>
    have hg := h.inside g (List.mem_singleton_self g)
    exact ⟨hg.relabelled (.refl b), [], h, rfl⟩
  | append_singleton es e ih =>
    obtain ⟨hstays, inner, hopen, hcount⟩ := ih hes.of_concat
    have hle := hes.count_le
    simp only [List.count_append, List.count_singleton] at hle ⊢
    rw [Builder.run_concat]
    -- Only the end of a group leaves one, and while `g` stays open that is an inner one.
    by_cases hc : e = .closeGroup
    · subst hc
      cases inner with
      | nil =>
        simp at hle hcount
        omega
      | cons g' inner =>
        have hclose : (Builder.run b es).closeGroup.Open (inner ++ [g]) := hopen.closeGroup
        have htree := (Builder.run b es).closeGroup_tree
        refine ⟨⟨?_, hclose.inside g (by simp), ?_⟩, inner, hclose, ?_⟩
        · exact (congrArg b.tree.Extends htree).mpr hstays.tree
        · exact (congrArg (Tree.Encloses g b.tree) htree).mpr hstays.encloses
        · simp at hcount ⊢
          omega
    · have hstep := (hopen.inside g (by simp)).accept hc
      refine ⟨hstays.trans hstep, ?_⟩
      by_cases ho : e = .openGroup
      · subst ho
        refine ⟨_ :: inner, hopen.openGroup, ?_⟩
        simp
        omega
      · refine ⟨inner, hopen.accept hc, ?_⟩
        simp [ho, hc, hcount]

end TreeBuilder

/-- A builder and the events that it was told, the last one first. A refused event is among them. -/
structure Told (β : Type) where
  builder : β
  latest : List Event

namespace Told
variable {β : Type}

def start (b : β) : Told β := ⟨b, []⟩

/-- The events in the order in which they were told. -/
def events (s : Told β) : List Event := s.latest.reverse

variable [Builder β]

instance : Builder (Told β) where
  accept s e := (⟨(Builder.accept s.builder e).1, e :: s.latest⟩, (Builder.accept s.builder e).2)

theorem feed (s : Told β) (es : List Event) : ∃ told,
    (Builder.feed s es).1 = ⟨Builder.run s.builder told, told.reverse ++ s.latest⟩ ∧
      Builder.run s.builder told = (Builder.feed s.builder es).1 := by
  induction es generalizing s with
  | nil => exact ⟨[], rfl, rfl⟩
  | cons e es ih =>
    obtain ⟨b, hb⟩ : ∃ b, b = (Builder.accept s.builder e).1 := ⟨_, rfl⟩
    cases hr : (Builder.accept s.builder e).2 with
    | none =>
      have haccept : Builder.accept s.builder e = (b, none) := Prod.ext hb.symm hr
      have htold : Builder.accept s e = (⟨b, e :: s.latest⟩, none) :=
        Prod.ext (congrArg (Told.mk · (e :: s.latest)) hb.symm) hr
      obtain ⟨told, hfed, hrun⟩ := ih ⟨b, e :: s.latest⟩
      subst hb
      refine ⟨e :: told, ?_, ?_⟩
      · rw [Builder.feed_cons htold, hfed, List.reverse_cons, List.append_assoc]
        rfl
      · rw [Builder.feed_cons haccept, ← hrun]
        rfl
    -- A builder that refuses has been told all the same, but is told nothing more.
    | some cause =>
      have haccept : Builder.accept s.builder e = (b, some cause) := Prod.ext hb.symm hr
      have htold : Builder.accept s e = (⟨b, e :: s.latest⟩, some cause) :=
        Prod.ext (congrArg (Told.mk · (e :: s.latest)) hb.symm) hr
      subst hb
      exact ⟨[e], by rw [Builder.feed, htold]; rfl, by rw [Builder.feed, haccept]; rfl⟩

end Told

/-- What the tree builder was told while a text was read, and what it has built. -/
def TreeBuilder.account (source : String) : Told TreeBuilder :=
  built (parse source (Told.start TreeBuilder.start))

theorem TreeBuilder.account_eq (source : String) :
    (account source).builder = built (parse source start) ∧
      (account source).builder = Builder.run start (account source).events := by
  obtain ⟨told, hfed, hrun⟩ := Told.feed (Told.start start) (opening source).events
  rw [account, built_parse, built_parse, hfed]
  refine ⟨hrun, ?_⟩
  rw [Told.events, Told.start, List.append_nil, List.reverse_reverse]

/-- All nodes that a text makes between the two parentheses of a group, or behind a parenthesis that
is never closed, are below the group that the opening parenthesis has made. -/
theorem nothing_escapes (source : String) :
    (TreeBuilder.account source).builder = built (parse source TreeBuilder.start) ∧
    (TreeBuilder.account source).builder =
      Builder.run TreeBuilder.start (TreeBuilder.account source).events ∧
    ∀ before inside after,
      (TreeBuilder.account source).events = before ++ .openGroup :: inside ++ after →
      StaysOpen inside →
      let b := Builder.run TreeBuilder.start before
      let opened := Builder.run TreeBuilder.start (before ++ [.openGroup])
      let later := Builder.run TreeBuilder.start (before ++ .openGroup :: inside)
      let t := (TreeBuilder.account source).builder.tree
      b.tree.kind? b.groupToOpen ≠ some .group ∧ opened.tree.kind? b.groupToOpen = some .group ∧
      t.kind? b.groupToOpen = some .group ∧
      t.parent? opened.current = some b.groupToOpen ∧
      t.Above b.groupToOpen later.current ∧
      ∀ i, opened.tree.size ≤ i → i < later.tree.size → t.Above b.groupToOpen i := by
  obtain ⟨hbuilt, hrun⟩ := TreeBuilder.account_eq source
  refine ⟨hbuilt, hrun, fun before inside after hevents hopen => ?_⟩
  intro b opened later t
  -- The group is opened, stays open through `inside`, and what comes `after` only extends the tree.
  have hopened : opened = b.openGroup := Builder.run_concat ..
  have hlater : later = Builder.run opened inside := by
    show Builder.run _ (before ++ .openGroup :: inside) = _
    rw [Builder.run, List.foldl_append, hopened]
    rfl
  have hfinal : (TreeBuilder.account source).builder = Builder.run later after := by
    rw [hrun, hevents, Builder.run, List.foldl_append]
    rfl
  have hgroup : opened.Open [b.groupToOpen] := by
    rw [hopened]
    exact (⟨nofun, .nil⟩ : b.Open []).openGroup
  obtain ⟨hstays, -⟩ := hgroup.run hopen
  rw [← hlater] at hstays
  have hextends : later.tree.Extends t := by
    show later.tree.Extends (TreeBuilder.account source).builder.tree
    rw [hfinal]
    exact later.extends_run after
  refine ⟨b.kind?_groupToOpen, ?_, ?_, ?_, ?_, fun i hlo hhi => ?_⟩
  · rw [hopened]
    exact b.inside_openGroup.group
  · exact hextends.group _ hstays.inside.group
  · refine hextends.parent _ _ (hstays.tree.parent _ _ ?_)
    rw [hopened]
    exact b.parent?_openGroup
  · exact hextends.above hstays.inside.above
  · exact hextends.above (hstays.encloses i hlo hhi)

/-- A group that is never closed, with a group in it that is entered again, a climb that is too high,
and another group that is not closed either. -/
theorem below_unclosed_group : (built (parse "x+(a>(b)>c^^^d+(e" TreeBuilder.start)).tree.size = 10 ∧
    ∀ i, 2 < i → i < 10 →
      (built (parse "x+(a>(b)>c^^^d+(e" TreeBuilder.start)).tree.Above 2 i := by
  obtain ⟨hbuilt, -, henclosed⟩ := nothing_escapes "x+(a>(b)>c^^^d+(e"
  have hevents : (TreeBuilder.account "x+(a>(b)>c^^^d+(e").events =
      ([.element "x", .sibling] : List Event) ++ .openGroup :: ([.element "a", .child, .openGroup,
        .element "b", .closeGroup, .child, .element "c", .climb 3, .element "d", .sibling, .openGroup,
        .element "e"] : List Event) ++ [] := by
    decide +kernel
  obtain ⟨-, -, -, hplace, -, hbelow⟩ := henclosed _ _ _ hevents (by decide +kernel)
  rw [hbuilt] at hplace hbelow
  have hsize : (built (parse "x+(a>(b)>c^^^d+(e" TreeBuilder.start)).tree.size = 10 := by
    decide +kernel
  refine ⟨hsize, fun i hlo hhi => ?_⟩
  by_cases hi : i = 3
  · subst hi
    exact Tree.above_iff.2 ⟨2, hplace, .inl rfl⟩
  · exact hbelow i (show 4 ≤ i by omega) hhi

end Shorthand
