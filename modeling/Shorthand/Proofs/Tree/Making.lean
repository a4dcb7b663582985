import Shorthand.Proofs.Tree.Refusals
import Shorthand.Proofs.Tree.Tidy

/-! # Trees in the making

The builder itself does not keep its tree tidy: told so, it would give attributes to a group or leave
a place open. It is the order of the events that does, and so every tree on the way is tidy, whether
the text is accepted or not (`tidy_throughout`). -/

namespace Shorthand
open Grammar
open Snapshot (Scoped)

/-- Every node is tidy, and only the current one may be in progress. -/
def TreeBuilder.NodesTidy (b : TreeBuilder) : Prop :=
  b.tree.TidyWith b.current b.tree.children

/-- The builder holds the tree of the zipper, and its nodes are tidy. -/
structure Keeps (b : TreeBuilder) (z : Zipper) : Prop where
  represents : Represents b z
  tidy : b.NodesTidy

namespace TreeBuilder
variable {b : TreeBuilder} {parent : Nat} {n : Node}

theorem ascend_tree (b : TreeBuilder) (levels : Nat) : (b.ascend levels).tree = b.tree := by
  induction levels generalizing b with
  | zero => rfl
  | succ levels ih =>
    rw [ascend]
    split
    · split
      · rfl
      · exact ih _
    · rfl

theorem stepToGroup_tree (b : TreeBuilder) (bound : Nat) : (b.stepToGroup bound).tree = b.tree := by
  induction bound generalizing b with
  | zero => rfl
  | succ bound ih =>
    rw [stepToGroup]
    split
    · rfl
    · rw [ih, stepOut_tree]

theorem closeGroup_tree (b : TreeBuilder) : b.closeGroup.tree = b.tree := by
  rw [closeGroup, stepToGroup_tree, stepOut_tree]

theorem nodesTidy_openPlace (hl : b.tree.Linked)
    (h : b.tree.TidyWith b.tree.size b.tree.children) (hn : b.tree.node? parent = some n)
    (hprogress : n.kind ≠ .inProgress) (htext : n.kind ≠ .text) :
    (b.openPlace parent).NodesTidy := by
  have hp : parent < b.tree.size := Nat.lt_of_not_le fun hle => by
    rw [Tree.node?_eq_none_iff.2 hle] at hn
    cases hn
  exact (h.concat hn hprogress htext _).append hl hp (.inl ⟨rfl, rfl⟩)

theorem nodesTidy_sibling (hl : b.tree.Linked)
    (h : b.tree.TidyWith b.tree.size b.tree.children) (hp : b.tree.parent? b.current = some parent) :
    b.sibling.NodesTidy := by
  obtain ⟨n, hn, hprogress, htext⟩ := h.kind_parent hl hp
  rw [sibling, hp]
  exact nodesTidy_openPlace hl h hn hprogress htext

end TreeBuilder

theorem Phase.Fits.ne_inProgress {phase : Phase} {s : Snapshot} (h : phase.Fits s)
    (hphase : phase ≠ .vacant) : s.kind ≠ .inProgress := by
  cases phase with
  | vacant => exact absurd rfl hphase
  | tag => rw [h.1]; exact nofun
  | text => rw [show s.kind = .text from h]; exact nofun
  | item => rcases h with h | h <;> rw [h] <;> exact nofun

theorem Snapshot.Scoped.exists_seat {above : List Snapshot} (h : Scoped above) :
    ∃ parent, seat above = some parent := by
  cases above with
  | nil => exact absurd rfl h.ne_nil
  | cons a above => exact ⟨_, rfl⟩

namespace Keeps
variable {b : TreeBuilder} {z : Zipper} {p q : Progress} {e : Event} {phase : Phase} {d : Nat}

theorem node (h : Keeps b z) : ∃ n, b.tree.node? b.current = some n ∧ n.kind = z.node.kind ∧
    n.Tidy (b.tree.children b.current) := by
  obtain ⟨n, hn, -, hbare⟩ := h.represents.node?
  exact ⟨n, hn, congrArg Snapshot.kind hbare, (h.tidy _ _ hn).1⟩

/-- Behind an item no node is in progress. -/
theorem settled (h : Keeps b z) (hz : z.node.kind ≠ .inProgress) (i : Nat) :
    b.tree.TidyWith i b.tree.children := by
  obtain ⟨n, hn, hkind, -⟩ := h.node
  exact h.tidy.move hn (by rwa [hkind]) i

theorem change (h : Keeps b z) (g : Snapshot → Snapshot)
    (hg : ∀ (n : Node) (children : List Nat), n.kind = z.node.kind → n.Tidy children →
      (n.relabel g).Tidy children) :
    (b.modifyCurrent (Node.relabel g)).NodesTidy := by
  obtain ⟨n, hn, hkind, htidy⟩ := h.node
  have hchange := h.tidy.relabel g hn (hg n _ hkind htidy) fun _ => rfl
  rw [Function.update_eq_self] at hchange
  rw [TreeBuilder.NodesTidy, TreeBuilder.modifyCurrent, Tree.children_relabel h.represents.linked]
  exact hchange

theorem element (h : Keeps b z) (hz : z.node.kind = .inProgress) {name : String} (hname : name ≠ "") :
    (b.element name).NodesTidy := by
  rw [TreeBuilder.element, h.represents.isKind, hz, if_pos (beq_self_eq_true _)]
  exact h.change ({ · with kind := .element, name }) fun n _ _ htidy => ⟨hname, htidy.2⟩

theorem addAttribute (h : Keeps b z) (hz : z.node.kind = .element) (hc : z.node.children = [])
    (name value : String) : (b.addAttribute name value).1.NodesTidy := by
  have hstart : ¬ (b.tree.firstChild? b.current).any (b.isKind · .text) = true := by
    rw [h.represents.startsWithText, hc]
    exact nofun
  simp only [TreeBuilder.addAttribute, h.represents.isKind, hz, beq_iff_eq, reduceCtorEq, if_false,
    if_neg hstart]
  refine h.change (fun s =>
    { s with attributes := TreeBuilder.joinAttribute s.attributes name value }) ?_
  intro n children hkind htidy
  have hk : n.kind = .element := hkind.trans hz
  exact Node.tidy_of_allows hk (htidy.allows hk) htidy.2

theorem text (h : Keeps b z) (hz : z.node.kind = .inProgress) (content : String) :
    (b.text content).NodesTidy := by
  simp only [TreeBuilder.text, h.represents.isKind, hz, beq_iff_eq, reduceCtorEq, if_false, if_true]
  refine h.change (fun s => { s with kind := .text, name := s.name ++ content }) ?_
  intro n children hkind htidy
  obtain ⟨hchildren, hattributes, -⟩ := htidy.allows (hkind.trans hz)
  exact ⟨⟨hchildren, hattributes⟩, htidy.2⟩

theorem childText (h : Keeps b z) (hz : z.node.kind = .element) (content : String) :
    (b.text content).NodesTidy := by
  simp only [TreeBuilder.text, h.represents.isKind, hz, beq_iff_eq, reduceCtorEq, if_false]
  obtain ⟨n, hn, hkind, -⟩ := h.node
  rw [hz] at hkind
  have hsettled := h.settled (by rw [hz]; decide) b.tree.size
  have hconcat := hsettled.concat hn (by rw [hkind]; decide) (by rw [hkind]; decide) b.tree.size
  -- The builder stays on the element, but the new text is named as if it were the current node.
  have hnew : Keeps ⟨b.tree.append b.current .text, b.tree.size⟩ (z.descend .text) :=
    ⟨h.represents.descend .text,
      hconcat.append h.represents.linked h.represents.current_lt (.inr rfl)⟩
  have hname := hnew.change ({ · with name := content }) fun m _ hm htidy => by
    have hk : m.kind = .text := hm
    exact Node.tidy_of_allows hk (htidy.allows hk) htidy.2
  exact Keeps.settled ⟨hnew.represents.change ({ · with name := content }) (fun _ => rfl)
    fun _ => rfl, hname⟩ (show NodeKind.text ≠ .inProgress by decide) b.current

theorem multiply (h : Keeps b z) {count : Nat} (hcount : count ≤ maxCount) :
    (b.modifyCurrent ({ · with count })).NodesTidy :=
  h.change (·.withCount count) fun _ _ _ htidy => ⟨htidy.1, hcount⟩

theorem child (h : Keeps b z) (hz : z.node.kind ≠ .inProgress) : b.child.1.NodesTidy := by
  rw [TreeBuilder.child, h.represents.isKind]
  split
  · exact h.tidy
  · next htext =>
    obtain ⟨n, hn, hkind, -⟩ := h.node
    rw [beq_iff_eq, ← hkind] at htext
    rw [← hkind] at hz
    exact TreeBuilder.nodesTidy_openPlace h.represents.linked (h.settled (hkind ▸ hz) _) hn hz htext

theorem climb (h : Keeps b z) (hscope : Scoped z.above) (hz : z.node.kind ≠ .inProgress)
    (levels : Nat) : (b.climb levels).NodesTidy := by
  have hr := h.represents.ascend levels
  obtain ⟨parent, hparent⟩ := (Zipper.ascend_spec hscope levels).1.exists_seat
  refine TreeBuilder.nodesTidy_sibling hr.linked ?_ (hr.parent?.trans hparent)
  rw [TreeBuilder.ascend_tree]
  exact h.settled hz _

theorem openGroup (h : Keeps b z) (hz : z.node.kind = .inProgress) : b.openGroup.NodesTidy := by
  rw [TreeBuilder.openGroup, h.represents.isKind, hz, if_pos (beq_self_eq_true _)]
  have hl := h.represents.linked
  obtain ⟨n, hn, hkind, htidy⟩ := h.node
  obtain ⟨-, hattributes, hname⟩ := htidy.allows (hkind.trans hz)
  -- A group without a child is not tidy, so the place that is to be opened in it counts already.
  let g : Snapshot → Snapshot := ({ · with kind := .group })
  have hchildren : (n.relabel g).Tidy (b.tree.children b.current ++ [b.tree.size]) :=
    ⟨⟨by simp, hattributes, hname⟩, htidy.2⟩
  have hgroup := h.tidy.relabel g hn hchildren fun _ => rfl
  have hmodify : (b.tree.modify b.current (Node.relabel g)).node? b.current =
      some (n.relabel g) := by
    rw [Tree.node?_modify, if_pos rfl, hn, Option.map_some]
  have hmove := hgroup.move hmodify (show NodeKind.group ≠ .inProgress by decide) b.tree.size
  have hlt := h.represents.current_lt
  rw [← Tree.size_modify b.tree b.current (Node.relabel g)] at hmove hlt
  rw [← Tree.children_relabel hl b.current g] at hmove
  exact hmove.append (hl.relabel g _) hlt (.inl ⟨rfl, rfl⟩)

theorem closeGroup (h : Keeps b z) (hz : z.node.kind ≠ .inProgress) : b.closeGroup.NodesTidy := by
  rw [TreeBuilder.NodesTidy, TreeBuilder.closeGroup_tree]
  exact h.settled hz _

theorem accept (h : Keeps b z) (hz : Suits z p) (hs : Progress.Step p e q) :
    (Builder.accept b e).1.NodesTidy := by
  cases hs with
  | element hname => exact h.element (congrArg Snapshot.kind hz.node) hname
  | id name => exact h.addAttribute hz.node.1 hz.node.2 "id" name
  | className name => exact h.addAttribute hz.node.1 hz.node.2 "class" name
  | «attribute» name value => exact h.addAttribute hz.node.1 hz.node.2 name value
  | tagText content => exact h.childText hz.node.1 content
  | text content => exact h.text (congrArg Snapshot.kind hz.node) content
  | countTag hcount => exact h.multiply hcount
  | countText hcount => exact h.multiply hcount
  | countItem hcount => exact h.multiply hcount
  | operator hphase op =>
    have hprogress := hz.node.ne_inProgress hphase
    cases op with
    | child => exact h.child hprogress
    | sibling => exact h.climb hz.inScope hprogress 0
    | climb further => exact h.climb hz.inScope hprogress (further + 1)
  | openGroup => exact h.openGroup (congrArg Snapshot.kind hz.node)
  | closeGroup hphase => exact h.closeGroup (hz.node.ne_inProgress hphase)

/-- Either the event is taken, or the builder stays as it is. -/
theorem step (h : Keeps b z) (hz : Suits z p) (hs : Progress.Step p e q) :
    (∃ b' z', Builder.accept b e = (b', none) ∧ Keeps b' z' ∧ Suits z' q) ∨
      ∃ cause, Builder.accept b e = (b, some cause) := by
  have htidy := h.accept hz hs
  obtain ⟨hr, hrefusal⟩ := h.represents.accept e
  rcases hz.step hs with ⟨z', hz', hsuits⟩ | ⟨rfl, htext, -⟩
  · rw [hz'] at hr hrefusal
    exact .inl ⟨_, z', Prod.ext rfl hrefusal, ⟨hr, htidy⟩, hsuits⟩
  · have hkind : b.isKind b.current .text = true := by
      rw [h.represents.isKind, htext]
      rfl
    exact .inr ⟨.childOfText, if_pos hkind⟩

end Keeps

/-- A tree in the making is in order. -/
structure TreeBuilder.Tidy (b : TreeBuilder) : Prop where
  node : ∀ i n, b.tree.node? i = some n → n.Tidy (b.tree.children i)
  inProgress : ∀ i n, b.tree.node? i = some n → n.kind = .inProgress → i = b.current
  current_lt : b.current < b.tree.size
  current_ne : b.current ≠ Tree.root

theorem Keeps.builder_tidy {b : TreeBuilder} {z : Zipper} (h : Keeps b z) (hz : Scoped z.above) :
    b.Tidy where
  node i n hn := (h.tidy i n hn).1
  inProgress i n hn := (h.tidy i n hn).2
  current_lt := h.represents.current_lt
  current_ne := by
    obtain ⟨s, above⟩ := z
    cases above with
    | nil => exact absurd rfl hz.ne_nil
    | cons a above =>
      have := a.size_pos
      rw [h.represents.current]
      show Snapshot.sizeAll (a :: above) ≠ 0
      rw [Snapshot.sizeAll]
      omega

/-- A builder with all that it has been. -/
structure Traced (β : Type) where
  latest : β
  former : List β

namespace Traced
variable {β : Type}

def start (b : β) : Traced β := ⟨b, []⟩

/-- All states up to now, the latest first. -/
def states (s : Traced β) : List β := s.latest :: s.former

variable [Builder β]

instance : Builder (Traced β) where
  accept s e := (⟨(Builder.accept s.latest e).1, s.states⟩, (Builder.accept s.latest e).2)

theorem accept_eq {s : Traced β} {e : Event} {b : β} {refusal : Option BuildError}
    (h : Builder.accept s.latest e = (b, refusal)) :
    Builder.accept s e = (⟨b, s.states⟩, refusal) :=
  congrArg (fun c : β × Option BuildError => (Traced.mk c.1 s.states, c.2)) h

theorem feed (s : Traced β) (es : List Event) :
    (Builder.feed s es).1.latest = (Builder.feed s.latest es).1 ∧
      (Builder.feed s es).2 = (Builder.feed s.latest es).2 := by
  induction es generalizing s with
  | nil => exact ⟨rfl, rfl⟩
  | cons e es ih =>
    rcases h : Builder.accept s.latest e with ⟨b, _ | cause⟩
    · rw [Builder.feed_cons h, Builder.feed_cons (accept_eq h)]
      exact ih ⟨b, s.states⟩
    · rw [Builder.feed, Builder.feed, accept_eq h, h]
      exact ⟨rfl, rfl⟩

end Traced

/-- A run of events that comes in order only makes tidy trees. -/
theorem Keeps.feed {p q : Progress} {es : List Event} (hr : Progress.Run p es q) {z : Zipper}
    {s : Traced TreeBuilder} (h : Keeps s.latest z) (hz : Suits z p) (hs : ∀ b ∈ s.former, b.Tidy) :
    ∀ b ∈ (Builder.feed s es).1.states, b.Tidy := by
  have hstates {s : Traced TreeBuilder} {z : Zipper} {p : Progress} (h : Keeps s.latest z)
      (hz : Suits z p) (hs : ∀ b ∈ s.former, b.Tidy) : ∀ b ∈ s.states, b.Tidy := by
    rw [Traced.states, List.forall_mem_cons]
    exact ⟨h.builder_tidy hz.inScope, hs⟩
  induction hr generalizing z s with
  | nil => exact hstates h hz hs
  | @cons p q r e es hstep _ ih =>
    rcases h.step hz hstep with ⟨b', z', haccept, h', hz'⟩ | ⟨cause, haccept⟩
    · rw [Builder.feed_cons (Traced.accept_eq haccept)]
      exact ih h' hz' (hstates h hz hs)
    · rw [Builder.feed, Traced.accept_eq haccept]
      show ∀ b ∈ s.latest :: s.states, b.Tidy
      rw [List.forall_mem_cons]
      exact ⟨h.builder_tidy hz.inScope, hstates h hz hs⟩

theorem Keeps.start : Keeps TreeBuilder.start Zipper.start where
  represents := .start
  tidy := by
    have hroot : Tree.empty.node? Tree.root = some { kind := .root } := rfl
    have hempty : Tree.empty.TidyWith 1 Tree.empty.children := by
      intro i n hn
      cases i with
      | zero =>
        obtain rfl := Option.some.inj (hroot.symm.trans hn)
        exact ⟨⟨⟨rfl, rfl⟩, Nat.zero_le _⟩, nofun⟩
      | succ i => cases hn
    exact (hempty.concat hroot nofun nofun _).append Tree.linked_empty Nat.one_pos (.inl ⟨rfl, rfl⟩)

theorem finish_of_parseTree {source : String} {t : Tree} (h : parseTree source = .ok t) :
    (built (parse source TreeBuilder.start)).finish = .ok t := by
  rw [parseTree] at h
  cases hp : parse source TreeBuilder.start with
  | error e s =>
    rw [hp] at h
    cases h
  | ok _ s =>
    rw [hp] at h
    show s.builder.finish = .ok t
    cases hf : s.builder.finish with
    | error cause =>
      simp only [hf] at h
      cases h
    | ok t' =>
      simp only [hf] at h
      cases h
      rfl

theorem TreeBuilder.of_finish {b : TreeBuilder} {t : Tree} (h : b.finish = .ok t) :
    b.tree = t ∧ ∀ i n, t.node? i = some n → n.kind ≠ .inProgress := by
  rw [finish] at h
  split at h
  · cases h
  · next hany =>
    obtain rfl := Except.ok.inj h
    refine ⟨rfl, fun i n hn hk => hany ?_⟩
    rw [Array.any_eq_true']
    exact ⟨n, Array.mem_of_getElem? hn, beq_iff_eq.2 hk⟩

/-- What the tree builder has been while it was told a text. -/
def TreeBuilder.record (source : String) : Traced TreeBuilder :=
  built (parse source (Traced.start start))

/-- The tree is tidy after every event of every text, and finished once the text is accepted. -/
theorem tidy_throughout (source : String) :
    (TreeBuilder.record source).latest = built (parse source TreeBuilder.start) ∧
    (∀ b ∈ (TreeBuilder.record source).states, b.Tidy) ∧
    ∀ t, parseTree source = .ok t → t = (TreeBuilder.record source).latest.tree ∧
      ∀ i n, t.node? i = some n →
        n.kind ≠ .inProgress ∧ (n.kind = .group → t.children i ≠ []) := by
  have hlatest : (TreeBuilder.record source).latest = built (parse source TreeBuilder.start) := by
    rw [TreeBuilder.record, built_parse, (Traced.feed _ _).1, built_parse]
    rfl
  obtain ⟨p, hr⟩ := Progress.run_opening source
  have hstates : ∀ b ∈ (TreeBuilder.record source).states, b.Tidy := by
    rw [TreeBuilder.record, built_parse]
    exact Keeps.feed hr .start .start nofun
  refine ⟨hlatest, hstates, fun t ht => ?_⟩
  have hfinish := finish_of_parseTree ht
  rw [← hlatest] at hfinish
  obtain ⟨rfl, hfinished⟩ := TreeBuilder.of_finish hfinish
  refine ⟨rfl, fun i n hn => ⟨hfinished i n hn, fun hk => ?_⟩⟩
  exact (((hstates _ List.mem_cons_self).node i n hn).allows hk).1

/-- A group with two items and a count. -/
theorem finished_group : ∃ t, parseTree "p>(a\x7bx\x7d+b)*3" = .ok t ∧
    t.kind? 2 = some .group ∧ t.children 2 ≠ [] := by
  have hkind : (parseTree "p>(a\x7bx\x7d+b)*3").toOption.map (·.kind? 2) = some (some .group) := by
    decide +kernel
  obtain ⟨t, ht, hgroup⟩ := exists_parseTree hkind
  obtain ⟨-, -, hfinished⟩ := tidy_throughout "p>(a\x7bx\x7d+b)*3"
  obtain ⟨-, hnodes⟩ := hfinished t ht
  obtain ⟨n, hn, hk⟩ := Option.map_eq_some_iff.1 hgroup
  exact ⟨t, ht, hgroup, (hnodes 2 n hn).2 hk⟩

end Shorthand
