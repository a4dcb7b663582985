import Shorthand.Proofs.Grammar.Phases
import Shorthand.Proofs.Tree.Finished

/-! # What the tree builder refuses

The node at the place of a zipper is of the kind that the order of the events says (`Suits.step`). So
of what the grammar lets pass only a child of a text is refused, and it can be seen from the events
where that happens (`parseTree_refusals`). -/

namespace Shorthand
open Grammar Shorthand.Derivation
open Snapshot (leaf Scoped openGroups)

/-- What the current node is like in a phase. -/
def Phase.Fits : Phase → Snapshot → Prop
  | vacant, s => s = leaf .inProgress
  | tag, s => s.kind = .element ∧ s.children = []
  | text _, s => s.kind = .text
  | item _, s => s.kind = .element ∨ s.kind = .group

/-- The place of a zipper suits the progress. -/
structure Suits (z : Zipper) (p : Progress) : Prop where
  inScope : Scoped z.above
  groups : p.depth ≤ openGroups z.above
  node : p.phase.Fits z.node

variable {z z' : Zipper} {p q : Progress} {e : Event} {es : List Event}

theorem Phase.Fits.ne_root {phase : Phase} {s : Snapshot} (h : phase.Fits s) : s.kind ≠ .root := by
  cases phase with
  | vacant => rw [show s = leaf .inProgress from h]; exact nofun
  | tag => rw [h.1]; exact nofun
  | text => rw [show s.kind = .text from h]; exact nofun
  | item => rcases h with h | h <;> rw [h] <;> exact nofun

theorem Phase.Fits.eq_text {phase : Phase} {s : Snapshot} (h : phase.Fits s)
    (hs : s.kind = .text) : ∃ counted, phase = .text counted := by
  cases phase with
  | vacant => rw [show s = leaf .inProgress from h] at hs; cases hs
  | tag => rw [h.1] at hs; cases hs
  | text counted => exact ⟨counted, rfl⟩
  | item => rcases h with h | h <;> rw [h] at hs <;> cases hs

namespace Suits

theorem start : Suits Zipper.start Progress.start :=
  ⟨Snapshot.scoped_root, Nat.le_refl _, rfl⟩

theorem of_above {phase : Phase} (h : Suits z p) (ha : z'.above = z.above)
    (hn : phase.Fits z'.node) : Suits z' ⟨phase, p.depth⟩ :=
  ⟨ha ▸ h.inScope, ha ▸ h.groups, hn⟩

theorem addAttribute {d : Nat} (h : Suits z ⟨.tag, d⟩) (name value : String) :
    ∃ z', z.addAttribute name value = (z', none) ∧ Suits z' ⟨.tag, d⟩ :=
  ⟨_, Zipper.addAttribute_eq h.node.1 h.node.2 name value, h.of_above rfl h.node⟩

theorem text {d : Nat} {phase : Phase} (hs : Progress.Step ⟨phase, d⟩ e q) {content : String}
    (he : e = .text content) (h : Suits z ⟨phase, d⟩) : Suits (z.text content) q := by
  cases hs with
  | tagText content' =>
    obtain rfl := Event.text.inj he
    have hkind : z.node.kind = .element := h.node.1
    rw [Zipper.text, if_neg (by rw [hkind]; decide), if_neg (by rw [hkind]; decide)]
    exact h.of_above rfl (.inl hkind)
  | text content' =>
    obtain rfl := Event.text.inj he
    have hkind : z.node.kind = .inProgress := congrArg Snapshot.kind h.node
    rw [Zipper.text, if_neg (by rw [hkind]; decide), if_pos hkind]
    exact h.of_above rfl rfl
  | operator _ op => cases op <;> cases he
  | _ => cases he

theorem operator {d : Nat} {phase : Phase} (h : Suits z ⟨phase, d⟩) (op : Operator) :
    Suits (Zipper.place (op.next z)) ⟨.vacant, d⟩ := by
  obtain ⟨hscope, hgroups⟩ := Zipper.next_spec h.inScope h.node.ne_root op
  have hdepth : d ≤ openGroups z.above := h.groups
  refine ⟨hscope, ?_, rfl⟩
  show d ≤ openGroups (op.next z)
  omega

theorem closeGroup {d : Nat} {phase : Phase} (h : Suits z ⟨phase, d + 1⟩) :
    Suits z.closeGroup ⟨.item false, d⟩ := by
  have hopen : 1 ≤ openGroups z.above := Nat.le_trans (Nat.le_add_left 1 d) h.groups
  obtain ⟨⟨hkind, hscope, hgroups⟩, -⟩ := Zipper.closeGroup_spec h.inScope hopen
  have hdepth : d + 1 ≤ openGroups z.above := h.groups
  refine ⟨hscope, ?_, .inr hkind⟩
  show d ≤ openGroups z.closeGroup.above
  omega

/-- Nothing is refused but a child of a text. -/
theorem step (h : Suits z p) (hs : Progress.Step p e q) :
    (∃ z', Builder.accept z e = (z', none) ∧ Suits z' q) ∨
      e = .child ∧ z.node.kind = .text ∧ Builder.accept z e = (z, some .childOfText) := by
  have hstep := hs
  cases hs with
  | @element d name hname =>
    have hkind : z.node.kind = .inProgress := congrArg Snapshot.kind h.node
    refine .inl ⟨_, rfl, ?_⟩
    rw [Zipper.element, if_pos hkind]
    refine h.of_above rfl ⟨rfl, ?_⟩
    rw [Zipper.change, show z.node = leaf .inProgress from h.node]
    rfl
  | id name => exact .inl (h.addAttribute "id" name)
  | className name => exact .inl (h.addAttribute "class" name)
  | «attribute» name value => exact .inl (h.addAttribute name value)
  | tagText content => exact .inl ⟨_, rfl, h.text hstep rfl⟩
  | text content => exact .inl ⟨_, rfl, h.text hstep rfl⟩
  | countTag => exact .inl ⟨_, rfl, h.of_above rfl (.inl h.node.1)⟩
  | countText => exact .inl ⟨_, rfl, h.of_above rfl h.node⟩
  | countItem => exact .inl ⟨_, rfl, h.of_above rfl h.node⟩
  | operator _ op =>
    rw [Zipper.accept_operator]
    by_cases hn : op = .child ∧ z.node.kind = .text
    · rw [if_pos hn]
      exact .inr ⟨by rw [hn.1]; rfl, hn.2, rfl⟩
    · rw [if_neg hn]
      exact .inl ⟨_, rfl, h.operator op⟩
  | @openGroup d =>
    obtain ⟨node, above⟩ := z
    obtain rfl : node = leaf .inProgress := h.node
    have hscope : Scoped above := h.inScope
    have hgroups : d ≤ openGroups above := h.groups
    refine .inl ⟨Zipper.place (leaf .group :: above), rfl, hscope.cons (by decide), ?_, rfl⟩
    show d + 1 ≤ openGroups (leaf .group :: above)
    rw [Snapshot.openGroups_cons hscope.ne_nil, if_pos (show (leaf .group).kind = .group from rfl)]
    omega
  | closeGroup => exact .inl ⟨_, rfl, h.closeGroup⟩

end Suits

/-- A child is asked for where a text was told last. -/
def AsksChildOfText (p : Progress) (es : List Event) : Prop :=
  ∃ pre post counted d, es = pre ++ .child :: post ∧ Progress.Run p pre ⟨.text counted, d⟩

theorem Suits.feed (h : Suits z p) (hr : Progress.Run p es q) :
    (∃ z', Builder.feed z es = (z', none) ∧ Suits z' q) ∨
      AsksChildOfText p es ∧ ∃ z', Builder.feed z es = (z', some .childOfText) := by
  induction hr generalizing z with
  | nil => exact .inl ⟨z, rfl, h⟩
  | @cons p q r e es hs hr ih =>
    rcases h.step hs with ⟨z', haccept, h'⟩ | ⟨rfl, htext, haccept⟩
    · rw [Builder.feed_cons haccept]
      rcases ih h' with hfeed | ⟨⟨pre, post, counted, d, rfl, hpre⟩, hfeed⟩
      · exact .inl hfeed
      · exact .inr ⟨⟨e :: pre, post, counted, d, rfl, .cons hs hpre⟩, hfeed⟩
    · -- The kind of the node shows which event was the last.
      obtain ⟨counted, hphase⟩ := h.node.eq_text htext
      obtain ⟨phase, d⟩ := p
      obtain rfl : phase = .text counted := hphase
      refine .inr ⟨⟨[], es, counted, d, rfl, .nil⟩, z, ?_⟩
      rw [Builder.feed, haccept]

theorem Suits.feed_of_asks (h : Suits z p) (ha : AsksChildOfText p es) :
    (Builder.feed z es).2 = some .childOfText := by
  obtain ⟨pre, post, counted, d, rfl, hpre⟩ := ha
  rcases h.feed hpre with ⟨z', hfeed, h'⟩ | ⟨-, z', hfeed⟩
  · have hkind : z'.node.kind = .text := h'.node
    have haccept : Builder.accept z' .child = (z', some .childOfText) :=
      congrArg (fun c => (c : Zipper × Option BuildError)) (if_pos hkind)
    rw [Builder.feed_append hfeed, Builder.feed, haccept]
  · rw [Builder.feed_append_of_refused hfeed]

/-! ### Where the events show it -/

/-- An item begins behind such an event. -/
def Event.isOpening : Event → Bool
  | child | sibling | climb _ | openGroup => true
  | _ => false

/-- A child is asked for behind a text that begins its item, with nothing in between but a count. -/
def ChildOfText (es : List Event) : Prop :=
  ∃ pre content counts post, es = pre ++ .text content :: counts ++ .child :: post ∧
    (counts = [] ∨ ∃ n, counts = [.multiply n]) ∧
    (pre = [] ∨ ∃ init e, pre = init ++ [e] ∧ e.isOpening)

namespace Progress
variable {d : Nat}

theorem isOpening_iff (h : Step p e q) : e.isOpening ↔ q.phase = .vacant := by
  cases h with
  | operator _ op => cases op <;> exact ⟨fun _ => rfl, fun _ => rfl⟩
  | openGroup => exact ⟨fun _ => rfl, fun _ => rfl⟩
  | _ => exact ⟨nofun, nofun⟩

/-- No item has begun yet if nothing was told, or if one can begin behind the last event. -/
theorem vacant_iff (h : Run start es q) :
    q.phase = .vacant ↔ es = [] ∨ ∃ init e, es = init ++ [e] ∧ e.isOpening := by
  rcases List.eq_nil_or_concat es with rfl | ⟨init, e, rfl⟩
  · cases h
    exact ⟨fun _ => .inl rfl, fun _ => rfl⟩
  · rw [List.concat_eq_append] at h ⊢
    obtain ⟨p, -, hr⟩ := h.of_append
    rw [← isOpening_iff hr.step]
    constructor
    · exact fun he => .inr ⟨init, e, rfl, he⟩
    · rintro (hnil | ⟨init', e', he, hopening⟩)
      · simp at hnil
      · obtain ⟨-, hlast⟩ := List.append_inj' he rfl
        rw [(List.cons.inj hlast).1]
        exact hopening

theorem Step.of_text {content : String} (hs : Step p (.text content) q)
    (hp : p.phase = .vacant) : q = ⟨.text false, p.depth⟩ := by
  generalize he : Event.text content = e at hs
  cases hs with
  | text => rfl
  | tagText => cases hp
  | operator _ op => cases op <;> cases he
  | _ => cases he

theorem Step.of_multiply {n : Nat} (hs : Step ⟨.text false, d⟩ (.multiply n) q) :
    q = ⟨.text true, d⟩ := by
  generalize he : Event.multiply n = e at hs
  cases hs with
  | countText => rfl
  | operator _ op => cases op <;> cases he
  | closeGroup => cases he

/-- The last event before a text without a count, and before one with a count. -/
theorem Step.eq_text {counted : Bool} (hs : Step p e ⟨.text counted, d⟩) :
    (counted = false ∧ p = ⟨.vacant, d⟩ ∧ ∃ content, e = .text content) ∨
      (counted = true ∧ p = ⟨.text false, d⟩ ∧ ∃ n, e = .multiply n) := by
  cases hs with
  | text content => exact .inl ⟨rfl, rfl, content, rfl⟩
  | @countText _ n => exact .inr ⟨rfl, rfl, n, rfl⟩

theorem exists_text {counted : Bool} (h : Run start es ⟨.text counted, d⟩) :
    ∃ pre content counts, es = pre ++ .text content :: counts ∧
      (counts = [] ∨ ∃ n, counts = [.multiply n]) ∧
      (pre = [] ∨ ∃ init e, pre = init ++ [e] ∧ e.isOpening) := by
  rcases List.eq_nil_or_concat es with rfl | ⟨init, e, rfl⟩
  · cases h
  · rw [List.concat_eq_append] at h
    obtain ⟨p, hp, hr⟩ := h.of_append
    rcases hr.step.eq_text with ⟨rfl, rfl, content, rfl⟩ | ⟨rfl, rfl, n, rfl⟩
    · exact ⟨init, content, [], List.concat_eq_append, .inl rfl, (vacant_iff hp).1 rfl⟩
    · rcases List.eq_nil_or_concat init with rfl | ⟨init, e, rfl⟩
      · cases hp
      · rw [List.concat_eq_append] at hp
        obtain ⟨p, hinit, htext⟩ := hp.of_append
        rcases htext.step.eq_text with ⟨-, rfl, content, rfl⟩ | ⟨hcounted, -⟩
        · exact ⟨init, content, [.multiply n], by simp, .inr ⟨n, rfl⟩, (vacant_iff hinit).1 rfl⟩
        · cases hcounted

theorem asksChildOfText_iff (h : Run start es q) : AsksChildOfText start es ↔ ChildOfText es := by
  constructor
  · rintro ⟨pre, post, counted, d, rfl, hpre⟩
    obtain ⟨pre, content, counts, rfl, hcounts, hopening⟩ := exists_text hpre
    exact ⟨pre, content, counts, post, rfl, hcounts, hopening⟩
  · rintro ⟨pre, content, counts, post, rfl, hcounts, hopening⟩
    obtain ⟨p, hp, -⟩ := h.of_append
    obtain ⟨p₁, hp₁, hp₂⟩ := hp.of_append
    have hvacant := (vacant_iff hp₁).2 hopening
    cases hp₂ with
    | cons hs hr =>
      rw [hs.of_text hvacant] at hr
      rcases hcounts with rfl | ⟨n, rfl⟩
      · cases hr
        exact ⟨_, post, false, _, rfl, hp⟩
      · rw [hr.step.of_multiply] at hp
        exact ⟨_, post, true, _, rfl, hp⟩

end Progress

variable {source : String} {before after : List Token} {t : Token} {error : ParseError}

theorem verdict_ne_build (r : Reading (Option Abbreviation)) (t : Token) (cause : BuildError) :
    verdict r t ≠ some (.build cause) := by
  obtain ⟨l, position⟩ := t
  obtain ⟨es, ⟨f, rest⟩ | ⟨_ | a, rest⟩⟩ := r <;> cases l <;> exact nofun

theorem feed_start (source : String) :
    (Builder.feed TreeBuilder.start (opening source).events).2 = none ∨
      ChildOfText (opening source).events ∧
        (Builder.feed TreeBuilder.start (opening source).events).2 = some .childOfText := by
  obtain ⟨p, hr⟩ := Progress.run_opening source
  rw [(Represents.start.feed _).2]
  rcases Suits.start.feed hr with ⟨z, hz, -⟩ | ⟨hasks, z, hz⟩
  · exact .inl (by rw [hz])
  · exact .inr ⟨(Progress.asksChildOfText_iff hr).1 hasks, by rw [hz]⟩

theorem feed_start_of_childOfText (h : ChildOfText (opening source).events) :
    (Builder.feed TreeBuilder.start (opening source).events).2 = some .childOfText := by
  obtain ⟨p, hr⟩ := Progress.run_opening source
  rw [(Represents.start.feed _).2]
  exact Suits.start.feed_of_asks ((Progress.asksChildOfText_iff hr).2 h)

theorem parseTree_of_refused {cause : BuildError}
    (h : (Builder.feed TreeBuilder.start (opening source).events).2 = some cause) :
    parseTree source = .error (.build cause) := by
  obtain ⟨us, t, rest, hstops⟩ := exists_stops source
  obtain ⟨c, hc⟩ := parse_eq_outcome hstops TreeBuilder.start
  generalize Builder.feed TreeBuilder.start (opening source).events = fed at h hc
  obtain ⟨b, refusal⟩ := fed
  obtain rfl : refusal = some cause := h
  rw [parseTree, hc]
  rfl

/-- Without a refusal the tree is finished whenever the text is accepted. -/
theorem parseTree_eq_error_iff (h : Stops source before t after)
    (hfeed : (Builder.feed TreeBuilder.start (opening source).events).2 = none) :
    parseTree source = .error error ↔ verdict (opening source) t = some error := by
  rw [← parse_eq_error_iff h hfeed, parseTree]
  cases hp : parse source TreeBuilder.start with
  | error e s =>
    constructor
    · intro he
      cases he
      exact ⟨s, rfl⟩
    · rintro ⟨s', hs'⟩
      cases hs'
      rfl
  | ok _ s =>
    obtain ⟨a, ha, htree⟩ := derives_of_parse hp
    obtain ⟨-, hrefusal⟩ := Represents.start.feed a.events
    rw [htree] at hrefusal
    obtain ⟨b, hb, -⟩ := parseTree_of_feed ha (Prod.ext rfl hrefusal.symm)
    rw [parseTree, hp] at hb
    constructor
    · intro he
      rw [hb] at he
      cases he
    · rintro ⟨s', hs'⟩
      cases hs'

variable {β : Type} [Builder β]

/-- A tree is refused exactly where a child of a text is asked for. Otherwise the text itself is at
fault, and every builder that takes everything sees the same error. -/
theorem parseTree_refusals (source : String) (start : β)
    (htakes : ∀ es, (Builder.feed start es).2 = none) :
    (∀ cause, cause ≠ .childOfText → parseTree source ≠ .error (.build cause)) ∧
    (parseTree source = .error (.build .childOfText) ↔
      ChildOfText (built (parse source Recorder.accepting)).events) ∧
    (¬ ChildOfText (built (parse source Recorder.accepting)).events →
      ∀ e, parseTree source = .error e ↔ ∃ s, parse source start = .error e s) := by
  obtain ⟨before, t, after, h⟩ := exists_stops source
  rw [events_recorded]
  have hverdict := @verdict_ne_build (opening source) t
  -- Either the builder takes all that is read, and errors are those of the text alone, or it
  -- refuses on the way.
  rcases feed_start source with hfeed | ⟨hasks, hfeed⟩
  · have hnot : ¬ ChildOfText (opening source).events := fun hasks => by
      rw [feed_start_of_childOfText hasks] at hfeed
      cases hfeed
    refine ⟨fun cause _ he => ?_, ⟨fun he => ?_, fun hasks => absurd hasks hnot⟩, fun _ e => ?_⟩
    · exact hverdict cause ((parseTree_eq_error_iff h hfeed).1 he)
    · exact absurd ((parseTree_eq_error_iff h hfeed).1 he) (hverdict _)
    · rw [parseTree_eq_error_iff h hfeed, parse_eq_error_iff h (htakes _)]
  · have herror := parseTree_of_refused hfeed
    refine ⟨fun cause hne he => ?_, ⟨fun _ => hasks, fun _ => herror⟩,
      fun hnot => absurd hasks hnot⟩
    rw [herror] at he
    cases he
    exact hne rfl

/-- A text with a count cannot have a child either. -/
theorem child_of_counted_text : ChildOfText
      (built (parse "p+\x7ba\x7d*2>b" Recorder.accepting)).events ∧
    parseTree "p+\x7ba\x7d*2>b" = .error (.build .childOfText) := by
  have hevents : (built (parse "p+\x7ba\x7d*2>b" Recorder.accepting)).events =
      [.element "p", .sibling, .text "a", .multiply 2, .child, .element "b"] := by
    decide +kernel
  have htakes (es : List Event) : (Builder.feed Recorder.accepting es).2 = none := by
    rw [feed_recorder _ _ rfl]
  have hasks : ChildOfText (built (parse "p+\x7ba\x7d*2>b" Recorder.accepting)).events := by
    rw [hevents]
    exact ⟨[.element "p", .sibling], "a", [.multiply 2], [.element "b"], rfl, .inr ⟨2, rfl⟩,
      .inr ⟨[.element "p"], .sibling, rfl, rfl⟩⟩
  obtain ⟨-, hiff, -⟩ := parseTree_refusals "p+\x7ba\x7d*2>b" Recorder.accepting htakes
  exact ⟨hasks, hiff.2 hasks⟩

end Shorthand
