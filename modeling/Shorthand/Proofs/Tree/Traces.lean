import Shorthand.Proofs.Tree.Leaves

/-! # Traces of a refusal

An event that a builder refuses leaves nothing behind, with one exception. An attribute makes an
element of a node in progress before it is known whether it comes too late for that node, and so the
node is an element afterwards although the attribute is refused. Only a place that was returned to by
the end of a group can be in progress and have a text already (`TreeBuilder.trace_iff`). -/

namespace Shorthand

/-- The name and the value of the attribute that an event gives. -/
def Event.given? : Event → Option (String × String)
  | id value => some ("id", value)
  | className value => some ("class", value)
  | «attribute» name value => some (name, value)
  | _ => none

namespace TreeBuilder
variable {b b' : TreeBuilder} {e : Event} {name value : String} {cause : BuildError}

/-- Whether the first child of the current node is a text. -/
def startsWithText (b : TreeBuilder) : Bool := (b.tree.firstChild? b.current).any (b.isKind · .text)

/-- An attribute makes an element of a node in progress. -/
def resolved (b : TreeBuilder) : TreeBuilder :=
  if b.isKind b.current .inProgress then b.modifyCurrent ({ · with kind := .element }) else b

/-- The current node with one more value. -/
def put (b : TreeBuilder) (name value : String) : TreeBuilder :=
  b.modifyCurrent fun n => { n with attributes := joinAttribute n.attributes name value }

theorem resolved_of_not (h : ¬ b.isKind b.current .inProgress) : b.resolved = b := if_neg h

theorem isKind_resolved (b : TreeBuilder) (i : Nat) : b.resolved.isKind i .text = b.isKind i .text := by
  by_cases h : b.isKind b.current .inProgress
  · rw [resolved, if_pos h, isKind, isKind, Tree.kind?, modifyCurrent, Tree.node?_modify]
    split
    · next hi =>
      obtain ⟨n, hn, hk⟩ := Tree.kind?_eq_some.1 (beq_iff_eq.1 h)
      rw [← hi, Tree.kind?, hn, Option.map_some, Option.map_some, Option.map_some, hk]
      rfl
    · rfl
  · rw [resolved_of_not h]

theorem startsWithText_resolved (b : TreeBuilder) :
    (b.resolved.tree.firstChild? b.resolved.current).any (b.resolved.isKind · .text) =
      b.startsWithText := by
  have hfirst : b.resolved.tree.firstChild? b.resolved.current = b.tree.firstChild? b.current := by
    rw [resolved]
    split
    · exact Tree.link_modify fun _ => rfl
    · rfl
  rw [hfirst, startsWithText]
  simp only [isKind_resolved]

theorem addAttribute_eq (b : TreeBuilder) (name value : String) :
    b.addAttribute name value =
      if b.isKind b.current .text then (b, some .attributeOfText)
      else if b.startsWithText then (b.resolved, some .attributeBeforeText)
      else (b.resolved.put name value, none) := by
  rw [← startsWithText_resolved]
  rfl

theorem accept_of_given (h : e.given? = some (name, value)) :
    Builder.accept b e = b.addAttribute name value := by
  cases e with
  | id | className | «attribute» =>
    cases h
    rfl
  | _ => cases h

theorem exists_given (h : e.given?.isSome) : ∃ name value, e.given? = some (name, value) := by
  obtain ⟨⟨name, value⟩, h⟩ := Option.isSome_iff_exists.1 h
  exact ⟨name, value, h⟩

theorem refused_addAttribute (h : b.addAttribute name value = (b', some cause)) :
    b.isKind b.current .text ∧ b' = b ∨
      b.startsWithText ∧ b' = b.resolved ∧ cause = .attributeBeforeText := by
  rw [addAttribute_eq] at h
  split at h
  · next htext => exact .inl ⟨htext, (Prod.mk.inj h).1.symm⟩
  · split at h
    · next hstarts =>
      obtain ⟨rfl, hcause⟩ := Prod.mk.inj h
      exact .inr ⟨hstarts, rfl, (Option.some.inj hcause).symm⟩
    · cases h

/-- Only at a text, or for an attribute that comes too late, anything is refused. -/
theorem refused_cases (h : Builder.accept b e = (b', some cause)) :
    b.isKind b.current .text ∧ b' = b ∨
      e.given?.isSome ∧ b.startsWithText ∧ b' = b.resolved ∧ cause = .attributeBeforeText := by
  cases e with
  | id | className | «attribute» => exact (refused_addAttribute h).imp_right fun h => ⟨rfl, h⟩
  | child =>
    have hchild : b.child = (b', some cause) := h
    rw [child] at hchild
    split at hchild
    · next htext => exact .inl ⟨htext, (Prod.mk.inj hchild).1.symm⟩
    · cases hchild
  | _ => cases h

/-- An attribute that comes too late for a node in progress. -/
def Marks (b : TreeBuilder) (e : Event) : Prop :=
  e.given?.isSome ∧ b.isKind b.current .inProgress ∧ b.startsWithText

theorem Marks.accept (h : b.Marks e) : Builder.accept b e =
    (b.modifyCurrent ({ · with kind := .element }), some .attributeBeforeText) := by
  obtain ⟨hgiven, hprogress, hstarts⟩ := h
  obtain ⟨name, value, he⟩ := exists_given hgiven
  have htext : ¬ b.isKind b.current .text := by
    rw [isKind, beq_iff_eq] at hprogress ⊢
    rw [hprogress]
    decide
  rw [accept_of_given he, addAttribute_eq, if_neg htext, if_pos hstarts, resolved, if_pos hprogress]

theorem Marks.ne (h : b.Marks e) : b.modifyCurrent ({ · with kind := .element }) ≠ b := by
  intro heq
  obtain ⟨n, hn, hk⟩ := Tree.kind?_eq_some.1 (beq_iff_eq.1 h.2.1)
  have hkind : (b.modifyCurrent ({ · with kind := .element })).tree.kind? b.current =
      some .element := by
    rw [Tree.kind?, modifyCurrent, Tree.node?_modify, if_pos rfl, hn]
    rfl
  rw [heq, Tree.kind?, hn, Option.map_some, hk] at hkind
  cases hkind

end TreeBuilder

/-! ### Places that were returned to -/

namespace Zipper
variable {z : Zipper} {e : Event}

/-- A node in progress that has children already. -/
def Reopened (z : Zipper) : Prop := z.node.kind = .inProgress ∧ z.node.children ≠ []

theorem not_reopened_descend (z : Zipper) (kind : NodeKind) : ¬ (z.descend kind).Reopened :=
  fun h => h.2 rfl

theorem addAttribute_kind (z : Zipper) (name value : String) :
    (z.addAttribute name value).1.node.kind ≠ .inProgress := by
  have hput (z : Zipper) (hz : z.node.kind ≠ .inProgress) :
      (if z.node.children.head?.any (·.kind == .text) then (z, some .attributeBeforeText)
        else (z.change fun s =>
          { s with attributes := TreeBuilder.joinAttribute s.attributes name value }, none) :
        Zipper × Option BuildError).1.node.kind ≠ .inProgress := by
    split
    · exact hz
    · exact hz
  rw [addAttribute]
  split
  · next htext =>
    rw [htext]
    decide
  · split
    · refine hput _ ?_
      show NodeKind.element ≠ .inProgress
      decide
    · next hk => exact hput _ hk

theorem text_kind (z : Zipper) (content : String) : (z.text content).node.kind ≠ .inProgress := by
  rw [text]
  split
  · next htext =>
    intro hk
    cases htext.symm.trans hk
  · split
    · show NodeKind.text ≠ .inProgress
      decide
    · next hk => exact hk

/-- Only the end of a group returns to such a node, and only a count leaves it as it is. -/
theorem Reopened.of_accept (h : (Builder.accept z e).1.Reopened) :
    e = .closeGroup ∨ (∃ count, e = .multiply count) ∧ z.Reopened := by
  cases e with
  | element name =>
    refine absurd h.1 ?_
    show (z.element name).node.kind ≠ .inProgress
    rw [element]
    split
    · show NodeKind.element ≠ .inProgress
      decide
    · next hk => exact hk
  | id name => exact absurd h.1 (z.addAttribute_kind "id" name)
  | className name => exact absurd h.1 (z.addAttribute_kind "class" name)
  | «attribute» name value => exact absurd h.1 (z.addAttribute_kind name value)
  | text content => exact absurd h.1 (z.text_kind content)
  | multiply count => exact .inr ⟨⟨count, rfl⟩, h⟩
  -- Where a new node is made the place is new, and has nothing below it.
  | child =>
    have hchild : z.child.1.Reopened := h
    rw [child] at hchild
    split at hchild
    · next htext =>
      rw [Reopened, htext] at hchild
      cases hchild.1
    · exact absurd hchild (z.not_reopened_descend .inProgress)
  | sibling => exact absurd h (z.up.not_reopened_descend .inProgress)
  | climb levels => exact absurd h ((z.ascend levels).up.not_reopened_descend .inProgress)
  | openGroup =>
    have hopen : z.openGroup.Reopened := h
    rw [openGroup] at hopen
    split at hopen
    · exact absurd hopen (not_reopened_descend _ .inProgress)
    · exact absurd hopen (not_reopened_descend _ .inProgress)
  | closeGroup => exact .inl rfl

theorem Reopened.of_run {es : List Event} (h : (Builder.run start es).Reopened) :
    ∃ before counts, es = before ++ .closeGroup :: counts ∧ ∀ e ∈ counts, ∃ count, e = .multiply count := by
  induction es using List.reverseRecOn with
  | nil => exact absurd rfl h.2
  | append_singleton es e ih =>
    rw [Builder.run_concat] at h
    rcases h.of_accept with rfl | ⟨hcount, hz⟩
    · exact ⟨es, [], rfl, List.forall_mem_nil _⟩
    · obtain ⟨before, counts, rfl, hcounts⟩ := ih hz
      refine ⟨before, counts ++ [e], by simp, fun e' he' => ?_⟩
      rcases List.mem_append.1 he' with he' | he'
      · exact hcounts e' he'
      · rwa [List.mem_singleton.1 he']

end Zipper

/-! ### Every list of events -/

namespace TreeBuilder

/-- A refused event changes nothing, unless it is an attribute of a node in progress whose first child
is a text; this is what has become of that node then, and nothing else has changed. The builder stands
on such a node only behind the end of a group, and if nothing but counts came since. -/
theorem trace_iff (es : List Event) (e : Event) :
    let b := Builder.run start es
    ((∀ cause, (Builder.accept b e).2 = some cause → (Builder.accept b e).1 = b) ↔ ¬ b.Marks e) ∧
    (b.Marks e → Builder.accept b e =
      (b.modifyCurrent ({ · with kind := .element }), some .attributeBeforeText)) ∧
    (b.Marks e → ∃ before counts, es = before ++ .closeGroup :: counts ∧
      ∀ e' ∈ counts, ∃ count, e' = .multiply count) := by
  intro b
  refine ⟨⟨fun h hmarks => ?_, fun hmarks cause hcause => ?_⟩, Marks.accept, fun hmarks => ?_⟩
  · rw [hmarks.accept] at h
    exact hmarks.ne (h _ rfl)
  · obtain ⟨b', hb'⟩ : ∃ b', (Builder.accept b e).1 = b' := ⟨_, rfl⟩
    rcases refused_cases (Prod.ext hb' hcause) with ⟨-, heq⟩ | ⟨hgiven, hstarts, heq, -⟩
    · rw [hb', heq]
    · rw [hb', heq, resolved_of_not fun hprogress => hmarks ⟨hgiven, hprogress, hstarts⟩]
  · obtain ⟨h, -⟩ := Represents.start.run .start es
    obtain ⟨-, hprogress, hstarts⟩ := hmarks
    refine Zipper.Reopened.of_run ⟨(h.isKind_iff _).1 hprogress, fun hnil => ?_⟩
    rw [startsWithText, h.startsWithText, hnil] at hstarts
    cases hstarts

/-- A place with a text in it that an attribute is refused at, and makes an element of. -/
theorem element_after_refusal :
    let b := Builder.run start [.child, .text "t", .closeGroup]
    (Builder.accept b (.attribute "x" "y")).2 = some .attributeBeforeText ∧
    (Builder.accept b (.attribute "x" "y")).1 ≠ b ∧
    b.tree.kind? 1 = some .inProgress ∧
    (Builder.accept b (.attribute "x" "y")).1.tree.kind? 1 = some .element := by
  decide +kernel

end TreeBuilder
end Shorthand
