import Shorthand.Proofs.Grammar.Delivery

/-! # Productions that decline

A production that answers no is the same for all builders: it has told none of them anything. A
tentative one has read just the token at which it declines, so that a rollback leads back to where it
began; every other one has pushed back what it read (`declines_direct`, `declines_tentative`). This
holds wherever the cursor stands and whatever the counts of its transactions are. -/

namespace Shorthand

namespace Cursor

/-- At the same place with the same counts, but a token may have become known. -/
def Same (c c' : Cursor) : Prop := c'.position = c.position ∧ c'.counts = c.counts

/-- The next token has been read and was not pushed back. -/
def Stepped (c c' : Cursor) : Prop := c' = c.next.2

theorem same_refl (c : Cursor) : c.Same c := ⟨rfl, rfl⟩

theorem Same.trans {c c' c'' : Cursor} (h : c.Same c') (h' : c'.Same c'') : c.Same c'' :=
  ⟨h'.1.trans h.1, h'.2.trans h.2⟩

theorem same_peek (c : Cursor) : c.Same c.peek.2 := ⟨c.position_peek, c.counts_peek⟩

end Cursor

namespace Grammar
variable {β γ δ : Type}

/-- The answer is never no. -/
def Certain (p : ParseM β Bool) : Prop := ∀ s s', p s ≠ .ok false s'

theorem certain_yes : Certain (β := β) (return true) := by
  intro s s' h
  cases h

theorem certain_throw (e : ParseError) : Certain (β := β) (throw e) := by
  intro s s' h
  cases h

theorem Certain.after {q : δ → ParseM β Bool} (h : ∀ a, Certain (q a)) (p : ParseM β δ) :
    Certain (p >>= q) := by
  intro s s' hrun
  rw [bind_run] at hrun
  split at hrun
  · next a s'' _ => exact h a s'' s' hrun
  · cases hrun

theorem certain_report [Builder β] (e : Event) : Certain (β := β) (do emit e; return true) :=
  .after (fun _ => certain_yes) _

/-- Where `p` answers no, so does `q`, which is `p` with another builder, and that builder is not
told anything. The cursor has moved by `R`. -/
def Declines (R : Cursor → Cursor → Prop) (p : ParseM β Bool) (q : ParseM γ Bool) : Prop :=
  ∀ s s', p s = .ok false s' →
    R s.cursor s'.cursor ∧ ∀ g, q ⟨s.cursor, g⟩ = .ok false ⟨s'.cursor, g⟩

namespace Declines
variable {R : Cursor → Cursor → Prop} {p r : ParseM β Bool} {p' r' : ParseM γ Bool}
  {q : Token → ParseM β Bool} {q' : Token → ParseM γ Bool}

theorem no : Declines (β := β) (γ := γ) Cursor.Same (return false) (return false) := by
  intro s s' hrun
  cases hrun
  exact ⟨s.cursor.same_refl, fun g => rfl⟩

/-- The token that is read decides, and it is kept. -/
theorem next (h : ∀ t, Certain (q t) ∨ q t = (return false) ∧ q' t = (return false)) :
    Declines Cursor.Stepped (Grammar.next >>= q) (Grammar.next >>= q') := by
  intro s s' hrun
  rw [next_bind] at hrun
  rcases h s.cursor.next.1 with hcertain | ⟨hq, hq'⟩
  · exact absurd hrun (hcertain _ _)
  · rw [hq] at hrun
    cases hrun
    refine ⟨rfl, fun g => ?_⟩
    rw [next_bind, hq']
    rfl

/-- The token that is read decides, and it is pushed back. -/
theorem retreat (h : ∀ t, Certain (q t) ∨ ∃ (r : ParseM β Bool) (r' : ParseM γ Bool),
      q t = (do plain.back; r) ∧ q' t = (do plain.back; r') ∧ Declines Cursor.Same r r') :
    Declines Cursor.Same (Grammar.next >>= q) (Grammar.next >>= q') := by
  intro s s' hrun
  rw [next_bind] at hrun
  rcases h s.cursor.next.1 with hcertain | ⟨r, r', hq, hq', hr⟩
  · exact absurd hrun (hcertain _ _)
  · rw [hq, back_bind] at hrun
    obtain ⟨hsame, hrun'⟩ := hr _ _ hrun
    refine ⟨(s.cursor.same_peek).trans hsame, fun g => ?_⟩
    rw [next_bind, hq', back_bind]
    exact hrun' g

theorem startingWith (test : Lexeme → Bool) (h : Declines Cursor.Same p p') :
    Declines Cursor.Same (plain.startingWith test p) (plain.startingWith test p') := by
  have hrest (t : Token) : Declines Cursor.Same (if test t.lexeme then p else return false)
      (if test t.lexeme then p' else return false) := by
    split
    · exact h
    · exact no
  intro s s' hrun
  unfold Hooks.startingWith at hrun ⊢
  rw [peek_bind] at hrun
  obtain ⟨hsame, hrun'⟩ := hrest _ _ _ hrun
  refine ⟨(s.cursor.same_peek).trans hsame, fun g => ?_⟩
  rw [peek_bind]
  exact hrun' g

theorem bind {q : Bool → ParseM β Bool} {q' : Bool → ParseM γ Bool}
    (h : Declines Cursor.Same p p') (htrue : Certain (q true))
    (hfalse : Declines Cursor.Same (q false) (q' false)) :
    Declines Cursor.Same (p >>= q) (p' >>= q') := by
  intro s s' hrun
  rw [bind_run] at hrun
  split at hrun
  · next found s'' hp =>
    cases found with
    | true => exact absurd hrun (htrue _ _)
    | false =>
      obtain ⟨hsame, hp'⟩ := h _ _ hp
      obtain ⟨hsame', hrun'⟩ := hfalse _ _ hrun
      refine ⟨hsame.trans hsame', fun g => ?_⟩
      rw [bind_run, hp' g]
      exact hrun' g
  · cases hrun

theorem either (h : Declines Cursor.Same p p') (h' : Declines Cursor.Same r r') :
    Declines Cursor.Same (Grammar.either p r) (Grammar.either p' r') :=
  h.bind certain_yes h'

theorem andThen {q : ParseM β Bool} {q' : ParseM γ Bool} (h : Declines Cursor.Same p p')
    (hq : Certain q) : Declines Cursor.Same (do if ← p then q else return false)
      (do if ← p' then q' else return false) :=
  h.bind hq no

/-- A rollback leads back to where a tentative production began. -/
theorem attempt (h : Declines Cursor.Stepped p p') :
    Declines Cursor.Same (plain.attempt p) (plain.attempt p') := by
  intro s s' hrun
  simp only [attempt_run] at hrun ⊢
  split at hrun
  · cases hrun
  · next s'' hp =>
    obtain ⟨hstepped, hp'⟩ := h _ _ hp
    have hcursor : s''.cursor = s.cursor.begin.next.2 := hstepped
    cases hrun
    rw [hcursor]
    refine ⟨s.cursor.same_peek, fun g => ?_⟩
    simp only [hp' g, hcursor]
  · cases hrun

end Declines

/-! ### Productions -/

section
variable [Builder β] [Builder γ]

/-- The productions that are tried in a transaction. -/
inductive Tentative
  | id
  | className
  | attrList
  | attr

/-- The productions that push back what they have read. A group has abbreviations of at most so many
items in it. -/
inductive Direct
  | tagElement
  | element
  | group (bound : Nat)
  | multiplication
  | operator
  | repeatedClimb

def Tentative.read : Tentative → ParseM β Bool
  | id => Grammar.id
  | className => Grammar.className
  | attrList => plain.attrList
  | attr => plain.attr

def Direct.read : Direct → ParseM β Bool
  | tagElement => plain.tagElement
  | element => plain.element
  | group bound => plain.group (plain.abbreviationAtMost bound)
  | multiplication => plain.multiplication
  | operator => plain.operator
  | repeatedClimb => plain.repeatedClimb

theorem declines_named (m : Mark) (fault : Fault) (event : String → Event) :
    Declines Cursor.Stepped (β := β) (γ := γ) (named m fault event) (named m fault event) := by
  refine .next fun t => ?_
  by_cases h : isMark m t.lexeme
  · left
    rw [if_pos h]
    refine .after (fun found => ?_) _
    split
    · exact certain_report _
    · exact certain_throw _
  · right
    rw [if_neg h, if_neg h]
    exact ⟨rfl, rfl⟩

theorem declines_attr : Declines Cursor.Stepped (β := β) (γ := γ) plain.attr plain.attr := by
  refine .next fun t => ?_
  cases t.lexeme with
  | word name =>
    left
    refine .after (fun found => ?_) _
    split
    · refine .after (fun found => ?_) _
      split
      · exact certain_report _
      · exact certain_report _
      · exact certain_throw _
    · exact .after (fun _ => certain_report _) _
  | _ => exact .inr ⟨rfl, rfl⟩

theorem declines_attrList :
    Declines Cursor.Stepped (β := β) (γ := γ) plain.attrList plain.attrList := by
  refine .next fun t => ?_
  by_cases h : isMark .openAttrs t.lexeme
  · left
    rw [if_pos h]
    refine .after (fun found => ?_) _
    split
    · refine .after (fun _ => .after (fun found => ?_) _) _
      split
      · exact certain_yes
      · exact certain_throw _
    · exact .after (fun _ => certain_throw _) _
  · right
    rw [if_neg h, if_neg h]
    exact ⟨rfl, rfl⟩

theorem declines_tentative (x : Tentative) :
    Declines Cursor.Stepped (β := β) (γ := γ) x.read x.read := by
  cases x with
  | id => exact declines_named _ _ _
  | className => exact declines_named _ _ _
  | attrList => exact declines_attrList
  | attr => exact declines_attr

theorem declines_textRun : Declines Cursor.Same (β := β) (γ := γ) plain.textRun plain.textRun := by
  refine .retreat fun t => ?_
  cases t.lexeme with
  | text content => exact .inl (certain_report _)
  | _ => exact .inr ⟨_, _, rfl, rfl, .no⟩

theorem declines_tagElement : Declines Cursor.Same (β := β) (γ := γ) plain.tagElement plain.tagElement := by
  refine .retreat fun t => ?_
  cases t.lexeme with
  | word name =>
    exact .inl (.after (fun _ => .after (fun _ => .after (fun _ => certain_yes) _) _) _)
  | _ => exact .inr ⟨_, _, rfl, rfl, .no⟩

theorem declines_multiplication :
    Declines Cursor.Same (β := β) (γ := γ) plain.multiplication plain.multiplication := by
  refine .retreat fun t => ?_
  by_cases h : isMark .times t.lexeme
  · left
    rw [if_pos h]
    refine .after (fun found => ?_) _
    split
    · exact certain_throw _
    · split
      · exact certain_throw _
      · exact certain_report _
  · right
    rw [if_neg h, if_neg h]
    exact ⟨_, _, rfl, rfl, .no⟩

theorem declines_element : Declines Cursor.Same (β := β) (γ := γ) plain.element plain.element :=
  .andThen (.either (.startingWith _ declines_tagElement) declines_textRun)
    (.after (fun _ => certain_yes) _)

theorem declines_group (inner : ParseM β Bool) (inner' : ParseM γ Bool) :
    Declines Cursor.Same (plain.group inner) (plain.group inner') := by
  refine .retreat fun t => ?_
  by_cases h : isMark .openGroup t.lexeme
  · left
    rw [if_pos h]
    refine .after (fun _ => .after (fun found => ?_) _) _
    split
    · refine .after (fun found => ?_) _
      split
      · exact .after (fun _ => .after (fun _ => certain_yes) _) _
      · exact certain_throw _
    · exact .after (fun _ => certain_throw _) _
  · right
    rw [if_neg h, if_neg h]
    exact ⟨_, _, rfl, rfl, .no⟩

omit [Builder β] [Builder γ] in
/-- No `^` is read only if another token comes first. -/
theorem climbsAtMost_eq_zero {n : Nat} {s s' : Session β}
    (h : plain.climbsAtMost (n + 1) s = .ok 0 s') : s' = { s with cursor := s.cursor.next.2 } ∧
      ∀ g : γ, plain.climbsAtMost (n + 1) ⟨s.cursor, g⟩ = .ok 0 ⟨s.cursor.next.2, g⟩ := by
  unfold Hooks.climbsAtMost at h ⊢
  rw [next_bind] at h
  by_cases hmark : isMark .climb s.cursor.next.1.lexeme
  · rw [if_pos hmark, bind_run] at h
    split at h
    · cases h
    · cases h
  · rw [if_neg hmark] at h
    cases h
    refine ⟨rfl, fun g => ?_⟩
    rw [next_bind, if_neg hmark]
    rfl

theorem declines_repeatedClimb :
    Declines Cursor.Same (β := β) (γ := γ) plain.repeatedClimb plain.repeatedClimb := by
  intro s s' hrun
  have hrun : (plain.climbsAtMost (s.cursor.unread + 1) >>= _) s = .ok false s' := hrun
  rw [bind_run] at hrun
  split at hrun
  · next levels s'' hclimbs =>
    rw [back_bind] at hrun
    cases levels with
    | zero =>
      obtain ⟨rfl, hclimbs'⟩ := climbsAtMost_eq_zero (γ := γ) hclimbs
      cases hrun
      refine ⟨s.cursor.same_peek, fun g => ?_⟩
      show (plain.climbsAtMost (s.cursor.unread + 1) >>= _) _ = _
      rw [bind_run, hclimbs' g]
      rfl
    | succ levels => exact absurd hrun (certain_report _ _ _)
  · cases hrun

theorem declines_operator : Declines Cursor.Same (β := β) (γ := γ) plain.operator plain.operator := by
  refine .retreat fun t => ?_
  cases t.lexeme with
  | mark m =>
    cases m with
    | child => exact .inl (certain_report _)
    | sibling => exact .inl (certain_report _)
    | climb => exact .inr ⟨_, _, rfl, rfl, declines_repeatedClimb⟩
    | _ => exact .inr ⟨_, _, rfl, rfl, .no⟩
  | _ => exact .inr ⟨_, _, rfl, rfl, .no⟩

theorem declines_direct (x : Direct) : Declines Cursor.Same (β := β) (γ := γ) x.read x.read := by
  cases x with
  | tagElement => exact declines_tagElement
  | element => exact declines_element
  | group bound => exact declines_group _ _
  | multiplication => exact declines_multiplication
  | operator => exact declines_operator
  | repeatedClimb => exact declines_repeatedClimb

end

end Grammar
end Shorthand
