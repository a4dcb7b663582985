import Shorthand.Proofs.Grammar.Delivery

/-! # Every production delivers its reading

The productions of the parser one by one, from the decorations of a tag up to an abbreviation
(`delivers_abbreviation`). -/

namespace Shorthand.Grammar
open Reading (done)
variable {β : Type} [Builder β] {past ts : List Token} {counts : List Nat} {c : Cursor} {t : Token}

theorem delivers_nameFrom {f : Fault} {event : String → Event}
    {d : String → Derivation.Decoration} (hd : ∀ name, (d name).events = [event name]) :
    Delivers (β := β) (do
        let found ← next
        match found.lexeme with
        | .word name => emit (event name); return true
        | _ => throw (.required f found)) Option.isSome (Reading.nameFrom f d) := by
  refine ⟨fun {c b past counts ts} ht hc => ?_⟩
  obtain ⟨t, ts, rfl⟩ := ht.exists_cons
  rw [next_bind, hc.next_token, lexemes_cons]
  cases h : t.lexeme with
  | word name =>
    have hts := ht.tail (by simp [h, Lexeme.isFinal])
    rw [Reading.nameFrom, hd]
    exact .token (((Delivers.result (d name)).report (event name)).delivered hts hc.next)
  | _ => exact .fault f h

theorem attempts_named {m : Mark} {f : Fault} {event : String → Event}
    {d : String → Derivation.Decoration} (hd : ∀ name, (d name).events = [event name]) :
    Delivers.Attempts (β := β) (named m f event) (Reading.named m f d) :=
  .marked (delivers_nameFrom hd) (fun _ => if_pos rfl) fun _ _ h => if_neg h

theorem delivers_id : Delivers (β := β) (plain.attempt id) Option.isSome Reading.id :=
  .attempt (attempts_named fun _ => rfl) Reading.sound_id

theorem delivers_className :
    Delivers (β := β) (plain.attempt className) Option.isSome Reading.className :=
  .attempt (attempts_named fun _ => rfl) Reading.sound_className

theorem attempts_attr : Delivers.Attempts (β := β) plain.attr Reading.attr := by
  refine ⟨fun {c b past counts ts} ht hc => ?_⟩
  obtain ⟨t, ts, rfl⟩ := ht.exists_cons
  rw [lexemes_cons]
  cases h : t.lexeme with
  | word name =>
    -- A word is an attribute, whether a value follows or not: it is never given back.
    left
    have hts := ht.tail (by simp [h, Lexeme.isFinal])
    obtain ⟨t₂, ts, rfl⟩ := hts.exists_cons
    refine .next hc ?_
    rw [h]
    show Delivered _ _ _ _ _ _ ((next >>= _) _)
    rw [next_bind, hc.next.next_token, lexemes_cons]
    by_cases h₂ : t₂.lexeme = .mark .equals
    · have hts₂ := hts.tail (by simp [h₂, Lexeme.isFinal])
      obtain ⟨t₃, ts, rfl⟩ := hts₂.exists_cons
      rw [if_pos (isMark_iff.2 h₂), h₂, lexemes_cons]
      refine .token ?_
      rw [next_bind, hc.next.next.next_token]
      cases h₃ : t₃.lexeme with
      | word value =>
        have hts₃ := hts₂.tail (by simp [h₃, Lexeme.isFinal])
        exact .token <| ((Delivers.result (⟨name, some (.word value)⟩ : Derivation.Attr)).report
          (.attribute name value)).delivered hts₃ hc.next.next.next
      | quoted value =>
        have hts₃ := hts₂.tail (by simp [h₃, Lexeme.isFinal])
        exact .token <| ((Delivers.result (⟨name, some (.quoted value)⟩ : Derivation.Attr)).report
          (.attribute name value)).delivered hts₃ hc.next.next.next
      | _ => exact .fault .attrValue h₃
    · rw [if_neg (mt isMark_iff.1 h₂), back_bind, Reading.attr]
      · exact ((Delivers.result (⟨name, none⟩ : Derivation.Attr)).report
          (.attribute name "")).delivered hts hc.next.next.back
      · intro l ls he
        exact h₂ (List.cons.inj he).1
  -- Anything else is read and left to the rollback of the attempt.
  | _ =>
    right
    refine ⟨[t], ts, c.next.2, rfl, rfl, ?_, hc.next⟩
    show (next >>= _) _ = _
    rw [next_bind, hc.next_token, h]
    rfl

theorem delivers_attr : Delivers (β := β) (plain.attempt plain.attr) Option.isSome Reading.attr :=
  .attempt attempts_attr Reading.sound_attr

theorem delivers_attrs : Delivers (β := β) (plain.many (plain.attempt plain.attr)) (fun _ => ())
    (Reading.many Reading.attr) :=
  delivers_attr.many Reading.sound_attr Derivation.Attr.lexemes_ne_nil rfl

theorem attempts_attrList : Delivers.Attempts (β := β) plain.attrList Reading.attrList := by
  refine .marked (delivers_attr.bind fun x => ?_) (fun _ => (rfl : _ = Reading.attrs _)) ?_
  · cases x with
    | none => exact Delivers.missing .attrName
    | some first =>
      exact delivers_attrs.bind fun others =>
        .expect (Delivers.result (Derivation.Decoration.attrs first others))
  · intro l ls h
    rw [Reading.attrList]
    exact fun _ he => h (List.cons.inj he).1

theorem delivers_decoration :
    Delivers (β := β) plain.decoration Option.isSome Reading.decoration :=
  delivers_id.either (delivers_className.either (.attempt attempts_attrList Reading.sound_attrList))

theorem delivers_decorations : Delivers (β := β) (plain.many plain.decoration) (fun _ => ())
    (Reading.many Reading.decoration) :=
  delivers_decoration.many Reading.sound_decoration Derivation.Decoration.lexemes_ne_nil rfl

theorem delivers_text : Delivers (β := β) plain.textRun Option.isSome Reading.text := by
  refine ⟨fun {c b past counts ts} ht hc => ?_⟩
  obtain ⟨t, ts, rfl⟩ := ht.exists_cons
  rw [lexemes_cons]
  cases h : t.lexeme with
  | text content =>
    refine .next hc ?_
    rw [h]
    exact ((Delivers.result content).report (.text content)).delivered
      (ht.tail (by simp [h, Lexeme.isFinal])) hc.next
  | _ => exact .back ht hc h (by rw [h])

theorem delivers_tag : Delivers (β := β) plain.tagElement Option.isSome Reading.tag := by
  refine ⟨fun {c b past counts ts} ht hc => ?_⟩
  obtain ⟨t, ts, rfl⟩ := ht.exists_cons
  rw [lexemes_cons]
  cases h : t.lexeme with
  | word name =>
    refine .next hc ?_
    rw [h]
    exact ((delivers_decorations.bind fun ds => delivers_text.bind fun x =>
      Delivers.result (⟨name, ds, x⟩ : Derivation.Tag)).report (.element name)).delivered
        (ht.tail (by simp [h, Lexeme.isFinal])) hc.next
  | _ => exact .back ht hc h (by rw [h])

theorem numeral?_eq_some {s : String} {n : Nat} (hs : count? (.word s) = some n)
    (hn : n ≤ maxCount) : ∃ m, Reading.numeral? s = some m ∧ m.value = n := by
  simp only [count?] at hs
  split at hs
  · next h =>
    obtain rfl : Text.natOfDigits 10 s.toList = n := Option.some.inj hs
    exact ⟨⟨s, h.1, h.2.1, hn⟩, dif_pos ⟨h.1, h.2.1, hn⟩, rfl⟩
  · cases hs

theorem numeral?_eq_none {s : String} (hs : ∀ n, count? (.word s) = some n → maxCount < n) :
    Reading.numeral? s = none := by
  refine dif_neg fun ⟨hne, hdigits, hle⟩ => ?_
  have hlt : Text.natOfDigits 10 s.toList < countLimit :=
    Nat.lt_of_le_of_lt hle (by decide)
  have := hs _ (if_pos ⟨hne, hdigits, hlt⟩)
  omega

theorem delivers_numeral : Delivers (β := β) (do
      let found ← next
      match count? found.lexeme with
      | none => throw (.required .count found)
      | some n =>
        if maxCount < n then throw (.required .smallerCount found)
        else
          emit (.multiply n)
          return true) Option.isSome Reading.numeral := by
  refine ⟨fun {c b past counts ts} ht hc => ?_⟩
  obtain ⟨t, ts, rfl⟩ := ht.exists_cons
  rw [next_bind, hc.next_token, lexemes_cons]
  cases h : t.lexeme with
  | word s =>
    rw [Reading.numeral]
    cases hs : count? (.word s) with
    | none =>
      rw [numeral?_eq_none (by simp [hs]), Reading.numeralFault, hs]
      exact .fault .count h
    | some n =>
      by_cases hn : maxCount < n
      · rw [numeral?_eq_none (by simp [hs, hn]), Reading.numeralFault, hs]
        simp only [if_pos hn]
        exact .fault .smallerCount h
      · obtain ⟨m, hm, rfl⟩ := numeral?_eq_some hs (Nat.le_of_not_lt hn)
        simp only [hm, if_neg hn]
        exact .token <| ((Delivers.result m).report (.multiply m.value)).delivered
          (ht.tail (by simp [h, Lexeme.isFinal])) hc.next
  | _ => exact .fault .count h

theorem multiplication_of_ne {l : Lexeme} {ls : List Lexeme} (h : l ≠ .mark .times) :
    Reading.multiplication (l :: ls) = done [] none (l :: ls) := by
  rw [Reading.multiplication]
  exact fun _ he => h (List.cons.inj he).1

theorem delivers_multiplication :
    Delivers (β := β) (plain.startingWith (isMark .times) plain.multiplication) Option.isSome
      Reading.multiplication :=
  (Delivers.marked delivers_numeral (fun _ => rfl) fun _ _ => multiplication_of_ne).guarded
    fun _ _ h => multiplication_of_ne fun he => by simp [isMark, he] at h

theorem delivers_element :
    Delivers (β := β) (plain.startingWith isWordOrText plain.element) Option.isSome Reading.element := by
  refine .guarded (.andThen (.either (.guarded (.map delivers_tag) ?_) (.map delivers_text))
    fun e => delivers_multiplication.bind fun count => .result (Derivation.Item.element e count)) ?_
  · intro l ls h
    cases l with
    | word => cases h
    | _ => rfl
  · intro l ls h
    cases l with
    | word | text => cases h
    | _ => rfl

theorem delivers_group {inner : ParseM β Bool}
    {r : List Lexeme → Reading (Option Derivation.Abbreviation)}
    (hi : Delivers inner Option.isSome r) :
    Delivers (plain.startingWith (isMark .openGroup) (plain.group inner)) Option.isSome (Reading.group r) := by
  have hn (l : Lexeme) (ls : List Lexeme) (h : l ≠ .mark .openGroup) :
      Reading.group r (l :: ls) = done [] none (l :: ls) := by
    rw [Reading.group]
    exact fun _ he => h (List.cons.inj he).1
  refine .guarded (.marked (.report .openGroup ((hi.startingWith _).bind fun x => ?_))
    (fun _ => rfl) hn) fun l ls h => hn l ls fun he => by simp [isMark, he] at h
  cases x with
  | none => exact Delivers.missing .groupBody
  | some a =>
    exact .expect (.report .closeGroup (delivers_multiplication.bind fun count =>
      .result (Derivation.Item.group a count)))

/-! ### Abbreviations -/

omit [Builder β] in
/-- A run of `^` is read up to and including the token behind it. -/
theorem climbsAtMost_run {n : Nat} {b : β} (ht : Terminated ts) (hc : c.At past counts ts)
    (hn : ts.length ≤ n) : ∃ us t rest c', ts = us ++ t :: rest ∧ Terminated (t :: rest) ∧
      (∀ u ∈ us, u.lexeme = .mark .climb) ∧ t.lexeme ≠ .mark .climb ∧
      plain.climbsAtMost n ⟨c, b⟩ = .ok us.length ⟨c', b⟩ ∧
      c'.At (t :: (us.reverse ++ past)) ((counts.map (· + us.length)).map (· + 1)) rest := by
  induction n generalizing ts c past counts with
  | zero =>
    obtain ⟨t, ts, rfl⟩ := ht.exists_cons
    simp at hn
  | succ n ih =>
    obtain ⟨t, ts, rfl⟩ := ht.exists_cons
    by_cases h : t.lexeme = .mark .climb
    · obtain ⟨us, t', rest, c', rfl, hrest, hus, ht', hrun, hc'⟩ :=
        ih (ht.tail (by simp [h, Lexeme.isFinal])) hc.next (Nat.le_of_succ_le_succ hn)
      refine ⟨t :: us, t', rest, c', rfl, hrest, ?_, ht', ?_, ?_⟩
      · simpa [h] using hus
      · rw [Hooks.climbsAtMost, next_bind, hc.next_token, if_pos (isMark_iff.2 h), bind_run, hrun]
        rfl
      · simpa [Function.comp_def, Nat.add_comm, Nat.add_left_comm] using hc'
    · refine ⟨[], t, ts, c.next.2, rfl, ht, by simp, h, ?_, by simpa using hc.next⟩
      rw [Hooks.climbsAtMost, next_bind, hc.next_token, if_neg (mt isMark_iff.1 h)]
      rfl

theorem operator_climbs {us rest : List Token} (hus : ∀ u ∈ us, u.lexeme = .mark .climb)
    (hne : us ≠ []) (ht : t.lexeme ≠ .mark .climb) :
    Reading.operator (lexemes (us ++ t :: rest)) =
      done [.climb us.length] (some (.climb (us.length - 1))) (lexemes (t :: rest)) := by
  obtain ⟨u, us, rfl⟩ := List.exists_cons_of_ne_nil hne
  have hrun : us.map (·.lexeme) = List.replicate us.length (.mark .climb) :=
    List.eq_replicate_iff.2 ⟨List.length_map _, by simp_all⟩
  have hstop : (lexemes (t :: rest)).head? ≠ some (.mark .climb) := by simpa using ht
  have h := Reading.operator_complete (.climb us.length) hstop
  rw [Derivation.Operator.lexemes, ← hrun] at h
  simpa [lexemes, hus u, Derivation.Operator.event] using h

theorem delivers_climbs (h : t.lexeme = .mark .climb) {b : β} (ht : Terminated (t :: ts))
    (hc : c.At past counts (t :: ts)) :
    Delivered past counts (t :: ts) b Option.isSome (Reading.operator (lexemes (t :: ts)))
      (plain.repeatedClimb ⟨c, b⟩) := by
  obtain ⟨us, t', rest, c', hts, hrest, hus, ht', hrun, hc'⟩ :=
    climbsAtMost_run (n := c.unread + 1) (b := b) ht hc (hc.shows.length_le ht)
  have hne : us ≠ [] := by
    rintro rfl
    exact ht' ((List.cons.inj hts).1 ▸ h)
  have hrun' : plain.repeatedClimb ⟨c, b⟩ =
      (emit (.climb us.length) >>= fun _ => return true) ⟨c'.back, b⟩ := by
    show (plain.climbsAtMost (c.unread + 1) >>= _) _ = _
    rw [bind_run, hrun]
    show (if us.length = 0 then _ else _ : ParseM β Bool) _ = _
    rw [if_neg (mt List.length_eq_zero_iff.1 hne)]
  rw [hts, operator_climbs hus hne ht', hrun']
  exact .behind us rfl <|
    ((Delivers.result _).report (.climb us.length)).delivered hrest hc'.back

theorem delivers_operator :
    Delivers (β := β) (plain.startingWith Lexeme.isOperator plain.operator) Option.isSome
      Reading.operator := by
  refine .guarded ⟨fun {c b past counts ts} ht hc => ?_⟩ ?_
  · obtain ⟨t, ts, rfl⟩ := ht.exists_cons
    rw [lexemes_cons]
    have hend (m : Mark) (h : t.lexeme = .mark m) := ht.tail (by simp [h, Lexeme.isFinal])
    cases h : t.lexeme with
    | mark m =>
      cases m with
      | child =>
        refine .next hc ?_
        rw [h]
        exact ((Delivers.result (β := β) Derivation.Operator.child).report .child).delivered
          (hend _ h) hc.next
      | sibling =>
        refine .next hc ?_
        rw [h]
        exact ((Delivers.result (β := β) Derivation.Operator.sibling).report .sibling).delivered
          (hend _ h) hc.next
      | climb =>
        show Delivered past counts (t :: ts) b Option.isSome _ ((next >>= _) _)
        have hclimbs := delivers_climbs (b := b) h ht hc.next.back
        rw [lexemes_cons, h] at hclimbs
        rw [next_bind, hc.next_token, h]
        exact hclimbs
      | _ => exact .back ht hc h (by rw [h])
    | _ => exact .back ht hc h (by rw [h])
  · intro l ls h
    cases l with
    | mark m => cases m <;> first | rfl | cases h
    | _ => rfl

theorem delivers_abbreviationAtMost (bound : Nat) :
    Delivers (β := β) (plain.abbreviationAtMost bound) Option.isSome
      (Reading.abbreviationAtMost bound) := by
  induction bound with
  | zero => exact Delivers.nothing
  | succ bound ih =>
    refine .andThen ((delivers_group ih).either delivers_element) fun i =>
      delivers_operator.bind fun x => ?_
    cases x with
    | none => exact Delivers.result (Derivation.Abbreviation.single i)
    | some op => exact (ih.startingWith _).map (h := Derivation.Abbreviation.joined i op)

theorem delivers_abbreviation :
    Delivers (β := β) plain.abbreviation Option.isSome Reading.abbreviation := by
  refine ⟨fun {c b past counts ts} ht hc => ?_⟩
  have hb : (lexemes ts).length ≤ c.unread + 1 := by
    rw [length_lexemes]
    exact hc.shows.length_le ht
  rw [Reading.abbreviation, Reading.abbreviationAtMost_congr (Nat.le_refl _) hb]
  exact (delivers_abbreviationAtMost (c.unread + 1)).delivered ht hc

end Shorthand.Grammar
