import Shorthand.Proofs.Grammar.Soundness

/-! # One lexeme ahead

A reading depends on the lexemes that it consumes and on the first that it leaves, and that one could
as well be the end of the input: nothing goes on because the input ends (`Foresees.stops`). So what
is said at the place where a reading stops does not depend on what comes behind it. -/

namespace Shorthand.Reading
open Shorthand.Derivation
variable {α γ : Type} {r : Reading α} {es : List Event} {us ls xs ys : List Lexeme}
  {l l' : Lexeme}

/-- What is left to read. -/
def ahead (r : Reading α) : List Lexeme :=
  match r.ending with
  | .ok (_, ls) => ls
  | .error (_, ls) => ls

/-- What was read, unless there was a fault. -/
def result (r : Reading α) : Option α :=
  match r.ending with
  | .ok (a, _) => some a
  | .error _ => none

@[simp] theorem ahead_done (a : α) : (done es a ls).ahead = ls := rfl

@[simp] theorem result_done (a : α) : (done es a ls).result = some a := rfl

theorem ending_of_result {a : α} (h : r.result = some a) : r.ending = .ok (a, r.ahead) := by
  obtain ⟨es, _ | ⟨a', mid⟩⟩ := r
  · cases h
  · cases h; rfl

theorem bind_of_result {a : α} (h : r.result = some a) (next : α → List Lexeme → Reading γ) :
    (r.bind next).ahead = (next a r.ahead).ahead ∧
      (r.bind next).result = (next a r.ahead).result := by
  have he := ending_of_result h
  unfold bind ahead result
  rw [he]
  exact ⟨rfl, rfl⟩

theorem bind_of_fault (h : r.result = none) (next : α → List Lexeme → Reading γ) :
    (r.bind next).ahead = r.ahead ∧ (r.bind next).result = none := by
  obtain ⟨es, ⟨f, mid⟩ | ⟨a, mid⟩⟩ := r
  · exact ⟨rfl, rfl⟩
  · cases h

/-- The last lexeme is a final one. -/
def Ended (ls : List Lexeme) : Prop := ∃ init l, ls = init ++ [l] ∧ l.isFinal

theorem Ended.append (h : Ended ls) (us : List Lexeme) : Ended (us ++ ls) := by
  obtain ⟨init, l, rfl, hl⟩ := h
  exact ⟨us ++ init, l, by simp, hl⟩

theorem Ended.of_append (h : Ended (us ++ ls)) (hne : ls ≠ []) : Ended ls := by
  obtain ⟨init, l, he, hl⟩ := h
  obtain ⟨ls, l', rfl⟩ := (List.eq_nil_or_concat ls).resolve_left hne
  rw [List.concat_eq_append, ← List.append_assoc] at he
  obtain ⟨-, hlast⟩ := List.append_inj' he rfl
  obtain ⟨rfl, -⟩ := List.cons.inj hlast
  exact ⟨ls, l', List.concat_eq_append, hl⟩

theorem Ended.tail (h : Ended (l :: ls)) (hl : ¬ l.isFinal) : Ended ls := by
  obtain ⟨init, l', he, hf⟩ := h
  cases init with
  | nil =>
    obtain ⟨rfl, -⟩ := List.cons.inj he
    exact absurd hf hl
  | cons u init =>
    obtain ⟨rfl, rfl⟩ := List.cons.inj he
    exact ⟨init, l', rfl, hf⟩

theorem Ended.exists_cons (h : Ended ls) : ∃ l ls', ls = l :: ls' := by
  obtain ⟨init, l, rfl, -⟩ := h
  cases init with
  | nil => exact ⟨l, [], rfl⟩
  | cons u init => exact ⟨u, init ++ [l], rfl⟩

/-- Two ends of an input that start with the same lexeme, or the second of which is the end of the
input. -/
inductive Exchange : List Lexeme → List Lexeme → Prop
  | intro {l l' : Lexeme} {xs ys : List Lexeme} (h : l' = l ∨ l' = .eof) (hx : Ended (l :: xs))
    (hy : Ended (l' :: ys)) : Exchange (l :: xs) (l' :: ys)

theorem Exchange.append (h : Exchange xs ys) (us : List Lexeme) :
    Exchange (us ++ xs) (us ++ ys) := by
  cases us with
  | nil => exact h
  | cons u us =>
    cases h with
    | intro _ hx hy => exact .intro (.inl rfl) (hx.append (u :: us)) (hy.append (u :: us))

theorem Exchange.ended (h : Exchange xs ys) : Ended xs ∧ Ended ys := by
  cases h with
  | intro _ hx hy => exact ⟨hx, hy⟩

/-- Of an input that ends, `p` leaves the end. Where it stops, it stops with the same result whatever
comes behind the next lexeme, and also if that is the end of the input. -/
structure Foresees (p : List Lexeme → Reading α) : Prop where
  leaves : ∀ {ls}, Ended ls → Ended (p ls).ahead ∧ (p ls).ahead <:+ ls
  stops : ∀ us {xs ys}, Exchange xs ys → (p (us ++ xs)).ahead = xs →
    (p (us ++ ys)).ahead = ys ∧ (p (us ++ ys)).result = (p (us ++ xs)).result

namespace Foresees
variable {p : List Lexeme → Reading α} {q : α → List Lexeme → Reading γ}

theorem done (a : α) : Foresees fun ls => done es a ls where
  leaves h := ⟨h, List.suffix_refl _⟩
  stops us xs ys _ h := by
    have hus : us = [] := List.append_left_eq_self.1 h
    subst hus
    exact ⟨rfl, rfl⟩

theorem fault (f : Fault) : Foresees (α := α) fun ls => fault f ls where
  leaves h := ⟨h, List.suffix_refl _⟩
  stops us xs ys _ h := by
    have hus : us = [] := List.append_left_eq_self.1 h
    subst hus
    exact ⟨rfl, rfl⟩

theorem report (h : Foresees p) (e : Event) : Foresees fun ls => .report e (p ls) :=
  ⟨h.leaves, h.stops⟩

theorem bind (hp : Foresees p) (hq : ∀ a, Foresees (q a)) : Foresees fun ls => (p ls).bind q where
  leaves {ls} hls := by
    obtain ⟨hends, hsuffix⟩ := hp.leaves hls
    cases h : (p ls).result with
    | none =>
      rw [(bind_of_fault h q).1]
      exact ⟨hends, hsuffix⟩
    | some a =>
      rw [(bind_of_result h q).1]
      obtain ⟨hends', hsuffix'⟩ := (hq a).leaves hends
      exact ⟨hends', hsuffix'.trans hsuffix⟩
  stops us xs ys hxy h := by
    obtain ⟨hends, hsuffix⟩ := hp.leaves (hxy.ended.1.append us)
    cases hr : (p (us ++ xs)).result with
    | none =>
      obtain ⟨hahead, hresult⟩ := bind_of_fault hr q
      obtain ⟨hahead', hresult'⟩ := hp.stops us hxy (hahead.symm.trans h)
      rw [hr] at hresult'
      obtain ⟨hahead'', hresult''⟩ := bind_of_fault hresult' q
      exact ⟨hahead''.trans hahead', hresult''.trans hresult.symm⟩
    | some a =>
      obtain ⟨hahead, hresult⟩ := bind_of_result hr q
      -- `q` leaves `xs` of what `p` has left, so `p` has read a part of `us`
      obtain ⟨vs, hvs⟩ := ((hq a).leaves hends).2
      rw [← hahead, h] at hvs
      obtain ⟨ws, hws⟩ := hsuffix
      rw [← hvs, ← List.append_assoc] at hws
      obtain rfl := List.append_cancel_right hws
      rw [List.append_assoc] at h hr hahead hresult hvs
      have hp' := hp.stops ws (hxy.append vs) hvs.symm
      rw [hr] at hp'
      obtain ⟨hahead', hresult'⟩ := bind_of_result hp'.2 q
      rw [hp'.1] at hahead' hresult'
      rw [← hvs] at hahead hresult
      have hq' := (hq a).stops vs hxy (hahead.symm.trans h)
      rw [List.append_assoc, List.append_assoc]
      exact ⟨hahead'.trans hq'.1, (hresult'.trans hq'.2).trans hresult.symm⟩

theorem orElse {p p' : List Lexeme → Reading (Option α)} (hp : Foresees p) (hp' : Foresees p') :
    Foresees fun ls => (p ls).orElse p' := by
  refine hp.bind fun x => ?_
  cases x with
  | none => exact hp'
  | some a => exact done (some a)

theorem bindSome {p : List Lexeme → Reading (Option α)}
    {q : α → List Lexeme → Reading (Option γ)}
    (hp : Foresees p) (hq : ∀ a, Foresees (q a)) : Foresees fun ls => (p ls).bindSome q := by
  refine hp.bind fun x => ?_
  cases x with
  | none => exact done none
  | some a => exact hq a

theorem map {p : List Lexeme → Reading (Option α)} (hp : Foresees p) (f : α → γ) :
    Foresees fun ls => (p ls).map f :=
  hp.bindSome fun a => done (some (f a))

/-- What the first lexeme decides: behind one that passes the test `q` reads on, and at any other
nothing is read. -/
theorem headed (test : Lexeme → Bool) (q : Lexeme → List Lexeme → Reading α) {x : Option α}
    (hq : ∀ l, test l = true → ¬ l.isFinal ∧ Foresees (q l))
    (hyes : ∀ l ls, Ended (l :: ls) → test l = true → p (l :: ls) = q l ls)
    (hno : ∀ l ls, test l = false → (p (l :: ls)).ahead = l :: ls ∧ (p (l :: ls)).result = x) :
    Foresees p where
  leaves {ls} hls := by
    obtain ⟨l, ls, rfl⟩ := hls.exists_cons
    cases h : test l with
    | false =>
      rw [(hno l ls h).1]
      exact ⟨hls, List.suffix_refl _⟩
    | true =>
      obtain ⟨hl, hq⟩ := hq l h
      obtain ⟨hends, hsuffix⟩ := hq.leaves (hls.tail hl)
      rw [hyes l ls hls h]
      exact ⟨hends, hsuffix.trans (List.suffix_cons l ls)⟩
  stops us xs ys hxy hs := by
    cases us with
    | nil =>
      cases hxy with
      | @intro l l' xs ys hl hx _ =>
        cases h : test l with
        | false =>
          have hl' : test l' = false := by
            rcases hl with rfl | rfl
            · exact h
            · exact Bool.eq_false_iff.2 fun he => (hq .eof he).1 rfl
          exact ⟨(hno l' ys hl').1, (hno l' ys hl').2.trans (hno l xs h).2.symm⟩
        | true =>
          -- what was read cannot be left
          obtain ⟨hf, hq⟩ := hq l h
          rw [List.nil_append, hyes l xs hx h] at hs
          have hle := (hq.leaves (hx.tail hf)).2.length_le
          rw [hs, List.length_cons] at hle
          omega
    | cons u us =>
      have hends := hxy.ended
      rw [List.cons_append] at hs ⊢
      rw [List.cons_append]
      cases h : test u with
      | false =>
        rw [(hno u _ h).1, ← List.cons_append] at hs
        exact absurd (List.append_left_eq_self.1 hs) (List.cons_ne_nil u us)
      | true =>
        rw [hyes u (us ++ xs) (hends.1.append (u :: us)) h] at hs ⊢
        rw [hyes u (us ++ ys) (hends.2.append (u :: us)) h]
        exact (hq u h).2.stops us hxy hs

theorem startingWith {test : Lexeme → Bool} {p : List Lexeme → Reading (Option α)}
    (hp : Foresees p) (heof : test .eof = false)
    (hpeof : ∀ ls, (p (.eof :: ls)).result = some none) :
    Foresees (Reading.startingWith test p) where
  leaves {ls} hls := by
    obtain ⟨l, ls, rfl⟩ := hls.exists_cons
    rw [Reading.startingWith]
    split
    · exact hp.leaves hls
    · exact ⟨hls, List.suffix_refl _⟩
  stops us xs ys hxy hs := by
    cases us with
    | nil =>
      cases hxy with
      | @intro l l' xs ys hl hx hy =>
        simp only [List.nil_append, Reading.startingWith] at hs ⊢
        cases h : test l with
        | false =>
          have hl' : test l' = false := by rcases hl with rfl | rfl <;> assumption
          simp only [hl', Bool.false_eq_true, if_false]
          exact ⟨rfl, rfl⟩
        | true =>
          rw [h, if_pos rfl] at hs
          have hstop := hp.stops [] (.intro hl hx hy) hs
          rcases hl with rfl | rfl
          · simp only [h, if_true]
            exact hstop
          · simp only [heof, Bool.false_eq_true, if_false, if_true]
            exact ⟨rfl, (hpeof ys).symm.trans hstop.2⟩
    | cons u us =>
      simp only [List.cons_append, Reading.startingWith] at hs ⊢
      split
      · next h =>
        rw [if_pos h] at hs
        exact hp.stops (u :: us) hxy hs
      · next h =>
        rw [if_neg h, ahead_done, ← List.cons_append] at hs
        exact absurd (List.append_left_eq_self.1 hs) (List.cons_ne_nil u us)

theorem manyAtMost {p : List Lexeme → Reading (Option α)} (hp : Foresees p) (bound : Nat) :
    Foresees (Reading.manyAtMost p bound) := by
  induction bound with
  | zero => exact done []
  | succ bound ih =>
    refine hp.bind fun x => ?_
    cases x with
    | none => exact done []
    | some a => exact ih.bind fun as => done (a :: as)

/-- A bound may follow the length of the input. -/
theorem bounded {f : Nat → List Lexeme → Reading α} (hf : ∀ n, Foresees (f n))
    (hcongr : ∀ {ls : List Lexeme} {n n'}, ls.length ≤ n → ls.length ≤ n' → f n ls = f n' ls) :
    Foresees fun ls => f ls.length ls where
  leaves hls := (hf _).leaves hls
  stops us xs ys hxy hs := by
    have hx : (us ++ xs).length ≤ (us ++ xs).length + (us ++ ys).length := by omega
    have hy : (us ++ ys).length ≤ (us ++ xs).length + (us ++ ys).length := by omega
    rw [hcongr (Nat.le_refl _) hx] at hs ⊢
    rw [hcongr (Nat.le_refl _) hy]
    exact (hf _).stops us hxy hs

theorem many {leaves : α → List Lexeme} {events : α → List Event}
    {p : List Lexeme → Reading (Option α)} (hp : Foresees p) (hs : Sound leaves events p)
    (hne : ∀ a, leaves a ≠ []) (hnil : p [] = .done [] none []) : Foresees (Reading.many p) :=
  bounded hp.manyAtMost fun hn hn' => hs.manyAtMost_congr hne hnil hn hn'

end Foresees

/-! ### Productions -/

theorem not_isFinal_of_beq {m : Mark} (h : (l == .mark m) = true) : ¬ l.isFinal := by
  rw [beq_iff_eq.1 h]
  exact Bool.false_ne_true

theorem foresees_expect (m : Mark) (f : Fault) : Foresees (expect m f) := by
  refine .headed (· == .mark m) (fun _ ls => done [] () ls) (x := none) ?_ ?_ ?_
  · intro l h
    exact ⟨not_isFinal_of_beq h, .done ()⟩
  · intro l ls _ h
    rw [expect, if_pos (beq_iff_eq.1 h)]
  · intro l ls h
    rw [expect, if_neg (beq_eq_false_iff_ne.1 h)]
    exact ⟨rfl, rfl⟩

theorem foresees_nameFrom (f : Fault) (d : String → Decoration) : Foresees (nameFrom f d) := by
  refine .headed Grammar.isWord (fun l ls => nameFrom f d (l :: ls)) (x := none)
    ?_ (fun _ _ _ _ => rfl) ?_
  · intro l h
    cases l with
    | word name => exact ⟨Bool.false_ne_true, .done _⟩
    | _ => cases h
  · intro l ls h
    cases l with
    | word name => cases h
    | _ => exact ⟨rfl, rfl⟩

theorem foresees_named (m : Mark) (f : Fault) (d : String → Decoration) :
    Foresees (named m f d) := by
  refine .headed (· == .mark m) (fun _ ls => nameFrom f d ls) (x := some none) ?_ ?_ ?_
  · intro l h
    exact ⟨not_isFinal_of_beq h, foresees_nameFrom f d⟩
  · intro l ls _ h
    rw [named, if_pos (beq_iff_eq.1 h)]
  · intro l ls h
    rw [named, if_neg (beq_eq_false_iff_ne.1 h)]
    exact ⟨rfl, rfl⟩

theorem foresees_id : Foresees id := foresees_named _ _ _

theorem foresees_className : Foresees className := foresees_named _ _ _

theorem foresees_attrValue (name : String) :
    Foresees fun ls => attr (.word name :: .mark .equals :: ls) := by
  refine .headed (fun l => (attrValue? l).isSome)
    (fun l ls => attr (.word name :: .mark .equals :: l :: ls)) (x := none)
    ?_ (fun _ _ _ _ => rfl) ?_
  · intro l h
    cases l with
    | word value => exact ⟨Bool.false_ne_true, .done _⟩
    | quoted value => exact ⟨Bool.false_ne_true, .done _⟩
    | _ => cases h
  · intro l ls h
    cases l with
    | word value => cases h
    | quoted value => cases h
    | _ => exact ⟨rfl, rfl⟩

theorem foresees_attrBehind (name : String) : Foresees fun ls => attr (.word name :: ls) := by
  refine .headed (· == .mark .equals)
    (fun _ ls => attr (.word name :: .mark .equals :: ls)) (x := some (some ⟨name, none⟩)) ?_ ?_ ?_
  · intro l h
    exact ⟨not_isFinal_of_beq h, foresees_attrValue name⟩
  · intro l ls _ h
    rw [beq_iff_eq.1 h]
  · intro l ls h
    have hl : l ≠ .mark .equals := beq_eq_false_iff_ne.1 h
    rw [attr]
    · exact ⟨rfl, rfl⟩
    · intro l' ls' he
      exact hl (List.cons.inj he).1

theorem foresees_attr : Foresees attr := by
  refine .headed Grammar.isWord (fun l ls => attr (l :: ls)) (x := some none)
    ?_ (fun _ _ _ _ => rfl) ?_
  · intro l h
    cases l with
    | word name => exact ⟨Bool.false_ne_true, foresees_attrBehind name⟩
    | _ => cases h
  · intro l ls h
    cases l with
    | word name => cases h
    | _ => exact ⟨rfl, rfl⟩

theorem foresees_attrs : Foresees (many attr) :=
  foresees_attr.many sound_attr Attr.lexemes_ne_nil rfl

theorem foresees_attrList : Foresees attrList := by
  have hfrom (first : Attr) : Foresees (attrsFrom first) :=
    foresees_attrs.bind fun others => (foresees_expect _ _).bind fun _ =>
      .done (some (Decoration.attrs first others))
  have hattrs : Foresees attrs := by
    refine foresees_attr.bind fun x => ?_
    cases x with
    | none => exact .fault .attrName
    | some first => exact hfrom first
  refine .headed (· == .mark .openAttrs) (fun _ ls => attrs ls) (x := some none) ?_ ?_ ?_
  · intro l h
    exact ⟨not_isFinal_of_beq h, hattrs⟩
  · intro l ls _ h
    rw [beq_iff_eq.1 h, attrList]
  · intro l ls h
    rw [attrList]
    · exact ⟨rfl, rfl⟩
    · exact fun _ he => beq_eq_false_iff_ne.1 h (List.cons.inj he).1

theorem foresees_decoration : Foresees decoration :=
  foresees_id.orElse (foresees_className.orElse foresees_attrList)

theorem foresees_text : Foresees text := by
  refine .headed (fun l => !Grammar.isWord l && Grammar.isWordOrText l)
    (fun l ls => text (l :: ls)) (x := some none) ?_ (fun _ _ _ _ => rfl) ?_
  · intro l h
    cases l with
    | text content => exact ⟨Bool.false_ne_true, .done _⟩
    | _ => cases h
  · intro l ls h
    cases l with
    | text content => cases h
    | _ => exact ⟨rfl, rfl⟩

theorem foresees_tag : Foresees tag := by
  have hds : Foresees (many decoration) :=
    foresees_decoration.many sound_decoration Decoration.lexemes_ne_nil rfl
  refine .headed Grammar.isWord (fun l ls => tag (l :: ls)) (x := some none)
    ?_ (fun _ _ _ _ => rfl) ?_
  · intro l h
    cases l with
    | word name =>
      exact ⟨Bool.false_ne_true, (hds.bind fun ds => foresees_text.bind fun x =>
        .done (some (Tag.mk name ds x))).report (.element name)⟩
    | _ => cases h
  · intro l ls h
    cases l with
    | word name => cases h
    | _ => exact ⟨rfl, rfl⟩

theorem foresees_numeral : Foresees numeral := by
  refine .headed (fun l => Grammar.isWord l && (numeral? l.content).isSome)
    (fun l ls => numeral (l :: ls)) (x := none) ?_ (fun _ _ _ _ => rfl) ?_
  · intro l h
    cases l with
    | word s =>
      refine ⟨Bool.false_ne_true, ?_⟩
      obtain ⟨n, hn⟩ := Option.isSome_iff_exists.1 h
      simp only [numeral, show numeral? s = some n from hn]
      exact .done (some n)
    | _ => cases h
  · intro l ls h
    cases l with
    | word s =>
      have hs : numeral? s = none := Option.not_isSome_iff_eq_none.1 (Bool.eq_false_iff.1 h)
      simp only [numeral, hs]
      exact ⟨rfl, rfl⟩
    | _ => exact ⟨rfl, rfl⟩

theorem foresees_multiplication : Foresees multiplication := by
  refine .headed (· == .mark .times) (fun _ ls => numeral ls) (x := some none) ?_ ?_ ?_
  · intro l h
    exact ⟨not_isFinal_of_beq h, foresees_numeral⟩
  · intro l ls _ h
    rw [beq_iff_eq.1 h, multiplication]
  · intro l ls h
    rw [multiplication]
    · exact ⟨rfl, rfl⟩
    · exact fun _ he => beq_eq_false_iff_ne.1 h (List.cons.inj he).1

theorem foresees_element : Foresees element :=
  ((foresees_tag.map Element.tag).orElse (foresees_text.map Element.text)).bindSome fun e =>
    foresees_multiplication.bind fun count => .done (some (Item.element e count))

theorem foresees_group {inner : List Lexeme → Reading (Option Abbreviation)} (hi : Foresees inner)
    (heof : ∀ ls, (inner (.eof :: ls)).result = some none) : Foresees (group inner) := by
  have hfrom (a : Abbreviation) : Foresees (groupFrom a) :=
    (foresees_expect _ _).bind fun _ => (foresees_multiplication.bind fun count =>
      .done (some (Item.group a count))).report .closeGroup
  refine .headed (· == .mark .openGroup) (fun _ ls => group inner (.mark .openGroup :: ls))
    (x := some none) ?_ ?_ ?_
  · intro l h
    refine ⟨not_isFinal_of_beq h, .report (.bind (hi.startingWith rfl heof) fun x => ?_) .openGroup⟩
    cases x with
    | none => exact .fault .groupBody
    | some a => exact hfrom a
  · intro l ls _ h
    rw [beq_iff_eq.1 h]
  · intro l ls h
    rw [group]
    · exact ⟨rfl, rfl⟩
    · exact fun _ he => beq_eq_false_iff_ne.1 h (List.cons.inj he).1

theorem foresees_climbs : Foresees fun ls => operator (.mark .climb :: ls) where
  leaves {ls} hls := by
    show Ended (ls.dropWhile isClimb) ∧ ls.dropWhile isClimb <:+ ls
    refine ⟨?_, List.dropWhile_suffix _⟩
    induction ls with
    | nil => exact hls
    | cons l ls ih =>
      rw [List.dropWhile_cons]
      split
      · next h => exact ih (hls.tail (not_isFinal_of_beq h))
      · exact hls
  stops us xs ys hxy hs := by
    cases hxy with
    | @intro l l' xs ys hl _ _ =>
      change (us ++ l :: xs).dropWhile isClimb = l :: xs at hs
      have hstop : isClimb l = false := by
        have h := List.head?_dropWhile_not isClimb (us ++ l :: xs)
        rw [hs] at h
        simpa using h
      have hstop' : isClimb l' = false := by
        rcases hl with rfl | rfl
        · exact hstop
        · rfl
      -- Nothing in front of `l` is other than a climb, for reading would have stopped there.
      have hrun : ∀ u ∈ us, isClimb u = true := by
        induction us with
        | nil => simp
        | cons u us ih =>
          rw [List.cons_append, List.dropWhile_cons] at hs
          split at hs
          · next h => simpa [h] using ih hs
          · rw [← List.cons_append] at hs
            exact absurd (List.append_left_eq_self.1 hs) (List.cons_ne_nil u us)
      have hread (m : Lexeme) (ms : List Lexeme) (hm : isClimb m = false) :
          operator (.mark .climb :: (us ++ m :: ms)) =
            .done [.climb (us.length + 1)] (some (.climb us.length)) (m :: ms) := by
        simp [operator, List.takeWhile_append_of_pos hrun, List.dropWhile_append_of_pos hrun, hm]
      rw [hread l xs hstop, hread l' ys hstop']
      exact ⟨rfl, rfl⟩

theorem foresees_operator : Foresees operator := by
  refine .headed Lexeme.isOperator (fun l ls => operator (l :: ls)) (x := some none)
    ?_ (fun _ _ _ _ => rfl) ?_
  · intro l h
    cases l with
    | mark m =>
      refine ⟨Bool.false_ne_true, ?_⟩
      cases m with
      | child => exact .done _
      | sibling => exact .done _
      | climb => exact foresees_climbs
      | _ => cases h
    | _ => cases h
  · intro l ls h
    cases l with
    | mark m =>
      cases m with
      | child | sibling | climb => cases h
      | _ => exact ⟨rfl, rfl⟩
    | _ => exact ⟨rfl, rfl⟩

theorem abbreviationAtMost_eof (bound : Nat) (ls : List Lexeme) :
    abbreviationAtMost bound (.eof :: ls) = done [] none (.eof :: ls) := by
  cases bound <;> rfl

theorem foresees_abbreviationAtMost (bound : Nat) : Foresees (abbreviationAtMost bound) := by
  induction bound with
  | zero => exact .done none
  | succ bound ih =>
    have heof (ls : List Lexeme) : (abbreviationAtMost bound (.eof :: ls)).result = some none := by
      rw [abbreviationAtMost_eof]
      rfl
    refine ((foresees_group ih heof).orElse foresees_element).bindSome fun i =>
      foresees_operator.bind fun x => ?_
    cases x with
    | none => exact .done (some (Abbreviation.single i))
    | some op =>
      exact (ih.startingWith rfl heof).bindSome fun rest =>
        .done (some (Abbreviation.joined i op rest))

theorem foresees_abbreviation : Foresees abbreviation :=
  .bounded foresees_abbreviationAtMost fun hn hn' => abbreviationAtMost_congr hn hn'

end Shorthand.Reading
