import Shorthand.Proofs.Grammar.Soundness
import Shorthand.Proofs.Token.Written

/-! # Beginnings

Whatever was read in front of a fault is the beginning of a derivation, and what was reported is the
beginning of its events (`Extends`). What is missing can always be filled in with lexemes that can be
written. Where an abbreviation breaks off behind an operator and there is no fault, that operator
stands outside all parentheses (`unfinished_abbreviationAtMost`). -/

namespace Shorthand.Reading
open Shorthand.Derivation
variable {α γ : Type} {es : List Event} {us ls rest more : List Lexeme} {l : Lexeme} {f : Fault}

/-- What a lexeme adds to the number of open parentheses. -/
def turn : Lexeme → Int
  | .mark .openGroup => 1
  | .mark .closeGroup => -1
  | _ => 0

/-- The number of parentheses opened and not closed. -/
def depth : List Lexeme → Int
  | [] => 0
  | l :: ls => turn l + depth ls

@[simp] theorem depth_nil : depth [] = 0 := rfl

@[simp] theorem depth_cons (l : Lexeme) (ls : List Lexeme) :
    depth (l :: ls) = turn l + depth ls := rfl

@[simp] theorem depth_append (xs ys : List Lexeme) : depth (xs ++ ys) = depth xs + depth ys := by
  induction xs with
  | nil => simp
  | cons x xs ih => simp [ih, Int.add_assoc]

/-- Ends with an operator outside all parentheses. -/
def BreaksOff (ls : List Lexeme) : Prop :=
  ∃ init l, ls = init ++ [l] ∧ l.isOperator ∧ depth init = 0

/-- Closes what it opens, and no more at any place. -/
structure Nested (ls : List Lexeme) : Prop where
  closed : depth ls = 0
  inside : ∀ us more, ls = us ++ more → 0 ≤ depth us

/-- Neither a parenthesis nor an operator. -/
def isInner : Lexeme → Bool
  | .mark .openGroup | .mark .closeGroup => false
  | l => !l.isOperator

theorem turn_of_isInner (h : isInner l) : turn l = 0 := by
  unfold turn
  split
  · cases h
  · cases h
  · rfl

theorem turn_of_isOperator (h : l.isOperator) : turn l = 0 := by
  unfold turn
  split
  · cases h
  · cases h
  · rfl

theorem not_isInner_of_isOperator (h : l.isOperator) : ¬ isInner l := by
  unfold isInner
  split
  · exact Bool.false_ne_true
  · exact Bool.false_ne_true
  · simp [h]

theorem Nested.append {xs ys : List Lexeme} (hx : Nested xs) (hy : Nested ys) : Nested (xs ++ ys) where
  closed := by rw [depth_append, hx.closed, hy.closed, Int.add_zero]
  inside us more h := by
    rcases List.append_eq_append_iff.1 h with ⟨zs, rfl, hzs⟩ | ⟨zs, hzs, -⟩
    · have := hy.inside zs more hzs
      rw [depth_append, hx.closed]
      omega
    · exact hx.inside us zs hzs

theorem nested_of_turn (h : ∀ l ∈ ls, turn l = 0) : Nested ls := by
  have hzero : ∀ us more, ls = us ++ more → depth us = 0 := by
    intro us more he
    subst he
    induction us with
    | nil => rfl
    | cons u us ih =>
      rw [depth_cons, h u (by simp), Int.zero_add]
      exact ih fun l hl => h l (List.mem_cons_of_mem _ hl)
  exact ⟨hzero ls [] (by simp), fun us more he => Int.le_of_eq (hzero us more he).symm⟩

theorem nested_group {inner tail : List Lexeme} (hi : Nested inner) (ht : Nested tail) :
    Nested (.mark .openGroup :: (inner ++ .mark .closeGroup :: tail)) where
  closed := by
    have := hi.closed
    have := ht.closed
    simp only [depth_cons, depth_append, turn]
    omega
  inside us more h := by
    cases us with
    | nil => exact Int.le_refl _
    | cons u us =>
      obtain ⟨rfl, h'⟩ := List.cons.inj h
      rcases List.append_eq_append_iff.1 h' with ⟨zs, rfl, hzs⟩ | ⟨zs, hzs, -⟩
      · have := hi.closed
        cases zs with
        | nil =>
          simp only [depth_cons, depth_append, depth_nil, turn]
          omega
        | cons z zs =>
          obtain ⟨rfl, htail⟩ := List.cons.inj hzs
          have := ht.inside zs more htail
          simp only [depth_cons, depth_append, turn]
          omega
      · have := hi.inside us zs hzs
        simp only [depth_cons, turn]
        omega

theorem isInner_element {e : Element} (h : l ∈ e.lexemes) : isInner l := by
  have hattr {a : Attr} (h : l ∈ a.lexemes) : isInner l := by
    rcases a with ⟨name, _ | v⟩
    · simp only [Attr.lexemes, List.mem_singleton] at h
      subst h; rfl
    · simp only [Attr.lexemes, List.mem_cons, List.not_mem_nil, or_false] at h
      rcases h with rfl | rfl | rfl
      · rfl
      · rfl
      · cases v <;> rfl
  have hdecoration {d : Decoration} (h : l ∈ d.lexemes) : isInner l := by
    cases d with
    | id name | className name =>
      simp only [Decoration.lexemes, List.mem_cons, List.not_mem_nil, or_false] at h
      rcases h with rfl | rfl <;> rfl
    | attrs first others =>
      simp only [Decoration.lexemes, List.mem_cons, List.mem_append, List.mem_flatMap,
        List.not_mem_nil, or_false] at h
      rcases h with ((rfl | h) | ⟨a, -, h⟩) | rfl
      · rfl
      · exact hattr h
      · exact hattr h
      · rfl
  rcases e with ⟨name, ds, x⟩ | s
  · simp only [Element.lexemes, Tag.lexemes, textLexemes, List.mem_cons, List.mem_append,
      List.mem_flatMap, Option.mem_toList, Option.map_eq_some_iff] at h
    rcases h with (rfl | ⟨d, -, h⟩) | ⟨s, -, rfl⟩
    · rfl
    · exact hdecoration h
    · rfl
  · simp only [Element.lexemes, List.mem_singleton] at h
    subst h; rfl

theorem isInner_count {count : Option Numeral} (h : l ∈ countLexemes count) : isInner l := by
  cases count with
  | none => cases h
  | some n =>
    simp only [countLexemes, List.mem_cons, List.not_mem_nil, or_false] at h
    rcases h with rfl | rfl <;> rfl

theorem isOperator_of_mem {op : Operator} (h : l ∈ op.lexemes) : l.isOperator := by
  cases op with
  | child | sibling =>
    simp only [Operator.lexemes, List.mem_singleton] at h
    subst h; rfl
  | climb further =>
    simp only [Operator.lexemes, List.mem_cons, List.mem_replicate] at h
    rcases h with rfl | ⟨-, rfl⟩ <;> rfl

theorem nested_operator (op : Operator) : Nested op.lexemes :=
  nested_of_turn fun _ hl => turn_of_isOperator (isOperator_of_mem hl)

theorem nested_all : (∀ i : Item, Nested i.lexemes) ∧ ∀ a : Abbreviation, Nested a.lexemes := by
  refine Derivation.induction ?element ?group ?single ?joined
  case element =>
    intro e count
    refine nested_of_turn fun l hl => turn_of_isInner ?_
    rcases List.mem_append.1 hl with hl | hl
    · exact isInner_element hl
    · exact isInner_count hl
  case group =>
    intro inner count ih
    exact nested_group ih (nested_of_turn fun _ hl => turn_of_isInner (isInner_count hl))
  case single =>
    intro i ih
    exact ih
  case joined =>
    intro i op rest ihi iha
    exact (ihi.append (nested_operator op)).append iha

/-- Inside an item there are no operators but between parentheses. -/
theorem not_breaksOff_item {i : Item} (h : i.lexemes = us ++ more) : ¬ BreaksOff us := by
  rintro ⟨init, l, rfl, hl, hdepth⟩
  have hinner := not_isInner_of_isOperator hl
  cases i with
  | element e count =>
    have hmem : l ∈ e.lexemes ++ countLexemes count := by
      rw [← Item.lexemes, h]
      simp
    rcases List.mem_append.1 hmem with hmem | hmem
    · exact hinner (isInner_element hmem)
    · exact hinner (isInner_count hmem)
  | group inner count =>
    rw [Item.lexemes, List.cons_append, List.append_assoc] at h
    cases init with
    | nil =>
      obtain ⟨rfl, -⟩ := List.cons.inj h
      cases hl
    | cons u init =>
      obtain ⟨rfl, h'⟩ := List.cons.inj h
      rcases List.append_eq_append_iff.1 h' with ⟨zs, hzs, hmore⟩ | ⟨zs, hzs, -⟩
      · -- the operator would stand behind the closing parenthesis
        cases zs with
        | nil =>
          obtain ⟨rfl, -⟩ := List.cons.inj hmore
          cases hl
        | cons z zs =>
          obtain ⟨rfl, hcount⟩ := List.cons.inj hmore
          have hmem : l ∈ countLexemes count := by
            rw [hcount]
            simp
          exact hinner (isInner_count hmem)
      · have := (nested_all.2 inner).inside init zs hzs
        simp only [depth_cons, turn] at hdepth
        omega

theorem BreaksOff.append {pre : List Lexeme} (hp : depth pre = 0) (h : BreaksOff us) :
    BreaksOff (pre ++ us) := by
  obtain ⟨init, l, rfl, hl, hdepth⟩ := h
  refine ⟨pre ++ init, l, by simp, hl, ?_⟩
  rw [depth_append, hp, hdepth, Int.add_zero]

theorem BreaksOff.of_append {pre : List Lexeme} (hp : depth pre = 0) (hne : us ≠ [])
    (h : BreaksOff (pre ++ us)) : BreaksOff us := by
  obtain ⟨init, l, he, hl, hdepth⟩ := h
  obtain ⟨us, u, rfl⟩ := List.eq_nil_or_concat us |>.resolve_left hne
  rw [List.concat_eq_append, ← List.append_assoc] at he
  obtain ⟨rfl, hu⟩ := List.append_inj' he rfl
  obtain ⟨rfl, -⟩ := List.cons.inj hu
  refine ⟨us, u, List.concat_eq_append, hl, ?_⟩
  rw [depth_append] at hdepth
  omega

theorem not_breaksOff_abbreviation (a : Abbreviation) : ¬ BreaksOff a.lexemes := by
  have hsingle (i : Item) : ¬ BreaksOff i.lexemes := not_breaksOff_item (List.append_nil _).symm
  cases a with
  | single i => exact hsingle i
  | joined i op rest =>
    have hdepth := ((nested_all.1 i).append (nested_operator op)).closed
    exact fun h => not_breaksOff_abbreviation rest (h.of_append hdepth rest.lexemes_ne_nil)

theorem breaksOff_operator (op : Operator) : BreaksOff op.lexemes := by
  cases op with
  | child => exact ⟨[], .mark .child, rfl, rfl, rfl⟩
  | sibling => exact ⟨[], .mark .sibling, rfl, rfl, rfl⟩
  | climb further =>
    refine ⟨List.replicate further (.mark .climb), .mark .climb, ?_, rfl, ?_⟩
    · rw [Operator.lexemes, ← List.replicate_succ, ← List.replicate_succ']
    · exact (nested_of_turn fun l hl => by rw [List.eq_of_mem_replicate hl]; rfl).closed

/-! ### What is missing -/

/-- `us` is the beginning of the leaves of `a` and `es` that of its events. What is missing can be
written. -/
structure Begins (leaves : α → List Lexeme) (events : α → List Event) (us : List Lexeme)
    (es : List Event) (a : α) : Prop where
  leaves : ∃ more, leaves a = us ++ more ∧ ∀ l ∈ more, l.isWritable
  events : es <+: events a

/-- Where `p` meets a fault, it has read something, and that is a beginning. -/
structure Extends (leaves : α → List Lexeme) (events : α → List Event)
    (p : List Lexeme → Reading γ) : Prop where
  begins : ∀ {ls es f rest}, p ls = ⟨es, .error (f, rest)⟩ →
    ∃ us a, ls = us ++ rest ∧ us ≠ [] ∧ Begins leaves events us es a

section
variable {leaves : α → List Lexeme} {events : α → List Event} {leaves' : γ → List Lexeme}
  {events' : γ → List Event} {a : α} {c : γ}

theorem Begins.refl (leaves : α → List Lexeme) (events : α → List Event) (a : α) :
    Begins leaves events (leaves a) (events a) a :=
  ⟨⟨[], by simp, by simp⟩, List.prefix_refl _⟩

theorem Begins.inside (h : Begins leaves events us es a) (pre post : List Lexeme)
    (pre' post' : List Event) (hl : leaves' c = pre ++ leaves a ++ post)
    (he : events' c = pre' ++ events a ++ post') (hpost : ∀ l ∈ post, l.isWritable) :
    Begins leaves' events' (pre ++ us) (pre' ++ es) c where
  leaves := by
    obtain ⟨more, hmore, hwrite⟩ := h.leaves
    refine ⟨more ++ post, by rw [hl, hmore]; simp, fun l hl => ?_⟩
    rcases List.mem_append.1 hl with hl | hl
    · exact hwrite l hl
    · exact hpost l hl
  events := by
    obtain ⟨es', he'⟩ := h.events
    exact ⟨es' ++ post', by rw [he, ← he']; simp⟩

end

theorem done_ne_error {a : α} {ls : List Lexeme} {es' : List Event} :
    done es a ls ≠ ⟨es', .error (f, rest)⟩ := fun h => nomatch (Reading.mk.inj h).2

theorem bind_eq_error {r : Reading α} {next : α → List Lexeme → Reading γ}
    (h : r.bind next = ⟨es, .error (f, rest)⟩) : r = ⟨es, .error (f, rest)⟩ ∨
      ∃ es₁ a mid es₂, r = done es₁ a mid ∧ next a mid = ⟨es₂, .error (f, rest)⟩ ∧
        es = es₁ ++ es₂ := by
  obtain ⟨es₁, e | ⟨a, mid⟩⟩ := r
  · obtain ⟨rfl, he⟩ := Reading.mk.inj h
    cases he
    exact .inl rfl
  · obtain ⟨rfl, he⟩ := Reading.mk.inj h
    exact .inr ⟨es₁, a, mid, (next a mid).events, rfl, by rw [← he], rfl⟩

theorem report_eq_error {e : Event} {r : Reading α} (h : report e r = ⟨es, .error (f, rest)⟩) :
    ∃ es', r = ⟨es', .error (f, rest)⟩ ∧ es = e :: es' := by
  obtain ⟨es₁, x⟩ := r
  obtain ⟨rfl, rfl⟩ := Reading.mk.inj h
  exact ⟨es₁, rfl, rfl⟩

namespace Extends
variable {leaves : α → List Lexeme} {events : α → List Event}
  {p q : List Lexeme → Reading (Option α)}

theorem orElse (hs : Sound leaves events p) (hp : Extends leaves events p)
    (hq : Extends leaves events q) : Extends leaves events fun ls => (p ls).orElse q := by
  refine ⟨fun h => ?_⟩
  rcases bind_eq_error h with h | ⟨es₁, _ | a, mid, es₂, hr, hn, rfl⟩
  · exact hp.begins h
  · obtain ⟨rfl, rfl⟩ := hs.of_none hr
    exact hq.begins hn
  · exact absurd hn done_ne_error

theorem map {leaves' : γ → List Lexeme} {events' : γ → List Event} {g : α → γ}
    (hp : Extends leaves events p) (hl : ∀ a, leaves' (g a) = leaves a)
    (he : ∀ a, events' (g a) = events a) : Extends leaves' events' fun ls => Reading.map g (p ls) := by
  refine ⟨fun h => ?_⟩
  rcases bind_eq_error h with h | ⟨es₁, _ | a, mid, es₂, hr, hn, rfl⟩
  · obtain ⟨us, a, rfl, hne, ha⟩ := hp.begins h
    exact ⟨us, g a, rfl, hne, ha.inside [] [] [] []
      (by simp [hl]) (by simp [he]) (by simp)⟩
  · exact absurd hn done_ne_error
  · exact absurd hn done_ne_error

theorem manyAtMost (hs : Sound leaves events p) (hp : Extends leaves events p) (bound : Nat) :
    Extends (List.flatMap leaves) (List.flatMap events) (Reading.manyAtMost p bound) := by
  induction bound with
  | zero => exact ⟨fun h => absurd h done_ne_error⟩
  | succ bound ih =>
    refine ⟨fun h => ?_⟩
    rcases bind_eq_error h with h | ⟨es₁, _ | a, mid, es₂, hr, hn, rfl⟩
    · obtain ⟨us, a, rfl, hne, ha⟩ := hp.begins h
      exact ⟨us, [a], rfl, hne, ha.inside [] [] [] []
        (by simp) (by simp) (by simp)⟩
    · exact absurd hn done_ne_error
    · obtain ⟨rfl, rfl⟩ := hs.of_some hr
      rcases bind_eq_error hn with hm | ⟨es₃, as, mid', es₄, -, hd, -⟩
      · obtain ⟨us, as, rfl, hne, has⟩ := ih.begins hm
        exact ⟨leaves a ++ us, a :: as, by simp, by simp [hne], has.inside _ [] _ []
          (by simp) (by simp) (by simp)⟩
      · exact absurd hd done_ne_error

theorem many (hs : Sound leaves events p) (hp : Extends leaves events p) :
    Extends (List.flatMap leaves) (List.flatMap events) (Reading.many p) :=
  ⟨fun {ls} _ _ _ h => (hp.manyAtMost hs ls.length).begins h⟩

end Extends

/-! ### Productions -/

theorem expect_eq_error {m : Mark} {f' : Fault} (h : expect m f' ls = ⟨es, .error (f, rest)⟩) :
    ls = rest ∧ es = [] := by
  cases ls with
  | nil => cases h; exact ⟨rfl, rfl⟩
  | cons l ls =>
    simp only [expect] at h
    split at h
    · exact absurd h done_ne_error
    · cases h; exact ⟨rfl, rfl⟩

theorem startingWith_cases (test : Lexeme → Bool) (p : List Lexeme → Reading (Option α))
    (ls : List Lexeme) : startingWith test p ls = p ls ∨ startingWith test p ls = done [] none ls := by
  cases ls with
  | nil => exact .inr rfl
  | cons l ls =>
    rw [startingWith]
    split
    · exact .inl rfl
    · exact .inr rfl

theorem extends_named {m : Mark} {f' : Fault} {d : String → Decoration}
    (hd : ∀ name, (d name).lexemes = [.mark m, .word name]) :
    Extends Decoration.lexemes Decoration.events (named m f' d) := by
  refine ⟨fun {ls es f rest} h => ?_⟩
  cases ls with
  | nil => exact absurd h done_ne_error
  | cons l ls =>
    simp only [named] at h
    split at h
    · next hl =>
      subst hl
      unfold nameFrom at h
      split at h
      · exact absurd h done_ne_error
      · cases h
        exact ⟨[.mark m], d "x", rfl, by simp, ⟨[.word "x"], hd "x", by decide⟩, List.nil_prefix⟩
    · exact absurd h done_ne_error

theorem extends_attr : Extends Attr.lexemes (fun a => [a.event]) attr := by
  refine ⟨fun {ls es f rest} h => ?_⟩
  unfold attr at h
  split at h
  · next name l ls =>
    split at h
    · exact absurd h done_ne_error
    · cases h
      exact ⟨[.word name, .mark .equals], ⟨name, some (.word "x")⟩, rfl, by simp,
        ⟨[.word "x"], rfl, by decide⟩, List.nil_prefix⟩
  · exact absurd h done_ne_error
  · exact absurd h done_ne_error

theorem attrsFrom_begins {first : Attr} (h : attrsFrom first ls = ⟨es, .error (f, rest)⟩) :
    ∃ us others, ls = us ++ rest ∧ Begins (List.flatMap Attr.lexemes)
      (List.flatMap fun a => [a.event]) us es others := by
  rcases bind_eq_error h with h | ⟨es₁, others, mid, es₂, hm, hn, rfl⟩
  · obtain ⟨us, others, rfl, -, ho⟩ := (extends_attr.many sound_attr).begins h
    exact ⟨us, others, rfl, ho⟩
  · obtain ⟨rfl, rfl⟩ := sound_attr.manyAtMost hm
    rcases bind_eq_error hn with he | ⟨es₃, u, mid', es₄, -, hd, -⟩
    · obtain ⟨rfl, rfl⟩ := expect_eq_error he
      rw [List.append_nil]
      exact ⟨_, others, rfl, .refl (List.flatMap Attr.lexemes) _ others⟩
    · exact absurd hd done_ne_error

theorem extends_attrList : Extends Decoration.lexemes Decoration.events attrList := by
  refine ⟨fun {ls es f rest} h => ?_⟩
  unfold attrList at h
  split at h
  · next ls =>
    rcases bind_eq_error h with h | ⟨es₁, _ | first, mid, es₂, hf, hn, rfl⟩
    · obtain ⟨us, a, rfl, -, ha⟩ := extends_attr.begins h
      exact ⟨.mark .openAttrs :: us, .attrs a [], rfl, by simp,
        ha.inside [.mark .openAttrs] [.mark .closeAttrs] [] []
          (by simp [Decoration.lexemes]) rfl (by decide)⟩
    · obtain ⟨rfl, rfl⟩ := sound_attr.of_none hf
      cases hn
      exact ⟨[.mark .openAttrs], .attrs ⟨"x", none⟩ [], rfl, by simp,
        ⟨[.word "x", .mark .closeAttrs], rfl, by decide⟩, List.nil_prefix⟩
    · obtain ⟨rfl, rfl⟩ := sound_attr.of_some hf
      obtain ⟨us, others, rfl, ho⟩ := attrsFrom_begins hn
      exact ⟨.mark .openAttrs :: first.lexemes ++ us, .attrs first others, by simp, by simp,
        ho.inside _ [.mark .closeAttrs] _ [] (by simp [Decoration.lexemes])
          (by simp [Decoration.events, List.map_eq_flatMap]) (by decide)⟩
  · exact absurd h done_ne_error

theorem extends_decoration : Extends Decoration.lexemes Decoration.events decoration :=
  (extends_named fun _ => rfl).orElse sound_id <|
    (extends_named fun _ => rfl).orElse sound_className extends_attrList

theorem text_ne_error : text ls ≠ ⟨es, .error (f, rest)⟩ := by
  unfold text
  split
  · exact done_ne_error
  · exact done_ne_error

theorem operator_ne_error : operator ls ≠ ⟨es, .error (f, rest)⟩ := by
  unfold operator
  split <;> exact done_ne_error

theorem extends_tag : Extends Tag.lexemes Tag.events tag := by
  refine ⟨fun {ls es f rest} h => ?_⟩
  unfold tag at h
  split at h
  · next name ls =>
    obtain ⟨es, hr, rfl⟩ := report_eq_error h
    rcases bind_eq_error hr with hm | ⟨es₁, ds, mid, es₂, -, hn, -⟩
    · obtain ⟨us, ds, rfl, -, hds⟩ := (extends_decoration.many sound_decoration).begins hm
      exact ⟨.word name :: us, ⟨name, ds, none⟩, rfl, by simp,
        hds.inside [.word name] [] [.element name] []
          rfl rfl (by simp)⟩
    · rcases bind_eq_error hn with ht | ⟨es₃, x, mid', es₄, -, hd, -⟩
      · exact absurd ht text_ne_error
      · exact absurd hd done_ne_error
  · exact absurd h done_ne_error

def one : Numeral := ⟨"1", by decide, by decide, by decide⟩

theorem multiplication_eq_error (h : multiplication ls = ⟨es, .error (f, rest)⟩) :
    ls = .mark .times :: rest ∧ es = [] := by
  unfold multiplication at h
  split at h
  · unfold numeral at h
    split at h
    · split at h
      · exact absurd h done_ne_error
      · cases h; exact ⟨rfl, rfl⟩
    · cases h; exact ⟨rfl, rfl⟩
  · exact absurd h done_ne_error

theorem extends_element : Extends Item.lexemes Item.events element := by
  have hhead : Extends Element.lexemes Element.events fun ls =>
      (map Element.tag (tag ls)).orElse fun ls => map Element.text (text ls) := by
    have htext : Extends (fun s => [.text s]) (fun s => [.text s]) text :=
      ⟨fun h => absurd h text_ne_error⟩
    exact (extends_tag.map (g := Element.tag) (fun _ => rfl) fun _ => rfl).orElse
      (sound_tag.map (f := Element.tag) (fun _ => rfl) fun _ => rfl)
      (htext.map (g := Element.text) (fun _ => rfl) fun _ => rfl)
  refine ⟨fun {ls es f rest} h => ?_⟩
  rcases bind_eq_error h with h | ⟨es₁, _ | e, mid, es₂, he, hn, rfl⟩
  · obtain ⟨us, e, rfl, hne, he⟩ := hhead.begins h
    exact ⟨us, .element e none, rfl, hne, he.inside [] [] [] []
      (by simp [Item.lexemes, countLexemes]) (by simp [Item.events, countEvents]) (by simp)⟩
  · exact absurd hn done_ne_error
  · obtain ⟨rfl, rfl⟩ := sound_elementHead.of_some he
    rcases bind_eq_error hn with hm | ⟨es₃, x, mid', es₄, -, hd, -⟩
    · obtain ⟨rfl, rfl⟩ := multiplication_eq_error hm
      refine ⟨e.lexemes ++ [.mark .times], .element e (some one), by simp, by simp,
        ⟨[.word "1"], by simp [Item.lexemes, countLexemes, one], by decide⟩, ?_⟩
      rw [List.append_nil]
      exact List.prefix_append _ _
    · exact absurd hd done_ne_error

/-- What `p` reads without coming to the end of an abbreviation is the beginning of one. It stops at a
fault or else behind an operator. -/
structure Unfinished (p : List Lexeme → Reading (Option Abbreviation)) : Prop where
  faulty : ∀ {ls es f rest}, p ls = ⟨es, .error (f, rest)⟩ → ∃ us a, ls = us ++ rest ∧
    (us ≠ [] ∧ ¬ BreaksOff us) ∧ Begins Abbreviation.lexemes Abbreviation.events us es a
  brokenOff : ∀ {ls es rest}, p ls = done es none rest → ∃ us a, ls = us ++ rest ∧
    (us = [] ∨ BreaksOff us) ∧ Begins Abbreviation.lexemes Abbreviation.events us es a

theorem begins_nil : Begins Abbreviation.lexemes Abbreviation.events [] []
    (.single (.element (.text "") none)) :=
  ⟨⟨[.text ""], rfl, by decide⟩, List.nil_prefix⟩

theorem Unfinished.startingWith {p : List Lexeme → Reading (Option Abbreviation)} (h : Unfinished p)
    (test : Lexeme → Bool) : Unfinished (Reading.startingWith test p) where
  faulty {ls es f rest} he := by
    rcases startingWith_cases test p ls with hp | hp <;> rw [hp] at he
    · exact h.faulty he
    · exact absurd he done_ne_error
  brokenOff {ls es rest} he := by
    rcases startingWith_cases test p ls with hp | hp <;> rw [hp] at he
    · exact h.brokenOff he
    · obtain ⟨rfl, -, rfl⟩ := done_inj.1 he
      exact ⟨[], _, rfl, .inl rfl, begins_nil⟩

theorem groupFrom_eq_error {a : Abbreviation} (h : groupFrom a ls = ⟨es, .error (f, rest)⟩) :
    (ls = rest ∧ es = []) ∨
      (ls = .mark .closeGroup :: .mark .times :: rest ∧ es = [.closeGroup]) := by
  rcases bind_eq_error h with he | ⟨es₁, u, mid, es₂, he, hn, rfl⟩
  · exact .inl (expect_eq_error he)
  · obtain ⟨rfl, rfl⟩ := expect_eq_done.1 he
    obtain ⟨es, hr, rfl⟩ := report_eq_error hn
    rcases bind_eq_error hr with hm | ⟨es₃, x, mid', es₄, -, hd, -⟩
    · obtain ⟨rfl, rfl⟩ := multiplication_eq_error hm
      exact .inr ⟨rfl, rfl⟩
    · exact absurd hd done_ne_error

theorem extends_group {inner : List Lexeme → Reading (Option Abbreviation)} (hi : Unfinished inner)
    (hs : ∀ {ls es a rest}, inner ls = done es (some a) rest →
      ls = a.lexemes ++ rest ∧ es = a.events) :
    Extends Item.lexemes Item.events (group inner) := by
  have hbehind {us : List Lexeme} {es : List Event} {a : Abbreviation}
      (ha : Begins Abbreviation.lexemes Abbreviation.events us es a) :
      Begins Item.lexemes Item.events (.mark .openGroup :: us) (.openGroup :: es) (.group a none) :=
    ha.inside [.mark .openGroup] [.mark .closeGroup] [.openGroup] [.closeGroup] rfl rfl (by decide)
  refine ⟨fun {ls es f rest} h => ?_⟩
  unfold group at h
  split at h
  · next ls =>
    obtain ⟨es, hr, rfl⟩ := report_eq_error h
    have hstart := hi.startingWith Lexeme.startsAbbreviation
    -- Reading stops inside the group, or only what comes behind the inside is missing.
    rcases bind_eq_error hr with hf | ⟨es₁, _ | a, mid, es₂, ha, hn, rfl⟩
    · obtain ⟨us, a, rfl, -, ha⟩ := hstart.faulty hf
      exact ⟨.mark .openGroup :: us, .group a none, rfl, by simp, hbehind ha⟩
    · obtain ⟨us, a, rfl, -, hb⟩ := hstart.brokenOff ha
      cases hn
      rw [List.append_nil]
      exact ⟨.mark .openGroup :: us, .group a none, rfl, by simp, hbehind hb⟩
    · obtain ⟨rfl, rfl⟩ := hs (startingWith_eq_some ha)
      rcases groupFrom_eq_error hn with ⟨rfl, rfl⟩ | ⟨rfl, rfl⟩
      · rw [List.append_nil]
        exact ⟨.mark .openGroup :: a.lexemes, .group a none, rfl, by simp, hbehind (.refl _ _ a)⟩
      -- A count is the shortest way to go on behind `*`.
      · refine ⟨.mark .openGroup :: a.lexemes ++ [.mark .closeGroup, .mark .times],
          .group a (some one), by simp, by simp, ⟨[.word "1"], ?_, by decide⟩,
          ⟨[.multiply one.value], ?_⟩⟩
        · simp [Item.lexemes, countLexemes, one]
        · simp [Item.events, countEvents]
  · exact absurd h done_ne_error

theorem Begins.joined {a : Abbreviation}
    (h : Begins Abbreviation.lexemes Abbreviation.events us es a) (i : Item) (op : Operator) :
    Begins Abbreviation.lexemes Abbreviation.events (i.lexemes ++ (op.lexemes ++ us))
      (i.events ++ ([op.event] ++ es)) (.joined i op a) := by
  have hinside : Begins Abbreviation.lexemes Abbreviation.events (i.lexemes ++ op.lexemes ++ us)
      (i.events ++ [op.event] ++ es) (.joined i op a) :=
    h.inside _ [] _ [] (by simp [Abbreviation.lexemes]) (by simp [Abbreviation.events]) (by simp)
  rwa [List.append_assoc, List.append_assoc] at hinside

theorem depth_joined (i : Item) (op : Operator) : depth (i.lexemes ++ op.lexemes) = 0 :=
  ((nested_all.1 i).append (nested_operator op)).closed

section
variable {bound : Nat}

theorem sound_item (bound : Nat) : Sound Item.lexemes Item.events fun ls =>
    (group (abbreviationAtMost bound) ls).orElse element :=
  (sound_group abbreviation_sound).orElse sound_element

theorem extends_item (ih : Unfinished (abbreviationAtMost bound)) :
    Extends Item.lexemes Item.events fun ls =>
      (group (abbreviationAtMost bound) ls).orElse element :=
  (extends_group ih abbreviation_sound).orElse (sound_group abbreviation_sound) extends_element

theorem abbreviationAtMost_faulty (ih : Unfinished (abbreviationAtMost bound))
    (h : abbreviationAtMost (bound + 1) ls = ⟨es, .error (f, rest)⟩) : ∃ us a, ls = us ++ rest ∧
      (us ≠ [] ∧ ¬ BreaksOff us) ∧ Begins Abbreviation.lexemes Abbreviation.events us es a := by
  rcases bind_eq_error h with h | ⟨es₁, _ | i, mid, es₂, hi, hn, rfl⟩
  · obtain ⟨us, i, rfl, hne, hb⟩ := (extends_item ih).begins h
    obtain ⟨more, hmore, -⟩ := hb.leaves
    exact ⟨us, .single i, rfl, ⟨hne, not_breaksOff_item hmore⟩, hb.inside [] [] [] []
      (by simp [Abbreviation.lexemes]) (by simp [Abbreviation.events]) (by simp)⟩
  · exact absurd hn done_ne_error
  · obtain ⟨rfl, rfl⟩ := (sound_item bound).of_some hi
    rcases bind_eq_error hn with ho | ⟨es₃, _ | op, mid', es₄, ho, hr, rfl⟩
    · exact absurd ho operator_ne_error
    · exact absurd hr done_ne_error
    · obtain ⟨rfl, rfl⟩ := sound_operator.of_some ho
      rcases bind_eq_error hr with ha | ⟨es₅, _ | a, mid'', es₆, ha, hd, rfl⟩
      · obtain ⟨us, a, rfl, ⟨hne, hbreak⟩, hb⟩ := (ih.startingWith _).faulty ha
        refine ⟨i.lexemes ++ (op.lexemes ++ us), .joined i op a, by simp, ⟨by simp [hne], ?_⟩,
          hb.joined i op⟩
        rw [← List.append_assoc]
        exact fun h => hbreak (h.of_append (depth_joined i op) hne)
      · exact absurd hd done_ne_error
      · exact absurd hd done_ne_error

theorem abbreviationAtMost_brokenOff (ih : Unfinished (abbreviationAtMost bound))
    (h : abbreviationAtMost (bound + 1) ls = done es none rest) : ∃ us a, ls = us ++ rest ∧
      (us = [] ∨ BreaksOff us) ∧ Begins Abbreviation.lexemes Abbreviation.events us es a := by
  obtain ⟨es₁, _ | i, mid, es₂, hi, hn, rfl⟩ := bind_eq_done.1 h
  · obtain ⟨rfl, rfl⟩ := (sound_item bound).of_none hi
    obtain ⟨rfl, -, rfl⟩ := done_inj.1 hn
    exact ⟨[], _, rfl, .inl rfl, begins_nil⟩
  · obtain ⟨rfl, rfl⟩ := (sound_item bound).of_some hi
    obtain ⟨es₃, _ | op, mid', es₄, ho, hr, rfl⟩ := bind_eq_done.1 hn
    · simp at hr
    · obtain ⟨rfl, rfl⟩ := sound_operator.of_some ho
      obtain ⟨es₅, _ | a, mid'', es₆, ha, hd, rfl⟩ := bind_eq_done.1 hr
      -- Behind the operator reading breaks off, at once or further on; both leave the whole broken
      -- off.
      · obtain ⟨us, a, rfl, hbreak, hb⟩ := (ih.startingWith _).brokenOff ha
        obtain ⟨rfl, -, rfl⟩ := done_inj.1 hd
        have hbreak' : BreaksOff (i.lexemes ++ op.lexemes ++ us) := by
          rcases hbreak with rfl | hbreak
          · rw [List.append_nil]
            exact (breaksOff_operator op).append (nested_all.1 i).closed
          · exact hbreak.append (depth_joined i op)
        rw [List.append_nil]
        rw [List.append_assoc] at hbreak'
        exact ⟨i.lexemes ++ (op.lexemes ++ us), .joined i op a, by simp, .inr hbreak',
          hb.joined i op⟩
      · simp at hd

end

theorem unfinished_abbreviationAtMost (bound : Nat) : Unfinished (abbreviationAtMost bound) := by
  induction bound with
  | zero =>
    refine ⟨fun h => absurd h done_ne_error, fun h => ?_⟩
    obtain ⟨rfl, -, rfl⟩ := done_inj.1 h
    exact ⟨[], _, rfl, .inl rfl, begins_nil⟩
  | succ bound ih => exact ⟨abbreviationAtMost_faulty ih, abbreviationAtMost_brokenOff ih⟩

end Shorthand.Reading
