import Shorthand.Proofs.Grammar.Reading

/-! # What is read is derivable

Each reading consumes the leaves of the tree that it gives, and reports the events of that tree
(`abbreviation_sound`). A production that reads nothing consumes and reports nothing, which is what
`Sound` adds; an abbreviation may break off behind an operator, so it has no such clause. -/

namespace Shorthand.Reading
open Shorthand.Derivation
variable {α γ : Type} {es : List Event} {ls rest : List Lexeme}

@[simp] theorem done_inj {es' : List Event} {a a' : α} {rest' : List Lexeme} :
    done es a rest = done es' a' rest' ↔ es = es' ∧ a = a' ∧ rest = rest' := by
  simp [done]

@[simp] theorem fault_ne_done (f : Fault) (a : α) : fault f ls ≠ done es a rest := by
  simp [fault, done]

theorem error_ne_done {es' : List Event} (e : Fault × List Lexeme) (a : α) :
    (⟨es', .error e⟩ : Reading α) ≠ done es a rest := by
  simp [done]

@[simp] theorem events_done (a : α) : (done es a rest).events = es := rfl

@[simp] theorem ending_done (a : α) : (done es a rest).ending = .ok (a, rest) := by
  simp only [done]

@[simp] theorem mk_eq_done (a : α) : (⟨es, .ok (a, rest)⟩ : Reading α) = done es a rest := by
  simp only [done]

@[simp] theorem report_done (e : Event) (a : α) :
    report e (done es a rest) = done (e :: es) a rest := by
  simp only [report, done]

/-- Behind a reading that succeeds, the next one goes on where it ended and adds its events. -/
@[simp] theorem done_bind (a : α) (next : α → List Lexeme → Reading γ) :
    (done es a rest).bind next = ⟨es ++ (next a rest).events, (next a rest).ending⟩ := by
  simp only [bind, done]

theorem bind_eq_done {r : Reading α} {next : α → List Lexeme → Reading γ} {c : γ} :
    r.bind next = done es c rest ↔ ∃ es₁ a mid es₂,
      r = done es₁ a mid ∧ next a mid = done es₂ c rest ∧ es = es₁ ++ es₂ := by
  obtain ⟨es₁, e | ⟨a, mid⟩⟩ := r
  · constructor
    · exact fun h => absurd h (error_ne_done e c)
    · rintro ⟨es₁', a, mid, es₂, hr, -⟩
      exact absurd hr (error_ne_done e a)
  · constructor
    · intro h
      obtain ⟨rfl, he⟩ := Reading.mk.inj h
      exact ⟨es₁, a, mid, (next a mid).events, rfl, by rw [done, ← he], rfl⟩
    · rintro ⟨es₁', a', mid', es₂, hr, hn, rfl⟩
      obtain ⟨rfl, hr⟩ := Reading.mk.inj hr
      cases hr
      simp only [bind, hn]
      rfl

@[simp] theorem report_eq_done {e : Event} {r : Reading α} {a : α} :
    report e r = done es a rest ↔ ∃ es', r = done es' a rest ∧ es = e :: es' := by
  obtain ⟨es₁, x⟩ := r
  simp only [report, done, Reading.mk.injEq]
  constructor
  · rintro ⟨rfl, rfl⟩
    exact ⟨es₁, ⟨rfl, rfl⟩, rfl⟩
  · rintro ⟨es', ⟨rfl, rfl⟩, rfl⟩
    exact ⟨rfl, rfl⟩

theorem bindSome_eq_some {r : Reading (Option α)} {next : α → List Lexeme → Reading (Option γ)}
    {c : γ} : r.bindSome next = done es (some c) rest ↔ ∃ es₁ a mid es₂,
      r = done es₁ (some a) mid ∧ next a mid = done es₂ (some c) rest ∧ es = es₁ ++ es₂ := by
  rw [bindSome, bind_eq_done]
  constructor
  · rintro ⟨es₁, _ | a, mid, es₂, hr, hn, he⟩
    · simp at hn
    · exact ⟨es₁, a, mid, es₂, hr, hn, he⟩
  · rintro ⟨es₁, a, mid, es₂, hr, hn, he⟩
    exact ⟨es₁, some a, mid, es₂, hr, hn, he⟩

theorem bind_congr {r : Reading α} {next next' : α → List Lexeme → Reading γ}
    (h : ∀ es a mid, r = done es a mid → next a mid = next' a mid) :
    r.bind next = r.bind next' := by
  obtain ⟨es, _ | ⟨a, mid⟩⟩ := r
  · rfl
  · simp only [bind, h es a mid rfl]

/-! ### Soundness -/

/-- What `p` reads are the leaves of its result, and it reports the events of its result. Where it
reads nothing it reports nothing. -/
structure Sound (leaves : α → List Lexeme) (events : α → List Event)
    (p : List Lexeme → Reading (Option α)) : Prop where
  of_some : ∀ {ls es a rest}, p ls = done es (some a) rest → ls = leaves a ++ rest ∧ es = events a
  of_none : ∀ {ls es rest}, p ls = done es none rest → ls = rest ∧ es = []

namespace Sound
variable {leaves : α → List Lexeme} {events : α → List Event}
  {p q : List Lexeme → Reading (Option α)}

theorem orElse (hp : Sound leaves events p) (hq : Sound leaves events q) :
    Sound leaves events fun ls => (p ls).orElse q where
  of_some h := by
    obtain ⟨es₁, _ | a, mid, es₂, hr, hn, rfl⟩ := bind_eq_done.1 h
    · obtain ⟨rfl, rfl⟩ := hp.of_none hr
      exact hq.of_some hn
    · simp only [done_inj, Option.some.injEq] at hn
      obtain ⟨rfl, rfl, rfl⟩ := hn
      simpa using hp.of_some hr
  of_none h := by
    obtain ⟨es₁, _ | a, mid, es₂, hr, hn, rfl⟩ := bind_eq_done.1 h
    · obtain ⟨rfl, rfl⟩ := hp.of_none hr
      exact hq.of_none hn
    · simp at hn

theorem map {leaves' : γ → List Lexeme} {events' : γ → List Event} {f : α → γ}
    (hp : Sound leaves events p) (hl : ∀ a, leaves' (f a) = leaves a)
    (he : ∀ a, events' (f a) = events a) :
    Sound leaves' events' fun ls => Reading.map f (p ls) where
  of_some h := by
    obtain ⟨es₁, a, mid, es₂, hr, hn, rfl⟩ := bindSome_eq_some.1 h
    simp only [done_inj, Option.some.injEq] at hn
    obtain ⟨rfl, rfl, rfl⟩ := hn
    simpa [hl, he] using hp.of_some hr
  of_none h := by
    obtain ⟨es₁, _ | a, mid, es₂, hr, hn, rfl⟩ := bind_eq_done.1 h
    · simp only [done_inj] at hn
      obtain ⟨rfl, -, rfl⟩ := hn
      simpa using hp.of_none hr
    · simp at hn

theorem manyAtMost (hp : Sound leaves events p) {bound : Nat} {as : List α}
    (h : Reading.manyAtMost p bound ls = done es as rest) :
    ls = as.flatMap leaves ++ rest ∧ es = as.flatMap events := by
  induction bound generalizing ls es as with
  | zero =>
    simp only [Reading.manyAtMost, done_inj] at h
    obtain ⟨rfl, rfl, rfl⟩ := h
    simp
  | succ bound ih =>
    obtain ⟨es₁, _ | a, mid, es₂, hr, hn, rfl⟩ := bind_eq_done.1 h
    · obtain ⟨rfl, rfl⟩ := hp.of_none hr
      simp only [done_inj] at hn
      obtain ⟨rfl, rfl, rfl⟩ := hn
      simp
    · obtain ⟨es₃, as', mid', es₄, hm, hd, rfl⟩ := bind_eq_done.1 hn
      obtain ⟨rfl, rfl, rfl⟩ := done_inj.1 hd
      obtain ⟨rfl, rfl⟩ := hp.of_some hr
      obtain ⟨rfl, rfl⟩ := ih hm
      simp

/-- The bound of a repetition does not matter, if it is not below the number of lexemes. -/
theorem manyAtMost_congr (hp : Sound leaves events p) (hne : ∀ a, leaves a ≠ [])
    (hnil : p [] = done [] none []) {bound bound' : Nat} (hb : ls.length ≤ bound)
    (hb' : ls.length ≤ bound') :
    Reading.manyAtMost p bound ls = Reading.manyAtMost p bound' ls := by
  have hstop (n : Nat) : Reading.manyAtMost p n [] = done [] [] [] := by
    cases n <;> simp [Reading.manyAtMost, hnil]
  induction bound generalizing bound' ls with
  | zero =>
    obtain rfl : ls = [] := List.length_eq_zero_iff.1 (Nat.le_zero.1 hb)
    rw [hstop, hstop]
  | succ bound ih =>
    cases bound' with
    | zero =>
      obtain rfl : ls = [] := List.length_eq_zero_iff.1 (Nat.le_zero.1 hb')
      rw [hstop, hstop]
    | succ bound' =>
      refine bind_congr fun es x mid hr => ?_
      cases x with
      | none => rfl
      | some a =>
        obtain ⟨rfl, -⟩ := hp.of_some hr
        have := List.length_pos_iff.2 (hne a)
        rw [List.length_append] at hb hb'
        -- Something was read, so the bounds are still high enough for what is left.
        have hmid : Reading.manyAtMost p bound mid = Reading.manyAtMost p bound' mid :=
          ih (by omega) (by omega)
        simp only [hmid]

end Sound

theorem expect_eq_done {m : Mark} {f : Fault} {u : Unit} :
    expect m f ls = done es u rest ↔ ls = .mark m :: rest ∧ es = [] := by
  cases ls with
  | nil => simp [expect]
  | cons l ls =>
    simp only [expect]
    split
    · next h => subst h; simp [and_comm, eq_comm]
    · next h => simp [h]

theorem startingWith_eq_some {test : Lexeme → Bool} {p : List Lexeme → Reading (Option α)} {a : α}
    (h : startingWith test p ls = done es (some a) rest) : p ls = done es (some a) rest := by
  cases ls with
  | nil => simp [startingWith] at h
  | cons l ls => simp only [startingWith] at h; split at h <;> simp_all

theorem nameFrom_eq_done {f : Fault} {d : String → Decoration} {x : Option Decoration}
    (h : nameFrom f d ls = done es x rest) :
    ∃ name, x = some (d name) ∧ ls = .word name :: rest ∧ es = (d name).events := by
  fun_cases nameFrom f d ls
  · next name ls =>
    obtain ⟨rfl, rfl, rfl⟩ := done_inj.1 h
    exact ⟨name, rfl, rfl, rfl⟩
  · next hls =>
    rw [nameFrom] at h
    · exact absurd h (fault_ne_done f x)
    · exact hls

theorem sound_named {m : Mark} {f : Fault} {d : String → Decoration}
    (hd : ∀ name, (d name).lexemes = [.mark m, .word name]) :
    Sound Decoration.lexemes Decoration.events (named m f d) where
  of_some {ls} _ _ _ h := by
    fun_cases named m f d ls
    · simp [named] at h
    · rw [named, if_pos rfl] at h
      obtain ⟨name, hx, rfl, rfl⟩ := nameFrom_eq_done h
      cases hx
      exact ⟨by rw [hd]; rfl, rfl⟩
    · simp_all [named]
  of_none {ls} _ _ h := by
    fun_cases named m f d ls
    · simp_all [named]
    · rw [named, if_pos rfl] at h
      obtain ⟨name, hx, -, -⟩ := nameFrom_eq_done h
      cases hx
    · simp_all [named]

theorem sound_id : Sound Decoration.lexemes Decoration.events id := sound_named fun _ => rfl

theorem sound_className : Sound Decoration.lexemes Decoration.events className :=
  sound_named fun _ => rfl

theorem lexeme_of_attrValue? {l : Lexeme} {v : Value} (h : attrValue? l = some v) :
    v.lexeme = l := by
  fun_cases attrValue? l <;> simp_all [attrValue?] <;> subst h <;> rfl

theorem sound_attr : Sound Attr.lexemes (fun a => [a.event]) attr where
  of_some {ls} _ _ _ h := by
    fun_cases attr ls
    · next hv =>
      simp only [attr, hv, done_inj, Option.some.injEq] at h
      obtain ⟨rfl, rfl, rfl⟩ := h
      simp [Attr.lexemes, lexeme_of_attrValue? hv]
    · next hv => simp [attr, hv] at h
    · next hl =>
      rw [attr] at h
      · simp only [done_inj, Option.some.injEq] at h
        obtain ⟨rfl, rfl, rfl⟩ := h
        exact ⟨rfl, rfl⟩
      · exact hl
    · simp_all [attr]
  of_none {ls} _ _ h := by
    fun_cases attr ls <;> simp_all [attr]

theorem attrsFrom_eq_done {first : Attr} {x : Option Decoration}
    (h : attrsFrom first ls = done es x rest) : ∃ others, x = some (.attrs first others) ∧
      ls = others.flatMap Attr.lexemes ++ .mark .closeAttrs :: rest ∧
      es = others.map Attr.event := by
  obtain ⟨es₁, others, mid, es₂, hm, hn, rfl⟩ := bind_eq_done.1 h
  obtain ⟨es₃, u, mid', es₄, he, hd, rfl⟩ := bind_eq_done.1 hn
  obtain ⟨rfl, rfl, rfl⟩ := done_inj.1 hd
  obtain ⟨rfl, rfl⟩ := sound_attr.manyAtMost hm
  obtain ⟨rfl, rfl⟩ := expect_eq_done.1 he
  exact ⟨others, rfl, rfl, by simp [List.map_eq_flatMap]⟩

theorem sound_attrList : Sound Decoration.lexemes Decoration.events attrList where
  of_some {ls} _ _ _ h := by
    fun_cases attrList ls
    · obtain ⟨es₁, _ | first, mid, es₂, hf, hn, rfl⟩ := bind_eq_done.1 h
      · simp at hn
      · obtain ⟨others, hx, rfl, rfl⟩ := attrsFrom_eq_done hn
        obtain ⟨rfl, rfl⟩ := sound_attr.of_some hf
        cases hx
        simp [Decoration.lexemes, Decoration.events]
    · simp_all [attrList]
  of_none {ls} _ _ h := by
    fun_cases attrList ls
    · obtain ⟨es₁, _ | first, mid, es₂, hf, hn, rfl⟩ := bind_eq_done.1 h
      · simp at hn
      · obtain ⟨others, hx, -, -⟩ := attrsFrom_eq_done hn
        cases hx
    · simp_all [attrList]

theorem sound_decoration : Sound Decoration.lexemes Decoration.events decoration :=
  sound_id.orElse (sound_className.orElse sound_attrList)

theorem sound_text : Sound (fun s => [.text s]) (fun s => [.text s]) text where
  of_some {ls} _ _ _ h := by
    fun_cases text ls
    · simp only [text, done_inj, Option.some.injEq] at h
      obtain ⟨rfl, rfl, rfl⟩ := h
      exact ⟨rfl, rfl⟩
    · simp_all [text]
  of_none {ls} _ _ h := by
    fun_cases text ls <;> simp_all [text]

theorem text_eq_done {x : Option String} (h : text ls = done es x rest) :
    ls = textLexemes x ++ rest ∧ es = textEvents x := by
  cases x with
  | none => simpa [textLexemes, textEvents] using sound_text.of_none h
  | some s => simpa [textLexemes, textEvents] using sound_text.of_some h

theorem sound_tag : Sound Tag.lexemes Tag.events tag where
  of_some {ls} _ _ _ h := by
    fun_cases tag ls
    · simp only [tag, report_eq_done] at h
      obtain ⟨es', h, rfl⟩ := h
      obtain ⟨es₁, ds, mid, es₂, hm, hn, rfl⟩ := bind_eq_done.1 h
      obtain ⟨es₃, x, mid', es₄, ht, hd, rfl⟩ := bind_eq_done.1 hn
      simp only [done_inj, Option.some.injEq] at hd
      obtain ⟨rfl, rfl, rfl⟩ := hd
      obtain ⟨rfl, rfl⟩ := sound_decoration.manyAtMost hm
      obtain ⟨rfl, rfl⟩ := text_eq_done ht
      simp [Tag.lexemes, Tag.events]
    · simp_all [tag]
  of_none {ls} _ _ h := by
    fun_cases tag ls
    · simp only [tag, report_eq_done] at h
      obtain ⟨es', h, rfl⟩ := h
      obtain ⟨es₁, ds, mid, es₂, hm, hn, rfl⟩ := bind_eq_done.1 h
      obtain ⟨es₃, x, mid', es₄, ht, hd, rfl⟩ := bind_eq_done.1 hn
      simp at hd
    · simp_all [tag]

theorem word_of_numeral? {s : String} {n : Numeral} (h : numeral? s = some n) : n.word = s := by
  unfold numeral? at h
  split at h
  · cases h; rfl
  · cases h

theorem numeral_eq_done {x : Option Numeral} (h : numeral ls = done es x rest) :
    ∃ n, x = some n ∧ ls = .word n.word :: rest ∧ es = [.multiply n.value] := by
  fun_cases numeral ls
  · next s ls n hn =>
    simp only [numeral, hn, done_inj] at h
    obtain ⟨rfl, rfl, rfl⟩ := h
    exact ⟨n, rfl, by rw [word_of_numeral? hn], rfl⟩
  · next hn => simp [numeral, hn] at h
  · simp_all [numeral]

theorem multiplication_eq_done {x : Option Numeral} (h : multiplication ls = done es x rest) :
    ls = countLexemes x ++ rest ∧ es = countEvents x := by
  fun_cases multiplication ls
  · obtain ⟨n, rfl, rfl, rfl⟩ := numeral_eq_done h
    exact ⟨rfl, rfl⟩
  · next hls =>
    rw [multiplication] at h
    · obtain ⟨rfl, rfl, rfl⟩ := done_inj.1 h
      exact ⟨rfl, rfl⟩
    · exact hls

theorem sound_elementHead : Sound Element.lexemes Element.events fun ls =>
    (map .tag (tag ls)).orElse fun ls => map .text (text ls) :=
  (sound_tag.map (f := Element.tag) (fun _ => rfl) fun _ => rfl).orElse
    (sound_text.map (f := Element.text) (fun _ => rfl) fun _ => rfl)

theorem sound_element : Sound Item.lexemes Item.events element where
  of_some h := by
    obtain ⟨es₁, e, mid, es₂, he, hn, rfl⟩ := bindSome_eq_some.1 h
    obtain ⟨es₃, x, mid', es₄, hm, hd, rfl⟩ := bind_eq_done.1 hn
    simp only [done_inj, Option.some.injEq] at hd
    obtain ⟨rfl, rfl, rfl⟩ := hd
    obtain ⟨rfl, rfl⟩ := sound_elementHead.of_some he
    obtain ⟨rfl, rfl⟩ := multiplication_eq_done hm
    simp [Item.lexemes, Item.events]
  of_none h := by
    obtain ⟨es₁, _ | e, mid, es₂, he, hn, rfl⟩ := bind_eq_done.1 h
    · simp only [done_inj] at hn
      obtain ⟨rfl, -, rfl⟩ := hn
      simpa using sound_elementHead.of_none he
    · obtain ⟨es₃, x, mid', es₄, hm, hd, rfl⟩ := bind_eq_done.1 hn
      simp at hd

theorem groupFrom_eq_done {a : Abbreviation} {x : Option Item}
    (h : groupFrom a ls = done es x rest) : ∃ count, x = some (.group a count) ∧
      ls = .mark .closeGroup :: (countLexemes count ++ rest) ∧
      es = .closeGroup :: countEvents count := by
  obtain ⟨es₁, u, mid, es₂, he, hn, rfl⟩ := bind_eq_done.1 h
  obtain ⟨es', hc, rfl⟩ := report_eq_done.1 hn
  obtain ⟨es₃, count, mid', es₄, hm, hd, rfl⟩ := bind_eq_done.1 hc
  obtain ⟨rfl, rfl, rfl⟩ := done_inj.1 hd
  obtain ⟨rfl, rfl⟩ := expect_eq_done.1 he
  obtain ⟨rfl, rfl⟩ := multiplication_eq_done hm
  exact ⟨count, rfl, rfl, by simp⟩

theorem sound_group {inner : List Lexeme → Reading (Option Abbreviation)}
    (hi : ∀ {ls es a rest}, inner ls = done es (some a) rest →
      ls = a.lexemes ++ rest ∧ es = a.events) :
    Sound Item.lexemes Item.events (group inner) where
  of_some {ls} _ _ _ h := by
    fun_cases group inner ls
    · simp only [group, report_eq_done] at h
      obtain ⟨es', h, rfl⟩ := h
      obtain ⟨es₁, _ | a, mid, es₂, ha, hn, rfl⟩ := bind_eq_done.1 h
      · simp at hn
      · obtain ⟨count, hx, rfl, rfl⟩ := groupFrom_eq_done hn
        obtain ⟨rfl, rfl⟩ := hi (startingWith_eq_some ha)
        cases hx
        simp [Item.lexemes, Item.events]
    · simp_all [group]
  of_none {ls} _ _ h := by
    fun_cases group inner ls
    · simp only [group, report_eq_done] at h
      obtain ⟨es', h, rfl⟩ := h
      obtain ⟨es₁, _ | a, mid, es₂, ha, hn, rfl⟩ := bind_eq_done.1 h
      · simp at hn
      · obtain ⟨count, hx, -, -⟩ := groupFrom_eq_done hn
        cases hx
    · simp_all [group]

theorem climbs_append_dropWhile (ls : List Lexeme) :
    List.replicate (ls.takeWhile isClimb).length (.mark .climb) ++ ls.dropWhile isClimb = ls := by
  have h : ls.takeWhile isClimb =
      List.replicate (ls.takeWhile isClimb).length (.mark .climb) :=
    List.eq_replicate_iff.2 ⟨rfl, fun l hl => by
      simpa [isClimb] using List.all_eq_true.1 (List.all_takeWhile (p := isClimb)) l hl⟩
  rw [← h, List.takeWhile_append_dropWhile]

theorem sound_operator : Sound Operator.lexemes (fun op => [op.event]) operator where
  of_some {ls} _ _ _ h := by
    fun_cases operator ls
    · simp only [operator, done_inj, Option.some.injEq] at h
      obtain ⟨rfl, rfl, rfl⟩ := h
      exact ⟨rfl, rfl⟩
    · simp only [operator, done_inj, Option.some.injEq] at h
      obtain ⟨rfl, rfl, rfl⟩ := h
      exact ⟨rfl, rfl⟩
    · simp only [operator, done_inj, Option.some.injEq] at h
      obtain ⟨rfl, rfl, rfl⟩ := h
      simp [Operator.lexemes, Operator.event, climbs_append_dropWhile]
    · simp_all [operator]
  of_none {ls} _ _ h := by
    fun_cases operator ls <;> simp_all [operator]

/-- What is read as an abbreviation are the leaves of the tree, and the events are those of the
tree. -/
theorem abbreviation_sound {bound : Nat} {a : Abbreviation}
    (h : abbreviationAtMost bound ls = done es (some a) rest) :
    ls = a.lexemes ++ rest ∧ es = a.events := by
  induction bound generalizing ls es a rest with
  | zero => simp [abbreviationAtMost] at h
  | succ bound ih =>
    obtain ⟨es₁, i, mid, es₂, hi, hn, rfl⟩ := bindSome_eq_some.1 h
    obtain ⟨rfl, rfl⟩ := ((sound_group ih).orElse sound_element).of_some hi
    obtain ⟨es₃, _ | op, mid', es₄, ho, hr, rfl⟩ := bind_eq_done.1 hn
    · obtain ⟨rfl, rfl⟩ := sound_operator.of_none ho
      simp only [done_inj, Option.some.injEq] at hr
      obtain ⟨rfl, rfl, rfl⟩ := hr
      simp [Abbreviation.lexemes, Abbreviation.events]
    · obtain ⟨rfl, rfl⟩ := sound_operator.of_some ho
      obtain ⟨es₅, a', mid'', es₆, ha, hd, rfl⟩ := bindSome_eq_some.1 hr
      simp only [done_inj, Option.some.injEq] at hd
      obtain ⟨rfl, rfl, rfl⟩ := hd
      obtain ⟨rfl, rfl⟩ := ih (startingWith_eq_some ha)
      simp [Abbreviation.lexemes, Abbreviation.events]

/-! ### Bounds -/

theorem startingWith_congr {test : Lexeme → Bool} {p q : List Lexeme → Reading (Option α)}
    (h : p ls = q ls) : startingWith test p ls = startingWith test q ls := by
  cases ls with
  | nil => rfl
  | cons l ls => simp only [startingWith, h]

/-- A group reads its inner abbreviation behind its first lexeme only. -/
theorem group_congr {p q : List Lexeme → Reading (Option Abbreviation)}
    (h : ∀ ls', ls = .mark .openGroup :: ls' → p ls' = q ls') : group p ls = group q ls := by
  unfold group
  split
  · rw [startingWith_congr (h _ rfl)]
  · rfl

/-- The bound of an abbreviation does not matter, if it is not below the number of lexemes. -/
theorem abbreviationAtMost_congr {bound bound' : Nat} (hb : ls.length ≤ bound)
    (hb' : ls.length ≤ bound') : abbreviationAtMost bound ls = abbreviationAtMost bound' ls := by
  have hstop (n : Nat) : abbreviationAtMost n [] = done [] none [] := by cases n <;> rfl
  induction bound generalizing bound' ls with
  | zero =>
    obtain rfl : ls = [] := List.length_eq_zero_iff.1 (Nat.le_zero.1 hb)
    rw [hstop, hstop]
  | succ bound ih =>
    cases bound' with
    | zero =>
      obtain rfl : ls = [] := List.length_eq_zero_iff.1 (Nat.le_zero.1 hb')
      rw [hstop, hstop]
    | succ bound' =>
      have hgroup : group (abbreviationAtMost bound) ls = group (abbreviationAtMost bound') ls := by
        refine group_congr fun ls' hls => ?_
        subst hls
        exact ih (Nat.le_of_succ_le_succ hb) (Nat.le_of_succ_le_succ hb')
      rw [abbreviationAtMost, abbreviationAtMost, hgroup]
      refine bind_congr fun es x mid hx => ?_
      cases x with
      | none => rfl
      | some i =>
        obtain ⟨rfl, -⟩ := ((sound_group abbreviation_sound).orElse sound_element).of_some hx
        have hi := List.length_pos_iff.2 (Item.lexemes_ne_nil i)
        rw [List.length_append] at hb hb'
        refine bind_congr fun es' y mid' hy => ?_
        cases y with
        | none => rfl
        | some op =>
          obtain ⟨rfl, -⟩ := sound_operator.of_some hy
          rw [List.length_append] at hb hb'
          -- An item and an operator were read, so both bounds are high enough again.
          have hrest : abbreviationAtMost bound mid' = abbreviationAtMost bound' mid' :=
            ih (by omega) (by omega)
          simp only [startingWith_congr hrest]

end Shorthand.Reading
