import Shorthand.Json.Reader
import Shorthand.Json.Writer
import Shorthand.Proofs.Text.Runs

/-! # Reading what was written

The parts of a JSON text are read back as what they were written for, wherever blanks stand between
them: strings, numbers, the items of a list and the fields of a record. -/

namespace Shorthand.Json
open Text

variable {α β σ : Type} {r : Reader α} {f : α → Reader β} {a : α} {b : β} {c : Char} {n : Nat}
  {cs ds mid rest bs : List Char}

/-- The front of the text is read for `a`, and `rest` is left. -/
def Reads (r : Reader α) (cs : List Char) (a : α) (rest : List Char) : Prop :=
  r.run cs = .ok (a, rest)

theorem Reads.bind (h : Reads r cs a mid) (h' : Reads (f a) mid b rest) :
    Reads (r >>= f) cs b rest := by
  rw [Reads, StateT.run_bind, h]
  exact h'

theorem reads_pure (a : α) (cs : List Char) : Reads (pure a) cs a cs := rfl

theorem reads_get (cs : List Char) : Reads get cs cs cs := rfl

theorem reads_set (cs ds : List Char) : Reads (set cs) ds ⟨⟩ cs := rfl

theorem reads_modify (f : List Char → List Char) (cs : List Char) : Reads (modify f) cs ⟨⟩ (f cs) := rfl

theorem reads_take (c : Char) (cs : List Char) : Reads take (c :: cs) c cs := rfl

/-- All of the characters may stand between the parts of a value. -/
def Blanks (bs : List Char) : Prop := ∀ b ∈ bs, isBlank b = true

theorem blanks_nil : Blanks [] := nofun

/-- The next thing in a text is what stands behind the blanks. -/
theorem reads_upcoming (hbs : Blanks bs) (hc : isBlank c = false) :
    Reads upcoming (bs ++ c :: cs) c (c :: cs) := by
  have hskip : (bs ++ c :: cs).dropWhile isBlank = c :: cs := by
    rw [List.dropWhile_append_of_pos hbs, List.dropWhile_cons_of_neg (by rw [hc]; nofun)]
  have hblanks := reads_modify (·.dropWhile isBlank) (bs ++ c :: cs)
  rw [hskip] at hblanks
  exact .bind hblanks (.bind (reads_get _) (reads_pure c _))

theorem reads_fourHex {d₁ d₂ d₃ d₄ : Char} (h : [d₁, d₂, d₃, d₄].all (isDigitOf 16))
    (rest : List Char) : Reads fourHex (d₁ :: d₂ :: d₃ :: d₄ :: rest)
      (natOfDigits 16 [d₁, d₂, d₃, d₄]) rest := by
  have hlength : 4 ≤ (d₁ :: d₂ :: d₃ :: d₄ :: rest).length := by simp
  refine .bind (reads_get _) ?_
  rw [if_pos ⟨hlength, h⟩]
  exact .bind (reads_set _ _) (reads_pure _ _)

theorem hexDigits_of_lt : ∀ n < 0x20,
    ['0', '0', hexDigit (n / 16), hexDigit (n % 16)].all (isDigitOf 16) ∧
    natOfDigits 16 ['0', '0', hexDigit (n / 16), hexDigit (n % 16)] = n := by
  decide

theorem reads_codePoint (hc : c.toNat < 0x20) (rest : List Char) : Reads codePoint
    ('0' :: '0' :: hexDigit (c.toNat / 16) :: hexDigit (c.toNat % 16) :: rest) c rest := by
  obtain ⟨hdigits, hvalue⟩ := hexDigits_of_lt c.toNat hc
  refine .bind (reads_fourHex hdigits rest) ?_
  rw [hvalue]
  have htrailing : isTrailingSurrogate c.toNat = false := by
    simp only [isTrailingSurrogate, Bool.and_eq_false_iff, decide_eq_false_iff_not]
    omega
  have hleading : isLeadingSurrogate c.toNat = false := by
    simp only [isLeadingSurrogate, Bool.and_eq_false_iff, decide_eq_false_iff_not]
    omega
  rw [htrailing, hleading, if_neg Bool.false_ne_true, if_neg Bool.false_ne_true, Char.ofNat_toNat]
  exact reads_pure c rest

/-- A character stands for itself, or behind a backslash there is what is read for it. -/
theorem escapeChar_cases (c : Char) :
    (escapeChar c = [c] ∧ c ≠ '"' ∧ c ≠ '\\' ∧ ¬ c.toNat < 0x20) ∨
      ∃ es, escapeChar c = '\\' :: es ∧ ∀ rest, Reads (escape true) (es ++ rest) c rest := by
  rw [escapeChar]
  split
  · next h => subst h; exact .inr ⟨_, rfl, fun _ => rfl⟩
  split
  · next h => subst h; exact .inr ⟨_, rfl, fun _ => rfl⟩
  split
  · next h => subst h; exact .inr ⟨_, rfl, fun _ => rfl⟩
  split
  · next h => subst h; exact .inr ⟨_, rfl, fun _ => rfl⟩
  split
  · next h => subst h; exact .inr ⟨_, rfl, fun _ => rfl⟩
  split
  · next h => subst h; exact .inr ⟨_, rfl, fun _ => rfl⟩
  split
  · next h => subst h; exact .inr ⟨_, rfl, fun _ => rfl⟩
  split
  · next h => exact .inr ⟨_, rfl, fun rest => .bind (reads_take 'u' _) (reads_codePoint h rest)⟩
  · next hquote hslash _ _ _ _ _ hcontrol => exact .inl ⟨rfl, hquote, hslash, hcontrol⟩

theorem reads_stringFrom (cs read rest : List Char) {bound : Nat} (h : cs.length < bound) :
    Reads (stringFrom true bound read) (cs.flatMap escapeChar ++ '"' :: rest)
      (String.ofList (read.reverse ++ cs)) rest := by
  induction cs generalizing read bound with
  | nil =>
    obtain ⟨bound, rfl⟩ : ∃ k, bound = k + 1 := ⟨bound - 1, by omega⟩
    rw [stringFrom, List.append_nil]
    exact .bind (reads_take '"' rest) (reads_pure _ _)
  | cons c cs ih =>
    obtain ⟨bound, rfl⟩ : ∃ k, bound = k + 1 := ⟨bound - 1, by omega⟩
    have hbound : cs.length < bound := by simpa using h
    have hrest := ih (c :: read) hbound
    rw [List.reverse_cons, List.append_assoc, List.singleton_append] at hrest
    rw [List.flatMap_cons, List.append_assoc, stringFrom]
    rcases escapeChar_cases c with ⟨hc, hquote, hslash, hcontrol⟩ | ⟨es, hc, hes⟩
    · rw [hc]
      refine .bind (reads_take c _) ?_
      rw [if_neg hquote, if_neg hslash, if_neg hcontrol]
      exact hrest
    · rw [hc]
      refine .bind (reads_take '\\' _) ?_
      rw [if_neg (by decide), if_pos rfl]
      exact .bind (hes _) hrest

theorem length_le_flatMap_escapeChar (cs : List Char) :
    cs.length ≤ (cs.flatMap escapeChar).length := by
  induction cs with
  | nil => exact Nat.le_refl _
  | cons c cs ih =>
    have hc : 1 ≤ (escapeChar c).length := by
      rcases escapeChar_cases c with ⟨hc, -⟩ | ⟨es, hc, -⟩ <;> simp [hc]
    rw [List.flatMap_cons, List.length_append, List.length_cons]
    omega

theorem reads_stringBody (s : String) (rest : List Char) :
    Reads (stringBody true) (s.toList.flatMap escapeChar ++ '"' :: rest) s rest := by
  have hlength := length_le_flatMap_escapeChar s.toList
  have hbound : s.toList.length < (s.toList.flatMap escapeChar ++ '"' :: rest).length := by
    simp only [List.length_append, List.length_cons]
    omega
  have hread := reads_stringFrom s.toList [] rest hbound
  rw [List.reverse_nil, List.nil_append, String.ofList_toList] at hread
  exact .bind (reads_get _) hread

theorem reads_text (hbs : Blanks bs) (s : String) (rest : List Char) :
    Reads text (bs ++ (stringChars s ++ rest)) s rest := by
  rw [stringChars, List.cons_append, List.append_assoc]
  exact .bind (reads_upcoming hbs rfl) (.bind (reads_take _ _) (reads_stringBody s rest))

/-! ### Numbers -/

/-- A number in front of this ends there. -/
def EndsNumber (rest : List Char) : Prop :=
  ∀ c ∈ rest.head?, c.isDigit = false ∧ c ≠ '.' ∧ c ≠ 'e' ∧ c ≠ 'E'

theorem isDigit_toDigits : ∀ c ∈ Nat.toDigits 10 n, c.isDigit := fun _ hc =>
  Nat.isDigit_of_mem_toDigits (by decide) (by decide) hc

/-- A zero stands in front of other digits only if it is not needed. -/
theorem toDigits_ne_zero_cons (n : Nat) : Nat.toDigits 10 n ≠ '0' :: c :: cs := by
  induction n using Nat.strongRecOn generalizing c cs with
  | ind n ih =>
    by_cases hn : n < 10
    · rw [Nat.toDigits_of_lt_base hn]
      simp
    · have hdigits := Nat.toDigits_of_base_le (b := 10) (n := n) (by decide) (by omega)
      have hhead : ∀ n < 10, n ≠ 0 → Nat.digitChar n ≠ '0' := by decide
      intro h
      rw [hdigits] at h
      by_cases hten : n / 10 < 10
      · rw [Nat.toDigits_of_lt_base hten] at h
        exact hhead (n / 10) hten (by omega) (List.cons.inj h).1
      -- The digits in front of the last one begin with the same zero, and there are more than one.
      · cases hfront : Nat.toDigits 10 (n / 10) with
        | nil => exact Nat.toDigits_ne_nil hfront
        | cons d ds =>
          rw [hfront] at h
          obtain ⟨rfl, htail⟩ := List.cons.inj h
          cases ds with
          | nil =>
            have hlength := congrArg List.length hfront
            rw [Nat.toDigits_of_base_le (by decide) (by omega)] at hlength
            simp at hlength
          | cons d' ds => exact ih (n / 10) (by omega) hfront

theorem le_foldl (m : Nat) (ds : List Char) :
    m ≤ ds.foldl (fun n c => n * 10 + (hexValue? c).getD 0) m := by
  induction ds generalizing m with
  | nil => exact Nat.le_refl _
  | cons d ds ih =>
    have hm := ih (m * 10 + (hexValue? d).getD 0)
    rw [List.foldl_cons]
    omega

theorem gather_eq (m : Nat) (ds : List Char)
    (h : ds.foldl (fun n c => n * 10 + (hexValue? c).getD 0) m < numberLimit) :
    gather m ds = (ds.foldl (fun n c => n * 10 + (hexValue? c).getD 0) m, []) := by
  induction ds generalizing m with
  | nil => rfl
  | cons d ds ih =>
    have hdigit : m * 10 + natOfDigits 10 [d] = m * 10 + (hexValue? d).getD 0 := by simp [natOfDigits]
    have hm := Nat.lt_of_le_of_lt (le_foldl (m * 10 + (hexValue? d).getD 0) ds) h
    rw [gather, hdigit]
    simp only [if_pos hm]
    rw [ih _ h, List.foldl_cons]

theorem roundedDown_toDigits (h : n < numberLimit) : roundedDown (Nat.toDigits 10 n) [] 0 = ⟨n, 0⟩ := by
  have hvalue : (Nat.toDigits 10 n).foldl (fun n c => n * 10 + (hexValue? c).getD 0) 0 = n :=
    natOfDigits_toDigits n
  have hgather := gather_eq 0 (Nat.toDigits 10 n) (by rwa [hvalue])
  rw [hvalue] at hgather
  simp [roundedDown, hgather, gather]

theorem roundUnits_le (hn : 0 < n) : Double.roundUnits n 1 ≤ 2 * n := by
  have hstep : Nat.pow 2 (Double.spacing (n / 1)) ≤ n := by
    rw [Nat.div_one, Double.spacing]
    calc 2 ^ (Nat.log2 n - 52)
      _ ≤ 2 ^ Nat.log2 n := Nat.pow_le_pow_right (by decide) (Nat.sub_le _ _)
      _ ≤ n := Nat.log2_self_le (Nat.pos_iff_ne_zero.1 hn)
  have hpos : 0 < 1 * Nat.pow 2 (Double.spacing (n / 1)) := by
    rw [Nat.one_mul]
    exact Nat.pow_pos (by decide)
  have hnear := (Double.roundDiv_near n hpos).1
  rw [Double.roundUnits, Nat.mul_comm]
  rw [Nat.one_mul] at hnear ⊢
  omega

theorem overflows_natural (h : n < numberLimit) : Decimal.overflows ⟨n, 0⟩ = false := by
  rw [Decimal.overflows]
  split
  · rfl
  · next hn =>
    have hpos : 0 < n := Nat.pos_iff_ne_zero.2 fun hzero => hn (.inl hzero)
    have hround := roundUnits_le hpos
    have hbound : 2 * numberLimit ≤ Decimal.overflowBound := by decide +kernel
    have hone : Double.roundUnits (Nat.pow 10 (0 : Int).toNat) 1 = 1 := by decide +kernel
    have hpower : ¬ (Decimal.greatestPower : Int) < 0 := by decide
    simp only [if_neg hpower, hone, Nat.mul_one, decide_eq_false_iff_not]
    omega

theorem reads_takeWhile (p : Char → Bool) (cs : List Char) :
    Reads (takeWhile p) cs (cs.takeWhile p) (cs.dropWhile p) := rfl

theorem reads_digits (n : Nat) (hrest : EndsNumber rest) :
    Reads (digits true) (Nat.toDigits 10 n ++ rest) (Nat.toDigits 10 n) rest := by
  have htake : (Nat.toDigits 10 n ++ rest).takeWhile Char.isDigit = Nat.toDigits 10 n := by
    rw [List.takeWhile_append_of_pos isDigit_toDigits, takeWhile_eq_nil fun c hc => (hrest c hc).1,
      List.append_nil]
  have hdrop : (Nat.toDigits 10 n ++ rest).dropWhile Char.isDigit = rest := by
    rw [List.dropWhile_append_of_pos isDigit_toDigits, dropWhile_eq_self fun c hc => (hrest c hc).1]
  have hrun := reads_takeWhile Char.isDigit (Nat.toDigits 10 n ++ rest)
  rw [htake, hdrop] at hrun
  refine .bind hrun ?_
  split
  · next hnil => exact absurd hnil Nat.toDigits_ne_nil
  · exact reads_pure _ _

theorem reads_wholeDigits (n : Nat) (hrest : EndsNumber rest) :
    Reads (wholeDigits true) (Nat.toDigits 10 n ++ rest) (Nat.toDigits 10 n) rest := by
  refine .bind (reads_digits n hrest) ?_
  split
  · next hzero => exact absurd hzero (toDigits_ne_zero_cons n)
  · exact reads_pure _ _

theorem reads_fractionDigits (hrest : EndsNumber rest) : Reads (fractionDigits true) rest none rest := by
  refine .bind (reads_get _) ?_
  split
  · exact absurd rfl (hrest '.' rfl).2.1
  · exact reads_pure _ _

theorem reads_exponent (hrest : EndsNumber rest) : Reads (exponent true) rest none rest := by
  refine .bind (reads_get _) ?_
  split
  · next c cs =>
    have hc := (hrest c rfl).2.2
    rw [if_neg (not_or.2 hc)]
    exact reads_pure _ _
  · exact reads_pure _ _

theorem reads_number (h : n < numberLimit) (hrest : EndsNumber rest) :
    Reads (number true) (Nat.toDigits 10 n ++ rest) (some n) rest := by
  have hoverflow : ¬ (true = true ∧
      (roundedDown (Nat.toDigits 10 n) ((none : Option (List Char)).getD [])
        ((none : Option Int).getD 0)).overflows = true) := by
    rw [Option.getD_none, Option.getD_none, roundedDown_toDigits h, overflows_natural h]
    nofun
  have hvalue : natOfDigits 10 (Nat.toDigits 10 n) < numberLimit := by rwa [natOfDigits_toDigits]
  refine .bind (reads_get _) ?_
  split
  · next cs hminus =>
    obtain ⟨d, ds, hdigits⟩ := List.exists_cons_of_ne_nil (@Nat.toDigits_ne_nil n 10)
    have hd : d.isDigit := isDigit_toDigits (n := n) d (by rw [hdigits]; exact List.mem_cons_self)
    rw [hdigits] at hminus
    obtain ⟨rfl, -⟩ := List.cons.inj hminus
    cases hd
  · refine .bind (reads_pure false _) (.bind (reads_wholeDigits n hrest)
      (.bind (reads_fractionDigits hrest) (.bind (reads_exponent hrest) ?_)))
    rw [if_neg hoverflow, if_pos ⟨rfl, rfl, rfl, hvalue⟩, natOfDigits_toDigits]
    exact reads_pure _ _

theorem isBlank_of_isDigit (hc : c.isDigit) : isBlank c = false := by
  rw [Bool.eq_false_iff]
  intro hb
  simp only [isBlank, Bool.or_eq_true, beq_iff_eq] at hb
  rcases hb with ((rfl | rfl) | rfl) | rfl <;> cases hc

theorem reads_natural (hbs : Blanks bs) (h : n < numberLimit) (hrest : EndsNumber rest) :
    Reads natural (bs ++ (Nat.toDigits 10 n ++ rest)) n rest := by
  obtain ⟨d, ds, hdigits⟩ := List.exists_cons_of_ne_nil (@Nat.toDigits_ne_nil n 10)
  have hd : d.isDigit := isDigit_toDigits (n := n) d (by rw [hdigits]; exact List.mem_cons_self)
  have hread := reads_number h hrest
  rw [hdigits, List.cons_append] at hread ⊢
  refine .bind (reads_upcoming hbs (isBlank_of_isDigit hd)) ?_
  rw [if_pos (.inr hd)]
  exact .bind hread (reads_pure n rest)

theorem endsNumber_append (hbs : Blanks bs) (h : EndsNumber cs) : EndsNumber (bs ++ cs) := by
  cases bs with
  | nil => exact h
  | cons b bs =>
    intro c hc
    obtain rfl : b = c := Option.some.inj hc
    have hb := hbs b List.mem_cons_self
    simp only [isBlank, Bool.or_eq_true, beq_iff_eq] at hb
    rcases hb with ((rfl | rfl) | rfl) | rfl <;> decide

/-! ### Layouts -/

/-- Nothing but blanks is put between the parts of a text. -/
structure Layout.Blank (l : Layout) : Prop where
  lineBreak : ∀ depth, Blanks (l.lineBreak depth)
  gap : Blanks l.gap

theorem Layout.blank_compact : Layout.compact.Blank := ⟨fun _ => blanks_nil, blanks_nil⟩

theorem Layout.blank_pretty : Layout.pretty.Blank where
  lineBreak depth := by
    intro b hb
    rcases List.mem_cons.1 hb with rfl | hb
    · rfl
    · rw [List.eq_of_mem_replicate hb]
      rfl
  gap := by
    intro b hb
    rw [List.mem_singleton.1 hb]
    rfl

/-- A value is found by its first character. -/
theorem write_cons (l : Layout) (depth : Nat) (d : Data) :
    ∃ c cs, write l depth d = c :: cs ∧ isBlank c = false ∧ c ≠ ']' := by
  cases d with
  | text s => exact ⟨_, _, by rw [write, stringChars], rfl, by decide⟩
  | number n =>
    obtain ⟨d, ds, hdigits⟩ := List.exists_cons_of_ne_nil (@Nat.toDigits_ne_nil n 10)
    have hd : d.isDigit := isDigit_toDigits (n := n) d (by rw [hdigits]; exact List.mem_cons_self)
    refine ⟨d, ds, by rw [write, hdigits], isBlank_of_isDigit hd, ?_⟩
    rintro rfl
    cases hd
  | record fs => cases fs <;> exact ⟨_, _, by rw [write], rfl, by decide⟩
  | list ds => cases ds <;> exact ⟨_, _, by rw [write], rfl, by decide⟩

/-- A value is read for `a`, whatever blanks stand in front of it. -/
def ReadsValue (l : Layout) (depth : Nat) (r : Reader α) (d : Data) (a : α) : Prop :=
  ∀ bs rest, Blanks bs → EndsNumber rest → Reads r (bs ++ (write l depth d ++ rest)) a rest

/-! ### Lists -/

section
variable {l : Layout} {depth : Nat} {item : Reader α} {value : α → Data} {as : List α}

theorem length_le_writeItems (l : Layout) (depth : Nat) (ds : List Data) :
    ds.length ≤ (writeItems l depth ds).length := by
  induction ds with
  | nil => exact Nat.le_refl _
  | cons d ds ih =>
    simp only [writeItems, List.length_cons, List.length_append]
    omega

theorem reads_itemsFrom (hl : l.Blank) {bound : Nat}
    (h : ∀ x ∈ a :: as, ReadsValue l depth item (value x) x) (hbs : Blanks bs)
    (hbound : as.length < bound) (outer : Nat) (rest : List Char) :
    Reads (itemsFrom item bound)
      (bs ++ (write l depth (value a) ++ (writeItems l depth (as.map value) ++
        (l.lineBreak outer ++ ']' :: rest)))) (a :: as) rest := by
  induction as generalizing a bs bound with
  | nil =>
    obtain ⟨bound, rfl⟩ : ∃ k, bound = k + 1 := ⟨bound - 1, by omega⟩
    have hends : EndsNumber (l.lineBreak outer ++ ']' :: rest) :=
      endsNumber_append (hl.lineBreak outer) (by intro c hc; cases hc; decide)
    rw [itemsFrom, List.map_nil, writeItems, List.nil_append]
    exact .bind (h a List.mem_cons_self bs _ hbs hends)
      (.bind (reads_upcoming (hl.lineBreak outer) rfl) (.bind (reads_take _ _) (reads_pure _ _)))
  | cons b as ih =>
    obtain ⟨bound, rfl⟩ : ∃ k, bound = k + 1 := ⟨bound - 1, by omega⟩
    have hbound' : as.length < bound := by simpa using hbound
    have hrest := ih (fun x hx => h x (List.mem_cons_of_mem a hx)) (hl.lineBreak depth) hbound'
    rw [itemsFrom, List.map_cons, writeItems, List.cons_append, List.append_assoc, List.append_assoc]
    exact .bind (h a List.mem_cons_self bs _ hbs (by intro c hc; cases hc; decide))
      (.bind (reads_upcoming blanks_nil rfl) (.bind (reads_take _ _) (.bind hrest (reads_pure _ _))))

theorem reads_items (hl : l.Blank) (h : ∀ x ∈ a :: as, ReadsValue l depth item (value x) x)
    (outer : Nat) (rest : List Char) :
    Reads (items item)
      (l.lineBreak depth ++ (write l depth (value a) ++ (writeItems l depth (as.map value) ++
        (l.lineBreak outer ++ ']' :: rest)))) (a :: as) rest := by
  have hlength := length_le_writeItems l depth (as.map value)
  rw [List.length_map] at hlength
  obtain ⟨c, cs, hc, hblank, hne⟩ := write_cons l depth (value a)
  have hbound : as.length < (write l depth (value a) ++ (writeItems l depth (as.map value) ++
      (l.lineBreak outer ++ ']' :: rest))).length := by
    simp only [List.length_append, List.length_cons]
    omega
  have hread := reads_itemsFrom hl h blanks_nil hbound outer rest
  rw [List.nil_append] at hread
  rw [hc, List.cons_append] at hread ⊢
  refine .bind (reads_upcoming (hl.lineBreak depth) hblank) ?_
  split
  · exact absurd rfl hne
  · exact .bind (reads_get _) hread

/-- Behind the bracket of a list its items are read. -/
theorem reads_list (hl : l.Blank) (h : ∀ x ∈ as, ReadsValue l (depth + 1) item (value x) x)
    (hne : as ≠ []) (rest : List Char) : ∃ cs, write l depth (.list (as.map value)) ++ rest = '[' :: cs ∧
      Reads (items item) cs as rest := by
  obtain ⟨a, as, rfl⟩ := List.exists_cons_of_ne_nil hne
  refine ⟨_, ?_, reads_items hl h depth rest⟩
  simp only [List.map_cons, write, List.cons_append, List.append_assoc, List.nil_append]

end

/-! ### Records -/

section
variable {l : Layout} {depth : Nat} {field : String → σ → Reader σ} {s s' s'' : σ}
  {fs gs : List (String × Data)} {name : String} {d : Data}

/-- Reading the fields in this order leads from one state to another. -/
inductive FieldsRead (l : Layout) (depth : Nat) (field : String → σ → Reader σ) :
    σ → List (String × Data) → σ → Prop
  | nil {s : σ} : FieldsRead l depth field s [] s
  | cons {s s' s'' : σ} {name : String} {d : Data} {fs : List (String × Data)}
    (h : ∀ rest, EndsNumber rest →
      Reads (field name s) (':' :: (l.gap ++ (write l depth d ++ rest))) s' rest)
    (hr : FieldsRead l depth field s' fs s'') : FieldsRead l depth field s ((name, d) :: fs) s''

theorem FieldsRead.append (h : FieldsRead l depth field s fs s')
    (h' : FieldsRead l depth field s' gs s'') : FieldsRead l depth field s (fs ++ gs) s'' := by
  induction h with
  | nil => exact h'
  | cons hf _ ih => exact .cons hf (ih h')

theorem reads_colon (cs : List Char) : Reads colon (':' :: cs) ⟨⟩ cs :=
  .bind (reads_upcoming blanks_nil rfl) (.bind (reads_take _ _) (reads_pure _ _))

theorem reads_fieldName (hbs : Blanks bs) (name : String) (rest : List Char) :
    Reads (fieldName true) (bs ++ (stringChars name ++ rest)) name rest := by
  rw [stringChars, List.cons_append, List.append_assoc]
  exact .bind (reads_upcoming hbs rfl) (.bind (reads_take _ _) (reads_stringBody name rest))

theorem reads_fieldsFrom (hl : l.Blank) {bound : Nat} {f : String × Data}
    (h : FieldsRead l depth field s (f :: fs) s') (hbs : Blanks bs) (hbound : fs.length < bound)
    (outer : Nat) (rest : List Char) :
    Reads (fieldsFrom true field bound s)
      (bs ++ (writeField l depth f ++ (writeFields l depth fs ++
        (l.lineBreak outer ++ '}' :: rest)))) s' rest := by
  induction fs generalizing s f bs bound with
  | nil =>
    obtain ⟨bound, rfl⟩ : ∃ k, bound = k + 1 := ⟨bound - 1, by omega⟩
    cases h with
    | @cons _ s₁ _ name d _ hf hr =>
      cases hr
      have hends : EndsNumber (l.lineBreak outer ++ '}' :: rest) :=
        endsNumber_append (hl.lineBreak outer) (by intro c hc; cases hc; decide)
      rw [fieldsFrom, writeField, writeFields, List.nil_append, List.append_assoc, List.cons_append,
        List.append_assoc]
      exact .bind (reads_fieldName hbs name _) (.bind (hf _ hends)
        (.bind (reads_upcoming (hl.lineBreak outer) rfl) (.bind (reads_take _ _) (reads_pure _ _))))
  | cons g fs ih =>
    obtain ⟨bound, rfl⟩ : ∃ k, bound = k + 1 := ⟨bound - 1, by omega⟩
    cases h with
    | @cons _ s₁ _ name d _ hf hr =>
      have hbound' : fs.length < bound := by simpa using hbound
      have hrest := ih hr (hl.lineBreak depth) hbound'
      rw [fieldsFrom, writeField, writeFields, List.append_assoc, List.cons_append, List.append_assoc,
        List.cons_append, List.append_assoc, List.append_assoc]
      exact .bind (reads_fieldName hbs name _) (.bind (hf _ (by intro c hc; cases hc; decide))
        (.bind (reads_upcoming blanks_nil rfl) (.bind (reads_take _ _) hrest)))

theorem length_le_writeFields (l : Layout) (depth : Nat) (fs : List (String × Data)) :
    fs.length ≤ (writeFields l depth fs).length := by
  induction fs with
  | nil => exact Nat.le_refl _
  | cons f fs ih =>
    simp only [writeFields, List.length_cons, List.length_append]
    omega

theorem reads_fields (hl : l.Blank) {f : String × Data} (h : FieldsRead l depth field s (f :: fs) s')
    (outer : Nat) (rest : List Char) :
    Reads (fields true field s)
      (l.lineBreak depth ++ (writeField l depth f ++ (writeFields l depth fs ++
        (l.lineBreak outer ++ '}' :: rest)))) s' rest := by
  have hlength := length_le_writeFields l depth fs
  have hbound : fs.length < (writeField l depth f ++ (writeFields l depth fs ++
      (l.lineBreak outer ++ '}' :: rest))).length := by
    simp only [List.length_append, List.length_cons]
    omega
  have hread := reads_fieldsFrom hl h blanks_nil hbound outer rest
  obtain ⟨name, d⟩ := f
  rw [List.nil_append] at hread
  rw [writeField, stringChars, List.cons_append, List.cons_append] at hread ⊢
  exact .bind (reads_upcoming (hl.lineBreak depth) rfl) (.bind (reads_get _) hread)

/-- Behind the brace of a record its fields are read. -/
theorem reads_record (hl : l.Blank) (h : FieldsRead l (depth + 1) field s fs s') (hne : fs ≠ [])
    (rest : List Char) : ∃ cs, write l depth (.record fs) ++ rest = '\x7b' :: cs ∧
      Reads (fields true field s) cs s' rest := by
  obtain ⟨f, fs, rfl⟩ := List.exists_cons_of_ne_nil hne
  refine ⟨_, ?_, reads_fields hl h depth rest⟩
  simp only [write, List.cons_append, List.append_assoc, List.nil_append]

end

end Shorthand.Json
