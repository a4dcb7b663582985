import Shorthand.Proofs.Token.Ahead
import Shorthand.Proofs.Token.Spelling

/-! # Scanning as a partition

The tokens of a text lie one behind the other, each of them written out completely, and only blanks
lie between them. `Covers` says this along the text, and the scanner finds such a list of tokens
(`covers_spans`). Offsets of characters and of bytes are related in `Partition`, which
is the same seen from outside (`partition_spans`). -/

namespace Shorthand
open Text

/-- A token and the byte offset behind its last character. -/
structure Span where
  token : Token
  stop : Nat
deriving DecidableEq, Repr

/-- The byte offset of the first character. -/
def Span.start (s : Span) : Nat := s.token.position - 1

/-- The tokens from a place up to the end of the input, malformed ones among them. -/
def Scanner.spans (s : Scanner) : List Span :=
  if s.next.1.lexeme = .eof then [] else ⟨s.next.1, s.next.2.offset⟩ :: s.next.2.spans
termination_by s.rest.length
decreasing_by exact next_rest_length_lt ‹_›

/-- The tokens of a text that starts at a byte offset. -/
inductive Covers : Nat → List Char → List Span → Prop
  | blank {n : Nat} {cs : List Char} (h : ∀ c ∈ cs, isBlank c = true) : Covers n cs []
  | token {n : Nat} {blanks spelling rest : List Char} {l : Lexeme} {spans : List Span}
    (hb : ∀ c ∈ blanks, isBlank c = true) (hl : Spells l spelling rest)
    (h : Covers (n + utf8Length blanks + utf8Length spelling) rest spans) :
    Covers n (blanks ++ (spelling ++ rest))
      (⟨⟨l, n + utf8Length blanks + 1⟩, n + utf8Length blanks + utf8Length spelling⟩ :: spans)

namespace Scanner
variable {s : Scanner} {n : Nat} {cs blanks spelling rest : List Char} {l : Lexeme}

theorem next_of_blank (h : ∀ c ∈ cs, isBlank c = true) :
    (⟨cs, n⟩ : Scanner).next = (⟨.eof, n + utf8Length cs + 1⟩, ⟨[], n + utf8Length cs⟩) := by
  simp only [next, List.takeWhile_eq_self_iff.2 h, List.dropWhile_eq_nil_iff.2 h]
  rfl

theorem next_of_spells (hb : ∀ c ∈ blanks, isBlank c = true) (hl : Spells l spelling rest) :
    (⟨blanks ++ (spelling ++ rest), n⟩ : Scanner).next =
      (⟨l, n + utf8Length blanks + 1⟩, ⟨rest, n + utf8Length blanks + utf8Length spelling⟩) := by
  obtain ⟨c, cs, hcs, hc⟩ := hl.head_not_blank
  have hhead : ∀ d ∈ (spelling ++ rest).head?, isBlank d = false := by
    intro d hd
    rw [hcs] at hd
    obtain rfl := Option.some.inj hd
    exact hc
  simp only [next, List.takeWhile_append_of_pos hb, List.dropWhile_append_of_pos hb,
    takeWhile_eq_nil hhead, dropWhile_eq_self hhead, List.append_nil, Scan.of_spelling_append hl]

theorem blank_of_eof (h : s.next.1.lexeme = .eof) : ∀ c ∈ s.rest, isBlank c = true :=
  List.dropWhile_eq_nil_iff.1 (Scan.eq_nil_of_eof h)

/-- In front of the end of the input something is written. -/
theorem exists_spells (h : s.next.1.lexeme ≠ .eof) : ∃ blanks l spelling rest,
    (∀ c ∈ blanks, isBlank c = true) ∧ Spells l spelling rest ∧
      s.rest = blanks ++ (spelling ++ rest) := by
  have hhead := head?_dropWhile isBlank s.rest
  cases hd : s.rest.dropWhile isBlank with
  | nil => simp [next, hd, Scan.of] at h
  | cons c cs =>
    rw [hd] at hhead
    refine ⟨s.rest.takeWhile isBlank, _, _, _, fun c hc => List.mem_takeWhile_imp hc,
      Scan.spells_of (hhead c rfl) cs, ?_⟩
    rw [Scan.spelling_append_rest, ← hd, List.takeWhile_append_dropWhile]

end Scanner

variable {n : Nat} {cs : List Char} {spans : List Span} {s : Span}

theorem covers_spans (s : Scanner) : Covers s.offset s.rest s.spans := by
  fun_induction Scanner.spans s with
  | case1 s h => exact .blank (Scanner.blank_of_eof h)
  | case2 s h ih =>
    obtain ⟨blanks, l, spelling, rest, hb, hl, hrest⟩ := Scanner.exists_spells h
    obtain ⟨cs, n⟩ := s
    obtain rfl : cs = blanks ++ (spelling ++ rest) := hrest
    rw [Scanner.next_of_spells hb hl] at ih ⊢
    exact .token hb hl ih

theorem TokenLog.shows_blank (h : ∀ c ∈ cs, isBlank c = true) (read : List Token) (count : Nat) :
    (⟨read, [], ⟨cs, n⟩⟩ : TokenLog).Shows
      (List.replicate count ⟨.eof, n + utf8Length cs + 1⟩) := by
  induction count generalizing read cs n with
  | zero => trivial
  | succ count ih =>
    simp only [List.replicate_succ, Shows, TokenLog.next, Scanner.next_of_blank h]
    exact ⟨trivial, ih (List.forall_mem_nil _) _⟩

namespace Covers

/-- A log gives the tokens of a text one by one, and then the end of the input again and again. -/
theorem shows (h : Covers n cs spans) (read : List Token) (count : Nat) :
    (⟨read, [], ⟨cs, n⟩⟩ : TokenLog).Shows
      (spans.map (·.token) ++ List.replicate count ⟨.eof, n + utf8Length cs + 1⟩) := by
  induction h generalizing read with
  | blank hb => exact TokenLog.shows_blank hb read count
  | @token n blanks spelling rest l spans hb hl h ih =>
    have hrest := ih (⟨l, n + utf8Length blanks + 1⟩ :: read)
    rw [add_utf8Length_append] at hrest
    simp only [List.map_cons, List.cons_append, TokenLog.Shows, TokenLog.next,
      Scanner.next_of_spells hb hl]
    exact ⟨trivial, hrest⟩

theorem le_start (h : Covers n cs spans) : ∀ s ∈ spans, n ≤ s.start := by
  induction h with
  | blank => exact List.forall_mem_nil _
  | token hb hl h ih =>
    refine List.forall_mem_cons.2 ⟨?_, fun s hs => ?_⟩
    · simp only [Span.start]
      omega
    · have := ih s hs
      omega

theorem ascending (h : Covers n cs spans) : spans.Pairwise fun s t => s.stop ≤ t.start := by
  induction h with
  | blank => exact .nil
  | token hb hl h ih => exact .cons h.le_start ih

/-- Every token is written out between its ends. -/
theorem spelled (h : Covers n cs spans) (pre : List Char) (hn : utf8Length pre = n) :
    ∀ s ∈ spans, ∃ before spelling after, pre ++ cs = before ++ (spelling ++ after) ∧
      s.token.position = utf8Length before + 1 ∧
      s.stop = utf8Length before + utf8Length spelling ∧
      Spells s.token.lexeme spelling after := by
  induction h generalizing pre with
  | blank => exact List.forall_mem_nil _
  | @token n blanks spelling rest l spans hb hl h ih =>
    subst hn
    refine List.forall_mem_cons.2 ⟨⟨pre ++ blanks, spelling, rest, ?_, ?_, ?_, hl⟩, fun s hs => ?_⟩
    · rw [List.append_assoc]
    · rw [utf8Length_append]
    · rw [utf8Length_append]
    · have hpre : utf8Length (pre ++ blanks ++ spelling) =
          utf8Length pre + utf8Length blanks + utf8Length spelling := by
        rw [utf8Length_append, utf8Length_append]
      obtain ⟨before, spelling', after, he, hs⟩ := ih _ hpre s hs
      exact ⟨before, spelling', after, by simpa using he, hs⟩

/-- What lies between the tokens is blank. -/
theorem blank_of_outside (h : Covers n cs spans) {before after : List Char} {c : Char}
    (hcs : cs = before ++ c :: after)
    (hout : ∀ s ∈ spans, n + utf8Length before < s.start ∨ s.stop ≤ n + utf8Length before) :
    isBlank c = true := by
  induction h generalizing before with
  | blank h => exact h c (by rw [hcs]; simp)
  | @token n blanks spelling rest l spans hb hl h ih =>
    obtain ⟨htoken, hout⟩ := List.forall_mem_cons.1 hout
    rcases append_eq_append_cons hcs with ⟨m, hm⟩ | ⟨m, rfl, hm⟩
    · exact hb c (by rw [hm]; simp)
    · rw [utf8Length_append] at htoken hout
      rcases append_eq_append_cons hm with ⟨m', rfl⟩ | ⟨m', rfl, hrest⟩
      · -- the character would lie in this token
        have hc := c.utf8Size_pos
        simp only [Span.start, utf8Length_append, utf8Length_cons] at htoken
        omega
      · refine ih hrest fun s hs => ?_
        have := hout s hs
        rw [utf8Length_append] at this
        omega

end Covers

/-- The tokens of a text, seen by the bytes that they are written with. -/
structure Partition (source : String) (spans : List Span) : Prop where
  nonempty : ∀ s ∈ spans, s.start < s.stop
  ascending : spans.Pairwise fun s t => s.stop ≤ t.start
  /-- A token starts and ends at a character, and is written out in between. -/
  spelled : ∀ s ∈ spans, ∃ before spelling after, source = before ++ spelling ++ after ∧
    s.token.position = before.utf8ByteSize + 1 ∧
    s.stop = (before ++ spelling).utf8ByteSize ∧
    Spells s.token.lexeme spelling.toList after.toList
  blank : ∀ before c after, source = before ++ String.singleton c ++ after →
    (∀ s ∈ spans, before.utf8ByteSize < s.start ∨ s.stop ≤ before.utf8ByteSize) →
    isBlank c = true

theorem Covers.partition {source : String} (h : Covers 0 source.toList spans) :
    Partition source spans := by
  constructor
  case nonempty =>
    intro s hs
    obtain ⟨before, spelling, after, -, hposition, hstop, hl⟩ := h.spelled [] rfl s hs
    have hpos := utf8Length_pos hl.ne_nil
    rw [Span.start]
    omega
  case ascending => exact h.ascending
  case spelled =>
    intro s hs
    obtain ⟨before, spelling, after, he, hposition, hstop, hl⟩ := h.spelled [] rfl s hs
    refine ⟨String.ofList before, String.ofList spelling, String.ofList after, ?_, ?_, ?_, ?_⟩
    · rw [← String.ofList_append, ← String.ofList_append, List.append_assoc, ← he, List.nil_append,
        String.ofList_toList]
    · rw [utf8ByteSize_ofList]
      exact hposition
    · rw [String.utf8ByteSize_append, utf8ByteSize_ofList, utf8ByteSize_ofList]
      exact hstop
    · rw [String.toList_ofList, String.toList_ofList]
      exact hl
  case blank =>
    intro before c after he hout
    have hcs : source.toList = before.toList ++ c :: after.toList := by
      rw [he, String.toList_append, String.toList_append, String.toList_singleton,
        List.append_assoc, List.singleton_append]
    refine h.blank_of_outside hcs fun s hs => ?_
    rw [Nat.zero_add, utf8Length_toList]
    exact hout s hs

/-- The tokens of a text partition it, and what a log gives are these tokens and then the end of the
input, behind the last byte. -/
theorem partition_spans (source : String) : ∃ spans, Partition source spans ∧
    (∀ s ∈ spans, s.token.lexeme ≠ .eof) ∧
    ∀ count, (TokenLog.ofString source).Shows
      (spans.map (·.token) ++ List.replicate count ⟨.eof, source.utf8ByteSize + 1⟩) := by
  have h : Covers 0 source.toList (Scanner.ofString source).spans :=
    covers_spans (Scanner.ofString source)
  refine ⟨_, h.partition, fun s hs => ?_, fun count => ?_⟩
  · obtain ⟨before, spelling, after, -, -, -, hl⟩ := h.spelled [] rfl s hs
    exact hl.ne_eof
  · have hshows := h.shows [] count
    rw [Nat.zero_add, utf8Length_toList] at hshows
    exact hshows

/-- A stray brace is a token of its own, and a doubled quote does not close a run. -/
example : (Scanner.ofString "é \x7d\"b\"\"").spans =
    [⟨⟨.word "é", 1⟩, 2⟩, ⟨⟨.error .strayBrace, 4⟩, 4⟩, ⟨⟨.error .suddenEnd, 5⟩, 8⟩] := by
  decide +kernel

end Shorthand
