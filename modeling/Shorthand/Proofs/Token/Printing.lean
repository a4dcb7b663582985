import Shorthand.Proofs.Token.Spans
import Shorthand.Proofs.Token.Written

/-! # Scanning undoes printing

Lexemes that are printed with blanks between them are scanned again, whatever their contents are and
whatever quotes and blanks were chosen, and each token stands where it was printed
(`tokenize_join`). -/

namespace Shorthand
open Text

/-- A lexeme to print, the quotes to use if it is a quoted run, and the blanks to print between it
and the next one. -/
structure Printed where
  lexeme : Lexeme
  quote : Char
  gap : String
  writable : lexeme.isWritable
  isQuote : quote = '"' ∨ quote = '\''
  gap_ne_empty : gap ≠ ""
  gap_blank : ∀ c ∈ gap.toList, isBlank c = true

namespace Printed

def text (p : Printed) : String := String.ofList (p.lexeme.writtenWith p.quote)

/-- The lexemes one behind the other, with their blanks between them. -/
def join : List Printed → String
  | [] => ""
  | [p] => p.text
  | p :: q :: ps => p.text ++ p.gap ++ join (q :: ps)

/-- The lexemes as tokens, each at the byte offset where it is printed, the first of them at `n`. -/
def tokens (n : Nat) : List Printed → List Token
  | [] => []
  | p :: ps => ⟨p.lexeme, n + 1⟩ :: tokens (n + (p.text ++ p.gap).utf8ByteSize) ps

end Printed

namespace Covers
variable {n : Nat} {cs blanks : List Char} {spans : List Span}

/-- Blanks in front belong to no token. -/
theorem append_blanks (hb : ∀ c ∈ blanks, isBlank c = true)
    (h : Covers (n + utf8Length blanks) cs spans) : Covers n (blanks ++ cs) spans := by
  cases h with
  | blank h => exact .blank fun c hc => (List.mem_append.1 hc).elim (hb c) (h c)
  | @token _ blanks' spelling rest l spans hb' hl h =>
    have hall : ∀ c ∈ blanks ++ blanks', isBlank c = true := fun c hc =>
      (List.mem_append.1 hc).elim (hb c) (hb' c)
    have hn : n + utf8Length blanks + utf8Length blanks' = n + utf8Length (blanks ++ blanks') := by
      rw [utf8Length_append, Nat.add_assoc]
    rw [hn] at h ⊢
    rw [← List.append_assoc]
    exact .token hall hl h

/-- Nothing comes in front of the first token. -/
theorem front {spelling rest : List Char} {l : Lexeme} (hl : Spells l spelling rest)
    (h : Covers (n + utf8Length spelling) rest spans) :
    Covers n (spelling ++ rest) (⟨⟨l, n + 1⟩, n + utf8Length spelling⟩ :: spans) :=
  .token (List.forall_mem_nil _) hl h

theorem nil (n : Nat) : Covers n [] [] := .blank (List.forall_mem_nil _)

/-- Without malformed tokens, scanning ends at the end of the text. -/
theorem tokens_eq (h : Covers n cs spans) (hfinal : ∀ s ∈ spans, ¬ s.token.lexeme.isFinal) :
    (⟨cs, n⟩ : Scanner).tokens =
      spans.map (·.token) ++ [⟨.eof, n + utf8Length cs + 1⟩] := by
  induction h with
  | blank h =>
    rw [Scanner.tokens, Scanner.next_of_blank h]
    rfl
  | @token n blanks spelling rest l spans hb hl h ih =>
    obtain ⟨hl', hspans⟩ := List.forall_mem_cons.1 hfinal
    rw [Scanner.tokens, Scanner.next_of_spells hb hl, if_neg hl', ih hspans,
      add_utf8Length_append]
    rfl

end Covers

namespace Printed
variable {rest : List Char}

theorem spells (p : Printed) (hrest : ∀ c ∈ rest.head?, isBlank c = true) :
    Spells p.lexeme p.text.toList rest := by
  rw [text, String.toList_ofList]
  exact spells_writtenWith p.writable p.isQuote hrest

theorem head?_gap (p : Printed) (cs : List Char) :
    ∀ c ∈ (p.gap.toList ++ cs).head?, isBlank c = true := by
  have hne : p.gap.toList ≠ [] := fun h => p.gap_ne_empty (String.toList_eq_nil_iff.1 h)
  obtain ⟨d, ds, hd⟩ := List.exists_cons_of_ne_nil hne
  intro c hc
  rw [hd] at hc
  obtain rfl := Option.some.inj hc
  exact p.gap_blank _ (by rw [hd]; exact List.mem_cons_self)

/-- Each lexeme ends where it was printed, and so all of them cover what was printed. -/
theorem covers_join (ps : List Printed) (n : Nat) :
    ∃ spans, Covers n (join ps).toList spans ∧ spans.map (·.token) = tokens n ps := by
  induction ps generalizing n with
  | nil => exact ⟨[], .nil n, rfl⟩
  | cons p ps ih =>
    cases ps with
    | nil =>
      have hblank : ∀ c ∈ ([] : List Char).head?, isBlank c = true := fun _ hc => by cases hc
      have h := Covers.front (p.spells hblank) (.nil (n + utf8Length p.text.toList))
      rw [List.append_nil] at h
      exact ⟨_, h, rfl⟩
    | cons q ps =>
      obtain ⟨spans, hspans, htokens⟩ := ih (n + (p.text ++ p.gap).utf8ByteSize)
      have hsize : n + (p.text ++ p.gap).utf8ByteSize =
          n + utf8Length p.text.toList + utf8Length p.gap.toList := by
        rw [String.utf8ByteSize_append, utf8Length_toList, utf8Length_toList, Nat.add_assoc]
      have hjoin : (join (p :: q :: ps)).toList =
          p.text.toList ++ (p.gap.toList ++ (join (q :: ps)).toList) := by
        rw [join, String.toList_append, String.toList_append, List.append_assoc]
      have hbehind : Covers (n + utf8Length p.text.toList)
          (p.gap.toList ++ (join (q :: ps)).toList) spans := by
        rw [hsize] at hspans
        exact hspans.append_blanks p.gap_blank
      have h := Covers.front (p.spells (p.head?_gap _)) hbehind
      rw [← hjoin] at h
      refine ⟨_, h, ?_⟩
      rw [List.map_cons, htokens]
      rfl

theorem not_isFinal_of_mem {ps : List Printed} {n : Nat} {t : Token} (h : t ∈ tokens n ps) :
    ¬ t.lexeme.isFinal := by
  induction ps generalizing n with
  | nil => cases h
  | cons p ps ih =>
    rcases List.mem_cons.1 h with rfl | h
    · exact Scan.not_isFinal_of_isWritable p.writable
    · exact ih h

/-- What was printed is scanned: the same lexemes in the same order, each at the place where it was
printed, and then the end of the input. -/
theorem tokenize_join (ps : List Printed) :
    tokenize (join ps) = tokens 0 ps ++ [⟨.eof, (join ps).utf8ByteSize + 1⟩] := by
  obtain ⟨spans, h, htokens⟩ := covers_join ps 0
  have hfinal : ∀ s ∈ spans, ¬ s.token.lexeme.isFinal := fun s hs => by
    have hmem : s.token ∈ tokens 0 ps := by
      rw [← htokens]
      exact List.mem_map_of_mem hs
    exact not_isFinal_of_mem hmem
  have heq := h.tokens_eq hfinal
  rw [htokens, Nat.zero_add, utf8Length_toList] at heq
  exact heq

/-- A run that is nothing but its own delimiter, in front of an empty one. -/
example : tokenize (join [
    ⟨.quoted "'", '\'', "\n ", by decide, by decide, by decide, List.all_eq_true.1 (by decide)⟩,
    ⟨.text "", '"', " ", by decide, by decide, by decide, List.all_eq_true.1 (by decide)⟩]) =
      [⟨.quoted "'", 1⟩, ⟨.text "", 7⟩, ⟨.eof, 9⟩] := by
  decide +kernel

end Printed
end Shorthand
