import Shorthand.Proofs.Token.Spans

/-! # One stream of tokens

A log that can push back scans only when it has to, and otherwise gives what it has scanned before.
Seen from outside it is a place on one fixed sequence of tokens, that of the scanner
(`TokenLog.Follows`), whatever is read, looked at or pushed back in whatever order
(`TokenLog.place_on_stream`). -/

namespace Shorthand

/-- The tokens from a place in a text on, behind malformed ones too. From the end of the input on
they are all the same. -/
def Scanner.stream (s : Scanner) : Nat → Token
  | 0 => s.next.1
  | n + 1 => s.next.2.stream n

namespace TokenLog

/-- What can be asked of a log. -/
inductive Call
  | next
  | back
  | peek
deriving DecidableEq

/-- The log after a call. -/
def call (l : TokenLog) : Call → TokenLog
  | .next => l.next.2
  | .back => l.back
  | .peek => l.peek.2

def run (l : TokenLog) (calls : List Call) : TokenLog := calls.foldl call l

/-- The tokens that a log gives if nothing is done but to read on. -/
def stream (l : TokenLog) : Nat → Token
  | 0 => l.next.1
  | n + 1 => l.next.2.stream n

/-- The log stands on the given tokens at its position: those before it have been read, and those
from there on are still to be read. -/
structure Follows (T : Nat → Token) (l : TokenLog) : Prop where
  past : l.read = ((List.range l.position).map T).reverse
  ahead : ∀ n, l.stream n = T (l.position + n)

variable {T : Nat → Token} {l : TokenLog} {n : Nat}

theorem stream_ofScanner (read : List Token) (s : Scanner) (n : Nat) :
    (⟨read, [], s⟩ : TokenLog).stream n = s.stream n := by
  induction n generalizing read s with
  | zero => rfl
  | succ n ih => exact ih _ _

theorem Shows.stream {ts : List Token} {t : Token} (h : l.Shows ts) (ht : ts[n]? = some t) :
    l.stream n = t := by
  induction n generalizing l ts with
  | zero =>
    cases ts with
    | nil => cases ht
    | cons u ts => exact h.1.trans (Option.some.inj ht)
  | succ n ih =>
    cases ts with
    | nil => cases ht
    | cons u ts => exact ih h.2 ht

/-- The end of the input comes once all tokens are read, and then again and again. -/
theorem stream_ofString_eof (source : String) : ∃ stop,
    (∀ n, n < stop → ((ofString source).stream n).lexeme ≠ .eof) ∧
      ∀ n, stop ≤ n → (ofString source).stream n = ⟨.eof, source.utf8ByteSize + 1⟩ := by
  have h : Covers 0 source.toList (Scanner.ofString source).spans :=
    covers_spans (Scanner.ofString source)
  have hshows (count : Nat) := h.shows [] count
  simp only [Nat.zero_add, Text.utf8Length_toList] at hshows
  refine ⟨(Scanner.ofString source).spans.length, fun n hn => ?_, fun n hn => ?_⟩
  · obtain ⟨s, hs⟩ : ∃ s, (Scanner.ofString source).spans[n]? = some s :=
      ⟨_, List.getElem?_eq_getElem hn⟩
    have htoken : (ofString source).stream n = s.token := by
      refine (hshows 0).stream ?_
      rw [List.getElem?_append_left (by rwa [List.length_map]), List.getElem?_map, hs]
      rfl
    obtain ⟨_, _, _, -, -, -, hl⟩ := h.spelled [] rfl s (List.mem_of_getElem? hs)
    rw [htoken]
    exact hl.ne_eof
  · refine (hshows (n + 1)).stream ?_
    rw [List.getElem?_append_right (by rwa [List.length_map]), List.getElem?_replicate,
      if_pos (by omega)]

namespace Follows

theorem next_token (h : l.Follows T) : l.next.1 = T l.position := h.ahead 0

theorem next (h : l.Follows T) : l.next.2.Follows T where
  past := by
    rw [position_next, List.range_succ, List.map_append, List.reverse_append, read_next,
      h.next_token, h.past]
    simp [position]
  ahead n := by
    rw [position_next, Nat.add_assoc, Nat.add_comm 1 n]
    exact h.ahead (n + 1)

theorem back (h : l.Follows T) : l.back.Follows T := by
  obtain ⟨_ | ⟨t, ts⟩, pushedBack, scanner⟩ := l
  · exact h
  · have hpast := h.past
    simp only [position, List.length_cons, List.range_succ, List.map_append, List.map_cons,
      List.map_nil, List.reverse_append, List.reverse_singleton, List.singleton_append] at hpast
    obtain ⟨ht, hts⟩ := List.cons.inj hpast
    refine ⟨hts, fun n => ?_⟩
    -- what comes next is the token that was pushed back, and then what came before
    cases n with
    | zero => exact ht
    | succ n =>
      have hn := h.ahead n
      rw [position, List.length_cons, Nat.add_assoc, Nat.add_comm 1 n] at hn
      exact hn

theorem peek (h : l.Follows T) : l.peek.2.Follows T := h.next.back

theorem call (h : l.Follows T) (c : Call) : (l.call c).Follows T := by
  cases c with
  | next => exact h.next
  | back => exact h.back
  | peek => exact h.peek

theorem run (h : l.Follows T) (calls : List Call) : (l.run calls).Follows T := by
  induction calls generalizing l with
  | nil => exact h
  | cons c calls ih => exact ih (h.call c)

end Follows

theorem follows_ofString (source : String) :
    (ofString source).Follows (ofString source).stream :=
  ⟨rfl, fun n => congrArg _ (Nat.zero_add n).symm⟩

/-- After any calls a log is a place on the stream of its text: reading and looking ahead give the
token there, whatever was pushed back before, and only the position moves. The stream is what
scanning gives, goes on behind malformed tokens, and is constant from the first end of the input. -/
theorem place_on_stream (source : String) :
    (∀ n, (ofString source).stream n = (Scanner.ofString source).stream n) ∧
    (∃ stop, (∀ n, n < stop → ((ofString source).stream n).lexeme ≠ .eof) ∧
      ∀ n, stop ≤ n → (ofString source).stream n = ⟨.eof, source.utf8ByteSize + 1⟩) ∧
    (ofString source).position = 0 ∧
    ∀ calls, let l := (ofString source).run calls
      (l.next.1 = (ofString source).stream l.position ∧
        (l.call .next).position = l.position + 1) ∧
      (l.peek.1 = (ofString source).stream l.position ∧
        (l.call .peek).position = l.position) ∧
      (l.call .back).position = l.position - 1 ∧
      ∀ others, ((ofString source).run others).position = l.position →
        ((ofString source).run others).next.1 = l.next.1 := by
  have hall (calls : List Call) :
      ((ofString source).run calls).Follows (ofString source).stream :=
    (follows_ofString source).run calls
  refine ⟨stream_ofScanner [] _, stream_ofString_eof source, rfl, fun calls => ?_⟩
  intro l
  have hnext : l.next.1 = (ofString source).stream l.position := (hall calls).next_token
  refine ⟨⟨hnext, position_next l⟩, ⟨hnext, position_peek l⟩, position_back l, ?_⟩
  intro others hposition
  rw [(hall others).next_token, hnext, hposition]

/-- Looking ahead at the end, and pushing back behind a stray brace and from in front of the text. -/
example : let l := (ofString "a\x7d").run [.back, .next, .next, .peek, .next, .back, .back]
    l.position = 1 ∧ l.next.1 = ⟨.error .strayBrace, 2⟩ ∧ l.next.2.next.1 = ⟨.eof, 3⟩ := by
  decide +kernel

end TokenLog
end Shorthand
