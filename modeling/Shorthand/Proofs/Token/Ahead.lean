import Shorthand.Token.Cursor

/-! # The tokens ahead of a cursor

`TokenLog.Shows` is what reading a log again and again gives, whatever has been pushed back before.
`Cursor.At` adds what was read and counted so far. A rollback leads back to where the transaction
began (`Cursor.At.rollback`). -/

namespace Shorthand

/-- A list of tokens that a final one ends. -/
inductive Terminated : List Token → Prop
  | last {t : Token} (h : t.lexeme.isFinal) : Terminated [t]
  | cons {t : Token} {ts : List Token} (h : ¬ t.lexeme.isFinal) (hts : Terminated ts) :
    Terminated (t :: ts)

theorem Terminated.tail {t : Token} {ts : List Token} (h : Terminated (t :: ts))
    (ht : ¬ t.lexeme.isFinal) : Terminated ts := by
  cases h with
  | last h => exact absurd h ht
  | cons _ hts => exact hts

theorem Terminated.exists_cons {ts : List Token} (h : Terminated ts) :
    ∃ t rest, ts = t :: rest := by
  cases h with
  | last => exact ⟨_, _, rfl⟩
  | cons => exact ⟨_, _, rfl⟩

/-- What comes before a token is not final, and the end comes behind it. -/
theorem Terminated.of_append {us ts : List Token} {t : Token} (h : Terminated (us ++ t :: ts)) :
    (∀ u ∈ us, ¬ u.lexeme.isFinal) ∧ Terminated (t :: ts) := by
  induction us with
  | nil => exact ⟨by simp, h⟩
  | cons u us ih =>
    rw [List.cons_append] at h
    have hu : ¬ u.lexeme.isFinal := by
      generalize he : us ++ t :: ts = vs at h
      cases h with
      | last => simp at he
      | cons hu => exact hu
    obtain ⟨hall, hend⟩ := ih (h.tail hu)
    exact ⟨List.forall_mem_cons.2 ⟨hu, hall⟩, hend⟩

theorem Scanner.terminated_tokens (s : Scanner) : Terminated s.tokens := by
  fun_induction Scanner.tokens s with
  | case1 s h => exact .last h
  | case2 s h ih => exact .cons h ih

theorem terminated_tokenize (source : String) : Terminated (tokenize source) :=
  Scanner.terminated_tokens _

namespace TokenLog

/-- The log gives these tokens one after the other. -/
def Shows (l : TokenLog) : List Token → Prop
  | [] => True
  | t :: ts => l.next.1 = t ∧ l.next.2.Shows ts

theorem read_next (l : TokenLog) : l.next.2.read = l.next.1 :: l.read := by
  obtain ⟨read, _ | ⟨t, ts⟩, scanner⟩ := l <;> rfl

theorem unread_next_lt {l : TokenLog} (h : ¬ l.next.1.lexeme.isFinal) :
    l.next.2.unread < l.unread := by
  obtain ⟨read, _ | ⟨t, ts⟩, scanner⟩ := l
  · have hne : scanner.next.1.lexeme ≠ .eof := fun he => h (by simp [next, he, Lexeme.isFinal])
    simpa [next, unread] using Scanner.next_rest_length_lt hne
  · simp only [next, unread, List.length_cons]
    omega

/-- A pushed-back token comes again, and then what came before. -/
theorem Shows.back {l : TokenLog} {t : Token} {past ts : List Token} (h : l.Shows ts)
    (hr : l.read = t :: past) : l.back.read = past ∧ l.back.Shows (t :: ts) := by
  obtain ⟨read, pushedBack, scanner⟩ := l
  obtain rfl : read = t :: past := hr
  exact ⟨rfl, rfl, h⟩

theorem Shows.length_le {l : TokenLog} {ts : List Token} (h : l.Shows ts) (ht : Terminated ts) :
    ts.length ≤ l.unread + 1 := by
  induction ht generalizing l with
  | last => simp
  | cons hf _ ih =>
    obtain ⟨rfl, h⟩ := h
    have := ih h
    have := unread_next_lt hf
    simp only [List.length_cons]
    omega

theorem shows_ofScanner (read : List Token) (s : Scanner) :
    (⟨read, [], s⟩ : TokenLog).Shows s.tokens := by
  fun_induction Scanner.tokens s generalizing read with
  | case1 => exact ⟨rfl, trivial⟩
  | case2 s _ ih => exact ⟨rfl, ih _⟩

end TokenLog

namespace Cursor

/-- The cursor has read `past`, the last token first, with these counts, and `ahead` comes next. -/
structure At (c : Cursor) (past : List Token) (counts : List Nat) (ahead : List Token) : Prop where
  read : c.log.read = past
  counts : c.counts = counts
  shows : c.log.Shows ahead

namespace At
variable {c : Cursor} {past ahead ts : List Token} {counts : List Nat} {t : Token}

theorem next_token (h : c.At past counts (t :: ahead)) : c.next.1 = t := h.shows.1

theorem next (h : c.At past counts (t :: ahead)) :
    c.next.2.At (t :: past) (counts.map (· + 1)) ahead where
  read := by rw [← h.shows.1, ← h.read]; exact c.log.read_next
  counts := congrArg (List.map (· + 1)) h.counts
  shows := h.shows.2

theorem back (h : c.At (t :: past) (counts.map (· + 1)) ahead) :
    c.back.At past counts (t :: ahead) where
  read := (h.shows.back h.read).1
  counts := by
    show c.counts.map (· - 1) = counts
    rw [h.counts, List.map_map]
    exact List.map_id counts
  shows := (h.shows.back h.read).2

theorem peek_token (h : c.At past counts (t :: ahead)) : c.peek.1 = t := h.shows.1

theorem peek (h : c.At past counts (t :: ahead)) : c.peek.2.At past counts (t :: ahead) := by
  rw [Cursor.peek]
  exact h.next.back

theorem begin (h : c.At past counts ahead) : c.begin.At past (0 :: counts) ahead where
  read := h.read
  counts := congrArg (0 :: ·) h.counts
  shows := h.shows

theorem close {n : Nat} (h : c.At past (n :: counts) ahead) : c.close.At past counts ahead where
  read := h.read
  counts := congrArg List.tail h.counts
  shows := h.shows

/-- The same cursor, if `us` have been read since, the last one first. -/
theorem backN {us : List Token} (h : c.At (us ++ past) (counts.map (· + us.length)) ahead) :
    (c.backN us.length).At past counts (us.reverse ++ ahead) := by
  induction us generalizing c ahead with
  | nil => simpa [Cursor.backN] using h
  | cons t us ih =>
    have hcounts : counts.map (· + (t :: us).length) =
        (counts.map (· + us.length)).map (· + 1) := by
      simp only [List.map_map]
      rfl
    rw [hcounts] at h
    rw [List.reverse_cons, List.append_assoc]
    exact ih h.back

/-- A rolled-back transaction leaves the cursor where it began, whatever was read in it. -/
theorem rollback {us : List Token}
    (h : c.At (us.reverse ++ past) ((0 :: counts).map (· + us.length)) ahead) :
    c.rollback.close.At past counts (us ++ ahead) := by
  have hn : c.consumed = us.reverse.length := by rw [consumed, h.counts]; simp
  rw [← List.length_reverse] at h
  rw [Cursor.rollback, hn, ← us.reverse_reverse, us.reverse.reverse_reverse]
  exact h.backN.close

end At

theorem at_ofString (source : String) : (ofString source).At [] [] (tokenize source) :=
  ⟨rfl, rfl, TokenLog.shows_ofScanner _ _⟩

end Cursor
end Shorthand
