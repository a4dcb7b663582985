import Mathlib.Data.List.Induction
import Mathlib.Data.List.Infix
import Shorthand.Token.Cursor

/-! # What transactions count

Every open transaction counts for itself, and every count stops at zero by itself. They agree all the
same: whatever happens in the transactions inside it, a transaction has counted how far the log is
from where it began, unless the log was ever moved back behind that place (`Cursor.count_since`). A
rollback leads to the place, and the transactions around uncount what it pushes back. -/

namespace Shorthand.Cursor

/-- What can be done to a cursor. -/
inductive Step
  | next
  | peek
  | back
  | rollback
  | begin
  | close
deriving DecidableEq

/-- The cursor after a step of its innermost transaction, or of the log if none is open. -/
def step (c : Cursor) : Step → Cursor
  | .next => c.next.2
  | .peek => c.peek.2
  | .back => c.back
  | .rollback => c.rollback
  | .begin => c.begin
  | .close => c.close

def run (c : Cursor) (steps : List Step) : Cursor := steps.foldl step c

/-- What is counted by the transaction with so many others around it. -/
def count? (c : Cursor) (rank : Nat) : Option Nat := c.counts.reverse[rank]?

/-- The transaction that is begun at `c` stays open in all of the steps, and the log never stands in
front of where it began. -/
def Lasts (c : Cursor) (steps : List Step) : Prop :=
  ∀ pre, pre <+: steps →
    c.depth < (c.begin.run pre).depth ∧ c.position ≤ (c.begin.run pre).position

variable {c : Cursor} {steps : List Step} {rank n start : Nat}

instance : Decidable (c.Lasts steps) :=
  decidable_of_iff (∀ pre ∈ steps.inits,
    c.depth < (c.begin.run pre).depth ∧ c.position ≤ (c.begin.run pre).position) <| by
      simp only [Lasts, List.mem_inits]

theorem count?_next : c.next.2.count? rank = (c.count? rank).map (· + 1) := by
  rw [count?, next, ← List.map_reverse, List.getElem?_map, count?]

theorem count?_back : c.back.count? rank = (c.count? rank).map (· - 1) := by
  rw [count?, back, ← List.map_reverse, List.getElem?_map, count?]

theorem count?_peek : c.peek.2.count? rank = c.count? rank := by
  rw [count?, counts_peek, count?]

theorem count?_backN (n : Nat) (c : Cursor) :
    (c.backN n).count? rank = (c.count? rank).map (· - n) := by
  induction n generalizing c with
  | zero => exact Option.map_id'.symm
  | succ n ih =>
    rw [backN, ih, count?_back, Option.map_map]
    refine congrArg (Option.map · _) (funext fun m => ?_)
    show m - 1 - n = m - (n + 1)
    omega

theorem count?_cons {log : TokenLog} {counts : List Nat} (h : rank < counts.length) :
    (⟨log, n :: counts⟩ : Cursor).count? rank = counts.reverse[rank]? := by
  rw [count?, List.reverse_cons, List.getElem?_append_left (by rwa [List.length_reverse])]

theorem count?_begin (h : rank < c.depth) : c.begin.count? rank = c.count? rank := count?_cons h

theorem count?_begin_self (c : Cursor) : c.begin.count? c.depth = some 0 := by
  rw [count?, begin, List.reverse_cons, depth, ← List.length_reverse, List.getElem?_concat_length]

theorem count?_close (h : rank < c.close.depth) : c.close.count? rank = c.count? rank := by
  obtain ⟨log, _ | ⟨n, counts⟩⟩ := c
  · rfl
  · exact (count?_cons h).symm

theorem count?_innermost (h : c.depth = rank + 1) : c.count? rank = some c.consumed := by
  obtain ⟨log, _ | ⟨n, counts⟩⟩ := c
  · cases h
  · obtain rfl : counts.length = rank := Nat.succ.inj h
    rw [count?, List.reverse_cons, ← List.length_reverse, List.getElem?_concat_length]
    rfl

/-- No step makes a count wrong that is right, if the transaction stays open and the log does not go
back behind `start`. -/
theorem count?_step (h : c.count? rank = some (c.position - start)) (hc : start ≤ c.position)
    (s : Step) (hopen : rank < (c.step s).depth) (hs : start ≤ (c.step s).position) :
    (c.step s).count? rank = some ((c.step s).position - start) := by
  cases s with
  | next =>
    show c.next.2.count? rank = some (c.next.2.position - start)
    rw [count?_next, h, position_next, Option.map_some]
    exact congrArg some (by omega)
  | peek =>
    show c.peek.2.count? rank = some (c.peek.2.position - start)
    rw [count?_peek, h, position_peek]
  | back =>
    show c.back.count? rank = some (c.back.position - start)
    rw [count?_back, h, position_back, Option.map_some]
    exact congrArg some (by omega)
  | rollback =>
    show (c.backN c.consumed).count? rank = some ((c.backN c.consumed).position - start)
    rw [count?_backN, h, position_backN, Option.map_some]
    exact congrArg some (by omega)
  -- A new count is the innermost, so the one of this rank is where it was.
  | begin =>
    have hrank : rank < c.depth := by
      obtain ⟨hlt, -⟩ := List.getElem?_eq_some_iff.1 h
      rwa [List.length_reverse] at hlt
    exact (count?_begin hrank).trans h
  | close => exact (count?_close hopen).trans h

/-! ### Runs -/

theorem run_concat (c : Cursor) (steps : List Step) (s : Step) :
    c.run (steps ++ [s]) = (c.run steps).step s := List.foldl_concat ..

theorem run_begin (c : Cursor) (before between : List Step) :
    c.run (before ++ .begin :: between) = (c.run before).begin.run between := List.foldl_append ..

namespace Lasts

theorem of_append {more : List Step} (h : c.Lasts (steps ++ more)) : c.Lasts steps :=
  fun pre hpre => h pre (hpre.trans (List.prefix_append steps more))

theorem depth_lt (h : c.Lasts steps) : c.depth < (c.begin.run steps).depth :=
  (h _ (List.prefix_refl _)).1

theorem position_le (h : c.Lasts steps) : c.position ≤ (c.begin.run steps).position :=
  (h _ (List.prefix_refl _)).2

/-- The count of a transaction is the way from where it began. -/
theorem count? (h : c.Lasts steps) : (c.begin.run steps).count? c.depth =
    some ((c.begin.run steps).position - c.position) := by
  induction steps using List.reverseRecOn with
  | nil =>
    show c.begin.count? c.depth = some (c.position - c.position)
    rw [count?_begin_self, Nat.sub_self]
  | append_singleton steps s ih =>
    have hlast := h.depth_lt
    have hle := h.position_le
    rw [run_concat] at hlast hle ⊢
    exact count?_step (ih h.of_append) h.of_append.position_le s hlast hle

end Lasts

/-- A transaction that is still open has counted the tokens between the place where it began and
the log, if the log was never in front of that place. If it is the innermost one, a rollback leads to
the place, and every other such transaction uncounts as many tokens as are pushed back. -/
theorem count_since (source : String) (before since : List Step)
    (h : ((ofString source).run before).Lasts since) :
    let start := (ofString source).run before
    let c := start.begin.run since
    c.count? start.depth = some (c.position - start.position) ∧
      (c.depth = start.depth + 1 →
        c.rollback.position = start.position ∧ c.rollback.count? start.depth = some 0 ∧
        ∀ outer between, before = outer ++ .begin :: between →
          ((ofString source).run outer).Lasts (between ++ .begin :: since) →
          ∃ n, c.rollback.count? ((ofString source).run outer).depth = some n ∧
            c.count? ((ofString source).run outer).depth =
              some (n + (c.position - c.rollback.position))) := by
  intro start c
  have hcount : c.count? start.depth = some (c.position - start.position) := h.count?
  have hle : start.position ≤ c.position := h.position_le
  refine ⟨hcount, fun hinner => ?_⟩
  have hconsumed : c.consumed = c.position - start.position :=
    Option.some.inj ((count?_innermost hinner).symm.trans hcount)
  have hposition : c.rollback.position = start.position := by
    rw [rollback, position_backN, hconsumed]
    omega
  refine ⟨hposition, ?_, fun outer between hbefore houter => ?_⟩
  · rw [rollback, count?_backN, hcount, hconsumed, Option.map_some, Nat.sub_self]
  · obtain ⟨first, hfirst⟩ : ∃ first, first = (ofString source).run outer := ⟨_, rfl⟩
    rw [← hfirst] at houter ⊢
    -- The cursor `start` comes in the middle of what happens since the outer transaction was begun.
    have hstart : start = first.begin.run between := by
      rw [hfirst, ← run_begin, ← hbefore]
    have hc : first.begin.run (between ++ .begin :: since) = c := by rw [run_begin, ← hstart]
    have hfirst_le : first.position ≤ start.position := by
      rw [hstart]
      exact houter.of_append.position_le
    have hcounted := houter.count?
    rw [hc] at hcounted
    refine ⟨start.position - first.position, ?_, ?_⟩
    · rw [rollback, count?_backN, hcounted, hconsumed, Option.map_some]
      exact congrArg some (by omega)
    · rw [hcounted, hposition]
      exact congrArg some (by omega)

/-- The transaction in the middle is not misled by one inside it that was moved back too far. -/
theorem count_around_pushed_back :
    let start := (ofString "a>b+c").run [.begin, .next]
    let since : List Step := [.next, .next, .begin, .next, .back, .back, .next, .rollback, .close]
    let c := start.begin.run since
    start.Lasts since ∧ c.count? 1 = some 1 ∧ c.rollback.position = 1 ∧
      c.rollback.count? 1 = some 0 ∧ c.count? 0 = some 2 ∧ c.rollback.count? 0 = some 1 := by
  intro start since c
  have hlasts : start.Lasts since := by decide +kernel
  have houter : (ofString "a>b+c").Lasts ([.next] ++ .begin :: since) := by decide +kernel
  have hposition : c.position = 2 := by decide +kernel
  have hstart : start.position = 1 := by decide +kernel
  obtain ⟨hcount, hinner⟩ := count_since "a>b+c" [.begin, .next] since hlasts
  obtain ⟨hback, hzero, hothers⟩ := hinner (by decide +kernel)
  obtain ⟨n, hn, hcounted⟩ := hothers [] [.next] rfl houter
  have hone : n = 1 := by
    have hrolled : c.rollback.count? 0 = some 1 := by decide +kernel
    exact Option.some.inj (hn.symm.trans hrolled)
  subst hone
  refine ⟨hlasts, hcount.trans ?_, hback.trans hstart, hzero, hcounted.trans ?_, hn⟩
  · show some (c.position - start.position) = some 1
    rw [hposition, hstart]
  · show some (1 + (c.position - c.rollback.position)) = some 2
    rw [show c.rollback.position = start.position from hback, hposition, hstart]

end Shorthand.Cursor
