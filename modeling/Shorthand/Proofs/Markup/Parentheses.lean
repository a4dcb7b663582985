import Shorthand.Proofs.Markup.Groups

/-! # Parentheses around a whole text

A text in parentheses is read as a group that holds what the text is by itself: the group takes the
place of the root as the end of every climb, and it does not matter which group the last parenthesis
closes, since nothing comes behind it. A group without a count leaves no trace in the markup, and so
the parentheses are not seen there (`render_enclosed`). -/

namespace Shorthand
open Shorthand.Derivation Markup
open Snapshot (leaf)
variable {A m : String} {t : Tree} {a : Abbreviation}

/-- The text inside so many pairs of parentheses. -/
def enclosed (A : String) : Nat → String
  | 0 => A
  | pairs + 1 => "(" ++ enclosed A pairs ++ ")"

theorem Derivation.Derives.parenthesized (h : Derives A a) :
    Derives ("(" ++ A ++ ")") (.single (.group a none)) := by
  rw [derives_iff] at h ⊢
  have htext : ("(" ++ A ++ ")").toList = '(' :: A.toList ++ [')'] := by simp
  rw [htext, lexemes_parenthesized h]
  simp [Abbreviation.lexemes, Item.lexemes, countLexemes]

theorem Markup.markups_group (cs : List Snapshot) :
    markups [{ leaf .group with children := cs }] = markups cs := by
  rw [markups_eq, List.flatMap_cons, List.flatMap_nil, List.append_nil]
  exact markup_group 0 cs

theorem parseTree_parenthesized (h : parseTree A = .ok t) :
    ∃ t', parseTree ("(" ++ A ++ ")") = .ok t' ∧ render t' = render t := by
  obtain ⟨a, b, z, ha, hz, hb, rfl⟩ := exists_represents h
  have hgroup := Zipper.feed_second hz [leaf .root]
  rw [← Zipper.start_eq] at hgroup
  obtain ⟨b', ht, hb'⟩ := parseTree_of_feed ha.parenthesized hgroup
  have hroot : (z.nest [leaf .root]).closeGroup.root =
      { leaf .root with children := [{ leaf .group with children := z.root.children }] } := by
    rw [Zipper.root_second hz, Zipper.root_eq hz]
    rfl
  refine ⟨b'.tree, ht, String.toList_inj.1 ?_⟩
  calc (render b'.tree).toList
    _ = markups [{ leaf .group with children := z.root.children }] := by
      rw [toList_render hb' hgroup, hroot]
    _ = markups z.root.children := markups_group _
    _ = (render b.tree).toList := (toList_render hb hz).symm

/-- A text that can be expanded has the same markup in any number of parentheses. -/
theorem render_enclosed (h : (parseTree A).map render = .ok m) (pairs : Nat) :
    (parseTree (enclosed A pairs)).map render = .ok m := by
  induction pairs with
  | zero => exact h
  | succ pairs ih =>
    cases ht : parseTree (enclosed A pairs) with
    | error e =>
      rw [ht] at ih
      cases ih
    | ok t =>
      obtain ⟨t', ht', hrender⟩ := parseTree_parenthesized ht
      rw [ht] at ih
      rw [enclosed, ht']
      exact (congrArg Except.ok hrender).trans ih

/-- A climb beyond the outermost item, a count, and a group that is entered again. -/
theorem render_in_three_pairs :
    (parseTree "p>q^^(a)>\x7b$\x7d*2").map render = .ok "<p><q /></p><a />12" ∧
    (parseTree "(((p>q^^(a)>\x7b$\x7d*2)))").map render = .ok "<p><q /></p><a />12" := by
  have hinner : (parseTree "p>q^^(a)>\x7b$\x7d*2").map render = .ok "<p><q /></p><a />12" := by
    decide +kernel
  exact ⟨hinner, render_enclosed hinner 3⟩

end Shorthand
