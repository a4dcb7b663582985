import Shorthand.Proofs.Markup.Writing
import Shorthand.Proofs.Token.Joining
import Shorthand.Proofs.Tree.Closing

/-! # The markup of groups

Two texts put into groups, the first of them multiplied, are expanded each for itself
(`parseTree_grouped`), unless the first leaves a group open. -/

namespace Shorthand
open Shorthand.Derivation Markup
open Snapshot (leaf)
variable {A B : String} {ta tb : Tree} {a b : Abbreviation} {n : Nat}

/-- `(A)*n+(B)` -/
def grouped (A : String) (n : Nat) (B : String) : String :=
  "(" ++ A ++ ")*" ++ toString n ++ "+(" ++ B ++ ")"

namespace Derivation

/-- The number as it is written without leading zeros. -/
def Numeral.ofNat (n : Nat) (h : n ≤ Grammar.maxCount) : Numeral where
  word := toString n
  ne_empty hn := by
    have hlist := congrArg String.toList hn
    rw [Text.toList_toString] at hlist
    exact Nat.toDigits_ne_nil hlist
  digits := by
    rw [Text.toList_toString, List.all_eq_true]
    intro c hc
    exact Nat.isDigit_of_mem_toDigits (by decide) (by decide) hc
  value_le := by
    rw [Text.toList_toString, Text.natOfDigits_toDigits]
    exact h

theorem Numeral.value_ofNat (h : n ≤ Grammar.maxCount) : (ofNat n h).value = n := by
  show Text.natOfDigits 10 (toString n).toList = n
  rw [Text.toList_toString, Text.natOfDigits_toDigits]

theorem derives_iff : Derives A a ↔ Scan.lexemes A.toList = a.lexemes ++ [.eof] := by
  rw [Derives, map_lexeme_tokenize]

theorem lexemes_parenthesized (ha : Scan.lexemes A.toList = a.lexemes ++ [.eof]) :
    Scan.lexemes ('(' :: A.toList ++ [')']) =
      .mark .openGroup :: a.lexemes ++ [.mark .closeGroup, .eof] := by
  rw [List.cons_append, Scan.lexemes_mark (m := .openGroup) rfl,
    Scan.lexemes_append ha (m := .closeGroup) rfl, Scan.lexemes_mark (m := .closeGroup) rfl,
    Scan.lexemes_nil]
  rfl

theorem Derives.grouped (ha : Derives A a) (hb : Derives B b) (h : n ≤ Grammar.maxCount) :
    Derives (grouped A n B) (sideBySide a (some (.ofNat n h)) b) := by
  rw [derives_iff] at ha hb ⊢
  have hword : Scan.lexemes (toString n).toList = [.word (toString n)] ++ [.eof] := by
    rw [Text.toList_toString, Scan.lexemes_toDigits, Nat.toString_eq_ofList_toDigits]
    rfl
  have hcount : Scan.lexemes ((toString n).toList ++ '+' :: ('(' :: B.toList ++ [')'])) =
      .word (toString n) :: .mark .sibling :: (.mark .openGroup :: b.lexemes ++
        [.mark .closeGroup, .eof]) := by
    rw [Scan.lexemes_append hword (m := .sibling) rfl, Scan.lexemes_mark (m := .sibling) rfl,
      lexemes_parenthesized hb]
    rfl
  have htext : (Shorthand.grouped A n B).toList = '(' :: (A.toList ++ ')' :: '*' ::
      ((toString n).toList ++ '+' :: ('(' :: B.toList ++ [')']))) := by
    simp [Shorthand.grouped]
  rw [htext, Scan.lexemes_mark (m := .openGroup) rfl, Scan.lexemes_append ha (m := .closeGroup) rfl,
    Scan.lexemes_mark (m := .closeGroup) rfl, Scan.lexemes_mark (m := .times) rfl, hcount]
  simp [sideBySide, Abbreviation.lexemes, Item.lexemes, Operator.lexemes, countLexemes,
    Numeral.ofNat]

end Derivation

namespace Markup

theorem markup_group (count : Nat) (cs : List Snapshot) :
    markup { leaf .group with count, children := cs } = copies count none (numbered · (markups cs)) :=
  rfl

theorem markups_pair (s s' : Snapshot) : markups [s, s'] = markup s ++ markup s' := by
  rw [markups_eq, List.flatMap_cons, List.flatMap_cons, List.flatMap_nil, List.append_nil]

/-- The markup of what was built in a scope of its own is that of its children. -/
theorem toList_render {b : TreeBuilder} {z : Zipper} (hb : Represents b z)
    (hz : Builder.feed Zipper.start a.events = (z, none)) :
    (render b.tree).toList = markups z.root.children := by
  rw [render_eq hb.linked, String.toList_ofList, hb.ofTree, Zipper.root_eq hz]
  rfl

end Markup

/-- Two accepted texts in groups side by side are accepted. Each group holds the tree of its own text
if and only if the first text has no group that is directly followed by `>`, and then the markup is
that of both texts. -/
theorem parseTree_grouped (hA : parseTree A = .ok ta) (hB : parseTree B = .ok tb)
    (hn : n ≤ Grammar.maxCount) :
    ∃ a t, Derives A a ∧ parseTree (grouped A n B) = .ok t ∧
      (Snapshot.ofTree t = { leaf .root with children := [
        { leaf .group with count := n, children := (Snapshot.ofTree ta).children },
        { leaf .group with children := (Snapshot.ofTree tb).children }] } ↔ a.reentries = 0) ∧
      (a.reentries = 0 → render t = multiply (render ta) n ++ render tb) := by
  obtain ⟨a, ba, za, ha, hza, hba, rfl⟩ := exists_represents hA
  obtain ⟨b, bb, zb, hb, hzb, hbb, rfl⟩ := exists_represents hB
  have hderives := ha.grouped hb hn
  by_cases hclosed : a.reentries = 0
  · obtain ⟨z, hz, hroot⟩ := Zipper.root_of_closed hza hzb hclosed (.ofNat n hn)
    obtain ⟨bt, ht, hbt⟩ := parseTree_of_feed hderives hz
    rw [Numeral.value_ofNat] at hroot
    refine ⟨a, bt.tree, ha, ht, ⟨fun _ => hclosed, fun _ => ?_⟩, fun _ => ?_⟩
    · rw [hbt.ofTree, hroot, hba.ofTree, hbb.ofTree]
    · apply String.toList_inj.1
      rw [String.toList_append, toList_multiply, toList_render hba hza, toList_render hbb hzb]
      calc (render bt.tree).toList
        _ = markups [{ leaf .group with count := n, children := za.root.children },
              { leaf .group with children := zb.root.children }] := by
          rw [toList_render hbt hz, hroot]
        _ = markup { leaf .group with count := n, children := za.root.children } ++
              markup { leaf .group with children := zb.root.children } := markups_pair _ _
        _ = copies n none (numbered · (markups za.root.children)) ++ markups zb.root.children := by
          rw [markup_group, markup_group]
          rfl
  · obtain ⟨z, s, hz, hroot⟩ := Zipper.root_of_reentries hza hzb hclosed (.ofNat n hn)
    obtain ⟨bt, ht, hbt⟩ := parseTree_of_feed hderives hz
    refine ⟨a, bt.tree, ha, ht, ⟨fun htree => ?_, fun h => absurd h hclosed⟩,
      fun h => absurd h hclosed⟩
    -- The root has one child where the groups side by side would be two.
    rw [hbt.ofTree, hroot] at htree
    have hlength := congrArg (fun s : Snapshot => s.children.length) htree
    cases hlength

theorem render_grouped : ∃ t, parseTree "(p{$})*2+(b)" = .ok t ∧
    render t = "<p>1</p><p>2</p><b />" := by
  have hta : (parseTree "p{$}").toOption.map render = some "<p>$</p>" := by decide +kernel
  have htb : (parseTree "b").toOption.map render = some "<b />" := by decide +kernel
  have hderives : Derives "p{$}" (.single (.element (.tag ⟨"p", [], some "$"⟩) none)) := by
    decide +kernel
  obtain ⟨ta, hA, hta⟩ := exists_parseTree hta
  obtain ⟨tb, hB, htb⟩ := exists_parseTree htb
  obtain ⟨a, t, ha, ht, -, hrender⟩ := @parseTree_grouped "p{$}" "b" ta tb 2 hA hB (by decide)
  refine ⟨t, ht, ?_⟩
  rw [hrender (by rw [ha.unique hderives]; rfl), hta, htb]
  decide +kernel

/-- The count is that of the group `(x)>y` instead of the group around it. -/
theorem render_reentered : ∃ ta tb t, parseTree "p+(x)>y" = .ok ta ∧ parseTree "z" = .ok tb ∧
    parseTree (grouped "p+(x)>y" 2 "z") = .ok t ∧
    multiply (render ta) 2 ++ render tb = "<p /><x /><y /><p /><x /><y /><z />" ∧
    render t = "<p /><x /><y /><x /><y /><z />" := by
  have hta : (parseTree "p+(x)>y").toOption.map render = some "<p /><x /><y />" := by
    decide +kernel
  have htb : (parseTree "z").toOption.map render = some "<z />" := by decide +kernel
  have ht : (parseTree (grouped "p+(x)>y" 2 "z")).toOption.map render =
      some "<p /><x /><y /><x /><y /><z />" := by
    decide +kernel
  obtain ⟨ta, hA, hta⟩ := exists_parseTree hta
  obtain ⟨tb, hB, htb⟩ := exists_parseTree htb
  obtain ⟨t, hAB, ht⟩ := exists_parseTree ht
  refine ⟨ta, tb, t, hA, hB, hAB, ?_, ht⟩
  rw [hta, htb]
  decide +kernel

end Shorthand
