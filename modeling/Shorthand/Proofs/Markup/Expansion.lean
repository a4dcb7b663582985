import Shorthand.Proofs.Markup.Writing
import Shorthand.Proofs.Tree.Finished

/-! # Every placeholder is numbered by the innermost multiplied node around it

Copies are made of markup in which all that is inside a node has been put together. `expansion` makes
them of the tree instead: each name, value and text is numbered on its own, for the copy of the
innermost node with a count. Both agree as long as no two texts touch (`Apart`), since markup begins
and ends with separators wherever a tag does (`Framed`). -/

namespace Shorthand.Markup
variable {c : Char} {cs xs ys : List Char} {copy : Copy} {s : Snapshot}

mutual
/-- A node as it is written for a copy, without regard to its own count. -/
def body : Snapshot → Copy → List Char
  | ⟨kind, name, m, _, cs⟩, copy =>
    match kind with
    | .text => numbered copy name.toList
    | .inProgress => []
    | .root | .group => bodies cs copy
    | .element =>
      writeTag (numbered copy name.toList)
        (m.entries.map fun (n, v) => (numbered copy n.toList, escapeValue (numbered copy v.toList)))
        (if cs.isEmpty then none else some (bodies cs copy))
def bodies : List Snapshot → Copy → List Char
  | [], _ => []
  | c :: cs, copy => copies c.count copy (body c) ++ bodies cs copy
end

/-- What a node stands for in a copy of what is around it; its own copies come first. -/
def expansion (s : Snapshot) (copy : Copy) : List Char := copies s.count copy (body s)

/-! ### Marks -/

/-- What borders on a place in the markup. -/
inductive Mark
  | tag
  | text
deriving DecidableEq

mutual
/-- The tags and texts of a node in the order in which they are written. -/
def marks : Snapshot → List Mark
  | ⟨kind, _, _, _, cs⟩ =>
    match kind with
    | .text => [.text]
    | .inProgress => []
    | .root | .group => marksAll cs
    | .element => .tag :: marksAll cs ++ [.tag]
def marksAll : List Snapshot → List Mark
  | [] => []
  | c :: cs => marks c ++ marksAll cs
end

/-- There is a tag between any two texts. -/
def Apart (ms : List Mark) : Prop := ¬ [.text, .text] <:+: ms

instance (ms : List Mark) : Decidable (Apart ms) := inferInstanceAs (Decidable (¬ _))

variable {ms ms' : List Mark}

theorem Apart.infix (h : Apart ms) (hi : ms' <:+: ms) : Apart ms' := fun h' => h (h'.trans hi)

/-- Where two parts meet, at least one of them is empty or has a tag. -/
theorem Apart.meet (h : Apart (ms ++ ms')) :
    ms = [] ∨ ms' = [] ∨ ms.getLast? = some .tag ∨ ms'.head? = some .tag := by
  rcases List.eq_nil_or_concat ms with rfl | ⟨init, m, rfl⟩
  · exact .inl rfl
  · cases ms' with
    | nil => exact .inr (.inl rfl)
    | cons m' rest =>
      cases m with
      | tag => exact .inr (.inr (.inl (by simp)))
      | text =>
        cases m' with
        | tag => exact .inr (.inr (.inr rfl))
        | text => exact absurd ⟨init, rest, by simp⟩ h

/-- Markup with the given marks: nothing is written without a mark, and a tag at the front or at the
end is seen there. -/
structure Framed (ms : List Mark) (cs : List Char) : Prop where
  empty : ms = [] → cs = []
  front : ms.head? = some .tag → ∃ ys, cs = '<' :: ys
  back : ms.getLast? = some .tag → ∃ xs, cs = xs ++ ['>']

theorem separator_lt : Separator '<' := by decide +kernel
theorem separator_gt : Separator '>' := by decide +kernel
theorem separator_space : Separator ' ' := by decide +kernel
theorem separator_equals : Separator '=' := by decide +kernel
theorem separator_quote : Separator '"' := by decide +kernel
theorem separator_slash : Separator '/' := by decide +kernel

namespace Framed

theorem append (h : Framed ms xs) (h' : Framed ms' ys) : Framed (ms ++ ms') (xs ++ ys) where
  empty hnil := by
    obtain ⟨hms, hms'⟩ := List.append_eq_nil_iff.1 hnil
    rw [h.empty hms, h'.empty hms', List.append_nil]
  front hhead := by
    cases ms with
    | nil =>
      rw [h.empty rfl]
      exact h'.front hhead
    | cons m ms =>
      obtain ⟨zs, rfl⟩ := h.front hhead
      exact ⟨zs ++ ys, rfl⟩
  back hlast := by
    rcases List.eq_nil_or_concat ms' with rfl | ⟨init, m, rfl⟩
    · rw [h'.empty rfl, List.append_nil]
      exact h.back (by rwa [List.append_nil] at hlast)
    · obtain ⟨zs, rfl⟩ := h'.back (by simpa using hlast)
      exact ⟨xs ++ zs, by rw [List.append_assoc]⟩

theorem double (h : Framed ms xs) (h' : Framed ms ys) : Framed ms (xs ++ ys) where
  empty hnil := by rw [h.empty hnil, h'.empty hnil, List.append_nil]
  front hhead := by
    obtain ⟨zs, rfl⟩ := h.front hhead
    exact ⟨zs ++ ys, rfl⟩
  back hlast := by
    obtain ⟨zs, rfl⟩ := h'.back hlast
    exact ⟨xs ++ zs, by rw [List.append_assoc]⟩

theorem numbered (h : Framed ms cs) (copy : Copy) : Framed ms (numbered copy cs) where
  empty hnil := by rw [h.empty hnil, numbered_nil]
  front hhead := by
    obtain ⟨ys, rfl⟩ := h.front hhead
    exact ⟨_, numbered_cons separator_lt copy ys⟩
  back hlast := by
    obtain ⟨xs, rfl⟩ := h.back hlast
    exact ⟨_, numbered_concat separator_gt copy xs⟩

theorem range (h : Framed ms cs) (total count : Nat) :
    Framed ms ((List.range (count + 1)).flatMap fun i => Markup.numbered (some (i, total)) cs) := by
  induction count with
  | zero => simpa using h.numbered (some (0, total))
  | succ count ih =>
    rw [List.range_succ, List.flatMap_append]
    exact ih.double (by simpa using h.numbered (some (count + 1, total)))

theorem copies (h : Framed ms cs) (count : Nat) :
    Framed ms (copies count none (Markup.numbered · cs)) := by
  cases count with
  | zero => exact h
  | succ count =>
    rw [copies_of_pos (Nat.succ_pos _)]
    exact h.range _ count

end Framed

theorem writeTag_front (name : List Char) (attributes : List (List Char × List Char))
    (inner : Option (List Char)) : ∃ ys, writeTag name attributes inner = '<' :: ys := by
  cases inner <;> exact ⟨_, rfl⟩

theorem writeTag_back (name : List Char) (attributes : List (List Char × List Char))
    (inner : Option (List Char)) : ∃ xs, writeTag name attributes inner = xs ++ ['>'] := by
  cases inner with
  | none => exact ⟨_, (List.append_assoc _ [' ', '/'] ['>']).symm⟩
  | some inner => exact ⟨_, rfl⟩

mutual
theorem framed_template : ∀ s : Snapshot, Framed (marks s) (template s)
  | ⟨kind, name, m, count, cs⟩ => by
    have ih := framed_markups cs
    cases kind with
    | root => exact ih
    | inProgress => exact ⟨fun _ => rfl, nofun, nofun⟩
    | element =>
      exact ⟨nofun, fun _ => writeTag_front .., fun _ => writeTag_back ..⟩
    | text => exact ⟨nofun, nofun, nofun⟩
    | group => exact ih
theorem framed_markups : ∀ cs : List Snapshot, Framed (marksAll cs) (markups cs)
  | [] => ⟨fun _ => rfl, nofun, nofun⟩
  | c :: cs => ((framed_template c).copies c.count).append (framed_markups cs)
end

theorem numbered_append (h : Framed ms xs) (h' : Framed ms' ys) (ha : Apart (ms ++ ms'))
    (copy : Copy) : numbered copy (xs ++ ys) = numbered copy xs ++ numbered copy ys := by
  rcases ha.meet with hnil | hnil | hlast | hhead
  · rw [h.empty hnil, List.nil_append, numbered_nil, List.nil_append]
  · rw [h'.empty hnil, List.append_nil, numbered_nil, List.append_nil]
  · obtain ⟨zs, rfl⟩ := h.back hlast
    rw [List.append_assoc, List.singleton_append, numbered_separator separator_gt,
      numbered_concat separator_gt, List.append_assoc, List.singleton_append]
  · obtain ⟨zs, rfl⟩ := h'.front hhead
    rw [numbered_separator separator_lt, numbered_cons separator_lt]

theorem numbered_attributes (hc : Separator c) (copy : Copy) (name rest : List Char)
    (attributes : List (List Char × List Char)) :
    numbered copy (name ++ (attributes.flatMap fun (n, v) => writeAttribute n v) ++ c :: rest) =
      numbered copy name ++
        ((attributes.map fun (n, v) => (numbered copy n, numbered copy v)).flatMap fun (n, v) =>
          writeAttribute n v) ++ c :: numbered copy rest := by
  induction attributes generalizing name with
  | nil => simpa using numbered_separator hc copy name rest
  | cons nv attributes ih =>
    obtain ⟨n, v⟩ := nv
    have hrest := ih []
    simp only [List.nil_append, numbered_nil] at hrest
    simp only [List.flatMap_cons, List.map_cons, writeAttribute, List.append_assoc, List.cons_append,
      List.nil_append] at hrest ⊢
    rw [numbered_separator separator_space, numbered_separator separator_equals,
      numbered_cons separator_quote, numbered_separator separator_quote, hrest]

theorem numbered_writeTag (copy : Copy) (name : List Char)
    (attributes : List (List Char × List Char)) (inner : Option (List Char)) :
    numbered copy (writeTag name attributes inner) =
      writeTag (numbered copy name)
        (attributes.map fun (n, v) => (numbered copy n, numbered copy v))
        (inner.map (numbered copy)) := by
  cases inner with
  | none =>
    have hend : numbered copy ['/', '>'] = ['/', '>'] := by
      rw [numbered_cons separator_slash, numbered_cons separator_gt, numbered_nil]
    have h := numbered_attributes separator_space copy name ['/', '>'] attributes
    rw [hend] at h
    simp only [writeTag, Option.map_none, List.cons_append, numbered_cons separator_lt]
    rw [h]
  | some inner =>
    have h := numbered_attributes separator_gt copy name (inner ++ '<' :: '/' :: name ++ ['>'])
      attributes
    have hend : numbered copy (inner ++ '<' :: '/' :: name ++ ['>']) =
        numbered copy inner ++ '<' :: '/' :: numbered copy name ++ ['>'] := by
      rw [numbered_concat separator_gt, numbered_separator separator_lt,
        numbered_cons separator_slash]
    rw [hend] at h
    simp only [writeTag, Option.map_some, List.cons_append, List.append_assoc,
      numbered_cons separator_lt] at h ⊢
    rw [h]

theorem numbered_quoted (copy : Copy) (m : NameMap String) :
    ((quoted m).map fun (n, v) => (numbered copy n, numbered copy v)) =
      m.entries.map fun (n, v) =>
        (numbered copy n.toList, escapeValue (numbered copy v.toList)) := by
  rw [quoted, List.map_map]
  refine List.map_congr_left fun e _ => ?_
  obtain ⟨n, v⟩ := e
  show (_, _) = _
  rw [numbered_escapeValue]

/-! ### Nodes -/

/-- Numbering the copies of a node once more gives its expansion. -/
theorem numbered_copies_eq (h : ∀ copy, numbered copy (template s) = body s copy) (copy : Copy) :
    numbered copy (copies s.count none (numbered · (template s))) = copies s.count copy (body s) := by
  by_cases hcount : s.count = 0
  · rw [copies, copies, if_pos hcount, if_pos hcount]
    exact h copy
  · have hpos := Nat.pos_iff_ne_zero.2 hcount
    rw [numbered_copies hpos, copies_of_pos hpos, copies_of_pos hpos]
    simp only [h]

mutual
theorem numbered_template : ∀ s : Snapshot, Apart (marks s) → ∀ copy,
    numbered copy (template s) = body s copy
  | ⟨kind, name, m, count, cs⟩, ha, copy => by
    cases kind with
    | root => exact numbered_markups cs ha copy
    | inProgress => exact numbered_nil copy
    | element =>
      have hcs : Apart (marksAll cs) := ha.infix ⟨[.tag], [.tag], rfl⟩
      rw [template, body, numbered_writeTag, numbered_quoted]
      cases cs.isEmpty with
      | true => rfl
      | false =>
        simp only [Bool.false_eq_true, if_false, Option.map_some, numbered_markups cs hcs copy]
    | text => rfl
    | group => exact numbered_markups cs ha copy
theorem numbered_markups : ∀ cs : List Snapshot, Apart (marksAll cs) → ∀ copy,
    numbered copy (markups cs) = bodies cs copy
  | [], _, copy => numbered_nil copy
  | c :: cs, ha, copy => by
    have hc : Apart (marks c) := ha.infix (List.infix_append [] _ _)
    have hcs : Apart (marksAll cs) := ha.infix (List.suffix_append _ _).isInfix
    rw [markups, bodies,
      numbered_append ((framed_template c).copies c.count) (framed_markups cs) ha,
      numbered_copies_eq (numbered_template c hc), numbered_markups cs hcs]
end

/-- The markup of a tree in which no two texts touch is its expansion. -/
theorem render_eq_expansion {source : String} {t : Tree} (h : parseTree source = .ok t)
    (ha : Apart (marks (Snapshot.ofTree t))) :
    render t = String.ofList (expansion (Snapshot.ofTree t) none) := by
  obtain ⟨-, b, z, -, -, hb, rfl⟩ := exists_represents h
  rw [render_eq hb.linked, markup, expansion]
  exact congrArg String.ofList
    (numbered_copies_eq (numbered_template (Snapshot.ofTree b.tree) ha) none)

/-- The classes are numbered within the items, the rest within the group or not at all. -/
theorem render_of_nested_counts : ∃ t, parseTree "(i{$}+li.c$*2)*2+p{$}" = .ok t ∧
    render t = "<i>1</i><li class=\"c1\" /><li class=\"c2\" /><i>2</i><li class=\"c1\" />" ++
      "<li class=\"c2\" /><p>$</p>" := by
  have hparse : ((parseTree "(i{$}+li.c$*2)*2+p{$}").toOption.map fun t =>
      (decide (Apart (marks (Snapshot.ofTree t))), expansion (Snapshot.ofTree t) none)) =
      some (true, ("<i>1</i><li class=\"c1\" /><li class=\"c2\" /><i>2</i><li class=\"c1\" />" ++
        "<li class=\"c2\" /><p>$</p>").toList) := by
    decide +kernel
  obtain ⟨t, h, ht⟩ := exists_parseTree hparse
  obtain ⟨ha, hexp⟩ := Prod.mk.inj ht
  refine ⟨t, h, ?_⟩
  rw [render_eq_expansion h (of_decide_eq_true ha), hexp, String.ofList_toList]

end Shorthand.Markup
