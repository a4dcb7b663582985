import Mathlib.Algebra.BigOperators.Intervals
import Shorthand.Proofs.Markup.Expansion
import Shorthand.Proofs.Tree.Parsed

/-! # Balanced markup

Every `<` of a markup begins a tag, which goes on to the next `>`. If no name, value or text has one of
these characters in it, the tags match as they are read with a stack, and as many of them begin an
element as the elements are written in copies (`tags_balanced`).

The opening and the closing name of an element are numbered apart, and more than once. `Nested` is what
keeps them alike: the tags of a template match, and they still do when it is numbered
(`Nested.numbered`), put in copies and put into another template. -/

namespace Shorthand

namespace Markup
open Text
variable {c : Char} {cs xs ys zs name before inner rest : List Char} {copy : Copy} {k m : Nat}
  {attributes : List (List Char × List Char)}

/-- A tag as it stands in markup. -/
inductive Tag
  | opening (name : List Char)
  | closing (name : List Char)
  /-- The tag of an element that has nothing in it. -/
  | empty (name : List Char)
deriving DecidableEq, Repr

/-- The tag with these characters between its `<` and its `>`. -/
def Tag.ofChars : List Char → Tag
  | '/' :: name => closing name
  | cs =>
    if cs.getLast? = some '/' then empty (cs.takeWhile (· != ' '))
    else opening (cs.takeWhile (· != ' '))

/-- Whether an element begins here. -/
def Tag.begins : Tag → Bool
  | opening _ | empty _ => true
  | closing _ => false

/-- The tags of a markup from left to right. -/
def tags : List Char → List Tag
  | [] => []
  | c :: cs => if c = '<' then Tag.ofChars (cs.takeWhile (· != '>')) :: tags cs else tags cs

/-- The names of the elements that are still open behind the tags, the innermost one first. A closing
tag has to have the name of the innermost open element. -/
def openAfter : List (List Char) → List Tag → Option (List (List Char))
  | stack, [] => some stack
  | stack, .opening name :: ts => openAfter (name :: stack) ts
  | stack, .empty _ :: ts => openAfter stack ts
  | [], .closing _ :: _ => none
  | o :: stack, .closing name :: ts => if name = o then openAfter stack ts else none

/-- Neither a tag nor a part of one. -/
def Plain (cs : List Char) : Prop := ∀ c ∈ cs, c ≠ '<' ∧ c ≠ '>'

instance (cs : List Char) : Decidable (Plain cs) :=
  List.decidableBAll (fun c => c ≠ '<' ∧ c ≠ '>') cs

/-- The name in a tag can be told from what is around it. -/
def TagName (cs : List Char) : Prop := Plain cs ∧ '/' ∉ cs ∧ ' ' ∉ cs

/-- No name and no value among the attributes has a `<` or a `>`. -/
def PlainAttributes (attributes : List (List Char × List Char)) : Prop :=
  ∀ nv ∈ attributes, Plain nv.1 ∧ Plain nv.2

theorem plain_nil : Plain [] := nofun

theorem plain_cons : Plain (c :: cs) ↔ (c ≠ '<' ∧ c ≠ '>') ∧ Plain cs := List.forall_mem_cons

theorem plain_append : Plain (xs ++ ys) ↔ Plain xs ∧ Plain ys := List.forall_mem_append

theorem Plain.lt_notMem (h : Plain cs) : '<' ∉ cs := fun hc => (h _ hc).1 rfl

theorem Plain.gt_notMem (h : Plain cs) : '>' ∉ cs := fun hc => (h _ hc).2 rfl

theorem notMem_numbered (hdigit : c.isDigit = false) (h : c ∉ cs) (copy : Copy) :
    c ∉ numbered copy cs := by
  rcases copy with _ | ⟨i, count⟩
  · exact h
  · intro hc
    rcases mem_numbered hc with ⟨hc, -⟩ | hc
    · exact h hc
    · rw [hdigit] at hc
      cases hc

theorem Plain.numbered (h : Plain cs) (copy : Copy) : Plain (numbered copy cs) := by
  intro c hc
  constructor
  · rintro rfl
    exact notMem_numbered rfl h.lt_notMem copy hc
  · rintro rfl
    exact notMem_numbered rfl h.gt_notMem copy hc

theorem TagName.numbered (h : TagName cs) (copy : Copy) : TagName (numbered copy cs) :=
  ⟨h.1.numbered copy, notMem_numbered rfl h.2.1 copy, notMem_numbered rfl h.2.2 copy⟩

theorem PlainAttributes.numbered (h : PlainAttributes attributes) (copy : Copy) :
    PlainAttributes (attributes.map fun (n, v) => (numbered copy n, numbered copy v)) := by
  intro nv hnv
  obtain ⟨⟨n, v⟩, hmem, rfl⟩ := List.mem_map.1 hnv
  obtain ⟨hn, hv⟩ := h _ hmem
  exact ⟨hn.numbered copy, hv.numbered copy⟩

theorem Plain.escapeValue (h : Plain cs) : Plain (escapeValue cs) := by
  induction cs with
  | nil => exact plain_nil
  | cons c cs ih =>
    obtain ⟨hc, hcs⟩ := plain_cons.1 h
    rw [Markup.escapeValue]
    split
    · exact plain_cons.2 ⟨by decide, plain_cons.2 ⟨by decide, ih hcs⟩⟩
    · exact plain_cons.2 ⟨hc, ih hcs⟩

theorem tags_append (h : '<' ∉ xs) (ys : List Char) : tags (xs ++ ys) = tags ys := by
  induction xs with
  | nil => rfl
  | cons x xs ih =>
    obtain ⟨hx, hxs⟩ := List.ne_and_not_mem_of_not_mem_cons h
    rw [List.cons_append, tags, if_neg hx.symm, ih hxs]

theorem tags_cons (h : Plain cs) (ys : List Char) :
    tags ('<' :: cs ++ '>' :: ys) = Tag.ofChars cs :: tags ys := by
  have htake : (cs ++ '>' :: ys).takeWhile (· != '>') = cs := by
    rw [takeWhile_append_cons (by decide), List.takeWhile_eq_self_iff]
    intro c hc
    exact bne_iff_ne.2 (h c hc).2
  have hrest : tags (cs ++ '>' :: ys) = tags ys := by
    rw [List.append_cons]
    refine tags_append ?_ ys
    simp [h.lt_notMem]
  rw [List.cons_append, tags, if_pos rfl, htake, hrest]

theorem takeWhile_name (h : TagName name) (hspace : ∀ c ∈ zs.head?, c = ' ') :
    (name ++ zs).takeWhile (· != ' ') = name := by
  rw [List.takeWhile_append_of_pos]
  · rw [takeWhile_eq_nil fun c hc => ?_, List.append_nil]
    rw [hspace c hc]
    rfl
  · intro c hc
    rw [bne_iff_ne]
    rintro rfl
    exact h.2.2 hc

/-- What begins with a name, or with the space behind it, is no closing tag. -/
theorem ofChars_name (h : TagName name) (hspace : ∀ c ∈ zs.head?, c = ' ') :
    Tag.ofChars (name ++ zs) =
      if (name ++ zs).getLast? = some '/' then .empty name else .opening name := by
  rw [Tag.ofChars]
  · rw [takeWhile_name h hspace]
  · intro closing hslash
    cases name with
    | nil =>
      rw [List.nil_append] at hslash
      have := hspace '/' (by rw [hslash]; rfl)
      revert this
      decide
    | cons c name =>
      obtain ⟨rfl, -⟩ := List.cons.inj hslash
      exact h.2.1 List.mem_cons_self

theorem head?_attributes : ∀ c ∈ ((attributes.flatMap fun (n, v) => writeAttribute n v)).head?,
    c = ' ' := by
  intro c hc
  cases attributes with
  | nil => cases hc
  | cons nv attributes => exact (Option.some.inj hc).symm

/-- Behind a name and attributes there is the end of the name or a quote. -/
theorem getLast?_attributes (h : '/' ∉ name) :
    (name ++ attributes.flatMap fun (n, v) => writeAttribute n v).getLast? ≠ some '/' := by
  rcases List.eq_nil_or_concat attributes with rfl | ⟨init, ⟨n, v⟩, rfl⟩
  · rw [List.flatMap_nil, List.append_nil]
    exact fun hlast => h (List.mem_of_getLast? hlast)
  · have hquote : (name ++ (init.concat (n, v)).flatMap fun (n, v) => writeAttribute n v) =
        name ++ (init.flatMap fun (n, v) => writeAttribute n v) ++ (' ' :: n ++ '=' :: '"' :: v) ++
          ['"'] := by
      simp [writeAttribute]
    rw [hquote, List.getLast?_concat]
    decide

theorem plain_attributes (h : PlainAttributes attributes) :
    Plain (attributes.flatMap fun (n, v) => writeAttribute n v) := by
  intro c hc
  obtain ⟨⟨n, v⟩, hmem, hc⟩ := List.mem_flatMap.1 hc
  obtain ⟨hn, hv⟩ := h _ hmem
  have hplain : Plain (writeAttribute n v) := by
    simp only [writeAttribute, List.cons_append, plain_cons, plain_append]
    exact ⟨by decide, ⟨hn, by decide, by decide, hv⟩, by decide, plain_nil⟩
  exact hplain c hc

theorem tags_empty (hname : TagName name) (ha : PlainAttributes attributes) (ys : List Char) :
    tags (writeTag name attributes none ++ ys) = .empty name :: tags ys := by
  have hplain : Plain (name ++ ((attributes.flatMap fun (n, v) => writeAttribute n v) ++ [' ', '/'])) := by
    simp only [plain_append, plain_cons]
    exact ⟨hname.1, plain_attributes ha, by decide, by decide, plain_nil⟩
  have hspace : ∀ c ∈ ((attributes.flatMap fun (n, v) => writeAttribute n v) ++ [' ', '/']).head?,
      c = ' ' := by
    intro c hc
    cases attributes with
    | nil => exact (Option.some.inj hc).symm
    | cons nv attributes => exact (Option.some.inj hc).symm
  have hread := tags_cons hplain ys
  rw [ofChars_name hname hspace, if_pos (by simp)] at hread
  rw [← hread]
  simp [writeTag]

theorem tags_opening (hname : TagName name) (ha : PlainAttributes attributes) (ys : List Char) :
    tags (writeTag name attributes (some inner) ++ ys) =
      .opening name :: tags (inner ++ ('<' :: '/' :: name ++ '>' :: ys)) := by
  have hplain : Plain (name ++ attributes.flatMap fun (n, v) => writeAttribute n v) :=
    plain_append.2 ⟨hname.1, plain_attributes ha⟩
  have hread := tags_cons hplain (inner ++ ('<' :: '/' :: name ++ '>' :: ys))
  rw [ofChars_name hname head?_attributes, if_neg (getLast?_attributes hname.2.1)] at hread
  rw [← hread]
  simp [writeTag]

theorem tags_closing (hname : TagName name) (ys : List Char) :
    tags ('<' :: '/' :: name ++ '>' :: ys) = .closing name :: tags ys :=
  tags_cons (plain_cons.2 ⟨by decide, hname.1⟩) ys

/-! ### Nested tags -/

/-- The tags match, and `k` of them begin an element. -/
inductive Nested : List Char → Nat → Prop
  | text {cs : List Char} (h : Plain cs) : Nested cs 0
  | empty {before name rest : List Char} {attributes : List (List Char × List Char)} {k : Nat}
    (hbefore : Plain before) (hname : TagName name) (ha : PlainAttributes attributes)
    (hrest : Nested rest k) : Nested (before ++ writeTag name attributes none ++ rest) (k + 1)
  | around {before name inner rest : List Char} {attributes : List (List Char × List Char)}
    {k m : Nat} (hbefore : Plain before) (hname : TagName name) (ha : PlainAttributes attributes)
    (hinner : Nested inner k) (hrest : Nested rest m) :
    Nested (before ++ writeTag name attributes (some inner) ++ rest) (k + 1 + m)

namespace Nested

theorem prepend (hbefore : Plain before) (h : Nested cs k) : Nested (before ++ cs) k := by
  cases h with
  | text hcs => exact .text (plain_append.2 ⟨hbefore, hcs⟩)
  | empty hbefore' hname ha hrest =>
    rw [List.append_assoc, ← List.append_assoc, ← List.append_assoc]
    exact .empty (plain_append.2 ⟨hbefore, hbefore'⟩) hname ha hrest
  | around hbefore' hname ha hinner hrest =>
    rw [List.append_assoc, ← List.append_assoc, ← List.append_assoc]
    exact .around (plain_append.2 ⟨hbefore, hbefore'⟩) hname ha hinner hrest

theorem append (h : Nested xs k) (h' : Nested ys m) : Nested (xs ++ ys) (k + m) := by
  induction h with
  | text hcs =>
    rw [Nat.zero_add]
    exact h'.prepend hcs
  | empty hbefore hname ha _ ih =>
    rw [List.append_assoc, Nat.add_right_comm]
    exact .empty hbefore hname ha ih
  | around hbefore hname ha hinner _ _ ih =>
    rw [List.append_assoc, Nat.add_assoc]
    exact .around hbefore hname ha hinner ih

/-- A name is numbered alike at both ends of its element. -/
theorem numbered (h : Nested cs k) (copy : Copy) : Nested (numbered copy cs) k := by
  -- A tag begins and ends with characters that belong to no placeholder, so it is numbered by
  -- itself.
  have hsplit (name : List Char) (attributes : List (List Char × List Char))
      (inner : Option (List Char)) (before rest : List Char) :
      Markup.numbered copy (before ++ writeTag name attributes inner ++ rest) =
        Markup.numbered copy before ++ Markup.numbered copy (writeTag name attributes inner) ++
          Markup.numbered copy rest := by
    obtain ⟨ys, hfront⟩ := writeTag_front name attributes inner
    obtain ⟨xs, hback⟩ := writeTag_back name attributes inner
    have hbefore : Markup.numbered copy (before ++ writeTag name attributes inner) =
        Markup.numbered copy before ++ Markup.numbered copy (writeTag name attributes inner) := by
      rw [hfront, numbered_separator separator_lt, numbered_cons separator_lt]
    rw [← hbefore, hback, ← List.append_assoc, List.append_assoc _ ['>'], List.singleton_append,
      numbered_separator separator_gt, numbered_concat separator_gt]
    simp
  induction h with
  | text hcs => exact .text (hcs.numbered copy)
  | empty hbefore hname ha _ ih =>
    rw [hsplit, numbered_writeTag]
    exact .empty (hbefore.numbered copy) (hname.numbered copy) (ha.numbered copy) ih
  | around hbefore hname ha _ _ ihinner ihrest =>
    rw [hsplit, numbered_writeTag]
    exact .around (hbefore.numbered copy) (hname.numbered copy) (ha.numbered copy) ihinner ihrest

theorem copies (h : Nested cs k) (count : Nat) :
    Nested (copies count none (Markup.numbered · cs)) (max 1 count * k) := by
  -- Each copy is numbered in its own way, but all of them have the tags of the template.
  have hrange (total count : Nat) :
      Nested ((List.range count).flatMap fun i => Markup.numbered (some (i, total)) cs) (count * k) := by
    induction count with
    | zero =>
      rw [Nat.zero_mul]
      exact .text plain_nil
    | succ count ih =>
      rw [List.range_succ, List.flatMap_append, Nat.add_mul, Nat.one_mul]
      exact ih.append (by simpa using h.numbered (some (count, total)))
  by_cases hcount : count = 0
  · subst hcount
    rw [Nat.max_eq_left (Nat.zero_le 1), Nat.one_mul]
    exact h
  · have hpos := Nat.pos_iff_ne_zero.2 hcount
    rw [copies_of_pos hpos, Nat.max_eq_right hpos]
    exact hrange count count

/-- A stack that reads matching tags is left as it was. -/
theorem read (h : Nested cs k) (ys : List Char) : ∃ ts, tags (cs ++ ys) = ts ++ tags ys ∧
    (∀ stack rest, openAfter stack (ts ++ rest) = openAfter stack rest) ∧
      ts.countP Tag.begins = k := by
  induction h generalizing ys with
  | text hcs => exact ⟨[], tags_append hcs.lt_notMem ys, fun _ _ => rfl, rfl⟩
  | @empty before name rest attributes k hbefore hname ha _ ih =>
    obtain ⟨ts, hts, hstack, hcount⟩ := ih ys
    refine ⟨.empty name :: ts, ?_, fun stack rest => hstack stack rest, ?_⟩
    · rw [List.append_assoc, List.append_assoc, tags_append hbefore.lt_notMem, tags_empty hname ha, hts]
      rfl
    · rw [List.countP_cons, hcount]
      rfl
  | @around before name inner rest attributes k m hbefore hname ha _ _ ihinner ihrest =>
    obtain ⟨ts, hts, hstack, hcount⟩ := ihinner ('<' :: '/' :: name ++ '>' :: (rest ++ ys))
    obtain ⟨ts', hts', hstack', hcount'⟩ := ihrest ys
    refine ⟨.opening name :: ts ++ .closing name :: ts', ?_, fun stack rest => ?_, ?_⟩
    · rw [List.append_assoc, List.append_assoc, tags_append hbefore.lt_notMem, tags_opening hname ha,
        hts, tags_closing hname, hts', List.append_assoc]
      rfl
    -- The name that the opening tag pushes is still on top when the inside has been read.
    · rw [List.append_assoc, List.cons_append, openAfter, hstack, List.cons_append, openAfter,
        if_pos rfl, hstack']
    · rw [List.cons_append, List.countP_cons, List.countP_append, List.countP_cons, hcount, hcount',
        Tag.begins, Tag.begins, if_pos rfl, if_neg Bool.false_ne_true]
      omega

theorem balanced (h : Nested cs k) :
    openAfter [] (tags cs) = some [] ∧ (tags cs).countP Tag.begins = k := by
  obtain ⟨ts, hts, hstack, hcount⟩ := h.read []
  have hread := hstack [] []
  rw [List.append_nil] at hread
  rw [List.append_nil, show tags [] = [] from rfl, List.append_nil] at hts
  rw [hts]
  exact ⟨hread, hcount⟩

end Nested

/-- Nothing that is written of a node can be taken for a tag or for the end of one. -/
structure Tame (s : Snapshot) : Prop where
  name : Plain s.name.toList
  attributes : ∀ e ∈ s.attributes.entries, Plain e.1.toList ∧ Plain e.2.toList
  tag : s.kind = .element → TagName s.name.toList

theorem Tame.quoted {s : Snapshot} (h : Tame s) : PlainAttributes (quoted s.attributes) := by
  intro nv hnv
  obtain ⟨⟨n, v⟩, hmem, rfl⟩ := List.mem_map.1 hnv
  obtain ⟨hn, hv⟩ := h.attributes _ hmem
  exact ⟨hn, hv.escapeValue⟩

mutual
/-- How many elements begin in a template. -/
def elements : Snapshot → Nat
  | ⟨kind, _, _, _, cs⟩ =>
    match kind with
    | .text | .inProgress => 0
    | .root | .group => elementsAll cs
    | .element => elementsAll cs + 1
def elementsAll : List Snapshot → Nat
  | [] => 0
  | c :: cs => max 1 c.count * elements c + elementsAll cs
end

mutual
theorem nested_template : ∀ s : Snapshot, (∀ e ∈ s.preorder, Tame e) →
    Nested (template s) (elements s)
  | ⟨kind, name, m, count, cs⟩, h => by
    rw [Snapshot.preorder, List.forall_mem_cons] at h
    obtain ⟨hs, hcs⟩ := h
    have ih := nested_markups cs hcs
    cases kind with
    | root => exact ih
    | inProgress => exact .text plain_nil
    | element =>
      have hname : TagName name.toList := hs.tag rfl
      cases cs with
      | nil =>
        have hempty := Nested.empty plain_nil hname hs.quoted (.text plain_nil)
        rw [List.append_nil] at hempty
        exact hempty
      | cons c cs =>
        have haround := Nested.around plain_nil hname hs.quoted ih (.text plain_nil)
        rw [List.append_nil] at haround
        exact haround
    | text => exact .text hs.name
    | group => exact ih
theorem nested_markups : ∀ cs : List Snapshot, (∀ e ∈ Snapshot.preorderAll cs, Tame e) →
    Nested (markups cs) (elementsAll cs)
  | [], _ => .text plain_nil
  | c :: cs, h => by
    rw [Snapshot.preorderAll, List.forall_mem_append] at h
    exact ((nested_template c h.1).copies c.count).append (nested_markups cs h.2)
end

end Markup

/-! ### Trees -/

namespace Tree
variable {t : Tree} {i p : Nat} {parent : Option Nat} {s : Snapshot} {cs : List Snapshot}
  {pre post : List Entry}

def count (t : Tree) (i : Nat) : Nat := ((t.node? i).map (·.count)).getD 0

open Classical in
/-- How often a node is written: once for every choice of a copy of it and of each node above. -/
noncomputable def written (t : Tree) (i : Nat) : Nat :=
  ∏ j ∈ Finset.range t.size with j = i ∨ t.Above j i, max 1 (t.count j)

theorem Linked.written_root (h : t.Linked) (hlt : root < t.size) :
    t.written root = max 1 (t.count root) := by
  have hroot (j : Nat) : j = root ∨ t.Above j root ↔ j = root :=
    or_iff_left fun hj => Nat.not_lt_zero j (h.lt_of_above hj)
  rw [written]
  simp only [hroot]
  rw [Finset.filter_eq', if_pos (Finset.mem_range.2 hlt), Finset.prod_singleton]

theorem Linked.written_child (h : t.Linked) (hp : t.parent? i = some p) :
    t.written i = max 1 (t.count i) * t.written p := by
  classical
  have hinsert : ({j ∈ Finset.range t.size | j = i ∨ t.Above j i} : Finset Nat) =
      insert i {j ∈ Finset.range t.size | j = p ∨ t.Above j p} := by
    ext j
    have habove : t.Above j i ↔ j = p ∨ t.Above j p := by
      rw [above_iff, hp]
      simp
    have hi : j = i → j < t.size := fun hj => hj ▸ lt_size_of_parent? hp
    simp only [Finset.mem_filter, Finset.mem_range, Finset.mem_insert, habove]
    tauto
  have hnot : i ∉ ({j ∈ Finset.range t.size | j = p ∨ t.Above j p} : Finset Nat) := by
    intro hi
    have hlt := h.older i p hp
    rcases (Finset.mem_filter.1 hi).2 with rfl | hi
    · exact Nat.lt_irrefl _ hlt
    · exact Nat.lt_asymm hlt (h.lt_of_above hi)
  rw [written, written]
  convert Finset.prod_insert hnot using 2

/-- How many elements are written for a node. -/
noncomputable def share (t : Tree) (i : Nat) : Nat :=
  if t.kind? i = some .element then t.written i else 0

/-- Below texts and places there is nothing. -/
def Leafy (t : Tree) : Prop :=
  ∀ i, t.kind? i = some .text ∨ t.kind? i = some .inProgress → t.children i = []

theorem starts_eq_nil (h : Snapshot.starts i cs = []) : cs = [] := by
  cases cs with
  | nil => rfl
  | cons c cs => cases h

mutual
theorem Linked.sum_subtree (h : t.Linked) (hleaf : t.Leafy) {i : Nat} {parent : Option Nat}
    {pre post : List Entry} : ∀ {s : Snapshot}, t.Holds parent i s pre post →
      ∑ j ∈ Finset.Ico i (i + s.size), t.share j = t.written i * Markup.elements s
  | ⟨kind, name, attributes, count, cs⟩, hs => by
    obtain ⟨n, hn, -, hbare⟩ := hs.node?
    have hkind : t.kind? i = some kind := by
      rw [kind?, hn]
      exact congrArg (fun s => some s.kind) hbare
    have hcs := h.sum_siblings hleaf (hs.all h)
    have hrest : ∑ j ∈ Finset.Ico i (i + Snapshot.size ⟨kind, name, attributes, count, cs⟩),
        t.share j = t.share i + t.written i * Markup.elementsAll cs := by
      rw [Snapshot.size, ← Nat.add_assoc, Finset.sum_eq_sum_Ico_succ_bot (by omega), hcs]
    -- What stands below a text is not written, but there is nothing.
    have hnil (hk : kind = .text ∨ kind = .inProgress) : Markup.elementsAll cs = 0 := by
      have hchildren := hs.children h
      rw [hleaf i (by rw [hkind]; simpa using hk)] at hchildren
      have hempty : cs = [] := starts_eq_nil hchildren.symm
      rw [hempty]
      rfl
    rw [hrest, share, hkind]
    cases kind with
    | root | group => rw [if_neg nofun, Nat.zero_add]; rfl
    | inProgress => rw [hnil (.inr rfl), if_neg nofun]; rfl
    | text => rw [hnil (.inl rfl), if_neg nofun]; rfl
    | element =>
      rw [if_pos rfl, Markup.elements, Nat.mul_add, Nat.mul_one, Nat.add_comm]
theorem Linked.sum_siblings (h : t.Linked) (hleaf : t.Leafy) {p i : Nat} {pre post : List Entry} :
    ∀ {cs : List Snapshot}, t.HoldsAll p i cs pre post →
      ∑ j ∈ Finset.Ico i (i + Snapshot.sizeAll cs), t.share j =
        t.written p * Markup.elementsAll cs
  | [], _ => by
    rw [Snapshot.sizeAll, Nat.add_zero, Finset.Ico_self, Finset.sum_empty]
    rfl
  | c :: cs, hcs => by
    have hc := h.sum_subtree hleaf hcs.head
    have hrest := h.sum_siblings hleaf hcs.tail
    obtain ⟨n, hn, hparent, hbare⟩ := hcs.head.node?
    have hp : t.parent? i = some p := by
      rw [parent?, hn]
      exact hparent
    have hcount : t.count i = c.count := by
      rw [count, hn]
      exact congrArg Snapshot.count hbare
    rw [Snapshot.sizeAll, ← Nat.add_assoc,
      ← Finset.sum_Ico_consecutive _ (Nat.le_add_right i c.size) (Nat.le_add_right _ _), hc, hrest,
      h.written_child hp, hcount, Markup.elementsAll, Nat.mul_add, Nat.mul_comm (max 1 c.count),
      Nat.mul_assoc]
end

end Tree

theorem leafy_of_parseTree {source : String} {t : Tree} (h : parseTree source = .ok t) : t.Leafy := by
  rintro i (hi | hi)
  · obtain ⟨n, hn, hk⟩ := Tree.kind?_eq_some.1 hi
    exact ((node_of_parseTree h hn).1.allows hk).1
  · obtain ⟨n, hn, hk⟩ := Tree.kind?_eq_some.1 hi
    exact absurd hk (node_of_parseTree h hn).2

namespace Markup
variable {source : String} {t : Tree}

theorem sum_written (h : parseTree source = .ok t) :
    ∑ i ∈ Finset.range t.size with t.kind? i = some .element, t.written i =
      max 1 (Snapshot.ofTree t).count * elements (Snapshot.ofTree t) := by
  obtain ⟨hl, hentries⟩ := layout_of_parseTree h
  have hholds := Tree.holds_root hentries
  have hsize := Tree.size_of_layout hentries
  have hlt : Tree.root < t.size := hsize ▸ Snapshot.size_pos _
  obtain ⟨n, hn, -, hbare⟩ := hholds.node?
  have hcount : t.count Tree.root = (Snapshot.ofTree t).count := by
    rw [Tree.count, show t.node? Tree.root = some n from hn]
    exact congrArg Snapshot.count hbare
  have hsum := hl.sum_subtree (leafy_of_parseTree h) hholds
  rw [Nat.zero_add, ← hsize, ← Finset.range_eq_Ico] at hsum
  rw [Finset.sum_filter, ← hcount, ← hl.written_root hlt]
  exact hsum

theorem nested_render (h : parseTree source = .ok t)
    (hplain : ∀ i n, t.node? i = some n → Plain n.name.toList ∧
      ∀ e ∈ n.attributes.entries, Plain e.1.toList ∧ Plain e.2.toList)
    (hslash : ∀ i n, t.node? i = some n → n.kind = .element → '/' ∉ n.name.toList) :
    Nested (render t).toList
      (max 1 (Snapshot.ofTree t).count * elements (Snapshot.ofTree t)) := by
  have htame : ∀ e ∈ (Snapshot.ofTree t).preorder, Tame e := by
    intro e he
    obtain ⟨i, n, hn, rfl⟩ := exists_node_of_mem_preorder h he
    obtain ⟨hname, hattributes⟩ := hplain i n hn
    refine ⟨hname, hattributes, fun hk => ⟨hname, hslash i n hn hk, fun hspace => ?_⟩⟩
    have hword : endsWord ' ' = false := name_of_parseTree h hn hk ' ' hspace
    revert hword
    decide
  rw [render_eq (layout_of_parseTree h).1, String.toList_ofList]
  exact (nested_template _ htame).copies _

/-- The tags of an accepted text match, wherever they are numbered, and as many of them begin an
element as its elements are written. -/
theorem tags_balanced (h : parseTree source = .ok t)
    (hplain : ∀ i n, t.node? i = some n → Plain n.name.toList ∧
      ∀ e ∈ n.attributes.entries, Plain e.1.toList ∧ Plain e.2.toList)
    (hslash : ∀ i n, t.node? i = some n → n.kind = .element → '/' ∉ n.name.toList) :
    openAfter [] (tags (render t).toList) = some [] ∧
      (tags (render t).toList).countP Tag.begins =
        ∑ i ∈ Finset.range t.size with t.kind? i = some .element, t.written i := by
  obtain ⟨hread, hcount⟩ := (nested_render h hplain hslash).balanced
  exact ⟨hread, hcount.trans (sum_written h).symm⟩

/-- Names and a value that are numbered for the item that they belong to, or for the group around it. -/
theorem balanced_in_copies : ∃ t, parseTree "(ul$>li$@-3[c=/$]*2>b)*2" = .ok t ∧
    openAfter [] (tags (render t).toList) = some [] ∧
      ∑ i ∈ Finset.range t.size with t.kind? i = some .element, t.written i = 10 := by
  have hparse : ((parseTree "(ul$>li$@-3[c=/$]*2>b)*2").toOption.map fun t =>
      (decide (∀ n ∈ t.nodes.toList, (Plain n.name.toList ∧
        ∀ e ∈ n.attributes.entries, Plain e.1.toList ∧ Plain e.2.toList) ∧ '/' ∉ n.name.toList),
        (tags (render t).toList).countP Tag.begins)) = some (true, 10) := by
    decide +kernel
  obtain ⟨t, h, ht⟩ := exists_parseTree hparse
  obtain ⟨hall, hcount⟩ := Prod.mk.inj ht
  have hnode (i : Nat) (n : Node) (hn : t.node? i = some n) :=
    of_decide_eq_true hall n (Array.mem_toList_iff.2 (Array.mem_of_getElem? hn))
  obtain ⟨hbalanced, hnumber⟩ :=
    tags_balanced h (fun i n hn => (hnode i n hn).1) (fun i n hn _ => (hnode i n hn).2)
  exact ⟨t, h, hbalanced, hnumber.symm.trans hcount⟩

end Markup
end Shorthand
