import Shorthand.Proofs.Outline.Lines
import Shorthand.Proofs.Text.Runs

/-! # What an outline tells

A line tells the depth and the kind of its node, whatever its label is (`Outline.Row.mark_of_line`),
and depths and kinds in preorder tell the shape of a tree (`Outline.alike_of_siblingRows`). So an
outline of lines without line breaks of their own shows the exact shape of what is below the root
(`Tree.outline_of_grown`). Of the root itself it shows nothing (`Tree.root_unseen`). -/

namespace Shorthand

/-- The same paths lead somewhere in both snapshots, and there to nodes of the same kind. -/
def Snapshot.Alike (s s' : Snapshot) : Prop :=
  ∀ path, (s.at? path).map (·.kind) = (s'.at? path).map (·.kind)

/-- No line breaks in what a node is called, nor in its attributes. -/
def Snapshot.Unbroken (s : Snapshot) : Prop :=
  '\n' ∉ s.name.toList ∧ ∀ e ∈ s.attributes.entries, '\n' ∉ e.1.toList ∧ '\n' ∉ e.2.toList

instance (s : Snapshot) : Decidable s.Unbroken := inferInstanceAs (Decidable (_ ∧ _))

namespace Outline
open Snapshot (Alike)

theorem column_toList (isLast : Bool) :
    (column isLast).toList = [if isLast then ' ' else '│', ' '] := by cases isLast <;> rfl

theorem connector_toList (isLast : Bool) :
    (connector isLast).toList = [if isLast then '└' else '├', '─'] := by cases isLast <;> rfl

theorem colon_notMem_name (kind : NodeKind) : ':' ∉ kind.name.toList := by cases kind <;> decide

theorem name_injective {kind kind' : NodeKind} (h : kind.name = kind'.name) : kind = kind' := by
  revert h
  cases kind <;> cases kind' <;> decide

/-- The depth and the kind that a line shows. -/
def Row.mark (r : Row) : Nat × NodeKind := (r.above.length, r.node.kind)

/-- What stands behind the columns of a line. -/
def Row.behindColumns (r : Row) : List Char :=
  (connector r.isLast).toList ++
    ' ' :: (r.node.kind.name.toList ++ ':' :: ' ' :: (label r.node).toList)

theorem Row.toList_line (r : Row) : r.line.toList =
    r.above.flatMap (fun isLast => (column isLast).toList) ++ r.behindColumns := by
  simp [line, behindColumns, String.toList_join, List.flatMap_map]

theorem Row.kind_of_behindColumns {r r' : Row} (h : r.behindColumns = r'.behindColumns) :
    r.node.kind = r'.node.kind := by
  simp only [behindColumns, connector_toList, List.cons_append, List.nil_append] at h
  obtain ⟨-, h⟩ := List.cons.inj h
  obtain ⟨-, h⟩ := List.cons.inj h
  obtain ⟨-, h⟩ := List.cons.inj h
  obtain ⟨hname, -⟩ := Text.append_cons_inj (colon_notMem_name _) (colon_notMem_name _) h
  exact name_injective (String.toList_inj.1 hname)

/-- Columns are not taken for connectors, so both lines have as many of them. -/
theorem columns_append_inj {above above' : List Bool} {r r' : Row}
    (h : above.flatMap (fun isLast => (column isLast).toList) ++ r.behindColumns =
      above'.flatMap (fun isLast => (column isLast).toList) ++ r'.behindColumns) :
    above.length = above'.length ∧ r.behindColumns = r'.behindColumns := by
  -- The columns of the ancestors are followed by a connector, and no column begins like one.
  have hne (last isLast : Bool) :
      (if last then ' ' else '│') ≠ if isLast then '└' else '├' := by
    revert last isLast
    decide
  induction above generalizing above' with
  | nil =>
    cases above' with
    | nil => exact ⟨rfl, h⟩
    | cons last above' =>
      simp only [List.flatMap_nil, List.flatMap_cons, Row.behindColumns, column_toList,
        connector_toList, List.nil_append, List.cons_append] at h
      exact absurd (List.cons.inj h).1.symm (hne _ _)
  | cons last above ih =>
    cases above' with
    | nil =>
      simp only [List.flatMap_nil, List.flatMap_cons, Row.behindColumns, column_toList,
        connector_toList, List.nil_append, List.cons_append] at h
      exact absurd (List.cons.inj h).1 (hne _ _)
    | cons last' above' =>
      simp only [List.flatMap_cons, column_toList last, column_toList last', List.cons_append,
        List.nil_append] at h
      obtain ⟨hlength, hbehind⟩ := ih (List.cons.inj (List.cons.inj h).2).2
      exact ⟨congrArg (· + 1) hlength, hbehind⟩

theorem Row.mark_of_line {r r' : Row} (h : r.line = r'.line) : r.mark = r'.mark := by
  have hchars := congrArg String.toList h
  rw [toList_line, toList_line] at hchars
  obtain ⟨hlength, hbehind⟩ := columns_append_inj hchars
  exact Prod.ext hlength (kind_of_behindColumns hbehind)

theorem alike_at {cs cs' : List Snapshot} (h : List.Forall₂ Alike cs cs') (k : Nat)
    (path : List Nat) : ((cs[k]?).bind (Snapshot.at? · path)).map (·.kind) =
      ((cs'[k]?).bind (Snapshot.at? · path)).map (·.kind) := by
  induction h generalizing k with
  | nil => rfl
  | cons hc _ ih =>
    cases k with
    | zero => exact hc path
    | succ k => exact ih k

theorem alike_of_children {s s' : Snapshot} (hkind : s.kind = s'.kind)
    (h : List.Forall₂ Alike s.children s'.children) : Alike s s'
  | [] => congrArg some hkind
  | k :: path => alike_at h k path

/-- No row of siblings is deeper than the first of them, and none behind them is as deep. -/
theorem le_of_mem_head? {above : List Bool} {rest : List (Nat × NodeKind)}
    (hrest : ∀ m ∈ rest.head?, m.1 < above.length) : ∀ cs : List Snapshot,
      ∀ m ∈ ((siblingRows above cs).map Row.mark ++ rest).head?, m.1 ≤ above.length
  | [], m, hm => Nat.le_of_lt (hrest m hm)
  | ⟨_, _, _, _, _⟩ :: _, _, hm => by
    simp only [siblingRows, rows, List.map_cons, List.cons_append] at hm
    obtain rfl := Option.some.inj hm
    exact Nat.le_refl _

/-- Siblings begin with a row of their depth. -/
theorem not_lt_of_siblingRows_cons {above above' : List Bool} {c : Snapshot} {cs : List Snapshot}
    {rest rest' : List (Nat × NodeKind)} (hlength : above.length = above'.length)
    (hrest : ∀ m ∈ rest.head?, m.1 < above.length) :
    rest ≠ (siblingRows above' (c :: cs)).map Row.mark ++ rest' := by
  obtain ⟨_, _, _, _, _⟩ := c
  rintro rfl
  have hlt := hrest _ rfl
  exact Nat.lt_irrefl _ (hlength ▸ hlt)

mutual
/-- The rows of a subtree end where a row comes that is not below its root. -/
theorem alike_of_rows {above above' : List Bool} {isLast isLast' : Bool}
    {rest rest' : List (Nat × NodeKind)} (hlength : above.length = above'.length)
    (hrest : ∀ m ∈ rest.head?, m.1 ≤ above.length)
    (hrest' : ∀ m ∈ rest'.head?, m.1 ≤ above'.length) : ∀ {s s' : Snapshot},
    (rows above isLast s).map Row.mark ++ rest = (rows above' isLast' s').map Row.mark ++ rest' →
      Alike s s' ∧ rest = rest'
  | ⟨kind, _, _, _, cs⟩, ⟨kind', _, _, _, cs'⟩, h => by
    simp only [rows, List.map_cons, List.cons_append] at h
    obtain ⟨hmark, h⟩ := List.cons.inj h
    have hlength' : (above ++ [isLast]).length = (above' ++ [isLast']).length := by
      rw [List.length_append, List.length_append, hlength]
      rfl
    obtain ⟨hcs, hrest⟩ := alike_of_siblingRows hlength'
      (fun m hm => by simpa [Nat.lt_succ_iff] using hrest m hm)
      (fun m hm => by simpa [Nat.lt_succ_iff] using hrest' m hm) h
    exact ⟨alike_of_children (congrArg Prod.snd hmark) hcs, hrest⟩
theorem alike_of_siblingRows {above above' : List Bool}
    {rest rest' : List (Nat × NodeKind)} (hlength : above.length = above'.length)
    (hrest : ∀ m ∈ rest.head?, m.1 < above.length)
    (hrest' : ∀ m ∈ rest'.head?, m.1 < above'.length) : ∀ {cs cs' : List Snapshot},
    (siblingRows above cs).map Row.mark ++ rest = (siblingRows above' cs').map Row.mark ++ rest' →
      List.Forall₂ Alike cs cs' ∧ rest = rest'
  | [], [], h => ⟨.nil, h⟩
  | [], _ :: _, h => absurd h (not_lt_of_siblingRows_cons hlength hrest)
  | _ :: _, [], h => absurd h.symm (not_lt_of_siblingRows_cons hlength.symm hrest')
  | c :: cs, c' :: cs', h => by
    simp only [siblingRows, List.map_append, List.append_assoc] at h
    obtain ⟨hc, h⟩ := alike_of_rows hlength (le_of_mem_head? hrest cs)
      (le_of_mem_head? hrest' cs') h
    obtain ⟨hcs, hrest⟩ := alike_of_siblingRows hlength hrest hrest' h
    exact ⟨.cons hc hcs, hrest⟩
end

/-! ### Line breaks -/

theorem newline_notMem_name (kind : NodeKind) : '\n' ∉ kind.name.toList := by cases kind <;> decide

theorem newline_notMem_shorten {s : String} (h : '\n' ∉ s.toList) :
    '\n' ∉ (shorten s).toList := by
  rw [shorten]
  split
  · rw [String.toList_append, String.toList_ofList, List.mem_append, not_or]
    exact ⟨fun hmem => h (List.mem_of_mem_take hmem), by decide⟩
  · exact h

theorem newline_notMem_title {s : Snapshot} (h : s.Unbroken) : '\n' ∉ (title s).toList := by
  rw [title]
  split
  · simp [newline_notMem_shorten h.1]
  · decide
  · exact h.1

theorem newline_notMem_label {s : Snapshot} (h : s.Unbroken) : '\n' ∉ (label s).toList := by
  have hdigits : '\n' ∉ Nat.toDigits 10 s.count := fun hmem =>
    absurd (Nat.isDigit_of_mem_toDigits (by decide) (by decide) hmem) (by decide)
  simp only [label, String.toList_append, String.toList_join, List.mem_append, List.mem_flatMap,
    List.mem_map, not_or]
  refine ⟨⟨newline_notMem_title h, ?_⟩, ?_⟩
  · rintro ⟨_, ⟨e, he, rfl⟩, hmem⟩
    obtain ⟨hname, hvalue⟩ := h.2 e he
    simp [hname, hvalue] at hmem
  · split
    · rw [String.toList_append, Text.toList_toString]
      simp [hdigits]
    · decide

theorem Row.newline_notMem_line {r : Row} (h : r.node.Unbroken) : '\n' ∉ r.line.toList := by
  have hcolumns : '\n' ∉ r.above.flatMap fun isLast => (column isLast).toList := by
    rw [List.mem_flatMap]
    rintro ⟨isLast, -, hmem⟩
    cases isLast <;> exact absurd hmem (by decide)
  have hconnector : '\n' ∉ (connector r.isLast).toList := by
    cases r.isLast <;> decide
  rw [toList_line, behindColumns]
  simp [hcolumns, hconnector, newline_notMem_name, newline_notMem_label h]

theorem toList_join_lines (l : String) (ls : List String) :
    (String.join ((l :: ls).map (· ++ "\n"))).toList =
      l.toList ++ '\n' :: (String.join (ls.map (· ++ "\n"))).toList := by
  rw [List.map_cons, String.join_cons, String.toList_append, String.toList_append,
    List.append_assoc]
  rfl

/-- Lines are read off where the line breaks are. -/
theorem lines_of_join {ls ls' : List String} (hls : ∀ l ∈ ls, '\n' ∉ l.toList)
    (hls' : ∀ l ∈ ls', '\n' ∉ l.toList)
    (h : String.join (ls.map (· ++ "\n")) = String.join (ls'.map (· ++ "\n"))) : ls = ls' := by
  have hchars := congrArg String.toList h
  induction ls generalizing ls' with
  | nil =>
    cases ls' with
    | nil => rfl
    | cons l' ls' =>
      rw [toList_join_lines] at hchars
      exact absurd hchars.symm (List.append_ne_nil_of_right_ne_nil _ (List.cons_ne_nil _ _))
  | cons l ls ih =>
    cases ls' with
    | nil =>
      rw [toList_join_lines] at hchars
      exact absurd hchars (List.append_ne_nil_of_right_ne_nil _ (List.cons_ne_nil _ _))
    | cons l' ls' =>
      rw [List.forall_mem_cons] at hls hls'
      rw [toList_join_lines, toList_join_lines] at hchars
      obtain ⟨hl, hrest⟩ := Text.append_cons_inj hls.1 hls'.1 hchars
      rw [String.toList_inj.1 hl, ih hls.2 hls'.2 (String.toList_inj.1 hrest) hrest]

end Outline

namespace Tree
open Outline (Row)
variable {t t' : Tree}

/-- No node has line breaks in its name or in its attributes. -/
def Unbroken (t : Tree) : Prop := ∀ n ∈ t.nodes, n.bare.Unbroken

instance : Decidable t.Unbroken := inferInstanceAs (Decidable (∀ n ∈ t.nodes, _))

theorem Unbroken.newline_notMem_lines (h : t.Unbroken) (hr : t.Rooted) :
    ∀ line ∈ t.outlineRows.map Row.line, '\n' ∉ line.toList := by
  obtain ⟨nodes, -, hrows⟩ := hr.rowOf_outline
  rw [List.forall_mem_map]
  generalize t.outlineRows = rows at hrows ⊢
  induction hrows with
  | nil => exact List.forall_mem_nil _
  | cons hrow _ ih =>
    obtain ⟨above, n, -, hn, rfl⟩ := hrow
    exact List.forall_mem_cons.2 ⟨Row.newline_notMem_line (h n (Array.mem_of_getElem? hn)), ih⟩

/-- The lines of an outline tell the depths and the kinds of the nodes, and those the shape. -/
theorem Rooted.at?_of_outline (h : t.Rooted) (h' : t'.Rooted) (hu : t.Unbroken)
    (hu' : t'.Unbroken) (hsame : Outline.ofTree t' = Outline.ofTree t) (k : Nat)
    (path : List Nat) : ((Snapshot.ofTree t').at? (k :: path)).map (·.kind) =
      ((Snapshot.ofTree t).at? (k :: path)).map (·.kind) := by
  rw [outline_eq, outline_eq] at hsame
  have hlines := Outline.lines_of_join (hu'.newline_notMem_lines h') (hu.newline_notMem_lines h)
    hsame
  have hmarks : t'.outlineRows.map Row.mark = t.outlineRows.map Row.mark := by
    rw [← List.forall₂_eq_eq_eq, List.forall₂_map_left_iff, List.forall₂_map_right_iff] at hlines ⊢
    exact hlines.imp fun _ _ => Row.mark_of_line
  obtain ⟨hchildren, -⟩ := @Outline.alike_of_siblingRows [] [] [] [] rfl nofun nofun _ _
    (congrArg (· ++ []) hmarks)
  exact Outline.alike_at hchildren k path

/-- The outline of a tree without line breaks in it has one line for each node below the root, in
preorder, and trees with the same outline have nodes of the same kinds at the same paths below the
root. -/
theorem outline_of_grown (h : t.Grown) (hu : t.Unbroken) :
    (∃ nodes lines, t.visits (fun _ => true) t.size root = root :: nodes ∧
      (root :: nodes).Perm (List.range t.size) ∧
      Outline.ofTree t = String.join (lines.map (· ++ "\n")) ∧
      (∀ line ∈ lines, '\n' ∉ line.toList) ∧ List.Forall₂ t.Drawn nodes lines) ∧
    ∀ t' : Tree, t'.Grown → t'.Unbroken → Outline.ofTree t' = Outline.ofTree t →
      ∀ path ≠ [], ((Snapshot.ofTree t').at? path).map (·.kind) =
        ((Snapshot.ofTree t).at? path).map (·.kind) := by
  constructor
  · obtain ⟨nodes, hvisits, hrows⟩ := h.rooted.rowOf_outline
    refine ⟨nodes, t.outlineRows.map Row.line, hvisits, hvisits ▸ h.rooted.visits_perm,
      outline_eq t, hu.newline_notMem_lines h.rooted, ?_⟩
    rw [List.forall₂_map_right_iff]
    exact hrows.imp fun _ _ => h.rooted.linked.drawn_of_rowOf
  · intro t' h' hu' hsame path hpath
    obtain ⟨k, path, rfl⟩ := List.exists_cons_of_ne_nil hpath
    exact h.rooted.at?_of_outline h'.rooted hu hu' hsame k path

/-- The trees are made in different orders, their texts differ behind what the outline shows of
them, and so do the names of their groups. -/
theorem outline_of_long_text :
    let text (last : Char) (s : Snapshot) : Snapshot :=
      { s with name := String.ofList (List.replicate 30 '└' ++ [last]) }
    let first : Tree := empty.append root .element
    let t := ((first.append 1 .text).append root .group).modify 2 (Node.relabel (text 'a'))
    let t' := (((first.append root .group).append 1 .text).modify 3
      (Node.relabel (text 'b'))).modify 2 (Node.relabel ({ · with name := "b" }))
    Snapshot.ofTree t' ≠ Snapshot.ofTree t ∧ t.Grown ∧ t.Unbroken ∧
      (∃ nodes lines, t.visits (fun _ => true) t.size root = root :: nodes ∧
        (root :: nodes).Perm (List.range t.size) ∧
        Outline.ofTree t = String.join (lines.map (· ++ "\n")) ∧
        (∀ line ∈ lines, '\n' ∉ line.toList) ∧ List.Forall₂ t.Drawn nodes lines) ∧
      t'.Grown ∧ t'.Unbroken ∧ Outline.ofTree t' = Outline.ofTree t ∧
      ∀ path ≠ [], ((Snapshot.ofTree t').at? path).map (·.kind) =
        ((Snapshot.ofTree t).at? path).map (·.kind) := by
  intro text first t t'
  have hfirst : first.Grown := .append .empty (by decide) _
  have h : t.Grown := .edit (.append (.append hfirst (by decide) _) (by decide) _) 2 _
  have h' : t'.Grown :=
    .edit (.edit (.append (.append hfirst (by decide) _) (by decide) _) 3 _) 2 _
  have hu : t.Unbroken := by decide +kernel
  have hu' : t'.Unbroken := by decide +kernel
  have hsame : Outline.ofTree t' = Outline.ofTree t := by decide +kernel
  obtain ⟨hlines, hshape⟩ := outline_of_grown h hu
  exact ⟨by decide +kernel, h, hu, hlines, h', hu', hsame, hshape t' h' hu' hsame⟩

/-- An outline has no line for the root, so it does not tell what kind the root has been given. -/
theorem root_unseen :
    let t := empty.modify root (Node.relabel ({ · with kind := .element }))
    t.Grown ∧ t.Unbroken ∧ empty.Grown ∧ empty.Unbroken ∧
      Outline.ofTree t = Outline.ofTree empty ∧
      ((Snapshot.ofTree t).at? []).map (·.kind) ≠
        ((Snapshot.ofTree empty).at? []).map (·.kind) := by
  intro t
  exact ⟨.edit .empty _ _, by decide +kernel, .empty, by decide +kernel, by decide +kernel,
    by decide +kernel⟩

end Tree
end Shorthand
