import Shorthand.Proofs.Markup.Balance

/-! # What is left of `$`

Numbering leaves no `$` behind, so what was multiplied is not changed by the counts around it. In the
markup of a tree a `$` is left only of what has no count, neither its own nor one above it
(`dollar_mem_render`). -/

namespace Shorthand

/-- A `$` in the name of the node, in its content or in one of its attributes. -/
def Node.HasDollar (n : Node) : Prop :=
  match n.kind with
  | .text => '$' ∈ n.name.toList
  | .element =>
    '$' ∈ n.name.toList ∨ ∃ e ∈ n.attributes.entries, '$' ∈ e.1.toList ∨ '$' ∈ e.2.toList
  | _ => False

namespace Tree
variable {t : Tree} {i : Nat} {n : Node}

/-- At `i` or below there is a node with a `$` that no count from `i` on down is for. -/
def Leftover (t : Tree) (i : Nat) : Prop :=
  ∃ j n, (i = j ∨ t.Above i j) ∧ t.node? j = some n ∧ n.HasDollar ∧
    ∀ a, a = j ∨ t.Above a j → t.Above a i ∨ t.count a = 0

theorem Linked.leftover_iff (h : t.Linked) (hn : t.node? i = some n) :
    t.Leftover i ↔ n.count = 0 ∧ (n.HasDollar ∨ ∃ c ∈ t.children i, t.Leftover c) := by
  have hcount : t.count i = n.count := by rw [count, hn]; rfl
  have hself : ¬ t.Above i i := fun hi => Nat.lt_irrefl i (h.lt_of_above hi)
  constructor
  · rintro ⟨j, m, hj, hm, hdollar, hall⟩
    refine ⟨hcount ▸ (hall i hj).resolve_left hself, ?_⟩
    rcases hj with rfl | hj
    · obtain rfl : n = m := Option.some.inj (hn.symm.trans hm)
      exact .inl hdollar
    · obtain ⟨c, hc, hcj⟩ := Relation.TransGen.head'_iff.1 hj
      refine .inr ⟨c, h.mem_children.2 hc, j, m, ?_, hm, hdollar, fun a ha => ?_⟩
      · exact (Relation.reflTransGen_iff_eq_or_transGen.1 hcj).imp Eq.symm id
      · exact (hall a ha).imp_left (.tail · hc)
  · rintro ⟨hzero, hdollar | ⟨c, hc, j, m, hcj, hm, hdollar, hall⟩⟩
    · refine ⟨i, n, .inl rfl, hn, hdollar, ?_⟩
      rintro a (rfl | ha)
      · exact .inr (hcount.trans hzero)
      · exact .inl ha
    · have hparent : t.parent? c = some i := h.mem_children.1 hc
      refine ⟨j, m, .inr ?_, hm, hdollar, fun a ha => ?_⟩
      · rcases hcj with rfl | hcj
        · exact .single hparent
        · exact .head hparent hcj
      · rcases hall a ha with hac | hzero'
        · obtain ⟨p, hp, hai⟩ := above_iff.1 hac
          obtain rfl : i = p := Option.some.inj (hparent.symm.trans hp)
          rcases hai with rfl | hai
          · exact .inr (hcount.trans hzero)
          · exact .inl hai
        · exact .inr hzero'

end Tree

namespace Markup
variable {c : Char} {cs : List Char} {template source : String} {count n m i depth : Nat} {t : Tree}

theorem dollar_mem_multiply :
    '$' ∈ (multiply template count).toList ↔ count = 0 ∧ '$' ∈ template.toList := by
  rw [toList_multiply]
  by_cases h : count = 0
  · rw [copies, if_pos h, numbered]
    exact (and_iff_right h).symm
  · rw [copies_of_pos (Nat.pos_of_ne_zero h)]
    refine iff_of_false (fun hmem => ?_) fun hzero => h hzero.1
    obtain ⟨i, -, hi⟩ := List.mem_flatMap.1 hmem
    exact dollar_notMem_numbered i count _ hi

/-- Copies without anything to number are all the same. -/
theorem multiply_of_dollar_notMem (h : '$' ∉ template.toList) (hm : 0 < m) :
    multiply template m = String.join (List.replicate m template) := by
  have hcopy (i : Nat) : copy (pieces template.toList) m i = template :=
    (congrArg String.ofList (numbered_of_dollar_notMem h (some (i, m)))).trans String.ofList_toList
  rw [multiply, if_neg (Nat.ne_of_gt hm), List.map_congr_left fun i _ => hcopy i, List.map_const',
    List.length_range]

theorem mem_escapeValue (h : c ≠ '\\') : c ∈ escapeValue cs ↔ c ∈ cs := by
  induction cs with
  | nil => rfl
  | cons d cs ih =>
    rw [escapeValue]
    split
    · next hd => simp [h, ih, hd]
    · simp [ih]

/-- A `$` in an element is a `$` that was put in it. -/
theorem dollar_mem_element {name : String} {attributes : NameMap String} {inner : Option String} :
    '$' ∈ (element name attributes inner).toList ↔
      ('$' ∈ name.toList ∨ ∃ e ∈ attributes.entries, '$' ∈ e.1.toList ∨ '$' ∈ e.2.toList) ∨
        ∃ content ∈ inner, '$' ∈ content.toList := by
  have hquoted : (∃ e ∈ quoted attributes, '$' ∈ writeAttribute e.1 e.2) ↔
      ∃ e ∈ attributes.entries, '$' ∈ e.1.toList ∨ '$' ∈ e.2.toList := by
    have hvalue (v : List Char) : '$' ∈ escapeValue v ↔ '$' ∈ v := mem_escapeValue (by decide)
    simp [quoted, writeAttribute, hvalue]
  rw [toList_element, ← hquoted]
  cases inner with
  | none => simp [writeTag]
  | some content =>
    -- The name is written once more behind the content.
    by_cases hname : '$' ∈ name.toList <;> simp [writeTag, hname]

theorem dollar_mem_node (h : t.Linked)
    (htidy : ∀ i n, t.node? i = some n → n.Tidy (t.children i) ∧ n.kind ≠ .inProgress)
    (hd : t.size - i ≤ depth) (hi : i < t.size) :
    '$' ∈ (node t depth i).toList ↔ t.Leftover i := by
  induction depth generalizing i with
  | zero => omega
  | succ depth ih =>
    obtain ⟨n, hn⟩ := Tree.exists_node? hi
    obtain ⟨hallows, hprogress⟩ := htidy i n hn
    have hinner : '$' ∈ (String.join ((t.children i).map (node t depth))).toList ↔
        ∃ c ∈ t.children i, t.Leftover c := by
      rw [String.toList_join, List.flatMap_map, List.mem_flatMap]
      refine exists_congr fun c => and_congr_right fun hc => ?_
      have := h.lt_of_mem_children hc
      exact ih (by omega) this.2
    have hnone (hk : n.kind = .root ∨ n.kind = .group) : ¬ n.HasDollar := by
      rcases hk with hk | hk <;> simp [Node.HasDollar, hk]
    rw [node, hn, h.leftover_iff hn]
    cases hk : n.kind with
    | root =>
      simp only [hk]
      rw [dollar_mem_multiply, hinner, or_iff_right (hnone (.inl hk))]
    | inProgress => exact absurd hk hprogress
    | element =>
      have hcontent : (∃ content ∈ if t.hasChildren i then
          some (String.join ((t.children i).map (node t depth))) else none, '$' ∈ content.toList) ↔
            ∃ c ∈ t.children i, t.Leftover c := by
        have hchildren : t.hasChildren i = !(t.children i).isEmpty := by
          rw [h.hasChildren, h.children]
        rw [← hinner]
        cases hcs : t.children i with
        | nil => simp [hchildren, hcs]
        | cons c cs => simp [hchildren, hcs]
      simp only [hk]
      rw [dollar_mem_multiply, dollar_mem_element, hcontent]
      simp only [Node.HasDollar, hk]
    | text =>
      have hempty : t.children i = [] := (hallows.allows hk).1
      simp only [hk]
      rw [dollar_mem_multiply, hempty]
      simp [Node.HasDollar, hk]
    | group =>
      simp only [hk]
      rw [dollar_mem_multiply, hinner, or_iff_right (hnone (.inr hk))]

/-- Nothing that was multiplied has a `$` in it, so the next count only repeats it, and the markup of
an accepted text has a `$` in it exactly if it stands in an element or a text that has no count and
that is in nothing with a count. -/
theorem dollar_mem_render (template : String) (hn : 0 < n) (hm : 0 < m)
    (h : parseTree source = .ok t) :
    '$' ∉ (multiply template n).toList ∧
      multiply (multiply template n) m = String.join (List.replicate m (multiply template n)) ∧
      ('$' ∈ (render t).toList ↔ ∃ i v, t.node? i = some v ∧ v.HasDollar ∧
        ∀ a, a = i ∨ t.Above a i → t.count a = 0) := by
  have hnone : '$' ∉ (multiply template n).toList := fun hmem =>
    Nat.ne_of_gt hn (dollar_mem_multiply.1 hmem).1
  have hrooted := rooted_of_parseTree h
  have hleftover : '$' ∈ (render t).toList ↔ t.Leftover Tree.root :=
    dollar_mem_node hrooted.linked (fun i v hv => node_of_parseTree h hv) (Nat.sub_le _ _)
      hrooted.root_lt
  refine ⟨hnone, multiply_of_dollar_notMem hnone hm, hleftover.trans ?_⟩
  constructor
  · rintro ⟨i, v, -, hv, hdollar, hall⟩
    exact ⟨i, v, hv, hdollar, fun a ha => (hall a ha).resolve_left (hrooted.not_above_root a)⟩
  · rintro ⟨i, v, hv, hdollar, hall⟩
    have hi : i < t.size := (Array.getElem?_eq_some_iff.1 hv).1
    exact ⟨i, v, hrooted.root_or_above hi, hv, hdollar, fun a ha => .inr (hall a ha)⟩

/-- The `$` of the item is numbered, and that of the title is left. -/
theorem dollar_left_in_title : (0 < 2 ∧ 0 < 3) ∧
    multiply (multiply "$-" 2) 3 = "1-2-1-2-1-2-" ∧
    ∃ t, parseTree "ul>li{$}*2^p[title=$]" = .ok t ∧
      render t = "<ul><li>1</li><li>2</li></ul><p title=\"$\" />" ∧
      ∃ i v, t.node? i = some v ∧ v.HasDollar ∧ ∀ a, a = i ∨ t.Above a i → t.count a = 0 := by
  have hparse : (parseTree "ul>li{$}*2^p[title=$]").toOption.map render =
      some "<ul><li>1</li><li>2</li></ul><p title=\"$\" />" := by
    decide +kernel
  obtain ⟨t, h, ht⟩ := exists_parseTree hparse
  obtain ⟨-, hcopies, hleft⟩ :=
    dollar_mem_render "$-" (by decide : 0 < 2) (by decide : 0 < 3) h
  refine ⟨by decide, ?_, t, h, ht, hleft.1 ?_⟩
  · rw [hcopies]
    decide +kernel
  · rw [ht]
    decide +kernel

end Markup
end Shorthand
