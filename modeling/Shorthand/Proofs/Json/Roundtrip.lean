import Shorthand.Format.Standard
import Shorthand.Json.Snapshot
import Shorthand.Proofs.Json.Reading
import Shorthand.Proofs.Tree.Parsed

/-! # Snapshots survive JSON

A snapshot that is written as JSON, on one line or over several, is read back as it was
(`readSnapshot_write`): a field that was left out is empty again, and a map is put together from its
entries in their order. -/

namespace Shorthand

mutual
/-- How many lists and records are around the innermost value, the value itself included. -/
def Data.depth : Data → Nat
  | .text _ => 0
  | .number _ => 0
  | .record fs => depthOfFields fs + 1
  | .list ds => depthOfItems ds + 1
def depthOfField : String × Data → Nat
  | (_, d) => d.depth
/-- How deep the values of fields are nested. -/
def depthOfFields : List (String × Data) → Nat
  | [] => 0
  | f :: fs => max (depthOfField f) (depthOfFields fs)
def depthOfItems : List Data → Nat
  | [] => 0
  | d :: ds => max d.depth (depthOfItems ds)
end

theorem depthOfFields_append (fs gs : List (String × Data)) :
    depthOfFields (fs ++ gs) = max (depthOfFields fs) (depthOfFields gs) := by
  induction fs with
  | nil => exact (Nat.zero_max _).symm
  | cons f fs ih => rw [List.cons_append, depthOfFields, depthOfFields, ih, Nat.max_assoc]

namespace NameMap
variable {α : Type}

/-- A name behind all others comes last. -/
theorem insertEntry_concat {entries : List (String × α)} {name : String} (value : α)
    (h : ∀ e ∈ entries, e.1 < name) : insertEntry name value entries = entries ++ [(name, value)] := by
  induction entries with
  | nil => rfl
  | cons e entries ih =>
    obtain ⟨n, v⟩ := e
    have hn : n < name := h (n, v) List.mem_cons_self
    have hlt : ¬ name < n := String.lt_asymm hn
    have hne : name ≠ n := by
      rintro rfl
      exact String.lt_irrefl _ hn
    rw [insertEntry, if_neg hlt, if_neg hne, ih fun e he => h e (List.mem_cons_of_mem _ he)]
    rfl

end NameMap

namespace Json
variable {l : Layout} {depth : Nat} {bs rest : List Char}

theorem find?_dataName (k : NodeKind) : NodeKind.all.find? (·.dataName == k.dataName) = some k := by
  cases k <;> decide +kernel

theorem readsValue_text (s : String) : ReadsValue l depth text (.text s) s := by
  intro bs rest hbs _
  rw [write]
  exact reads_text hbs s rest

theorem readsValue_natural {n : Nat} (h : n < numberLimit) :
    ReadsValue l depth natural (.number n) n := by
  intro bs rest hbs hrest
  rw [write]
  exact reads_natural hbs h hrest

theorem readsValue_kind (more : Nat) (k : NodeKind) :
    ReadsValue l depth (kind more) (.text k.dataName) k := by
  intro bs rest hbs _
  have hread := reads_text blanks_nil k.dataName rest
  rw [write, stringChars, List.cons_append] at *
  refine .bind (reads_upcoming hbs rfl) (.bind hread ?_)
  rw [find?_dataName]
  exact reads_pure k rest

theorem reads_once {α : Type} {r : Reader α} {d : Data} {a : α} (hl : l.Blank)
    (h : ReadsValue l depth r d a) (hrest : EndsNumber rest) :
    Reads (once none r) (':' :: (l.gap ++ (write l depth d ++ rest))) (some a) rest :=
  .bind (reads_colon _) (.bind (h l.gap rest hl.gap hrest) (reads_pure _ _))

/-- The entries of a map are put behind those that were read before. -/
theorem fieldsRead_attributes (hl : l.Blank) (depth : Nat) (m : NameMap String) (entries : List (String × String))
    (h : (m.entries ++ entries).Pairwise (·.1 < ·.1)) :
    ∃ m' : NameMap String, m'.entries = m.entries ++ entries ∧
      FieldsRead l depth (fun name m => do colon; return m.insert name (← text)) m
        (entries.map fun (n, v) => (n, .text v)) m' := by
  induction entries generalizing m with
  | nil => exact ⟨m, (List.append_nil _).symm, .nil⟩
  | cons e entries ih =>
    obtain ⟨n, v⟩ := e
    have hlast : ∀ e ∈ m.entries, e.1 < n := fun e he =>
      (List.pairwise_append.1 h).2.2 e he (n, v) List.mem_cons_self
    have hinsert : (m.insert n v).entries = m.entries ++ [(n, v)] := NameMap.insertEntry_concat v hlast
    obtain ⟨m', hm', hread⟩ := ih (m.insert n v) (by rwa [hinsert, List.append_assoc])
    refine ⟨m', by rw [hm', hinsert, List.append_assoc]; rfl, .cons (fun rest hrest => ?_) hread⟩
    exact .bind (reads_colon _)
      (.bind (readsValue_text v l.gap rest hl.gap hrest) (reads_pure _ _))

theorem readsValue_attributes (hl : l.Blank) (more : Nat) {m : NameMap String}
    (h : m.entries ≠ []) : ReadsValue l depth (attributes (more + 1))
      (.record (m.entries.map fun (n, v) => (n, .text v))) m := by
  intro bs rest hbs _
  obtain ⟨m', hm', hread⟩ := fieldsRead_attributes hl (depth + 1) .empty m.entries m.ascending
  obtain rfl : m' = m := NameMap.ext hm'
  obtain ⟨cs, hwrite, hfields⟩ := reads_record hl hread (mt List.map_eq_nil_iff.1 h) rest
  rw [hwrite]
  exact .bind (reads_upcoming hbs rfl) (.bind (reads_take _ _) hfields)

/-! ### Snapshots -/

theorem toDataList_eq (cs : List Snapshot) : Snapshot.toDataList cs = cs.map Snapshot.toData := by
  induction cs with
  | nil => rfl
  | cons c cs ih => rw [Snapshot.toDataList, ih, List.map_cons]

/-- The field of the children, which is left out if there are none. -/
def childFields : List Snapshot → List (String × Data)
  | [] => []
  | c :: cs => [("children", .list (Snapshot.toDataList (c :: cs)))]

theorem toData_eq (kind : NodeKind) (name : String) (attributes : NameMap String) (count : Nat)
    (cs : List Snapshot) : Snapshot.toData ⟨kind, name, attributes, count, cs⟩ =
      .record ([("kind", .text kind.dataName)] ++
        (if name = "" then [] else [("name", .text name)]) ++
        (if attributes.entries.isEmpty then []
          else [("attributes", .record (attributes.entries.map fun (n, v) => (n, .text v)))]) ++
        (if count = 0 then [] else [("repeat", .number count)]) ++ childFields cs) := by
  cases cs <;> rfl

theorem readsValue_children (hl : l.Blank) {more : Nat} {cs : List Snapshot}
    (h : ∀ x ∈ cs, ReadsValue l (depth + 1) (snapshot more) x.toData x) (hne : cs ≠ []) :
    ReadsValue l depth (snapshots (more + 1)) (.list (Snapshot.toDataList cs)) cs := by
  intro bs rest hbs _
  obtain ⟨ds, hwrite, hitems⟩ := reads_list hl h hne rest
  rw [toDataList_eq, hwrite, snapshots]
  exact .bind (reads_upcoming hbs rfl) (.bind (reads_take _ _) hitems)

section
variable {more : Nat} {children : Reader (List Snapshot)} {k : Option NodeKind} {x : Option String}
  {m : Option (NameMap String)} {n : Option Nat}

theorem fieldsRead_kind (hl : l.Blank) (kind : NodeKind) :
    FieldsRead l depth (snapshotField more children) {} [("kind", .text kind.dataName)]
      ⟨some kind, none, none, none, none⟩ :=
  .cons (fun _ hrest => .bind (reads_once hl (readsValue_kind more kind) hrest) (reads_pure _ _)) .nil

theorem fieldsRead_name (hl : l.Blank) (name : String) :
    FieldsRead l depth (snapshotField more children) ⟨k, none, none, none, none⟩
      (if name = "" then [] else [("name", .text name)])
      ⟨k, if name = "" then none else some name, none, none, none⟩ := by
  split
  · exact .nil
  · exact .cons (fun _ hrest => .bind (reads_once hl (readsValue_text name) hrest) (reads_pure _ _)) .nil

theorem fieldsRead_map (hl : l.Blank) {attributes : NameMap String}
    (h : attributes.entries ≠ [] → 0 < more) :
    FieldsRead l depth (snapshotField more children) ⟨k, x, none, none, none⟩
      (if attributes.entries.isEmpty then []
        else [("attributes", .record (attributes.entries.map fun (n, v) => (n, .text v)))])
      ⟨k, x, if attributes.entries.isEmpty then none else some attributes, none, none⟩ := by
  split
  · exact .nil
  · next hne =>
    have hentries : attributes.entries ≠ [] := mt List.isEmpty_iff.2 hne
    obtain ⟨more, rfl⟩ : ∃ i, more = i + 1 := ⟨more - 1, by have := h hentries; omega⟩
    exact .cons (fun _ hrest => .bind (reads_once hl (readsValue_attributes hl more hentries) hrest)
      (reads_pure _ _)) .nil

theorem fieldsRead_repeat (hl : l.Blank) {count : Nat} (h : count < numberLimit) :
    FieldsRead l depth (snapshotField more children) ⟨k, x, m, none, none⟩
      (if count = 0 then [] else [("repeat", .number count)])
      ⟨k, x, m, if count = 0 then none else some count, none⟩ := by
  split
  · exact .nil
  · exact .cons (fun _ hrest => .bind (reads_once hl (readsValue_natural h) hrest) (reads_pure _ _)) .nil

theorem fieldsRead_children (hl : l.Blank) {cs : List Snapshot}
    (h : cs ≠ [] → 0 < more ∧ ∀ x ∈ cs, ReadsValue l (depth + 1) (snapshot (more - 1)) x.toData x) :
    FieldsRead l depth (snapshotField more (snapshots more)) ⟨k, x, m, n, none⟩ (childFields cs)
      ⟨k, x, m, n, if cs = [] then none else some cs⟩ := by
  cases cs with
  | nil => exact .nil
  | cons c cs =>
    obtain ⟨hmore, hread⟩ := h (List.cons_ne_nil c cs)
    obtain ⟨more, rfl⟩ : ∃ i, more = i + 1 := ⟨more - 1, by omega⟩
    rw [if_neg (List.cons_ne_nil c cs)]
    exact .cons (fun _ hrest => .bind (reads_once hl
      (readsValue_children hl hread (List.cons_ne_nil c cs)) hrest) (reads_pure _ _)) .nil

end

theorem getD_ite {α : Type} {p : Prop} [Decidable p] {x y : α} (h : p → y = x) :
    (if p then none else some x).getD y = x := by
  split
  · next hp => exact h hp
  · rfl

mutual
/-- A snapshot is read wherever as many lists and records may be opened as it has. -/
theorem readsValue_snapshot (hl : l.Blank) : ∀ (s : Snapshot) (more depth : Nat),
    (∀ e ∈ s.preorder, e.count < numberLimit) → s.toData.depth ≤ more →
      ReadsValue l depth (snapshot more) s.toData s
  | ⟨kind, name, attributes, count, cs⟩, more, depth, hcounts, hdepth => by
    have ih := readsValue_snapshots hl cs
    intro bs rest hbs _
    rw [Snapshot.preorder, List.forall_mem_cons] at hcounts
    obtain ⟨hcount, hcounts⟩ := hcounts
    rw [toData_eq, Data.depth] at hdepth
    obtain ⟨more, rfl⟩ : ∃ i, more = i + 1 := ⟨more - 1, by omega⟩
    simp only [depthOfFields_append] at hdepth
    -- There are levels enough left where there is something to nest: in the map, and in the
    -- children.
    have hmap : attributes.entries ≠ [] → 0 < more := by
      intro hne
      rw [if_neg (mt List.isEmpty_iff.1 hne)] at hdepth
      simp only [depthOfFields, depthOfField, Data.depth] at hdepth
      omega
    have hchildren : cs ≠ [] → 0 < more ∧
        ∀ x ∈ cs, ReadsValue l (depth + 2) (snapshot (more - 1)) x.toData x := by
      intro hne
      have hitems : depthOfItems (Snapshot.toDataList cs) + 1 ≤ more := by
        cases cs with
        | nil => exact absurd rfl hne
        | cons c cs =>
          simp only [childFields, depthOfFields, depthOfField, Data.depth] at hdepth
          omega
      exact ⟨by omega, ih (more - 1) (depth + 2) hcounts (by omega)⟩
    have hfields := (((fieldsRead_kind hl kind).append (fieldsRead_name hl name)).append
      (fieldsRead_map hl hmap)).append (fieldsRead_repeat hl hcount) |>.append
        (fieldsRead_children hl hchildren)
    obtain ⟨ds, hwrite, hread⟩ := reads_record hl hfields (by simp) rest
    rw [toData_eq, hwrite, snapshot]
    refine .bind (reads_upcoming hbs rfl) (.bind (reads_take _ _) (.bind hread ?_))
    -- What was not written is what is given to a field that is missing.
    rw [SnapshotFields.finish, getD_ite Eq.symm, getD_ite, getD_ite Eq.symm, getD_ite Eq.symm]
    · exact reads_pure _ rest
    · exact fun hempty => NameMap.ext (List.isEmpty_iff.1 hempty).symm
theorem readsValue_snapshots (hl : l.Blank) : ∀ (cs : List Snapshot) (more depth : Nat),
    (∀ e ∈ Snapshot.preorderAll cs, e.count < numberLimit) →
      depthOfItems (Snapshot.toDataList cs) ≤ more →
        ∀ x ∈ cs, ReadsValue l depth (snapshot more) x.toData x
  | [], _, _, _, _ => nofun
  | c :: cs, more, depth, hcounts, hdepth => by
    rw [Snapshot.preorderAll, List.forall_mem_append] at hcounts
    rw [Snapshot.toDataList, depthOfItems] at hdepth
    rw [List.forall_mem_cons]
    exact ⟨readsValue_snapshot hl c more depth hcounts.1 (by omega),
      readsValue_snapshots hl cs more depth hcounts.2 (by omega)⟩
end

theorem readSnapshot_write (hl : l.Blank) {s : Snapshot}
    (hcounts : ∀ e ∈ s.preorder, e.count < numberLimit) (hdepth : s.toData.depth ≤ maxDepth) :
    readSnapshot (String.ofList (write l 0 s.toData)) = .ok s := by
  have hread := readsValue_snapshot hl s maxDepth 0 hcounts hdepth [] [] blanks_nil nofun
  rw [List.nil_append, List.append_nil] at hread
  rw [readSnapshot, String.toList_ofList, hread]
  rfl

/-- The counts of a parsed tree are far below the limit. -/
theorem count_lt_of_parseTree {source : String} {t : Tree} (h : parseTree source = .ok t) :
    ∀ e ∈ (Snapshot.ofTree t).preorder, e.count < numberLimit := by
  intro e he
  obtain ⟨i, n, hn, rfl⟩ := exists_node_of_mem_preorder h he
  have hle : n.count ≤ Grammar.maxCount := (node_of_parseTree h hn).1.2
  exact Nat.lt_of_le_of_lt hle (by decide +kernel)

/-- What is written of a snapshot as JSON is read back as that snapshot, unless lists and records are
nested too deep. So the snapshot of a parsed tree can be told from its JSON. -/
theorem snapshots_survive :
    (∀ s : Snapshot, (∀ e ∈ s.preorder, e.count < Nat.pow 2 64) → s.toData.depth < 128 →
      readSnapshot (compact s.toData) = .ok s ∧ readSnapshot (pretty s.toData) = .ok s) ∧
    ∀ source t, parseTree source = .ok t → (Snapshot.ofTree t).toData.depth < 128 →
      ∃ text, Format.json.write t = .ok text ∧ readSnapshot text = .ok (Snapshot.ofTree t) ∧
        ∀ source' t', parseTree source' = .ok t' → (Snapshot.ofTree t').toData.depth < 128 →
          Format.json.write t' = .ok text → Snapshot.ofTree t' = Snapshot.ofTree t := by
  have hread {source : String} {t : Tree} (h : parseTree source = .ok t)
      (hdepth : (Snapshot.ofTree t).toData.depth < 128) :
      readSnapshot (pretty (Snapshot.ofTree t).toData) = .ok (Snapshot.ofTree t) :=
    readSnapshot_write Layout.blank_pretty (count_lt_of_parseTree h) (Nat.le_of_lt_succ hdepth)
  constructor
  · intro s hcounts hdepth
    have hle : s.toData.depth ≤ maxDepth := Nat.le_of_lt_succ hdepth
    exact ⟨readSnapshot_write Layout.blank_compact hcounts hle,
      readSnapshot_write Layout.blank_pretty hcounts hle⟩
  · intro source t h hdepth
    refine ⟨_, rfl, hread h hdepth, fun source' t' h' hdepth' hwrite => ?_⟩
    have htext : pretty (Snapshot.ofTree t').toData = pretty (Snapshot.ofTree t).toData :=
      Except.ok.inj hwrite
    have hback := hread h' hdepth'
    rw [htext, hread h hdepth] at hback
    exact (Except.ok.inj hback).symm

/-- Escapes of every kind, the largest count, a place that was left open, and the JSON of a text. -/
theorem escapes_survive :
    let s : Snapshot :=
      ⟨.element, "\"\\\u0008\u000c\n", .ofList [("\r\t", "\u001f/"), ("é", "")], Nat.pow 2 64 - 1,
        [⟨.inProgress, "", .empty, 0, []⟩]⟩
    (readSnapshot (compact s.toData) = .ok s ∧ readSnapshot (pretty s.toData) = .ok s) ∧
    ∃ t text, parseTree "ul>li[title='\"']*3" = .ok t ∧ Format.json.write t = .ok text ∧
      readSnapshot text = .ok (Snapshot.ofTree t) := by
  intro s
  obtain ⟨hsnapshots, hparsed⟩ := snapshots_survive
  refine ⟨hsnapshots _ (by decide +kernel) (by decide +kernel), ?_⟩
  have hparse : (parseTree "ul>li[title='\"']*3").toOption.map
      (fun t => decide ((Snapshot.ofTree t).toData.depth < 128)) = some true := by
    decide +kernel
  obtain ⟨t, ht, hdepth⟩ := exists_parseTree hparse
  obtain ⟨text, htext, hread, -⟩ := hparsed _ t ht (of_decide_eq_true hdepth)
  exact ⟨t, text, ht, htext, hread⟩

end Json
end Shorthand
