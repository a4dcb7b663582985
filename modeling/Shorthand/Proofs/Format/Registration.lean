import Mathlib.Data.List.Induction
import Shorthand.Expansion
import Shorthand.Proofs.Text.Bytes

/-! # What is registered

Bisection needs the formats of a registry in the order of their names, and nothing but `register`
keeps them so (`Registry.Ascending.register`). Where they are, a registry holds the format registered
last under each name and no other, and expansion goes through it (`Registry.serves_registered`). -/

namespace Shorthand

/-- The format is registered, and no other of its name behind it. -/
def Format.LastOf (f : Format) (fs : List Format) : Prop :=
  ∃ before after, fs = before ++ f :: after ∧ ∀ g ∈ after, g.name ≠ f.name

theorem Format.lastOf_concat {f g : Format} {fs : List Format} :
    g.LastOf (fs ++ [f]) ↔ g = f ∨ g.LastOf fs ∧ g.name ≠ f.name := by
  constructor
  · rintro ⟨before, after, hfs, hafter⟩
    rcases List.eq_nil_or_concat after with rfl | ⟨after, h, rfl⟩
    · exact .inl (List.cons.inj (List.append_inj' hfs rfl).2).1.symm
    · have hsplit : fs ++ [f] = (before ++ g :: after) ++ [h] := by simpa using hfs
      obtain ⟨rfl, hlast⟩ := List.append_inj' hsplit rfl
      obtain rfl : f = h := (List.cons.inj hlast).1
      exact .inr ⟨⟨before, after, rfl, fun k hk => hafter k (by simp [hk])⟩,
        (hafter f (by simp)).symm⟩
  · rintro (rfl | ⟨⟨before, after, rfl, hafter⟩, hne⟩)
    · exact ⟨fs, [], rfl, List.forall_mem_nil _⟩
    · refine ⟨before, after ++ [f], by simp, fun k hk => ?_⟩
      rcases List.mem_append.1 hk with hk | hk
      · exact hafter k hk
      · rw [List.mem_singleton.1 hk]
        exact hne.symm

/-- Among formats of a name one is the last. -/
theorem Format.exists_lastOf {name : String} {fs : List Format} (h : ∃ f ∈ fs, f.name = name) :
    ∃ f : Format, f.LastOf fs ∧ f.name = name := by
  induction fs using List.reverseRecOn with
  | nil => simp at h
  | append_singleton fs f ih =>
    by_cases hf : f.name = name
    · exact ⟨f, lastOf_concat.2 (.inl rfl), hf⟩
    · obtain ⟨g, hg, hname⟩ := h
      have hg' : g ∈ fs := by
        rcases List.mem_append.1 hg with hg | hg
        · exact hg
        · exact absurd (List.mem_singleton.1 hg ▸ hname) hf
      obtain ⟨k, hk, hkname⟩ := ih ⟨g, hg', hname⟩
      exact ⟨k, lastOf_concat.2 (.inr ⟨hk, fun he => hf (he.symm.trans hkname)⟩), hkname⟩

namespace Registry
variable {r : Registry} {f g : Format} {name : String} {before after : List Format}

/-- The formats are in increasing order of their names. -/
def Ascending (r : Registry) : Prop := r.toList.Pairwise (·.name < ·.name)

/-- Behind the place that bisection finds all names are above the given one, and the name there is
not, unless all of them are. -/
theorem Ascending.bisect (h : r.Ascending) {base size : Nat} (hsize : 0 < size)
    (hend : base + size ≤ r.toList.length)
    (hbase : base = 0 ∨ ∀ f ∈ r.toList[base]?, f.name ≤ name)
    (habove : ∀ j, base + size ≤ j → ∀ f ∈ r.toList[j]?, name < f.name) :
    let i := Registry.bisect r.formats name base size
    i < r.toList.length ∧ (i = 0 ∨ ∀ f ∈ r.toList[i]?, f.name ≤ name) ∧
      ∀ j, i < j → ∀ f ∈ r.toList[j]?, name < f.name := by
  fun_induction Registry.bisect r.formats name base size with
  | case1 base size hlt middle hany ih =>
    -- the name in the middle is above the given one, and so are all names behind it
    rw [← Array.getElem?_toList, Option.any_eq_true] at hany
    obtain ⟨f, hf, hname⟩ := hany
    obtain ⟨hmiddle, rfl⟩ := List.getElem?_eq_some_iff.1 hf
    refine ih (by omega) (by omega) hbase fun j hj g hg => ?_
    obtain ⟨hjlt, rfl⟩ := List.getElem?_eq_some_iff.1 hg
    rcases Nat.eq_or_lt_of_le (show middle ≤ j by omega) with rfl | hj
    · exact of_decide_eq_true hname
    · exact String.lt_trans (of_decide_eq_true hname)
        (List.pairwise_iff_getElem.1 h _ _ hmiddle hjlt hj)
  | case2 base size hlt middle hany ih =>
    refine ih (by omega) (by omega) (.inr fun f hf => ?_) fun j hj => habove j (by omega)
    rw [← Array.getElem?_toList, show r.formats.toList[middle]? = some f from hf] at hany
    exact String.not_lt.1 fun hlt' => hany (decide_eq_true hlt')
  | case3 base size hle => exact ⟨by omega, hbase, fun j hj => habove j (by omega)⟩

/-- The place of a name among the formats. -/
inductive Located (r : Registry) (name : String) : Place → Prop
  | found {before after : List Format} {f : Format} (h : r.toList = before ++ f :: after)
    (hf : f.name = name) (hbefore : ∀ g ∈ before, g.name < name)
    (hafter : ∀ g ∈ after, name < g.name) : Located r name (.found before.length f)
  | missing {before after : List Format} (h : r.toList = before ++ after)
    (hbefore : ∀ g ∈ before, g.name < name) (hafter : ∀ g ∈ after, name < g.name) :
    Located r name (.missing before.length)

theorem place_eq (r : Registry) (name : String) : r.place name =
    let i := Registry.bisect r.formats name 0 r.toList.length
    match r.toList[i]? with
    | none => .missing i
    | some f =>
      if f.name = name then .found i f
      else if f.name < name then .missing (i + 1)
      else .missing i := by
  rw [place, ← Array.getElem?_toList]
  rfl

theorem Ascending.located (h : r.Ascending) (name : String) : r.Located name (r.place name) := by
  rw [place_eq]
  by_cases hempty : r.toList = []
  · rw [hempty, List.length_nil, Registry.bisect, if_neg (by omega)]
    exact @Located.missing r name [] [] hempty (List.forall_mem_nil _) (List.forall_mem_nil _)
  have hend (j : Nat) (hj : 0 + r.toList.length ≤ j) : ∀ f ∈ r.toList[j]?, name < f.name := by
    rw [List.getElem?_eq_none (by omega)]
    exact fun f hf => nomatch hf
  obtain ⟨hi, hlow, hhigh⟩ := h.bisect (List.length_pos_iff.2 hempty)
    (Nat.le_of_eq (Nat.zero_add _)) (.inl rfl) hend
  generalize Registry.bisect r.formats name 0 r.toList.length = i at hi hlow hhigh ⊢
  obtain ⟨before, f, after, hlist, rfl⟩ : ∃ before f after, r.toList = before ++ f :: after ∧
      before.length = i :=
    ⟨r.toList.take i, r.toList[i], r.toList.drop (i + 1), by simp, by simp; omega⟩
  have hget : r.toList[before.length]? = some f := by
    rw [hlist, List.getElem?_append_right (Nat.le_refl _), Nat.sub_self]
    rfl
  have hsorted := h
  rw [Ascending, hlist, List.pairwise_append, List.pairwise_cons] at hsorted
  have hbefore : ∀ g ∈ before, g.name < name := fun g hg => by
    have hlt : g.name < f.name := hsorted.2.2 g hg f List.mem_cons_self
    rcases hlow with hzero | hlow
    · rw [List.length_eq_zero_iff.1 hzero] at hg
      cases hg
    · exact String.not_le.1 fun hle => String.not_le.2 hlt (String.le_trans (hlow f hget) hle)
  have hafter : ∀ g ∈ after, name < g.name := fun g hg => by
    obtain ⟨k, hk⟩ := List.mem_iff_getElem?.1 hg
    refine hhigh (before.length + (k + 1)) (by omega) g ?_
    rw [hlist, List.getElem?_append_right (by omega), Nat.add_sub_cancel_left]
    exact hk
  simp only [hget]
  split
  · next hf => exact .found hlist hf hbefore hafter
  · next hne =>
    split
    · next hlt =>
      have hplace : before.length + 1 = (before ++ [f]).length := by simp
      rw [hplace]
      refine .missing (by simp [hlist]) ?_ hafter
      exact List.forall_mem_append.2 ⟨hbefore, List.forall_mem_singleton.2 hlt⟩
    · next hle =>
      have hlt : name < f.name := String.not_le.1 fun hle' =>
        hne (String.le_antisymm hle' (String.not_lt.1 hle))
      exact .missing hlist hbefore (List.forall_mem_cons.2 ⟨hlt, hafter⟩)

/-! ### Registration -/

theorem insertIdx_length (before after : List Format) (f : Format) :
    (before ++ after).insertIdx before.length f = before ++ f :: after := by
  induction before with
  | nil => rfl
  | cons g before ih => exact congrArg (g :: ·) ih

/-- A format is put between those with smaller and those with greater names, and takes the place of
what had its name. -/
theorem Ascending.register_eq (h : r.Ascending) (f : Format) : ∃ before former after,
    r.toList = before ++ former ++ after ∧ (r.register f).toList = before ++ f :: after ∧
      (∀ g ∈ former, g.name = f.name) ∧
      (∀ g ∈ before, g.name < f.name) ∧ ∀ g ∈ after, f.name < g.name := by
  rw [register]
  generalize hplace : r.place f.name = place
  have hlocated := h.located f.name
  rw [hplace] at hlocated
  cases hlocated with
  | @found before after g hlist hg hbefore hafter =>
    refine ⟨before, [g], after, by simp [hlist], ?_, by simpa using hg, hbefore, hafter⟩
    show (r.formats.setIfInBounds before.length f).toList = before ++ f :: after
    rw [Array.toList_setIfInBounds, show r.formats.toList = before ++ g :: after from hlist,
      List.set_append_right _ _ (Nat.le_refl _), Nat.sub_self]
    rfl
  | @missing before after hlist hbefore hafter =>
    refine ⟨before, [], after, by simp [hlist], ?_, List.forall_mem_nil _, hbefore, hafter⟩
    have hlength : before.length ≤ r.formats.size := by
      show before.length ≤ r.toList.length
      rw [hlist, List.length_append]
      omega
    show (r.formats.insertIdxIfInBounds before.length f).toList = before ++ f :: after
    rw [Array.insertIdxIfInBounds, dif_pos hlength, Array.toList_insertIdx,
      show r.formats.toList = before ++ after from hlist, insertIdx_length]

theorem Ascending.register (h : r.Ascending) (f : Format) : (r.register f).Ascending := by
  obtain ⟨before, former, after, hlist, hregister, -, hbefore, hafter⟩ := h.register_eq f
  have hsorted : (before ++ after).Pairwise (·.name < ·.name) := by
    refine List.Pairwise.sublist ?_ h
    rw [hlist, List.append_assoc]
    exact (List.sublist_append_right former after).append_left before
  rw [List.pairwise_append] at hsorted
  rw [Ascending, hregister, List.pairwise_append, List.pairwise_cons]
  refine ⟨hsorted.1, ⟨hafter, hsorted.2.1⟩, fun g hg => List.forall_mem_cons.2 ⟨hbefore g hg, ?_⟩⟩
  exact hsorted.2.2 g hg

theorem Ascending.mem_register (h : r.Ascending) :
    g ∈ (r.register f).toList ↔ g = f ∨ g ∈ r.toList ∧ g.name ≠ f.name := by
  obtain ⟨before, former, after, hlist, hregister, hformer, hbefore, hafter⟩ := h.register_eq f
  have hne : ∀ g ∈ before ++ after, g.name ≠ f.name := fun g hg he => by
    rcases List.mem_append.1 hg with hg | hg
    · exact String.lt_irrefl _ (he ▸ hbefore g hg)
    · exact String.lt_irrefl _ (he ▸ hafter g hg)
  rw [hlist, hregister]
  constructor
  · intro hg
    rcases List.mem_append.1 hg with hg | hg
    · exact .inr ⟨by simp [hg], hne g (by simp [hg])⟩
    · rcases List.mem_cons.1 hg with rfl | hg
      · exact .inl rfl
      · exact .inr ⟨by simp [hg], hne g (by simp [hg])⟩
  · rintro (rfl | ⟨hg, hname⟩)
    · simp
    · rcases List.mem_append.1 hg with hg | hg
      · rcases List.mem_append.1 hg with hg | hg
        · simp [hg]
        · exact absurd (hformer g hg) hname
      · simp [hg]

theorem Ascending.lookup_eq_ok (h : r.Ascending) (hf : f ∈ r.toList) : r.lookup f.name = .ok f := by
  rw [lookup]
  generalize hplace : r.place f.name = place
  have hlocated := h.located f.name
  rw [hplace] at hlocated
  cases hlocated with
  | @found before after g hlist hg hbefore hafter =>
    rw [hlist] at hf
    rcases List.mem_append.1 hf with hf | hf
    · exact absurd (hbefore f hf) (String.lt_irrefl _)
    · rcases List.mem_cons.1 hf with rfl | hf
      · rfl
      · exact absurd (hafter f hf) (String.lt_irrefl _)
  | @missing before after hlist hbefore hafter =>
    rw [hlist] at hf
    rcases List.mem_append.1 hf with hf | hf
    · exact absurd (hbefore f hf) (String.lt_irrefl _)
    · exact absurd (hafter f hf) (String.lt_irrefl _)

theorem Ascending.lookup_eq_error (h : r.Ascending) (hname : ∀ f ∈ r.toList, f.name ≠ name) :
    r.lookup name = .error (.unknown name r.names) := by
  rw [lookup]
  generalize hplace : r.place name = place
  have hlocated := h.located name
  rw [hplace] at hlocated
  cases hlocated with
  | @found before after g hlist hg hbefore hafter =>
    exact absurd hg (hname g (by simp [hlist]))
  | missing => rfl

/-! ### Runs -/

/-- A registry holds what has been registered last under each name. -/
structure Holds (r : Registry) (fs : List Format) : Prop where
  ascending : r.Ascending
  mem_iff : ∀ f, f ∈ r.toList ↔ f.LastOf fs

theorem Holds.register {fs : List Format} (h : r.Holds fs) (f : Format) :
    (r.register f).Holds (fs ++ [f]) where
  ascending := h.ascending.register f
  mem_iff g := by rw [h.ascending.mem_register, Format.lastOf_concat, h.mem_iff]

theorem holds_empty : empty.Holds [] where
  ascending := .nil
  mem_iff f := by simp [Format.LastOf, empty, toList]

theorem Holds.registerAll {fs : List Format} (h : r.Holds fs) (gs : List Format) :
    (gs.foldl Registry.register r).Holds (fs ++ gs) := by
  induction gs generalizing r fs with
  | nil => rwa [List.append_nil]
  | cons g gs ih =>
    rw [List.append_cons]
    exact ih (h.register g)

theorem holds_standard : standard.Holds Format.standard := holds_empty.registerAll _

/-- A registry serves the names of `fs`, each with the last format of that name. -/
structure Serves (r : Registry) (fs : List Format) : Prop where
  ascending : r.names.Pairwise fun a b => Text.bytes a < Text.bytes b
  mem_names : ∀ name, name ∈ r.names ↔ ∃ f ∈ fs, f.name = name
  known : ∀ name, (∃ f ∈ fs, f.name = name) → ∃ f : Format, f.LastOf fs ∧ f.name = name ∧
    r.lookup name = .ok f ∧
    ∀ source, expand r name source =
      match parseTree source with
      | .error e => .error (.parse e)
      | .ok t => (f.write t).mapError .format
  unknown : ∀ name, (∀ f ∈ fs, f.name ≠ name) →
    r.lookup name = .error (.unknown name r.names) ∧
    ∀ source, expand r name source = .error (.format (.unknown name r.names))

theorem Holds.serves {fs : List Format} (h : r.Holds fs) : r.Serves fs := by
  have hmem (name : String) : name ∈ r.names ↔ ∃ f ∈ fs, f.name = name := by
    rw [names, List.mem_map]
    constructor
    · rintro ⟨f, hf, hname⟩
      obtain ⟨before, after, rfl, -⟩ := (h.mem_iff f).1 hf
      exact ⟨f, by simp, hname⟩
    · intro hname
      obtain ⟨f, hf, hname⟩ := Format.exists_lastOf hname
      exact ⟨f, (h.mem_iff f).2 hf, hname⟩
  constructor
  case ascending => exact (List.pairwise_map.2 h.ascending).imp Text.bytes_lt_bytes
  case mem_names => exact hmem
  case known =>
    intro name hname
    obtain ⟨f, hf, rfl⟩ := Format.exists_lastOf hname
    have hlookup := h.ascending.lookup_eq_ok ((h.mem_iff f).2 hf)
    refine ⟨f, hf, rfl, hlookup, fun source => ?_⟩
    rw [expand, hlookup]
    cases parseTree source <;> rfl
  case unknown =>
    intro name hname
    have hlookup : r.lookup name = .error (.unknown name r.names) := by
      refine h.ascending.lookup_eq_error fun f hf he => ?_
      obtain ⟨g, hg, hgname⟩ := (hmem name).1 (List.mem_map.2 ⟨f, hf, he⟩)
      exact hname g hg hgname
    refine ⟨hlookup, fun source => ?_⟩
    rw [expand, hlookup]
    rfl

/-- Whatever is registered in an empty registry or in the standard one, and in whatever order, the
registry serves all names it was given, with the format registered last under each of them. -/
theorem serves_registered (fs : List Format) :
    (fs.foldl Registry.register .empty).Serves fs ∧
      (fs.foldl Registry.register .standard).Serves (Format.standard ++ fs) :=
  ⟨(holds_empty.registerAll fs).serves, (holds_standard.registerAll fs).serves⟩

/-- A name that begins with another one, an empty one, and one that is not ASCII. -/
example :
    let named (name : String) : Format := ⟨name, "", fun _ => .ok ""⟩
    ((["é", "e", "", "yaml", "ea", "e"].map named).foldl Registry.register .standard).names =
      ["", "e", "ea", "json", "markup", "treeviz", "yaml", "é"] := by
  decide +kernel

end Registry
end Shorthand
