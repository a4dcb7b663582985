import Mathlib.Data.List.Nodup
import Shorthand.Config.Layer

/-! # Layers setting by setting

Of all the layers that give a setting only one counts: the last override, or else the last file, or
else the defaults (`load_layers`). Tables of files are merged and not replaced, so a file that gives
one setting of a section leaves the others to the files below it. -/

namespace Shorthand.Config

/-- What is under a name, whatever the case of its letters. -/
def valueOf? {α : Type} (entries : List (String × α)) (name : String) : Option α :=
  (entries.find? fun e => Key.fold e.1.toList = name).map (·.2)

/-- No two names differ in the case of their letters only. -/
def Distinct {α : Type} (entries : List (String × α)) : Prop :=
  (entries.map fun e => Key.fold e.1.toList).Nodup

instance {α : Type} (entries : List (String × α)) : Decidable (Distinct entries) :=
  inferInstanceAs (Decidable (List.Nodup _))

section entry
variable {α β : Type} {entries : List (String × α)} {e : String × α} {name : String}

theorem valueOf?_cons : valueOf? (e :: entries) name =
    if Key.fold e.1.toList = name then some e.2 else valueOf? entries name := by
  unfold valueOf?
  rw [List.find?_cons]
  split <;> simp_all

theorem valueOf?_map (f : α → β) :
    valueOf? (entries.map fun e => (e.1, f e.2)) name = (valueOf? entries name).map f := by
  induction entries with
  | nil => rfl
  | cons e entries ih =>
    rw [List.map_cons, valueOf?_cons, valueOf?_cons, ih]
    split <;> rfl

theorem Distinct.tail (h : Distinct (e :: entries)) : Distinct entries :=
  (List.nodup_cons.1 h).2

/-- The name of the first entry is not there again. -/
theorem Distinct.valueOf?_eq_none (h : Distinct (e :: entries)) :
    valueOf? entries (Key.fold e.1.toList) = none := by
  have hnot := (List.nodup_cons.1 h).1
  unfold valueOf?
  rw [Option.map_eq_none_iff, List.find?_eq_none]
  intro e' he' heq
  exact hnot (List.mem_map.2 ⟨e', he', of_decide_eq_true heq⟩)

end entry

namespace Key
variable {s : String} {k : Key} {name : List Char}

theorem isNameChar_of_toLower {c : Char} (h : c.toLower.isLower) : isNameChar c := by
  have halpha : c.isAlpha := by
    refine Bool.or_eq_true_iff.2 ?_
    unfold Char.toLower at h
    split at h
    · next hupper =>
      left
      exact decide_eq_true hupper
    · exact .inr h
  simp [isNameChar, Char.isAlphanum, halpha]

/-- Whatever folds to lowercase letters is a name. -/
theorem isNameChar_of_fold (h : (fold name).toList.all Char.isLower) : ∀ c ∈ name, isNameChar c := by
  intro c hc
  refine isNameChar_of_toLower (List.all_eq_true.1 h _ ?_)
  rw [fold, String.toList_ofList]
  exact List.mem_map_of_mem hc

/-- A key is a single name, or it leads through one. -/
theorem of_parse? (h : parse? s = some k) : k = ofName s ∨
    (∃ c ∈ s.toList, ¬ isNameChar c) ∧ ∃ a path, k.path = .field a :: path := by
  unfold parse? at h
  obtain ⟨⟨n, rest⟩, hname, h⟩ := Option.bind_eq_some_iff.1 h
  obtain ⟨steps, hsteps, h⟩ := Option.bind_eq_some_iff.1 h
  cases h
  unfold name? at hname
  split at hname
  · cases hname
  · cases hname
    -- Either the name is the whole text, or something stands behind it that no name can have.
    cases hrest : s.toList.dropWhile isNameChar with
    | nil =>
      have hall : s.toList.takeWhile isNameChar = s.toList := by
        have happend := List.takeWhile_append_dropWhile (p := isNameChar) (l := s.toList)
        rwa [hrest, List.append_nil] at happend
      rw [hrest] at hsteps
      cases hsteps
      left
      simp [ofName, hall]
    | cons c cs =>
      right
      have hc : ¬ isNameChar c := by
        have hhead := List.head?_dropWhile_not isNameChar s.toList
        rw [hrest] at hhead
        simpa using hhead
      refine ⟨⟨c, (List.dropWhile_sublist isNameChar).subset ?_, hc⟩, ?_⟩
      · rw [hrest]
        exact List.mem_cons_self
      · rw [hrest] at hsteps
        unfold steps? at hsteps
        obtain ⟨⟨step, rest⟩, -, hsteps⟩ := Option.bind_eq_some_iff.1 hsteps
        obtain ⟨more, -, hsteps⟩ := Option.bind_eq_some_iff.1 hsteps
        cases hsteps
        exact ⟨_, _, rfl⟩

theorem topKey_cases (s : String) : topKey s = ofName s ∨
    (∃ c ∈ s.toList, ¬ isNameChar c) ∧ ∃ a path, (topKey s).path = .field a :: path := by
  unfold topKey
  cases h : parse? s with
  | none => exact .inl rfl
  | some k => exact of_parse? h

end Key
/-- The settings that a run has. -/
inductive Setting
  | format
  | trailingNewline
  | level
deriving DecidableEq, Repr

namespace Setting
variable {x y : Setting}

def all : List Setting := [format, trailingNewline, level]

theorem mem_all (x : Setting) : x ∈ all := by cases x <;> decide

/-- The section that a setting belongs to. -/
def home : Setting → Section
  | format | trailingNewline => outputSection
  | level => loggingSection

def name : Setting → String
  | format => "format"
  | trailingNewline => "trailing_newline"
  | level => "level"

/-- The key of a setting. -/
def key (x : Setting) : Key := ⟨[.field x.home.name], .field x.name⟩

theorem name_injective (h : x.name = y.name) : x = y := by
  cases x <;> cases y <;> first | rfl | exact absurd h (by decide)

/-- The values of the right type. -/
def takes : Setting → Scalar → Bool
  | format, .text _ | level, .text _ | trailingNewline, .boolean _ => true
  | _, _ => false

/-- The value that a setting has when no layer gives one. -/
def default : Setting → Scalar
  | format => .text "markup"
  | trailingNewline => .boolean true
  | level => .text "warn"

end Setting

/-- The value of one of the settings. -/
def Settings.get (s : Settings) : Setting → Scalar
  | .format => .text s.format
  | .trailingNewline => .boolean s.trailingNewline
  | .level => .text s.level

/-! ### Documents -/

/-- The value in a document of the types that settings have. -/
def Scalar.ofToml? : Toml.Value → Option Scalar
  | .text s => some (.text s)
  | .boolean b => some (.boolean b)
  | _ => none

namespace Setting

/-- What a document gives for a setting. -/
def inDocument? (x : Setting) (document : Toml.Entries) : Option Scalar :=
  match valueOf? document x.home.name with
  | some (.table entries) => (valueOf? entries x.name).bind Scalar.ofToml?
  | _ => none

/-- The section of a setting is a table, if it is there, and so is a value of the right type. -/
def fits (x : Setting) (document : Toml.Entries) : Bool :=
  match valueOf? document x.home.name with
  | some (.table entries) =>
    Distinct entries ∧ ∀ v ∈ valueOf? entries x.name, ∃ s ∈ Scalar.ofToml? v, x.takes s
  | some _ => false
  | none => true

end Setting

/-- A document gives its settings under their own names: none of its keys at the top leads into a
section. -/
structure Proper (document : Toml.Entries) : Prop where
  distinct : Distinct document
  direct : ∀ e ∈ document, ∀ x ∈ Setting.all,
    (topKey e.1).path.head? ≠ some (.field x.home.name)
  fits : ∀ x ∈ Setting.all, x.fits document

instance (document : Toml.Entries) : Decidable (Proper document) :=
  decidable_of_iff (Distinct document ∧ (∀ e ∈ document, ∀ x ∈ Setting.all,
    (topKey e.1).path.head? ≠ some (.field x.home.name)) ∧ ∀ x ∈ Setting.all, x.fits document)
    ⟨fun ⟨hdistinct, hdirect, hfits⟩ => ⟨hdistinct, hdirect, hfits⟩,
      fun ⟨hdistinct, hdirect, hfits⟩ => ⟨hdistinct, hdirect, hfits⟩⟩

/-- The keys of a file and what they stand for. -/
def File.document? (file : File) : Option Toml.Entries :=
  match Toml.parse file.contents with
  | .ok (.table document) => some document
  | _ => none

/-- The file holds a document, and that is a proper one. -/
def File.Proper (file : File) : Prop := ∃ document ∈ file.document?, Config.Proper document

instance (file : File) : Decidable file.Proper :=
  inferInstanceAs (Decidable (∃ document ∈ file.document?, Config.Proper document))

namespace Value
variable {root v target : Value} {key other : String} {x y : Setting} {origin : Option String}
  {entries : Entries}

/-- The scalar that a value is. -/
def scalar? : Value → Option Scalar
  | scalar _ s => some s
  | _ => none

/-- The value of a setting in a configuration. -/
def setting? (root : Value) (x : Setting) : Option Scalar :=
  ((root.find? x.home.name).bind (·.find? x.name)).bind scalar?

theorem find?_put_scalar (s : Scalar) :
    (put key (scalar origin s) target).find? other =
      if other = key then some (scalar origin s) else target.find? other := by
  unfold put
  exact find?_insert ..

theorem find?_put_table :
    (put key (table origin entries) target).find? other = if other = key
      then some (putAll entries ((target.find? key).getD (table none []))) else target.find? other := by
  unfold put
  exact find?_insert ..

theorem find?_put_of_ne (h : other ≠ key) : (put key v target).find? other = target.find? other := by
  cases v with
  | scalar origin s => rw [find?_put_scalar, if_neg h]
  | list origin items =>
    unfold put
    rw [find?_insert, if_neg h]
  | table origin entries => rw [find?_put_table, if_neg h]

/-- What is put under a name meets only what is under that name. -/
theorem find?_put_congr (h : root.find? key = target.find? key) :
    (put key v root).find? key = (put key v target).find? key := by
  cases v with
  | scalar origin s => rw [find?_put_scalar, find?_put_scalar, h]
  | list origin items =>
    unfold put
    rw [find?_insert, find?_insert, h]
  | table origin entries => rw [find?_put_table, find?_put_table, h]

/-- The other entries of a table do not touch what is under a name. -/
theorem find?_putAll (hdistinct : Distinct entries)
    (hscalar : ∀ v ∈ valueOf? entries key, ∃ origin s, v = scalar origin s) :
    (putAll entries target).find? key = (valueOf? entries key).or (target.find? key) := by
  induction entries generalizing target with
  | nil => rfl
  | cons e entries ih =>
    obtain ⟨name, v⟩ := e
    unfold putAll
    rw [valueOf?_cons] at hscalar ⊢
    by_cases hname : Key.fold name.toList = key
    · have hnone := hdistinct.valueOf?_eq_none
      rw [hname] at hnone
      rw [if_pos hname] at hscalar ⊢
      obtain ⟨origin, s, rfl⟩ := hscalar v rfl
      rw [ih hdistinct.tail (by simp [hnone]), hnone, hname, find?_put_scalar, if_pos rfl]
      rfl
    · rw [if_neg hname] at hscalar ⊢
      rw [ih hdistinct.tail hscalar, find?_put_of_ne (Ne.symm hname)]

theorem setting?_assign (root : Value) (x y : Setting) (s : Scalar) :
    (root.assign x.key (scalar none s)).setting? y = if y = x then some s else root.setting? y := by
  have hfind : (root.assign x.key (scalar none s)).find? y.home.name =
      if y.home.name = x.home.name then
        some (put x.name (scalar none s) ((root.find? x.home.name).getD nothing))
      else root.find? y.home.name := find?_insert ..
  have hgetD (name : String) : ((root.find? x.home.name).getD nothing).find? name =
      (root.find? x.home.name).bind (·.find? name) := by
    cases root.find? x.home.name <;> rfl
  rw [setting?, hfind]
  by_cases hyx : y = x
  · subst hyx
    rw [if_pos rfl, if_pos rfl, Option.bind_some, find?_put_scalar, if_pos rfl]
    rfl
  · rw [if_neg hyx, setting?]
    split
    · next hhome =>
      have hname : y.name ≠ x.name := fun heq => hyx (Setting.name_injective heq)
      rw [Option.bind_some, find?_put_scalar, if_neg hname, hgetD, hhome]
    · rfl

/-! ### Files -/

/-- A key at the top of a document touches only what it leads into. -/
theorem find?_assign_topKey {name home : String}
    (hdirect : (topKey name).path.head? ≠ some (.field home))
    (hname : Key.fold name.toList ≠ home) : (root.assign (topKey name) v).find? home = root.find? home := by
  rcases Key.topKey_cases name with hkey | ⟨-, a, path, hpath⟩
  · rw [hkey]
    exact find?_put_of_ne (Ne.symm hname)
  · have ha : home ≠ a := by
      rintro rfl
      exact hdirect (by rw [hpath]; rfl)
    rw [assign, hpath]
    exact (find?_insert ..).trans (if_neg ha)

/-- A name of letters is a key that is just this name. -/
theorem assign_topKey_of_fold {name : String} (h : (Key.fold name.toList).toList.all Char.isLower) :
    root.assign (topKey name) v = put (Key.fold name.toList) v root := by
  rcases Key.topKey_cases name with hkey | ⟨⟨c, hc, hnot⟩, -⟩
  · rw [hkey]
    rfl
  · exact absurd (Key.isNameChar_of_fold h c hc) hnot

/-- Only one entry of a document is merged into what is under a name. -/
theorem find?_merge {document : Entries} {home : String} (hhome : home.toList.all Char.isLower)
    (hdistinct : Distinct document)
    (hdirect : ∀ e ∈ document, (topKey e.1).path.head? ≠ some (.field home)) :
    (merge document root).find? home = match valueOf? document home with
      | some v => (put home v root).find? home
      | none => root.find? home := by
  induction document generalizing root with
  | nil => rfl
  | cons e document ih =>
    obtain ⟨name, v⟩ := e
    rw [List.forall_mem_cons] at hdirect
    have hmerge : merge ((name, v) :: document) root =
        merge document (root.assign (topKey name) v) := rfl
    rw [hmerge, ih hdistinct.tail hdirect.2, valueOf?_cons]
    -- Only the entry of this name bears on the section, and there is no other one of it.
    by_cases hname : Key.fold name.toList = home
    · have hnone := hdistinct.valueOf?_eq_none
      rw [hname] at hnone
      rw [← hname] at hhome
      rw [hnone, if_pos hname, assign_topKey_of_fold hhome, hname]
    · have hother : (root.assign (topKey name) v).find? home = root.find? home :=
        find?_assign_topKey hdirect.1 hname
      rw [if_neg hname]
      cases valueOf? document home with
      | none => exact hother
      | some w => exact find?_put_congr hother

theorem ofTomlEntries_eq (name : String) (document : Toml.Entries) :
    ofTomlEntries name document = document.map fun e => (e.1, ofToml name e.2) := by
  induction document with
  | nil => rfl
  | cons e document ih =>
    obtain ⟨key, v⟩ := e
    unfold ofTomlEntries
    rw [ih]
    rfl

theorem distinct_ofTomlEntries {name : String} {document : Toml.Entries} (h : Distinct document) :
    Distinct (ofTomlEntries name document) := by
  unfold Distinct
  rw [ofTomlEntries_eq, List.map_map]
  exact h

theorem ofToml_of_scalar {name : String} {v : Toml.Value} {s : Scalar} (h : Scalar.ofToml? v = some s) :
    ofToml name v = scalar (some name) s := by
  unfold Scalar.ofToml? at h
  split at h <;> cases h <;> rfl

end Value

theorem Setting.isLower_home (x : Setting) : x.home.name.toList.all Char.isLower := by
  cases x <;> decide

/-- A document gives the settings that it has, and leaves the others alone. -/
theorem Proper.setting?_merge {document : Toml.Entries} (h : Proper document) {root : Value}
    {x : Setting} {former : Scalar} (hroot : root.setting? x = some former) (name : String) :
    (merge (Value.ofTomlEntries name document) root).setting? x =
      some ((x.inDocument? document).getD former) := by
  obtain ⟨v, hv, hformer⟩ := Option.bind_eq_some_iff.1 hroot
  obtain ⟨home, hhome, hv⟩ := Option.bind_eq_some_iff.1 hv
  have hdirect : ∀ e ∈ Value.ofTomlEntries name document,
      (topKey e.1).path.head? ≠ some (.field x.home.name) := by
    intro e he
    rw [Value.ofTomlEntries_eq] at he
    obtain ⟨e', he', rfl⟩ := List.mem_map.1 he
    exact h.direct e' he' x x.mem_all
  have hfind : (merge (Value.ofTomlEntries name document) root).find? x.home.name = _ :=
    Value.find?_merge x.isLower_home (Value.distinct_ofTomlEntries h.distinct) hdirect
  have hfits := h.fits x x.mem_all
  rw [Value.ofTomlEntries_eq, valueOf?_map, ← Value.ofTomlEntries_eq] at hfind
  rw [Value.setting?, hfind]
  unfold Setting.inDocument?
  unfold Setting.fits at hfits
  split at hfits
  · next entries hentry =>
    obtain ⟨hdistinct, hscalar⟩ := of_decide_eq_true hfits
    have hentries : ∀ v ∈ valueOf? (Value.ofTomlEntries name entries) x.name,
        ∃ origin s, v = .scalar origin s := by
      intro v hv
      rw [Value.ofTomlEntries_eq, valueOf?_map] at hv
      obtain ⟨w, hw, rfl⟩ := Option.map_eq_some_iff.1 hv
      obtain ⟨s, hs, -⟩ := hscalar w hw
      exact ⟨_, s, Value.ofToml_of_scalar hs⟩
    rw [hentry]
    simp only [Option.map_some, Value.ofToml]
    rw [Value.find?_put_table, if_pos rfl, hhome, Option.getD_some, Option.bind_some,
      Value.find?_putAll (Value.distinct_ofTomlEntries hdistinct) hentries, hv,
      Value.ofTomlEntries_eq, valueOf?_map]
    cases hw : valueOf? entries x.name with
    | none => exact hformer
    | some w =>
      obtain ⟨s, hs, -⟩ := hscalar w hw
      rw [Option.map_some, Value.ofToml_of_scalar hs, Option.bind_some, hs]
      rfl
  · cases hfits
  · next hentry =>
    rw [hentry]
    exact hroot

/-! ### Layers -/

namespace Setting
variable {x : Setting}

def inFile? (x : Setting) (file : File) : Option Scalar := file.document?.bind x.inDocument?

/-- What a layer gives for a setting if it is a file. -/
def fileValue? (x : Setting) : Layer → Option Scalar
  | .file _ _ (some file) => x.inFile? file
  | .file _ _ none | .setting .. => none

/-- What a layer gives for a setting if it is an override. -/
def override? (x : Setting) : Layer → Option Scalar
  | .setting key value => if Key.parse? key = some x.key then some value else none
  | .file .. => none

/-- The value that counts. -/
def value (x : Setting) (layers : List Layer) : Scalar :=
  ((layers.filterMap x.override?).getLast?.or (layers.filterMap x.fileValue?).getLast?).getD x.default

end Setting

namespace Layer

/-- Files give settings under their own names, and overrides give nothing but settings. -/
def Proper : Layer → Prop
  | .file _ _ none => True
  | .file _ _ (some found) => found.Proper
  | .setting key value => ∃ x ∈ Setting.all, Key.parse? key = some x.key ∧ x.takes value

instance : (l : Layer) → Decidable l.Proper
  | .file _ _ none => .isTrue trivial
  | .file _ _ (some found) => inferInstanceAs (Decidable found.Proper)
  | .setting key value =>
    inferInstanceAs (Decidable (∃ x ∈ Setting.all, Key.parse? key = some x.key ∧ x.takes value))

def isFile : Layer → Bool
  | .file .. => true
  | .setting .. => false

/-- The name of a file that should be there. -/
def missing? : Layer → Option String
  | .file true name none => some name
  | _ => none

end Layer

variable {layers layers' : List Layer} {root : Value} {x : Setting}

/-- All settings have values of their types. -/
def Typed (root : Value) : Prop := ∀ x : Setting, ∃ s, root.setting? x = some s ∧ x.takes s

theorem typed_defaults : Typed defaults := by
  intro x
  refine ⟨x.default, ?_, ?_⟩
  · cases x <;> decide
  · cases x <;> rfl

theorem Proper.takes {document : Toml.Entries} (h : Proper document) {s : Scalar}
    (hs : x.inDocument? document = some s) : x.takes s := by
  have hfits := h.fits x x.mem_all
  unfold Setting.inDocument? at hs
  unfold Setting.fits at hfits
  split at hs
  · next entries hentry =>
    rw [hentry] at hfits
    obtain ⟨v, hv, hs⟩ := Option.bind_eq_some_iff.1 hs
    obtain ⟨s', hs', htakes⟩ := (of_decide_eq_true hfits).2 v hv
    rwa [Option.some.inj (hs.symm.trans hs')]
  · cases hs

theorem Layer.Proper.takes_file {l : Layer} (h : l.Proper) {s : Scalar} (hs : x.fileValue? l = some s) :
    x.takes s := by
  unfold Setting.fileValue? at hs
  split at hs
  · obtain ⟨document, hdocument, hproper⟩ := h
    obtain ⟨document', hdocument', hs⟩ := Option.bind_eq_some_iff.1 hs
    obtain rfl := Option.some.inj (hdocument.symm.trans hdocument')
    exact hproper.takes hs
  · cases hs
  · cases hs

theorem Setting.key_injective {y : Setting} (h : x.key = y.key) : x = y := by
  cases x <;> cases y <;> first | rfl | exact absurd h (by decide)

theorem Layer.Proper.takes_override {l : Layer} (h : l.Proper) {s : Scalar}
    (hs : x.override? l = some s) : x.takes s := by
  unfold Setting.override? at hs
  split at hs
  · obtain ⟨y, -, hkey, htakes⟩ := h
    split at hs
    · next hx =>
      obtain rfl := Setting.key_injective (Option.some.inj (hkey.symm.trans hx))
      cases hs
      exact htakes
    · cases hs
  · cases hs

theorem File.Proper.mergeFile {file : File} (h : file.Proper) (hroot : Typed root)
    (required : Bool) (name : String) :
    ∃ root', mergeFile root (.file required name (some file)) = .ok root' ∧
      ∀ x, root'.setting? x = (x.inFile? file).or (root.setting? x) := by
  obtain ⟨document, hdocument, hproper⟩ := h
  refine ⟨merge (Value.ofTomlEntries file.origin document) root, ?_, fun x => ?_⟩
  · unfold File.document? at hdocument
    split at hdocument
    · next parsed hparse =>
      cases hdocument
      simp [Config.mergeFile, hparse, Value.ofToml]
    · cases hdocument
  · obtain ⟨s, hs, -⟩ := hroot x
    rw [hproper.setting?_merge hs, hs, Setting.inFile?, hdocument, Option.bind_some]
    cases x.inDocument? document <;> rfl

theorem getLast?_cons_or {α : Type} (a : α) (as : List α) (former : Option α) :
    (a :: as).getLast?.or former = as.getLast?.or (some a) := by
  rw [List.getLast?_cons]
  cases as.getLast? <;> rfl

/-- A layer is a file that is missing, or it gives its settings. -/
theorem Layer.Proper.mergeFile {l : Layer} (h : l.Proper) (hroot : Typed root) :
    (∃ name, l.missing? = some name ∧ mergeFile root l = .error (.missingFile name)) ∨
      l.missing? = none ∧ ∃ root', mergeFile root l = .ok root' ∧ Typed root' ∧
        ∀ x, root'.setting? x = (x.fileValue? l).or (root.setting? x) := by
  cases l with
  | file required name found =>
    cases found with
    | none =>
      cases required with
      | false => exact .inr ⟨rfl, root, rfl, hroot, fun x => rfl⟩
      | true => exact .inl ⟨name, rfl, rfl⟩
    | some file =>
      obtain ⟨root', hmerge, hsettings⟩ := File.Proper.mergeFile h hroot required name
      refine .inr ⟨by cases required <;> rfl, root', hmerge, fun x => ?_, hsettings⟩
      obtain ⟨s, hs, htakes⟩ := hroot x
      rw [hsettings x, hs]
      cases hvalue : x.inFile? file with
      | none => exact ⟨s, rfl, htakes⟩
      | some s' => exact ⟨s', rfl, h.takes_file (l := .file required name (some file)) hvalue⟩
  | setting key value => exact .inr ⟨rfl, root, rfl, hroot, fun x => rfl⟩

/-- The files are merged in their order, up to one that is missing. -/
theorem foldlM_mergeFile (h : ∀ l ∈ layers, l.Proper) (hroot : Typed root) :
    (∃ name, layers.findSome? Layer.missing? = some name ∧
      layers.foldlM mergeFile root = .error (.missingFile name)) ∨
    layers.findSome? Layer.missing? = none ∧ ∃ root', layers.foldlM mergeFile root = .ok root' ∧
      ∀ x, root'.setting? x = (layers.filterMap x.fileValue?).getLast?.or (root.setting? x) := by
  induction layers generalizing root with
  | nil => exact .inr ⟨rfl, root, rfl, fun x => rfl⟩
  | cons l layers ih =>
    rw [List.forall_mem_cons] at h
    rw [List.findSome?_cons, List.foldlM_cons]
    rcases h.1.mergeFile hroot with ⟨name, hmissing, hmerge⟩ | ⟨hmissing, root', hmerge, hroot', hl⟩
    · rw [hmissing, hmerge]
      exact .inl ⟨name, rfl, rfl⟩
    · rw [hmissing, hmerge]
      rcases ih h.2 hroot' with hlater | ⟨hnone, root'', hlater, hsettings⟩
      · exact .inl hlater
      · refine .inr ⟨hnone, root'', hlater, fun x => ?_⟩
        rw [hsettings x, hl x, List.filterMap_cons]
        cases x.fileValue? l with
        | none => rfl
        | some s => exact (getLast?_cons_or s _ _).symm

theorem overrides_of_proper (h : ∀ l ∈ layers, l.Proper) : ∃ settings, overrides layers = .ok settings ∧
    ∀ (root : Value) (x : Setting),
      (settings.foldl (fun root (k, s) => root.assign k (.scalar none s)) root).setting? x =
        (layers.filterMap x.override?).getLast?.or (root.setting? x) := by
  induction layers with
  | nil => exact ⟨[], rfl, fun root x => rfl⟩
  | cons l layers ih =>
    rw [List.forall_mem_cons] at h
    obtain ⟨settings, hsettings, hvalue⟩ := ih h.2
    cases l with
    | file required name found => exact ⟨settings, hsettings, hvalue⟩
    | setting key s =>
      obtain ⟨x, -, hkey, -⟩ := h.1
      refine ⟨(x.key, s) :: settings, ?_, fun root y => ?_⟩
      · unfold overrides at hsettings ⊢
        rw [List.filterMap_cons]
        show List.mapM _ ((key, s) :: layers.filterMap Layer.setting?) = _
        rw [List.mapM_cons, hsettings]
        simp only [hkey]
        rfl
      · rw [List.foldl_cons, hvalue, Value.setting?_assign, List.filterMap_cons]
        by_cases hyx : y = x
        · subst hyx
          simp only [Setting.override?, hkey, if_true]
          exact (getLast?_cons_or s _ _).symm
        · have hne : ¬ x.key = y.key := fun heq => hyx (Setting.key_injective heq).symm
          simp only [Setting.override?, hkey, Option.some.injEq, hne, if_false, hyx]

theorem exists_of_setting? {s : Scalar} (h : root.setting? x = some s) :
    ∃ origin entries origin', root.find? x.home.name = some (.table origin entries) ∧
      entries.lookup x.name = some (.scalar origin' s) := by
  obtain ⟨v, hv, hs⟩ := Option.bind_eq_some_iff.1 h
  obtain ⟨home, hhome, hv⟩ := Option.bind_eq_some_iff.1 hv
  cases v with
  | scalar origin' s' =>
    cases hs
    cases home with
    | table origin entries => exact ⟨origin, entries, origin', hhome, hv⟩
    | scalar _ _ | list _ _ => cases hv
  | table _ _ | list _ _ => cases hs

theorem Section.read?_table {α : Type} {s : Section} {origin : Option String} {entries : Entries}
    {name : String} {v : Value} {read : String → Value → Except Error α}
    (h : entries.lookup name = some v) :
    s.read? (.table origin entries) name read = (read (s.name ++ "." ++ name) v).map some := by
  simp only [Section.read?, Section.setting?, h]
  rfl

/-- Values of the right types are settings. -/
theorem Typed.ofValue (h : Typed root) :
    ∃ s, Settings.ofValue root = .ok s ∧ ∀ x, root.setting? x = some (s.get x) := by
  obtain ⟨format, hformat, htext⟩ := h .format
  obtain ⟨newline, hnewline, htruth⟩ := h .trailingNewline
  obtain ⟨level, hlevel, hword⟩ := h .level
  obtain ⟨_, output, _, houtput, hf⟩ := exists_of_setting? hformat
  obtain ⟨_, output', _, houtput', hn⟩ := exists_of_setting? hnewline
  obtain ⟨_, logging, _, hlogging, hl⟩ := exists_of_setting? hlevel
  obtain ⟨rfl, rfl⟩ := Value.table.inj (Option.some.inj (houtput.symm.trans houtput'))
  cases format <;> simp only [Setting.takes, reduceCtorEq] at htext
  cases newline <;> simp only [Setting.takes, reduceCtorEq] at htruth
  cases level <;> simp only [Setting.takes, reduceCtorEq] at hword
  next f b l =>
    refine ⟨⟨f, b, l⟩, ?_, fun x => ?_⟩
    · simp only [Setting.home, Setting.name] at houtput hlogging hf hn hl
      simp [Settings.ofValue, Section.value, houtput, hlogging, Section.read?_table hf,
        Section.read?_table hn, Section.read?_table hl, Value.toText, Value.toTruth,
        Section.require, bind, Except.bind, Except.map, pure, Except.pure]
    · cases x with
      | format => exact hformat
      | trailingNewline => exact hnewline
      | level => exact hlevel

theorem takes_value (h : ∀ l ∈ layers, l.Proper) (x : Setting) : x.takes (x.value layers) := by
  unfold Setting.value
  cases hoverride : (layers.filterMap x.override?).getLast? with
  | some s =>
    obtain ⟨l, hl, hs⟩ := List.mem_filterMap.1 (List.mem_of_getLast? hoverride)
    exact (h l hl).takes_override hs
  | none =>
    cases hfile : (layers.filterMap x.fileValue?).getLast? with
    | some s =>
      obtain ⟨l, hl, hs⟩ := List.mem_filterMap.1 (List.mem_of_getLast? hfile)
      exact (h l hl).takes_file hs
    | none => cases x <;> rfl

theorem load_cases (h : ∀ l ∈ layers, l.Proper) :
    (∃ name, layers.findSome? Layer.missing? = some name ∧ load layers = .error (.missingFile name)) ∨
      layers.findSome? Layer.missing? = none ∧
        ∃ s, load layers = .ok s ∧ ∀ x, s.get x = x.value layers := by
  obtain ⟨settings, hoverrides, hvalue⟩ := overrides_of_proper h
  unfold load
  rw [hoverrides]
  rcases foldlM_mergeFile h typed_defaults with ⟨name, hmissing, hfiles⟩ | ⟨hnone, root, hfiles, hroot⟩
  · rw [hfiles]
    exact .inl ⟨name, hmissing, rfl⟩
  · have hsettings (x : Setting) :
        (settings.foldl (fun root (k, s) => root.assign k (.scalar none s)) root).setting? x =
          some (x.value layers) := by
      have hdefault : defaults.setting? x = some x.default := by cases x <;> decide
      rw [hvalue, hroot, hdefault]
      unfold Setting.value
      cases (layers.filterMap x.override?).getLast? <;>
        cases (layers.filterMap x.fileValue?).getLast? <;> rfl
    obtain ⟨s, hs, hget⟩ := Typed.ofValue fun x => ⟨_, hsettings x, takes_value h x⟩
    rw [hfiles]
    refine .inr ⟨hnone, s, hs, fun x => ?_⟩
    exact Option.some.inj ((hget x).symm.trans (hsettings x))

theorem Settings.ext_get {s s' : Settings} (h : ∀ x, s.get x = s'.get x) : s = s' := by
  obtain ⟨format, newline, level⟩ := s
  obtain ⟨format', newline', level'⟩ := s'
  cases h .format
  cases h .trailingNewline
  cases h .level
  rfl

/-- What counts is which file is missing first, and the values. -/
theorem load_congr (h : ∀ l ∈ layers, l.Proper) (h' : ∀ l ∈ layers', l.Proper)
    (hmissing : layers'.findSome? Layer.missing? = layers.findSome? Layer.missing?)
    (hvalue : ∀ x : Setting, x.value layers' = x.value layers) : load layers' = load layers := by
  rcases load_cases h with ⟨name, hname, hload⟩ | ⟨hnone, s, hload, hs⟩
  · rcases load_cases h' with ⟨name', hname', hload'⟩ | ⟨hnone', -⟩
    · obtain rfl : name' = name := by
        rw [hname, hname'] at hmissing
        exact Option.some.inj hmissing
      rw [hload, hload']
    · rw [hname, hnone'] at hmissing
      cases hmissing
  · rcases load_cases h' with ⟨name', hname', -⟩ | ⟨-, s', hload', hs'⟩
    · rw [hnone, hname'] at hmissing
      cases hmissing
    · rw [hload, hload', Settings.ext_get fun x => (hs' x).trans ((hvalue x).trans (hs x).symm)]

/-- Files and overrides do not see one another. -/
theorem load_of_filter (hfiles : layers'.filter Layer.isFile = layers.filter Layer.isFile)
    (hsettings : layers'.filterMap Layer.setting? = layers.filterMap Layer.setting?) :
    load layers' = load layers := by
  have hmerge (layers : List Layer) (root : Value) :
      (layers.filter Layer.isFile).foldlM mergeFile root = layers.foldlM mergeFile root := by
    induction layers generalizing root with
    | nil => rfl
    | cons l layers ih =>
      cases l with
      | file required name found =>
        show List.foldlM _ _ (_ :: layers.filter Layer.isFile) = _
        rw [List.foldlM_cons, List.foldlM_cons]
        exact congrArg _ (funext fun root' => ih root')
      | setting key value => exact ih root
  unfold load overrides
  rw [hsettings, ← hmerge layers', hfiles, hmerge]

theorem load_of_absent (before after : List Layer) (name : String) :
    load (before ++ .file false name none :: after) = load (before ++ after) := by
  unfold load overrides
  rw [List.filterMap_append, List.filterMap_append, List.foldlM_append, List.foldlM_append]
  rfl

/-- Every setting has the value of its last override, or else the value in the last file that gives
it, or else its default; but a required file must not be missing. So it does not matter where the
overrides stand among the files, and neither do files that are not there or other keys of a file. -/
theorem load_layers (h : ∀ l ∈ layers, l.Proper) :
    (∀ name, .file true name none ∈ layers → ∃ first, load layers = .error (.missingFile first)) ∧
    ((∀ name, .file true name none ∉ layers) →
      ∃ s, load layers = .ok s ∧ ∀ x, s.get x = x.value layers) ∧
    (∀ layers', layers'.filter Layer.isFile = layers.filter Layer.isFile →
      layers'.filterMap Layer.setting? = layers.filterMap Layer.setting? →
      load layers' = load layers) ∧
    (∀ before after name, layers = before ++ after →
      load (before ++ .file false name none :: after) = load layers) ∧
    ∀ before after required name file file', layers = before ++ .file required name (some file) :: after →
      file'.Proper → (∀ x : Setting, x.inFile? file' = x.inFile? file) →
      load (before ++ .file required name (some file') :: after) = load layers := by
  refine ⟨fun name hname => ?_, fun hnot => ?_, fun layers' => load_of_filter, ?_, ?_⟩
  · rcases load_cases h with ⟨first, -, hload⟩ | ⟨hnone, -⟩
    · exact ⟨first, hload⟩
    · have hmissing := List.findSome?_eq_none_iff.1 hnone _ hname
      cases hmissing
  · rcases load_cases h with ⟨first, hmissing, -⟩ | ⟨-, hload⟩
    · obtain ⟨l, hl, hfirst⟩ := List.exists_of_findSome?_eq_some hmissing
      unfold Layer.missing? at hfirst
      split at hfirst
      · next name => exact absurd hl (hnot name)
      · cases hfirst
    · exact hload
  · rintro before after name rfl
    exact load_of_absent before after name
  · rintro before after required name file file' rfl hfile hsame
    refine load_congr h ?_ ?_ fun x => ?_
    · intro l hl
      rw [List.mem_append, List.mem_cons] at hl
      rcases hl with hl | rfl | hl
      · exact h l (List.mem_append_left _ hl)
      · exact hfile
      · exact h l (List.mem_append_right _ (List.mem_cons_of_mem _ hl))
    · rw [List.findSome?_append, List.findSome?_append, List.findSome?_cons, List.findSome?_cons]
      cases required <;> rfl
    · have hvalue : x.fileValue? (.file required name (some file')) =
          x.fileValue? (.file required name (some file)) := hsame x
      unfold Setting.value
      rw [List.filterMap_append, List.filterMap_append, List.filterMap_append, List.filterMap_append,
        List.filterMap_cons, List.filterMap_cons, List.filterMap_cons, List.filterMap_cons, hvalue]
      rfl

/-- Both files give a part of the section. The override stands in front of them. -/
theorem load_layers_merged :
    let files : List Layer :=
      [.file true "a.toml" (some ⟨"a.toml", "[output]\nformat = \"yaml\"\ntrailing_newline = false\n"⟩),
        .file false "b.toml" none,
        .file false "c.toml" (some ⟨"c.toml", "[Output]\nFormat = \"json\"\nwidth = 80\n"⟩)]
    let override : Layer := .setting "logging.level" (.text "info")
    (∀ l ∈ override :: files, l.Proper) ∧
      load (override :: files) = .ok ⟨"json", false, "info"⟩ ∧
      load (files ++ [override]) = load (override :: files) := by
  intro files override
  have hproper : ∀ l ∈ override :: files, l.Proper := by decide +kernel
  obtain ⟨-, hvalues, hmoved, -⟩ := load_layers hproper
  have hnot : ∀ name, Layer.file true name none ∉ override :: files := by simp [override, files]
  obtain ⟨s, hload, hs⟩ := hvalues hnot
  have hsettings : s = ⟨"json", false, "info"⟩ := by
    refine Settings.ext_get fun x => (hs x).trans ?_
    cases x <;> decide +kernel
  rw [hsettings] at hload
  exact ⟨hproper, hload, hmoved _ rfl rfl⟩

/-- A key at the top may be a path into a section, although no section is written in the file; and the
mark of a date makes a date of the whole file. -/
theorem load_of_path_or_mark :
    let path : File := ⟨"layer0.toml", "\"output.format\" = \"json\"\n"⟩
    let mark : File := ⟨"layer0.toml", "\"$__toml_private_datetime\" = \"1979-05-27\"\n"⟩
    (∃ document ∈ path.document?, Distinct document ∧
      ∀ x ∈ Setting.all, x.fits document ∧ x.inDocument? document = none) ∧
    load [.file false "layer0.toml" (some path)] = .ok ⟨"json", true, "warn"⟩ ∧
    (Toml.parse mark.contents).isOk ∧
    load [.file false "layer0.toml" (some mark)] =
      .error (.noTable "string \"1979-05-27\"" "layer0.toml") := by
  intro path mark
  exact ⟨by decide +kernel, by decide +kernel, by decide +kernel, by decide +kernel⟩

end Shorthand.Config
