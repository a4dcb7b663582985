import Mathlib.Data.List.Forall2
import Mathlib.Data.List.TakeWhile
import Shorthand.CommandLine.Run
import Shorthand.Proofs.Text.Runs

/-! # Several sources

A run expands its sources in turn (`InTurn`): what it prints is put together from the results up to
the first failure, and nothing behind that is looked at. Without sources among the arguments, those
are the lines of the input without the blanks around them, but only if all of the input is text
(`run_inTurn`). -/

namespace Shorthand

namespace Text

/-- What is left of a line when the blanks at both of its ends are taken away. -/
structure Trimmed (line rest : List Char) : Prop where
  around : ∃ front back, line = front ++ rest ++ back ∧ ∀ c ∈ front ++ back, isBlank c
  first : ∀ c ∈ rest.head?, isBlank c = false
  last : ∀ c ∈ rest.getLast?, isBlank c = false

theorem trimmed_trim (cs : List Char) : Trimmed cs (trim cs) := by
  have hfront := List.takeWhile_append_dropWhile (p := isBlank) (l := cs)
  have hback := List.takeWhile_append_dropWhile (p := isBlank) (l := (cs.dropWhile isBlank).reverse)
  have hsplit : cs.dropWhile isBlank =
      trim cs ++ ((cs.dropWhile isBlank).reverse.takeWhile isBlank).reverse := by
    rw [trim, ← List.reverse_append, hback, List.reverse_reverse]
  constructor
  case around =>
    refine ⟨_, _, by rw [List.append_assoc, ← hsplit]; exact hfront.symm, fun c hc => ?_⟩
    rcases List.mem_append.1 hc with hc | hc
    · exact List.mem_takeWhile_imp hc
    · exact List.mem_takeWhile_imp (List.mem_reverse.1 hc)
  case first =>
    intro c hc
    refine head?_dropWhile isBlank cs c ?_
    rw [hsplit, List.head?_append, hc]
    rfl
  case last =>
    intro c hc
    rw [trim, List.getLast?_reverse] at hc
    exact head?_dropWhile isBlank _ c hc

end Text

namespace CommandLine
open Text
variable {registry : Registry} {settings : Config.Settings}

theorem lines_ne_nil (cs : List Char) : lines cs ≠ [] := by
  induction cs with
  | nil => exact List.cons_ne_nil _ _
  | cons c cs ih =>
    rw [lines]
    split
    · exact List.cons_ne_nil _ _
    · split
      · exact List.cons_ne_nil _ _
      · exact List.cons_ne_nil _ _

theorem lines_cons_of_ne {c : Char} (hc : c ≠ '\n') (cs : List Char) :
    ∃ l ls, lines cs = l :: ls ∧ lines (c :: cs) = (c :: l) :: ls := by
  obtain ⟨l, ls, hls⟩ := List.exists_cons_of_ne_nil (lines_ne_nil cs)
  exact ⟨l, ls, hls, by rw [lines, if_neg hc, hls]⟩

/-- The lines with line breaks between them are the text. -/
theorem intercalate_lines (cs : List Char) : ['\n'].intercalate (lines cs) = cs := by
  induction cs with
  | nil => rfl
  | cons c cs ih =>
    by_cases hc : c = '\n'
    · subst hc
      obtain ⟨l, ls, hls⟩ := List.exists_cons_of_ne_nil (lines_ne_nil cs)
      rw [lines, if_pos rfl, hls, List.intercalate_cons_cons, ← hls, ih]
      rfl
    · obtain ⟨l, ls, hls, hcons⟩ := lines_cons_of_ne hc cs
      rw [hls] at ih
      rw [hcons]
      cases ls with
      | nil =>
        rw [List.intercalate_singleton] at ih ⊢
        rw [ih]
      | cons l' ls =>
        rw [List.intercalate_cons_cons] at ih ⊢
        rw [List.cons_append, List.cons_append, ih]

theorem newline_notMem_lines (cs : List Char) : ∀ l ∈ lines cs, '\n' ∉ l := by
  induction cs with
  | nil =>
    intro l hl
    rw [List.mem_singleton.1 hl]
    exact List.not_mem_nil
  | cons c cs ih =>
    by_cases hc : c = '\n'
    · rw [lines, if_pos hc, List.forall_mem_cons]
      exact ⟨List.not_mem_nil, ih⟩
    · obtain ⟨l, ls, hls, hcons⟩ := lines_cons_of_ne hc cs
      rw [hls, List.forall_mem_cons] at ih
      rw [hcons, List.forall_mem_cons]
      exact ⟨List.not_mem_cons_of_ne_of_not_mem (Ne.symm hc) ih.1, ih.2⟩

/-! ### Expansion -/

/-- What is printed behind a result. -/
def ending (settings : Config.Settings) (output : String) : String :=
  if settings.trailingNewline ∧ ¬ ['\n'] <:+ output.toList then "\n" else ""

theorem finish_eq (settings : Config.Settings) (output : String) :
    finish settings output = output ++ ending settings output := by
  have hlast : output.toList.getLast? = some '\n' ↔ ['\n'] <:+ output.toList := by
    rw [List.getLast?_eq_some_iff]
    exact exists_congr fun _ => eq_comm
  rw [finish, ending]
  by_cases h : settings.trailingNewline ∧ ¬ ['\n'] <:+ output.toList
  · rw [if_pos h, if_pos]
    simpa [hlast] using h
  · rw [if_neg h, if_neg, String.append_empty]
    simpa [hlast] using h

/-- The sources are expanded one after the other, up to the first that fails. -/
def InTurn (registry : Registry) (settings : Config.Settings) (sources : List String)
    (o : Outcome) : Prop :=
  ∃ done outputs, List.Forall₂ (fun source output =>
      expand registry settings.format source = .ok output) done outputs ∧
    let printed := String.join (outputs.map fun output => output ++ ending settings output)
    (done = sources ∧ o = ⟨0, printed, ""⟩ ∨
      ∃ source e, done ++ [source] <+: sources ∧
        expand registry settings.format source = .error e ∧
        o = ⟨1, printed, "Error: " ++ e.message ++ "\n"⟩)

theorem inTurn_expandAll (registry : Registry) (settings : Config.Settings) (sources : List String) :
    InTurn registry settings sources (expandAll registry settings sources) := by
  induction sources with
  | nil => exact ⟨[], [], .nil, .inl ⟨rfl, rfl⟩⟩
  | cons source sources ih =>
    cases h : expand registry settings.format source with
    | error e =>
      rw [expandAll_cons_error h]
      exact ⟨[], [], .nil, .inr ⟨source, e, List.prefix_append [source] sources, h, rfl⟩⟩
    | ok output =>
      rw [expandAll_cons_ok h, finish_eq]
      obtain ⟨done, outputs, hdone, hend⟩ := ih
      refine ⟨source :: done, output :: outputs, .cons h hdone, ?_⟩
      rcases hend with ⟨rfl, ho⟩ | ⟨failing, e, hbefore, he, ho⟩
      · refine .inl ⟨rfl, ?_⟩
        rw [ho, Outcome.after, List.map_cons, String.join_cons]
      · refine .inr ⟨failing, e, (List.prefix_cons_inj source).2 hbefore, he, ?_⟩
        rw [ho, Outcome.after, List.map_cons, String.join_cons]

/-! ### Runs -/

theorem fromUTF8?_toUTF8 (text : String) : String.fromUTF8? text.toUTF8 = some text :=
  dif_pos text.isValidUTF8

theorem fromUTF8?_eq_none {input : ByteArray} (h : ∀ text : String, text.toUTF8 ≠ input) :
    String.fromUTF8? input = none :=
  dif_neg fun hvalid => h (String.fromUTF8 input hvalid) rfl

/-- The sources in a text are its lines, trimmed, except for empty ones. -/
theorem sources_spec (text : String) : ∃ ls ts, ['\n'].intercalate ls = text.toList ∧
    (∀ l ∈ ls, '\n' ∉ l) ∧ List.Forall₂ Trimmed ls ts ∧
      sources text = (ts.filter (· ≠ [])).map String.ofList := by
  refine ⟨lines text.toList, (lines text.toList).map trim, intercalate_lines _,
    newline_notMem_lines _, ?_, rfl⟩
  rw [List.forall₂_map_right_iff, List.forall₂_same]
  exact fun l _ => trimmed_trim l

/-- A run expands the sources among its arguments in turn, or else those in its input. If that is not
UTF-8 throughout, none of them is expanded. -/
theorem run_inTurn {arguments given : List String} {format config : Option String}
    {files : List Config.File} (hrequest : Request.ofArguments arguments = .ok (.expand given format config))
    (hload : Config.load (layers files format config) = .ok settings) :
    (given ≠ [] → ∀ input, InTurn .standard settings given (run arguments files input)) ∧
    (given = [] →
      (∀ text : String, ∃ ls ts, ['\n'].intercalate ls = text.toList ∧ (∀ l ∈ ls, '\n' ∉ l) ∧
        List.Forall₂ Trimmed ls ts ∧ InTurn .standard settings
          ((ts.filter (· ≠ [])).map String.ofList) (run arguments files text.toUTF8)) ∧
      ∀ input, (∀ text : String, text.toUTF8 ≠ input) → run arguments files input =
        ⟨1, "", "Error: IO error: stream did not contain valid UTF-8\n"⟩) := by
  have hrun (input : ByteArray) :
      run arguments files input = expandGiven .standard settings given input := by
    simp only [run, hrequest, perform, hload]
  refine ⟨fun hgiven input => ?_, ?_⟩
  · rw [hrun, expandGiven, if_neg (mt List.isEmpty_iff.1 hgiven)]
    exact inTurn_expandAll ..
  · rintro rfl
    refine ⟨fun text => ?_, fun input hinput => ?_⟩
    · obtain ⟨ls, ts, hls, hbreak, hts, hsources⟩ := sources_spec text
      refine ⟨ls, ts, hls, hbreak, hts, ?_⟩
      rw [hrun, expandGiven, if_pos List.isEmpty_nil, fromUTF8?_toUTF8, ← hsources]
      exact inTurn_expandAll ..
    · rw [hrun, expandGiven, if_pos List.isEmpty_nil, fromUTF8?_eq_none hinput]
      rfl

/-- The second of three sources fails; the input breaks off within a character. -/
theorem stopped_run : ∃ settings, Config.load (layers [] none none) = .ok settings ∧
    InTurn .standard settings ["a", "+b", "c"] (run ["a", "+b", "c"] [] .empty) ∧
    (∃ ls ts, ['\n'].intercalate ls = "p\n \n\t b ".toList ∧ (∀ l ∈ ls, '\n' ∉ l) ∧
      List.Forall₂ Trimmed ls ts ∧ InTurn .standard settings
        ((ts.filter (· ≠ [])).map String.ofList) (run [] [] "p\n \n\t b ".toUTF8)) ∧
    run [] [] ⟨#[0x61, 0x0A, 0xC3]⟩ =
      ⟨1, "", "Error: IO error: stream did not contain valid UTF-8\n"⟩ := by
  have hload : Config.load (layers [] none none) = .ok ⟨"markup", true, "warn"⟩ := by
    have hfile : findFile [] localConfig = none := by simp [findFile]
    rw [layers, hfile]
    decide +kernel
  have hthree : Request.ofArguments ["a", "+b", "c"] = .ok (.expand ["a", "+b", "c"] none none) := rfl
  have hnone : Request.ofArguments [] = .ok (.expand [] none none) := rfl
  obtain ⟨hgiven, -⟩ := run_inTurn hthree hload
  obtain ⟨-, hinput⟩ := run_inTurn hnone hload
  refine ⟨_, hload, hgiven (List.cons_ne_nil _ _) .empty, (hinput rfl).1 _,
    (hinput rfl).2 _ fun text htext => ?_⟩
  have hvalid : (⟨#[0x61, 0x0A, 0xC3]⟩ : ByteArray).IsValidUTF8 := htext ▸ text.isValidUTF8
  revert hvalid
  decide +kernel

end CommandLine
end Shorthand
