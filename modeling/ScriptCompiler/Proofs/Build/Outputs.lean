import ScriptCompiler.Build.OutputName
import ScriptCompiler.Proofs.Files.Components
import ScriptCompiler.Proofs.Files.Extension
import ScriptCompiler.Proofs.Files.Replace

/-!
# Paths of outputs

An output stands in the directory that mirrors the one of its source, under a name that is made
from the name of the source alone. So two units have the same output only if they are in the same
directory and their names give the same output name (`outputPath_inj`). The name of an output is
never one that a temporary file can have (`IsOutputName`).
-/

namespace ScriptCompiler

namespace Build

open FileSystem ScriptCompiler.Path

/-! ## Names -/

/-- A name that a unit can have. -/
structure IsUnitName (name : String) : Prop extends IsStep name where
  ne_dot : name ≠ "."
  ne_up : name ≠ ".."
  not_nul : '\x00' ∉ name.toList

/-- A name that an output can have. Unlike the name of a temporary file it has a dot near its end. -/
structure IsOutputName (name : String) : Prop extends IsStep name where
  ne_dot : name ≠ "."
  not_temporary : ¬ IsTemporaryName name

theorem IsUnitName.of_isName {name : String} (h : IsName name) : IsUnitName name where
  ne_empty := h.1
  not_slash := h.2.2.2.1
  ne_dot := h.2.1
  ne_up := h.2.2.1
  not_nul := h.2.2.2.2.1

theorem IsUnitName.isSilent {name : String} (h : IsUnitName name) : Path.isSilent name = false :=
  h.not_silent h.ne_dot

theorem IsOutputName.isSilent {name : String} (h : IsOutputName name) :
    Path.isSilent name = false := h.not_silent h.ne_dot

theorem isOutputName_up : IsOutputName ".." where
  ne_empty := by decide
  not_slash := by decide
  ne_dot := by decide
  not_temporary h := h.ne_dots.2 rfl

/-- The name of a script ends in the last letter of its extension. -/
theorem script_ne (front : String) {name : String} (h : name.toList.getLast? ≠ some 's') :
    front ++ "." ++ scriptExtension ≠ name := by
  rintro rfl
  exact h (by simp [scriptExtension])

theorem isStep_script {front : String} (hslash : '/' ∉ front.toList) :
    IsStep (front ++ "." ++ scriptExtension) where
  ne_empty := script_ne front (by decide)
  not_slash := by simp [scriptExtension, hslash]

theorem not_isTemporaryName_script (front : String) :
    ¬ IsTemporaryName (front ++ "." ++ scriptExtension) := by
  rintro ⟨tail, hsize, hletters, hname⟩
  have hlist : front.toList ++ ".js".toList = ".tmp".toList ++ tail := by
    simpa [scriptExtension] using congrArg String.toList hname
  have hlength : front.toList.length = tail.length + 1 := by
    simpa using congrArg List.length hlist
  -- The dot is the third character from the end, among the letters.
  have htail : front.toList.drop 4 ++ ".js".toList = tail := by
    have hdrop := congrArg (List.drop 4) hlist
    rwa [List.drop_append_of_le_length (by omega), List.drop_left' (i := 4) rfl] at hdrop
  exact absurd (hletters '.' (by simp [← htail])) (by decide)

theorem isOutputName_script (front : String) (hslash : '/' ∉ front.toList) :
    IsOutputName (front ++ "." ++ scriptExtension) where
  toIsStep := isStep_script hslash
  ne_dot := script_ne front (by decide)
  not_temporary := not_isTemporaryName_script front

theorem isOutputName_outputFileName {name : String} (h : IsUnitName name) :
    IsOutputName (outputFileName ⟨name⟩).text := by
  unfold outputFileName
  split
  · exact isOutputName_script "index" (by decide)
  · rw [withExtension_name h.toIsStep h.ne_dot h.ne_up]
    split
    · exact isOutputName_up
    · exact isOutputName_script _ fun hc => h.not_slash (mem_of_mem_stem hc)

/-! ## Paths -/

section Paths

variable (outputs : Path) {dir dir' : List String} {name name' : String}

/-- The directory of the outputs of the units of a directory. -/
def outputDirectory (dir : List String) : Path :=
  .ofSteps outputs.isAbsolute (counted outputs.isAbsolute (outputs.openSteps ++ dir))

theorem steps_relative (hdir : ∀ n ∈ dir, IsUnitName n) (hname : IsUnitName name) :
    (Path.ofNames (dir ++ [name])).isAbsolute = false ∧
      (Path.ofNames (dir ++ [name])).steps = dir ++ [name] := by
  have hnames : ∀ n ∈ dir ++ [name], IsStep n := by
    rw [List.forall_mem_append, List.forall_mem_singleton]
    exact ⟨fun n hn => (hdir n hn).toIsStep, hname.toIsStep⟩
  exact ⟨isAbsolute_ofNames hnames, steps_ofNames (by simp) hnames⟩

theorem outputPath_concat (hdir : ∀ n ∈ dir, IsUnitName n) (hname : IsUnitName name) :
    outputPath outputs (dir ++ [name]) =
      (outputDirectory outputs dir).join (outputFileName ⟨name⟩) := by
  obtain ⟨habs, hrelative⟩ := steps_relative hdir hname
  have hsteps : (outputs.join (.ofNames (dir ++ [name]))).steps =
      (outputs.openSteps ++ dir) ++ [name] := by
    rw [steps_join _ habs, hrelative, List.append_assoc]
  simp only [outputPath, List.getLast?_concat, withFileName,
    fileName?_eq hsteps hname.isSilent hname.ne_up, parent?_eq hsteps hname.isSilent,
    isAbsolute_join _ habs, Option.getD_some, outputDirectory]

/-- The directory of a tidy path is found by joining names one by one. -/
theorem outputDirectory_eq (h : outputs.Tidy) (hdir : ∀ n ∈ dir, IsUnitName n) :
    outputDirectory outputs dir = outputs.descend dir := by
  obtain ⟨habs, hopen⟩ := openSteps_descend outputs fun n hn => (hdir n hn).toIsStep
  have htidy := h.descend fun n hn => ⟨(hdir n hn).toIsStep, (hdir n hn).ne_dot⟩
  rw [outputDirectory, ← habs, ← hopen, htidy.openSteps]
  obtain ⟨front, last, hsteps, hlast⟩ := htidy
  rw [hsteps, counted_concat _ _ hlast, ← hsteps, ofSteps_steps]

/-- Steps with names behind them are counted in full. -/
theorem counted_append_names (absolute : Bool) (steps : List String) (hne : dir ≠ [])
    (hdir : ∀ n ∈ dir, IsUnitName n) : counted absolute (steps ++ dir) = steps ++ dir := by
  obtain ⟨front, last, rfl⟩ : ∃ front last, dir = front ++ [last] :=
    ⟨_, _, (List.dropLast_concat_getLast hne).symm⟩
  rw [← List.append_assoc]
  exact counted_concat _ _ (hdir last (by simp)).isSilent

/-- The steps of the directory make a path that starts where the outputs do. -/
theorem steps_outputDirectory (hdir : ∀ n ∈ dir, IsUnitName n) :
    let steps := counted outputs.isAbsolute (outputs.openSteps ++ dir)
    (∀ s ∈ steps, '/' ∉ s.toList) ∧ (outputs.isAbsolute = false → steps.head? ≠ some "") := by
  have hfront := counted_isPrefix outputs.isAbsolute (outputs.openSteps ++ dir)
  refine ⟨fun s hs => ?_, fun habs hhead => ?_⟩
  · rcases List.mem_append.mp (hfront.subset hs) with hs | hs
    · exact not_slash_of_mem_steps (outputs.openSteps_isPrefix.subset hs)
    · exact (hdir s hs).not_slash
  · obtain ⟨rest, hrest⟩ := List.head?_eq_some_iff.mp hhead
    rw [hrest] at hfront
    obtain ⟨more, hmore⟩ := hfront
    cases hopen : outputs.openSteps with
    | nil =>
      rw [hopen, List.nil_append] at hmore
      exact (hdir "" (by simp [← hmore])).ne_empty rfl
    | cons step steps =>
      rw [hopen] at hmore
      obtain ⟨rfl, -⟩ := List.cons.inj hmore
      exact head?_openSteps habs (by rw [hopen]; rfl)

theorem isAbsolute_outputDirectory (hdir : ∀ n ∈ dir, IsUnitName n) :
    (outputDirectory outputs dir).isAbsolute = outputs.isAbsolute :=
  isAbsolute_ofSteps (steps_outputDirectory outputs hdir).1 (steps_outputDirectory outputs hdir).2

theorem openSteps_outputDirectory (hdir : ∀ n ∈ dir, IsUnitName n) :
    (outputDirectory outputs dir).openSteps =
      counted outputs.isAbsolute (outputs.openSteps ++ dir) :=
  openSteps_ofSteps (steps_outputDirectory outputs hdir).1 (steps_outputDirectory outputs hdir).2
    (getLast?_counted _ _)

theorem outputDirectory_inj (hdir : ∀ n ∈ dir, IsUnitName n) (hdir' : ∀ n ∈ dir', IsUnitName n)
    (h : (outputDirectory outputs dir).openSteps = (outputDirectory outputs dir').openSteps) :
    dir = dir' := by
  rw [openSteps_outputDirectory outputs hdir, openSteps_outputDirectory outputs hdir'] at h
  -- Only a directory of no names can lose steps, so it has fewer than any other.
  have hroot := (counted_isPrefix outputs.isAbsolute (outputs.openSteps ++ [])).length_le
  by_cases hnil : dir = [] <;> by_cases hnil' : dir' = []
  · rw [hnil, hnil']
  · subst hnil
    rw [counted_append_names _ _ hnil' hdir'] at h
    rw [h] at hroot
    have := List.length_pos_iff.mpr hnil'
    simp only [List.length_append, List.length_nil] at hroot
    omega
  · subst hnil'
    rw [counted_append_names _ _ hnil hdir] at h
    rw [← h] at hroot
    have := List.length_pos_iff.mpr hnil
    simp only [List.length_append, List.length_nil] at hroot
    omega
  · rw [counted_append_names _ _ hnil hdir, counted_append_names _ _ hnil' hdir'] at h
    exact List.append_cancel_left h

/-- Units have the same output only if they are in the same directory and have the same output
name. -/
theorem outputPath_inj (hdir : ∀ n ∈ dir, IsUnitName n) (hname : IsUnitName name)
    (hdir' : ∀ n ∈ dir', IsUnitName n) (hname' : IsUnitName name')
    (h : outputPath outputs (dir ++ [name]) = outputPath outputs (dir' ++ [name'])) :
    dir = dir' ∧ outputFileName ⟨name⟩ = outputFileName ⟨name'⟩ := by
  have hsteps := congrArg Path.steps h
  rw [outputPath_concat outputs hdir hname, outputPath_concat outputs hdir' hname',
    steps_join_name _ (isOutputName_outputFileName hname).toIsStep,
    steps_join_name _ (isOutputName_outputFileName hname').toIsStep] at hsteps
  obtain ⟨hopen, hlast⟩ := List.append_inj' hsteps rfl
  refine ⟨outputDirectory_inj outputs hdir hdir' hopen, ?_⟩
  have htext : (outputFileName ⟨name⟩).text = (outputFileName ⟨name'⟩).text := by
    simpa using hlast
  cases hout : outputFileName ⟨name⟩
  cases hout' : outputFileName ⟨name'⟩
  rw [hout, hout'] at htext
  exact congrArg _ htext

end Paths

end Build

end ScriptCompiler
