import ScriptCompiler.Proofs.Build.Tour
import ScriptCompiler.Proofs.Build.Plans

/-!
# Which names outputs get

The output of a source is named after its stem (`HasStem`): the stem with the extension of scripts
behind it, and `index` stands for the stem of an initializer (`outputFileName_eq`). So two sources
of a directory have the same output exactly if their stems are the same or one is the initializer
and the other has the stem `index` (`outputFileName_collides`).

An output is a file in the directory that mirrors the one of its source, except where the name of
the source is two dots and an extension: the cut of the extension leaves two dots, and the output of
such a source is no file (`outputs_in_place`, `outputFileName_up`).
-/

namespace ScriptCompiler

namespace Path

/-- The path is that of a file of the given name in a directory. -/
def IsFileIn (p dir : Path) (name : String) : Prop :=
  p.fileName? = some name ∧ ∃ parent, p.parent? = some parent ∧ parent.sameAs dir = true

end Path

namespace Build

open FileSystem ScriptCompiler.Path

/-! ## Names of outputs -/

/-- A name that an entry of a directory can have. -/
structure IsEntryName (name : String) : Prop extends IsStep name where
  ne_dot : name ≠ "."
  ne_up : name ≠ ".."

theorem isEntryName_iff {name : String} :
    IsEntryName name ↔ IsStep name ∧ name ≠ "." ∧ name ≠ ".." :=
  ⟨fun h => ⟨h.toIsStep, h.ne_dot, h.ne_up⟩, fun h => ⟨h.1, h.2.1, h.2.2⟩⟩

instance (name : String) : Decidable (IsEntryName name) := decidable_of_iff _ isEntryName_iff.symm

theorem IsUnitName.isEntryName {name : String} (h : IsUnitName name) : IsEntryName name :=
  ⟨h.toIsStep, h.ne_dot, h.ne_up⟩

/-- The stem that the output of a source is named after. -/
def outputStem (name : String) : String := if name = initializerName then "index" else stem name

/-- The file name of a script with a stem. A stem of one dot gives none. -/
def scriptName (stem : String) : Path :=
  if stem = "." then ⟨".."⟩ else ⟨stem ++ "." ++ scriptExtension⟩

theorem sameAs_initializerName {name : String} (h : IsEntryName name) :
    (⟨name⟩ : Path).sameAs ⟨initializerName⟩ = true ↔ name = initializerName := by
  have hinit : IsStep initializerName := by decide
  simp [sameAs, isAbsolute_name h.toIsStep, isAbsolute_name hinit,
    components_name h.toIsStep h.ne_dot, components_name hinit (by decide)]

theorem outputFileName_eq {name : String} (h : IsEntryName name) :
    outputFileName ⟨name⟩ = scriptName (outputStem name) := by
  by_cases hinit : name = initializerName
  · rw [outputFileName, if_pos ((sameAs_initializerName h).mpr hinit), outputStem, if_pos hinit]
    rfl
  · rw [outputFileName, if_neg (mt (sameAs_initializerName h).mp hinit), outputStem,
      if_neg hinit, withExtension_name h.toIsStep h.ne_dot h.ne_up, scriptName]

theorem scriptName_inj {s t : String} : scriptName s = scriptName t ↔ s = t := by
  have hup : ∀ s : String, s ++ "." ++ scriptExtension ≠ ".." := fun s => script_ne s (by decide)
  refine ⟨fun h => ?_, congrArg scriptName⟩
  unfold scriptName at h
  split at h
  · next hs =>
    split at h
    · next ht => rw [hs, ht]
    · exact absurd (congrArg Path.text h).symm (hup t)
  · split at h
    · exact absurd (congrArg Path.text h) (hup s)
    · simpa using h

/-- Two names share an output exactly if they have the same stem and neither is the initializer, or
if one is the initializer and the other has the stem of the script that stands for a directory. -/
theorem outputFileName_collides {a b : String} (ha : IsEntryName a) (hb : IsEntryName b)
    (hne : a ≠ b) : outputFileName ⟨a⟩ = outputFileName ⟨b⟩ ↔
      (a ≠ initializerName ∧ b ≠ initializerName ∧ ∃ s, HasStem a s ∧ HasStem b s) ∨
      (a = initializerName ∧ HasStem b "index") ∨ (b = initializerName ∧ HasStem a "index") := by
  rw [outputFileName_eq ha, outputFileName_eq hb, scriptName_inj, outputStem, outputStem]
  simp only [hasStem_iff]
  by_cases hinit : a = initializerName
  · have hinit' : b ≠ initializerName := fun h => hne (hinit.trans h.symm)
    simp [hinit, hinit', eq_comm]
  · by_cases hinit' : b = initializerName
    · simp [hinit, hinit']
    · simp [hinit, hinit', eq_comm]

/-- A name with its only dot at its head, and a name with an extension behind it. -/
theorem outputFileName_collides_hidden :
    IsEntryName ".a" ∧ IsEntryName ".a.py" ∧ outputFileName ⟨".a"⟩ = outputFileName ⟨".a.py"⟩ ∧
      IsEntryName "index" ∧ IsEntryName "__init__.py" ∧
      outputFileName ⟨"index"⟩ = outputFileName ⟨"__init__.py"⟩ := by
  have ha : IsEntryName ".a" := by decide
  have hb : IsEntryName ".a.py" := by decide
  have hindex : IsEntryName "index" := by decide
  have hinit : IsEntryName "__init__.py" := by decide
  refine ⟨ha, hb, (outputFileName_collides ha hb (by decide)).mpr (.inl ?_), hindex, hinit,
    (outputFileName_collides hindex hinit (by decide)).mpr (.inr (.inr ⟨rfl, none, ?_⟩))⟩
  · exact ⟨by decide, by decide, ".a", ⟨none, @Splits.hidden "a" (by decide)⟩,
      ⟨some "py", @Splits.cut ".a" "py" (by decide) (by decide)⟩⟩
  · exact .plain (by decide)

/-! ## Places of outputs -/

/-- Two dots and an extension. -/
def IsUpWithExtension (name : String) : Prop := ∃ ext : String, '.' ∉ ext.toList ∧ name = ".." ++ ext

/-- The name of a file that is a script. -/
structure IsScriptName (p : Path) : Prop where
  components : p.components = [p.text]
  ne_dot : p.text ≠ "."
  ne_up : p.text ≠ ".."
  ends : ∃ front, p.text = front ++ "." ++ scriptExtension

theorem stem_eq_dot_iff {name : String} (h : IsEntryName name) :
    stem name = "." ↔ IsUpWithExtension name := by
  rw [← hasStem_iff]
  constructor
  · rintro ⟨old, hsplits⟩
    generalize hs : "." = s at hsplits
    cases hsplits with
    | plain | hidden => exact absurd hs.symm h.ne_dot
    | cut _ hext => exact ⟨_, hext, by rw [← hs]; rfl⟩
  · rintro ⟨ext, hext, rfl⟩
    exact ⟨some ext, @Splits.cut "." ext (by decide) hext⟩

theorem initializerName_not_up : ¬ IsUpWithExtension initializerName := by
  rintro ⟨ext, -, h⟩
  have := congrArg (fun s => s.toList.head?) h
  simp [initializerName] at this

theorem outputStem_eq_dot_iff {name : String} (h : IsEntryName name) :
    outputStem name = "." ↔ IsUpWithExtension name := by
  unfold outputStem
  split
  · next hinit =>
    rw [hinit]
    exact iff_of_false (by decide) initializerName_not_up
  · exact stem_eq_dot_iff h

theorem not_slash_of_mem_outputStem {name : String} (h : IsEntryName name) :
    '/' ∉ (outputStem name).toList := by
  unfold outputStem
  split
  · decide
  · exact fun hc => h.not_slash (mem_of_mem_stem hc)

theorem isScriptName_outputFileName {name : String} (h : IsEntryName name)
    (hup : ¬ IsUpWithExtension name) : IsScriptName (outputFileName ⟨name⟩) := by
  have hdot := script_ne (outputStem name) (show ".".toList.getLast? ≠ some 's' by decide)
  rw [outputFileName_eq h, scriptName, if_neg (mt (outputStem_eq_dot_iff h).mp hup)]
  exact ⟨components_name (isStep_script (not_slash_of_mem_outputStem h)) hdot, hdot,
    script_ne _ (by decide), _, rfl⟩

theorem openSteps_join_ofNames (p : Path) {names : List String} (h : ∀ n ∈ names, IsStep n) :
    (p.join (.ofNames names)).openSteps = p.openSteps ++ names := by
  by_cases hnil : names = []
  · have hjoin : (p.join (.ofNames [])).steps = p.openSteps ++ [""] := steps_join p rfl
    rw [hnil, openSteps, hjoin, dropOpen_concat_empty, List.append_nil]
  · rw [join_ofNames p hnil h, (openSteps_descend p h).2]

section Paths

variable (outputs : Path) {dir : List String} {name : String}

theorem sameAs_outputDirectory (hdir : ∀ n ∈ dir, IsUnitName n) :
    (outputDirectory outputs dir).sameAs (outputs.join (.ofNames dir)) = true := by
  have hsteps : ∀ n ∈ dir, IsStep n := fun n hn => (hdir n hn).toIsStep
  have habs := isAbsolute_outputDirectory outputs hdir
  have habs' := isAbsolute_join outputs (isAbsolute_ofNames hsteps)
  rw [sameAs, components_openSteps, components_openSteps, habs, habs',
    openSteps_outputDirectory outputs hdir, openSteps_join_ofNames outputs hsteps,
    significant_counted]
  simp

theorem parent?_outputPath (hdir : ∀ n ∈ dir, IsUnitName n) (hname : IsUnitName name) :
    (outputPath outputs (dir ++ [name])).parent? = some (outputDirectory outputs dir) := by
  have hout := isOutputName_outputFileName hname
  rw [outputPath_concat outputs hdir hname,
    parent?_eq (steps_join_name _ hout.toIsStep) hout.isSilent,
    isAbsolute_join _ (isAbsolute_name hout.toIsStep), isAbsolute_outputDirectory outputs hdir,
    openSteps_outputDirectory outputs hdir, counted_counted, outputDirectory]

theorem parent?_relative (hdir : ∀ n ∈ dir, IsUnitName n) (hname : IsUnitName name) :
    (Path.ofNames (dir ++ [name])).parent? = some (.ofNames dir) := by
  obtain ⟨habs, hsteps⟩ := steps_relative hdir hname
  have hcounted : counted false dir = dir := by
    by_cases hnil : dir = []
    · rw [hnil]
      rfl
    · exact counted_append_names false [] hnil hdir
  rw [parent?_eq hsteps hname.isSilent, habs, hcounted, ofNames]

theorem isFileIn_outputPath (hdir : ∀ n ∈ dir, IsUnitName n) (hname : IsUnitName name)
    (hup : ¬ IsUpWithExtension name) : (outputPath outputs (dir ++ [name])).IsFileIn
      (outputs.join (.ofNames dir)) (outputFileName ⟨name⟩).text := by
  have hout := isOutputName_outputFileName hname
  refine ⟨?_, _, parent?_outputPath outputs hdir hname, sameAs_outputDirectory outputs hdir⟩
  rw [outputPath_concat outputs hdir hname]
  exact fileName?_eq (steps_join_name _ hout.toIsStep) hout.isSilent
    (isScriptName_outputFileName hname.isEntryName hup).ne_up

theorem outputFileName_of_up (h : IsEntryName name) (hup : IsUpWithExtension name) :
    outputFileName ⟨name⟩ = ⟨".."⟩ := by
  rw [outputFileName_eq h, (outputStem_eq_dot_iff h).mpr hup]
  rfl

theorem steps_outputPath_of_up (hdir : ∀ n ∈ dir, IsUnitName n) (hname : IsUnitName name)
    (hup : IsUpWithExtension name) : (outputPath outputs (dir ++ [name])).steps =
      (outputDirectory outputs dir).openSteps ++ [".."] := by
  rw [outputPath_concat outputs hdir hname, outputFileName_of_up hname.isEntryName hup]
  exact steps_join_name _ (by decide)

theorem fileName?_outputPath_of_up (hdir : ∀ n ∈ dir, IsUnitName n) (hname : IsUnitName name)
    (hup : IsUpWithExtension name) : (outputPath outputs (dir ++ [name])).fileName? = none := by
  rw [fileName?, countedSteps, steps_outputPath_of_up outputs hdir hname hup,
    counted_concat _ _ (by decide), List.getLast?_concat]
  rfl

/-- A path that ends in two dots names no place for a file, so the replacement is refused. -/
theorem compileUnit_of_up (hdir : ∀ n ∈ dir, IsUnitName n) (hname : IsUnitName name)
    (hup : IsUpWithExtension name) (source : UnitSource) (path : Path) (s : State) :
    ∃ e events, (compileUnit source path (outputPath outputs (dir ++ [name]))).run s =
      (.error e, ⟨s.files, events⟩) := by
  obtain ⟨events, hrun⟩ := run_compileUnit source path (outputPath outputs (dir ++ [name])) s
  cases hparse : source.parse s.files path with
  | error cause =>
    rw [hparse] at hrun
    exact ⟨_, events, hrun⟩
  | ok m =>
    simp only [hparse] at hrun
    rcases FileM.replaceFile_cases (outputPath outputs (dir ++ [name])) (source.output m) s.files
      with ⟨e, hreplace⟩ | ⟨loc, -, hslot, -⟩
    · rw [hreplace] at hrun
      exact ⟨_, events, hrun⟩
    · obtain ⟨front, last, -, -, hlast, -, -, -, hsteps⟩ := exists_of_slotLocation hslot
      rw [steps_outputPath_of_up outputs hdir hname hup] at hsteps
      obtain rfl : ".." = last := by simpa using (List.append_inj' (hsteps rfl) rfl).2
      exact absurd rfl hlast.ne_up

end Paths

/-- The names of a visited file, also of a walk that ends early. -/
theorem isUnitName_of_mem_files {fs : FileSystem} (hfs : fs.WellFormed) {root path : Path}
    {names : List String} (h : (path, names) ∈ (walk fs root).files) :
    names ≠ [] ∧ ∀ name ∈ names, IsUnitName name := by
  rw [mem_files] at h
  unfold walk at h
  split at h
  · cases h
  · next loc hresolve =>
    rw [visits_cons, List.mem_cons] at h
    have hmem := (visits_isPrefix fs root (fs.below loc)).subset (h.resolve_left (by simp))
    obtain ⟨⟨found, entry⟩, hbelow, hvisit⟩ := List.mem_map.mp hmem
    obtain rfl : found = names :=
      (relative_visitOf (found, entry)).symm.trans (congrArg Visit.relative hvisit)
    obtain ⟨hne, hget⟩ := mem_below.mp hbelow
    refine ⟨hne, fun name hname => .of_isName ?_⟩
    exact hfs.isName (by rw [hget]; rfl) name (List.mem_append_right loc hname)
  · next found hdir hresolve =>
    obtain ⟨loc, entry⟩ := found
    have hentry : entry ≠ .directory := fun hentry => hdir loc (by rw [hentry])
    obtain ⟨name, hname, hunit⟩ := exists_fileName hfs hresolve hentry
    rw [hname, List.mem_singleton, Visit.file.injEq] at h
    simpa [h.2] using hunit

/-- The output of a file is named by one file name, which ends in the extension of scripts, and is
in the directory that mirrors the one of the source. If the name of the source is two dots and an
extension, the output is no file: the unit fails and leaves the file system as it was. -/
theorem outputs_in_place {fs : FileSystem} (hfs : fs.WellFormed) (sources outputs : Path) :
    (∀ name, IsEntryName name →
      (¬ IsUpWithExtension name → IsScriptName (outputFileName ⟨name⟩)) ∧
      (IsUpWithExtension name → outputFileName ⟨name⟩ = ⟨".."⟩)) ∧
    ∀ path relative, (path, relative) ∈ (walk fs sources).files →
      ∃ parent name, (Path.ofNames relative).parent? = some parent ∧
        (Path.ofNames relative).fileName? = some name ∧ IsEntryName name ∧
        (¬ IsUpWithExtension name → (outputPath outputs relative).IsFileIn (outputs.join parent)
          (outputFileName ⟨name⟩).text) ∧
        (IsUpWithExtension name → (outputPath outputs relative).fileName? = none ∧
          ∀ source s, ∃ e events, (compileUnit source path (outputPath outputs relative)).run s =
            (.error e, ⟨s.files, events⟩)) := by
  refine ⟨fun name h => ⟨isScriptName_outputFileName h, outputFileName_of_up h⟩, ?_⟩
  intro path relative hmem
  obtain ⟨hne, hnames⟩ := isUnitName_of_mem_files hfs hmem
  obtain ⟨dir, name, rfl⟩ : ∃ dir name, relative = dir ++ [name] :=
    ⟨_, _, (List.dropLast_concat_getLast hne).symm⟩
  rw [List.forall_mem_append, List.forall_mem_singleton] at hnames
  obtain ⟨hdir, hname⟩ := hnames
  exact ⟨_, name, parent?_relative hdir hname,
    fileName?_eq (steps_relative hdir hname).2 hname.isSilent hname.ne_up, hname.isEntryName,
    isFileIn_outputPath outputs hdir hname, fun hup =>
      ⟨fileName?_outputPath_of_up outputs hdir hname hup, fun source s =>
        compileUnit_of_up outputs hdir hname hup source path s⟩⟩

/-- A source whose name is three dots. -/
theorem outputs_in_place_dots : (twoUnits "..." "..py").WellFormed ∧
    (⟨"s/..."⟩, ["..."]) ∈ (walk (twoUnits "..." "..py") ⟨"s"⟩).files ∧
      IsScriptName (outputFileName ⟨"..."⟩) ∧
      (outputPath ⟨"o/"⟩ ["..."]).IsFileIn ((⟨"o/"⟩ : Path).join ⟨""⟩) "...js" := by
  have hfs := @twoUnits_wellFormed "..." "..py" (by decide) (by decide) (by decide)
  have hmem : (⟨"s/..."⟩, ["..."]) ∈ (walk (twoUnits "..." "..py") ⟨"s"⟩).files := by
    decide +kernel
  have hentry : IsEntryName "..." := by decide
  have hup : ¬ IsUpWithExtension "..." := by
    rw [← stem_eq_dot_iff hentry]
    decide
  obtain ⟨hscript, hplace⟩ := outputs_in_place hfs ⟨"s"⟩ ⟨"o/"⟩
  obtain ⟨parent, name, hparent, hname, -, hin, -⟩ := hplace _ _ hmem
  obtain rfl : ⟨""⟩ = parent := Option.some.inj hparent
  obtain rfl : "..." = name := Option.some.inj hname
  exact ⟨hfs, hmem, (hscript _ hentry).1 hup, hin hup⟩

/-- A source whose output is no file. -/
theorem outputFileName_up : IsEntryName "..py" ∧ outputFileName ⟨"..py"⟩ = ⟨".."⟩ ∧
    ¬ IsScriptName (outputFileName ⟨"..py"⟩) ∧ outputPath ⟨"o"⟩ ["..py"] = ⟨"o/.."⟩ := by
  have hname : outputFileName ⟨"..py"⟩ = ⟨".."⟩ := by decide
  refine ⟨by decide, hname, fun h => h.ne_up ?_, by decide⟩
  rw [hname]

end Build

end ScriptCompiler
