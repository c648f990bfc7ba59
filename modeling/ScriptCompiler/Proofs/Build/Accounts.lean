import ScriptCompiler.Proofs.Build.Orders
import ScriptCompiler.Proofs.Build.Tour

/-!
# A build accounts for everything it tries

A build takes one step for each directory of the outputs and then one for each unit, and it goes on
when a step fails. `DirectoryStep` and `UnitStep` are the steps with how they ended, and `Runs` says
that steps were taken one after the other. The summary of a build is what its steps report: each
unit is reported once, as written or as failed, and in the order of the walk, whatever the order in
which the units were compiled (`compileTree_accounts`).
-/

namespace ScriptCompiler.Build

open FileSystem

/-! ## Steps -/

/-- Steps are taken one after the other, each in the file system that the one before it left. -/
inductive Runs (taken : α → FileSystem → FileSystem → Prop) :
    List α → FileSystem → FileSystem → Prop
  | done (files : FileSystem) : Runs taken [] files files
  | next {step : α} {steps : List α} {before between after : FileSystem} :
    taken step before between → Runs taken steps between after →
      Runs taken (step :: steps) before after

/-- A directory that was asked for, and what came of it. -/
structure DirectoryStep where
  path : Path
  result : Except FileError Unit

namespace DirectoryStep

def Taken (step : DirectoryStep) (before after : FileSystem) : Prop :=
  (FileM.createDirectories step.path).run.run before = (step.result, after)

def error? : DirectoryStep → Option BuildError
  | ⟨_, .ok _⟩ => none
  | ⟨path, .error cause⟩ => some (.createDirectory path cause)

end DirectoryStep

/-- How a unit ends. -/
inductive Ending where
  | written
  /-- The front end gives no module. -/
  | unread (cause : SourceError)
  /-- The output cannot be replaced. -/
  | unwritten (cause : FileError)

/-- A unit that was visited, and how it ended. -/
structure UnitStep where
  path : Path
  relative : List String
  ending : Ending

namespace UnitStep

/-- The visit of the walk that the step is for. -/
def visit (step : UnitStep) : Path × List String := (step.path, step.relative)

def job (outputs : Path) (step : UnitStep) : Job :=
  ⟨step.path, outputPath outputs step.relative⟩

theorem map_job (outputs : Path) (steps : List UnitStep) :
    ((steps.map visit).map fun (path, names) => (⟨path, outputPath outputs names⟩ : Job)) =
      steps.map (job outputs) := by
  rw [List.map_map]
  rfl

/-- A unit that fails changes nothing. One that is written was read, and its output replaced. -/
inductive Taken (source : UnitSource) (outputs : Path) :
    UnitStep → FileSystem → FileSystem → Prop
  | unread {path : Path} {relative : List String} {files : FileSystem} {cause : SourceError} :
    source.parse files path = .error cause →
      Taken source outputs ⟨path, relative, .unread cause⟩ files files
  | unwritten {path : Path} {relative : List String} {files : FileSystem} {m : Source.Module}
      {cause : FileError} :
    source.parse files path = .ok m →
    (FileM.replaceFile (outputPath outputs relative) (source.output m)).run.run files =
      (.error cause, files) →
      Taken source outputs ⟨path, relative, .unwritten cause⟩ files files
  | written {path : Path} {relative : List String} {before after : FileSystem}
      {m : Source.Module} :
    source.parse before path = .ok m →
    (FileM.replaceFile (outputPath outputs relative) (source.output m)).run.run before =
      (.ok (), after) →
      Taken source outputs ⟨path, relative, .written⟩ before after

/-- The output that was written, or the error: it names the source if that was not read, and the
output otherwise. -/
def report (outputs : Path) : UnitStep → Except BuildError Path
  | ⟨_, relative, .written⟩ => .ok (outputPath outputs relative)
  | ⟨path, _, .unread cause⟩ => .error (.source path cause)
  | ⟨_, relative, .unwritten cause⟩ => .error (.write (outputPath outputs relative) cause)

end UnitStep

/-! ## Directories -/

theorem run_createDirectories_step (dir : Path) (dirs : List Path) (s : State) :
    ∃ events, (createDirectories (dir :: dirs)).run s =
      let made := (FileM.createDirectories dir).run.run s.files
      let rest := (createDirectories dirs).run ⟨made.2, events⟩
      ((DirectoryStep.error? ⟨dir, made.1⟩).toList ++ rest.1, rest.2) := by
  simp only [createDirectories, run_bind, run_report, run_onFiles]
  cases ((FileM.createDirectories dir).run.run s.files).1 with
  | ok u => exact ⟨_, rfl⟩
  | error cause => exact ⟨_, rfl⟩

/-- The first phase takes a step for each directory, and returns the errors. -/
theorem createDirectories_runs (dirs : List Path) (s : State) :
    ∃ steps : List DirectoryStep, steps.map DirectoryStep.path = dirs ∧
      Runs DirectoryStep.Taken steps s.files ((createDirectories dirs).run s).2.files ∧
      ((createDirectories dirs).run s).1 = steps.filterMap DirectoryStep.error? := by
  induction dirs generalizing s with
  | nil => exact ⟨[], rfl, .done s.files, rfl⟩
  | cons dir dirs ih =>
    obtain ⟨events, hrun⟩ := run_createDirectories_step dir dirs s
    rw [hrun]
    rcases hmake : (FileM.createDirectories dir).run.run s.files with ⟨result, files⟩
    obtain ⟨steps, hpaths, hruns, herrors⟩ := ih ⟨files, events⟩
    refine ⟨⟨dir, result⟩ :: steps, by rw [List.map_cons, hpaths], .next hmake hruns, ?_⟩
    dsimp only
    rw [herrors]
    cases result with
    | ok u => rfl
    | error cause => rfl

/-! ## Units -/

section Units

variable (source : UnitSource) (outputs : Path)

/-- A unit ends in one of three ways, and returns what it reports. -/
theorem compileUnit_taken (path : Path) (relative : List String) (s : State) :
    ∃ ending result after,
      (compileUnit source path (outputPath outputs relative)).run s = (result, after) ∧
      UnitStep.Taken source outputs ⟨path, relative, ending⟩ s.files after.files ∧
      (result.map fun _ => outputPath outputs relative) =
        UnitStep.report outputs ⟨path, relative, ending⟩ := by
  obtain ⟨events, hrun⟩ := run_compileUnit source path (outputPath outputs relative) s
  cases hparse : source.parse s.files path with
  | error cause =>
    rw [hparse] at hrun
    exact ⟨.unread cause, _, _, hrun, .unread hparse, rfl⟩
  | ok m =>
    simp only [hparse] at hrun
    rcases FileM.replaceFile_cases (outputPath outputs relative) (source.output m) s.files with
      ⟨cause, hreplace⟩ | ⟨loc, hreplace, -⟩
    · rw [hreplace] at hrun
      exact ⟨.unwritten cause, _, _, hrun, .unwritten hparse hreplace, rfl⟩
    · rw [hreplace] at hrun
      exact ⟨.written, _, _, hrun, .written hparse hreplace, rfl⟩

/-- The second phase takes a step for each unit, and returns the reports. -/
theorem compileJobs_runs (units : List (Path × List String)) (s : State) :
    ∃ steps : List UnitStep, steps.map UnitStep.visit = units ∧
      let ran := (compileJobs source
        (units.map fun (path, names) => ⟨path, outputPath outputs names⟩)).run s
      Runs (UnitStep.Taken source outputs) steps s.files ran.2.files ∧
      ran.1 = steps.map (UnitStep.report outputs) := by
  induction units generalizing s with
  | nil => exact ⟨[], rfl, .done s.files, rfl⟩
  | cons unit units ih =>
    obtain ⟨path, relative⟩ := unit
    obtain ⟨ending, result, after, hrun, htaken, hreport⟩ :=
      compileUnit_taken source outputs path relative s
    obtain ⟨steps, rfl, hruns, hreports⟩ := ih after
    refine ⟨⟨path, relative, ending⟩ :: steps, rfl, ?_⟩
    rw [List.map_cons, run_compileJobs_cons hrun]
    refine ⟨.next htaken hruns, ?_⟩
    dsimp only
    rw [hreport, hreports, List.map_cons]

end Units

/-! ## Trees -/

theorem length_writtenOf_add_failedOf (results : List (Except BuildError Path)) :
    (writtenOf results).length + (failedOf results).length = results.length := by
  induction results with
  | nil => rfl
  | cons result results ih =>
    cases result with
    | ok p =>
      show (writtenOf results).length + 1 + (failedOf results).length = results.length + 1
      omega
    | error e =>
      show (writtenOf results).length + ((failedOf results).length + 1) = results.length + 1
      omega

theorem length_filterMap_error? (steps : List DirectoryStep) :
    (steps.filterMap DirectoryStep.error?).length = steps.countP (!·.result.isOk) := by
  rw [List.length_filterMap_eq_countP]
  refine List.countP_congr fun step _ => ?_
  obtain ⟨path, cause | u⟩ := step <;> simp [DirectoryStep.error?, Except.isOk, Except.toBool]

/-- The summary is what the steps report: a step for the directory of outputs and for each visited
directory, and then a step for each visited unit. -/
structure Summary.Accounts (summary : Summary) (visited : Walk) (outputs : Path)
    (directories : List DirectoryStep) (units : List UnitStep) : Prop where
  paths : directories.map DirectoryStep.path =
    outputs :: visited.directories.map fun names => outputs.join (.ofNames names)
  visits : units.map UnitStep.visit = visited.files
  written : summary.written = writtenOf (units.map (UnitStep.report outputs))
  failed : summary.failed = directories.filterMap DirectoryStep.error? ++
    failedOf (units.map (UnitStep.report outputs))

namespace Summary.Accounts

variable {summary : Summary} {visited : Walk} {outputs : Path} {directories : List DirectoryStep}
  {units : List UnitStep} (h : summary.Accounts visited outputs directories units)
include h

/-- Nothing is left out and nothing is reported twice. -/
theorem length_add :
    summary.written.length + summary.failed.length =
      visited.files.length + directories.countP (!·.result.isOk) := by
  have hunits := length_writtenOf_add_failedOf (units.map (UnitStep.report outputs))
  rw [List.length_map] at hunits
  rw [h.written, h.failed, ← h.visits, List.length_append, List.length_map,
    length_filterMap_error?]
  omega

theorem units_eq : visited.units = units.map UnitStep.relative := by
  rw [Walk.units, ← h.visits, List.map_map]
  rfl

theorem written_sublist :
    summary.written.Sublist (visited.units.map (outputPath outputs)) := by
  rw [h.written, h.units_eq]
  clear h
  induction units with
  | nil => exact .slnil
  | cons unit units ih =>
    obtain ⟨path, relative, ending⟩ := unit
    cases ending with
    | written => exact .cons_cons _ ih
    | unread cause | unwritten cause => exact .cons _ ih

/-- If nothing fails, every output is written. -/
theorem written_eq (hfailed : summary.failed = []) :
    summary.written = visited.units.map (outputPath outputs) := by
  have hnone : failedOf (units.map (UnitStep.report outputs)) = [] := by
    rw [h.failed, List.append_eq_nil_iff] at hfailed
    exact hfailed.2
  rw [h.written, h.units_eq]
  clear h hfailed
  induction units with
  | nil => rfl
  | cons unit units ih =>
    obtain ⟨path, relative, ending⟩ := unit
    cases ending with
    | written => exact congrArg (_ :: ·) (ih hnone)
    | unread cause | unwritten cause => cases hnone

end Summary.Accounts

/-- A build whose walk ends well takes its steps, and its summary accounts for them. -/
theorem compileTree_runs (source : UnitSource) {sources : Path} (outputs : Path) {s : State}
    (h : (walk s.files sources).failure = none) : ∃ summary after directories units made,
      (compileTree source sources outputs).run s = (.ok summary, after) ∧
      Runs DirectoryStep.Taken directories s.files made ∧
      Runs (UnitStep.Taken source outputs) units made after.files ∧
      summary.Accounts (walk s.files sources) outputs directories units := by
  obtain ⟨events, hrun⟩ := @run_compileTree_of_none source s sources outputs h
  obtain ⟨events', hplan⟩ :=
    @run_plan source ⟨s.files, events⟩ ((walk s.files sources).plan outputs)
  obtain ⟨directories, hpaths, hmade, herrors⟩ :=
    createDirectories_runs ((walk s.files sources).plan outputs).directories ⟨s.files, events⟩
  obtain ⟨units, hvisits, hcompiled, hreports⟩ :=
    compileJobs_runs source outputs (walk s.files sources).files
      ((createDirectories ((walk s.files sources).plan outputs).directories).run
        ⟨s.files, events⟩).2
  rw [hplan] at hrun
  refine ⟨_, _, directories, units, _, hrun, hmade, hcompiled, hpaths, hvisits, ?_, ?_⟩
  · exact congrArg writtenOf hreports
  · rw [← hreports, ← herrors]
    rfl

/-- The same steps are taken in any order, each as it comes, and are reported in the order of the
walk. -/
theorem runInOrder_runs (source : UnitSource) {visited : Walk} (h : visited.Orderly)
    (outputs : Path) {order : List Job} (horder : order.Perm (visited.plan outputs).jobs)
    (s : State) : ∃ summary after directories units ran made,
      ((visited.plan outputs).runInOrder source order).run s = (summary, after) ∧
      Runs DirectoryStep.Taken directories s.files made ∧
      Runs (UnitStep.Taken source outputs) ran made after.files ∧
      ran.map (UnitStep.job outputs) = order ∧ ran.Perm units ∧
      summary.Accounts visited outputs directories units := by
  obtain ⟨events, hrun⟩ := run_inOrder source (visited.plan outputs) order s
  obtain ⟨directories, hpaths, hmade, herrors⟩ :=
    createDirectories_runs (visited.plan outputs).directories s
  obtain ⟨visits, rfl, hvisits⟩ := exists_map_of_perm horder
  obtain ⟨ran, rfl, hcompiled, hreports⟩ := compileJobs_runs source outputs visits
    ((createDirectories (visited.plan outputs).directories).run s).2
  -- The steps that were taken, put in the order of the walk.
  obtain ⟨units, hunits, hperm⟩ := exists_map_of_perm hvisits.symm
  have hjobs : (visited.plan outputs).jobs = units.map (UnitStep.job outputs) := by
    rw [← UnitStep.map_job, ← hunits]
    rfl
  have horder := UnitStep.map_job outputs ran
  have hnodup := h.nodup_jobs outputs
  rw [hjobs] at hnodup
  have hresults := @filterMap_lookup_map _ _ _ _ (UnitStep.job outputs) (UnitStep.report outputs)
    units ran hperm.subset fun a ha b hb hjob => congrArg _
      (List.inj_on_of_nodup_map hnodup (hperm.symm.subset hb) ha hjob)
  rw [← hjobs, ← horder, ← hreports] at hresults
  refine ⟨_, _, directories, units, ran, _, hrun, hmade, hcompiled, horder.symm, hperm.symm, hpaths,
    hunits.symm, congrArg writtenOf hresults, ?_⟩
  rw [← herrors, ← hresults]

/-- A walk fails with an error of its own. -/
theorem exists_of_walk_failure {fs : FileSystem} {root : Path} {e : BuildError}
    (h : (walk fs root).failure = some e) : ∃ path cause, e = .walk path cause := by
  unfold walk at h
  split at h
  · exact ⟨_, _, (Option.some.inj h).symm⟩
  · exact exists_of_failure h
  · cases h

/-- A build fails exactly if its walk does, with the error of the walk, and then no file has
changed. Any other build asks for every directory, the one of the outputs first, and then compiles
every unit, in the order of the walk. Its summary has the errors of the directories and, for each
unit, either its output or its error. Units that are compiled in another order are still reported in
the order of the walk. -/
theorem compileTree_accounts (source : UnitSource) (sources outputs : Path) (s : State) :
    ∃ result after, (compileTree source sources outputs).run s = (result, after) ∧
      ((∃ path cause, (walk s.files sources).failure = some (.walk path cause) ∧
          result = .error (.walk path cause) ∧ after.files = s.files) ∨
        (walk s.files sources).failure = none ∧
          (∃ summary directories units made, result = .ok summary ∧
            Runs DirectoryStep.Taken directories s.files made ∧
            Runs (UnitStep.Taken source outputs) units made after.files ∧
            summary.Accounts (walk s.files sources) outputs directories units ∧
            summary.written.length + summary.failed.length =
              (walk s.files sources).files.length + directories.countP (!·.result.isOk)) ∧
          (s.files.WellFormed → ∀ order,
            order.Perm ((walk s.files sources).plan outputs).jobs → ∀ before,
            ∃ summary after directories units ran made,
              (((walk s.files sources).plan outputs).runInOrder source order).run
                ⟨s.files, before⟩ = (summary, after) ∧
              Runs DirectoryStep.Taken directories s.files made ∧
              Runs (UnitStep.Taken source outputs) ran made after.files ∧
              ran.map (UnitStep.job outputs) = order ∧ ran.Perm units ∧
              summary.Accounts (walk s.files sources) outputs directories units ∧
              summary.written.length + summary.failed.length =
                (walk s.files sources).files.length + directories.countP (!·.result.isOk))) := by
  cases hfailure : (walk s.files sources).failure with
  | some e =>
    obtain ⟨events, hrun⟩ := @run_compileTree_of_some source s sources outputs e hfailure
    obtain ⟨path, cause, rfl⟩ := exists_of_walk_failure hfailure
    exact ⟨_, _, hrun, .inl ⟨path, cause, rfl, rfl, rfl⟩⟩
  | none =>
    obtain ⟨summary, after, directories, units, made, hrun, hmade, hcompiled, haccounts⟩ :=
      compileTree_runs source outputs hfailure
    refine ⟨_, _, hrun, .inr ⟨rfl, ⟨summary, directories, units, made, rfl, hmade, hcompiled,
      haccounts, haccounts.length_add⟩, fun hfs order horder before => ?_⟩⟩
    obtain ⟨summary, after, directories, units, ran, made, hrun, hmade, hcompiled, hran, hperm,
      haccounts⟩ := runInOrder_runs source (orderly_walk hfs hfailure) outputs horder
        ⟨s.files, before⟩
    exact ⟨summary, after, directories, units, ran, made, hrun, hmade, hcompiled, hran, hperm,
      haccounts, haccounts.length_add⟩

/-- Two units are compiled in the other order, and reported in the order of the walk. -/
theorem compileTree_accounts_reversed :
    let visited := walk (twoUnits "a.py" "b.py") ⟨"s"⟩
    ∃ summary after directories units,
      ((visited.plan ⟨"o"⟩).runInOrder (.plain none) (visited.plan ⟨"o"⟩).jobs.reverse).run
        ⟨twoUnits "a.py" "b.py", #[]⟩ = (summary, after) ∧
      summary.written = [⟨"o/a.js"⟩, ⟨"o/b.js"⟩] ∧
      summary.Accounts visited ⟨"o"⟩ directories units := by
  have hfs := @twoUnits_wellFormed "a.py" "b.py" (by decide) (by decide) (by decide)
  have hfailure : (walk (twoUnits "a.py" "b.py") ⟨"s"⟩).failure = none := by decide +kernel
  have hplan : (walk (twoUnits "a.py" "b.py") ⟨"s"⟩).plan ⟨"o"⟩ = ⟨[⟨"o"⟩, ⟨"o/"⟩],
      [⟨⟨"s/a.py"⟩, ⟨"o/a.js"⟩⟩, ⟨⟨"s/b.py"⟩, ⟨"o/b.js"⟩⟩]⟩ := by
    decide +kernel
  have hwritten : ((Plan.runInOrder (.plain none) ⟨[⟨"o"⟩, ⟨"o/"⟩],
      [⟨⟨"s/a.py"⟩, ⟨"o/a.js"⟩⟩, ⟨⟨"s/b.py"⟩, ⟨"o/b.js"⟩⟩]⟩
      [⟨⟨"s/b.py"⟩, ⟨"o/b.js"⟩⟩, ⟨⟨"s/a.py"⟩, ⟨"o/a.js"⟩⟩]).run
        ⟨twoUnits "a.py" "b.py", #[]⟩).1.written = [⟨"o/a.js"⟩, ⟨"o/b.js"⟩] := by
    decide +kernel
  obtain ⟨-, -, -, ⟨path, cause, hfailed, -⟩ | ⟨-, -, horders⟩⟩ :=
    compileTree_accounts (.plain none) ⟨"s"⟩ ⟨"o"⟩ ⟨twoUnits "a.py" "b.py", #[]⟩
  · cases hfailure.symm.trans hfailed
  · obtain ⟨summary, after, directories, units, -, -, hrun, -, -, -, -, haccounts, -⟩ :=
      horders hfs _ (List.reverse_perm _) #[]
    refine ⟨summary, after, directories, units, hrun, ?_, haccounts⟩
    simp only [hplan, List.reverse_cons, List.reverse_nil, List.nil_append,
      List.cons_append] at hrun
    rw [hrun] at hwritten
    exact hwritten

end ScriptCompiler.Build
