import ScriptCompiler.Proofs.Build.Mirror

/-!
# One output for each unit

The output of a unit is reported once for each unit that has it. The outputs that a build reports
are distinct if the output names within each directory are, and where nothing fails only then. In a
place where nothing was, each of them is then still the output of its own unit when the build ends
(`written_nodup`). Names that differ in their extension alone have the same output name
(`written_twice`).
-/

namespace ScriptCompiler.Build

open FileSystem ScriptCompiler.Path

/-- Nothing is at the path yet, and the front end does not look there. -/
def IsNewPlace (source : UnitSource) (files : FileSystem) (visited : Walk) (outputs : Path) :
    Prop :=
  ∃ d dir x, outputs = d.join ⟨x⟩ ∧ files.openDirectory d = .ok dir ∧
    IsStep x ∧ x ≠ "." ∧ x ≠ ".." ∧ files.get? (dir ++ [x]) = none ∧
    ∀ file ∈ visited.files, source.Ignores files (dir ++ [x]) file.1

/-- What the outputs that are reported as written have to do with the units that were visited. -/
structure OnePerUnit (source : UnitSource) (before : FileSystem) (visited : Walk) (outputs : Path)
    (summary : Summary) (after : FileSystem) : Prop where
  nodup : visited.DistinctOutputs → summary.written.Nodup
  distinctOutputs : summary.failed = [] → summary.written.Nodup → visited.DistinctOutputs
  /-- No unit replaces the output of another one. -/
  kept : IsNewPlace source before visited outputs → visited.DistinctOutputs →
    ∀ {path relative}, (path, relative) ∈ visited.files →
      outputPath outputs relative ∈ summary.written →
        ∃ m loc, source.parse after path = .ok m ∧
          after.resolve (outputPath outputs relative) = .ok (loc, .file (source.output m))

section Orders

variable {source : UnitSource} {files : FileSystem} {visited : Walk} {outputs : Path}
  {order : List Job} {events : Array Event} {summary : Summary} {after : State}
  (h : visited.Orderly) (horder : order.Perm (visited.plan outputs).jobs)
  (hrun : ((visited.plan outputs).runInOrder source order).run ⟨files, events⟩ = (summary, after))
include h horder hrun

/-- The output that a mirror has for a path is the one of the unit that the path is for. -/
theorem kept_inOrder (hfs : files.WellFormed) (hnew : IsNewPlace source files visited outputs)
    (hdistinct : visited.DistinctOutputs) {path : Path} {relative : List String}
    (hfile : (path, relative) ∈ visited.files)
    (hwritten : outputPath outputs relative ∈ summary.written) :
    ∃ m loc, source.parse after.files path = .ok m ∧
      after.files.resolve (outputPath outputs relative) = .ok (loc, .file (source.output m)) := by
  obtain ⟨d, dir, x, rfl, hopen, hstep, hdot, hup, hvacant, hsource⟩ := hnew
  have hnodup := (nodup_destinations_iff h (d.join ⟨x⟩)).mpr hdistinct
  obtain ⟨planned, left, hmirrors, horders⟩ := exists_mirror_of_vacant hfs hopen hstep hdot hup
    hvacant hsource h hnodup
  obtain ⟨later, hplanned⟩ := horders order horder events
  obtain ⟨rfl, rfl⟩ := Prod.mk.inj (hrun.symm.trans hplanned)
  obtain ⟨path', names, unit, m, hfile', hpath, hparse, hresolve⟩ := hmirrors.written hwritten
  -- Another unit would have the same destination.
  have hjob := List.inj_on_of_nodup_map hnodup (List.mem_map_of_mem hfile)
    (List.mem_map_of_mem hfile') hpath
  obtain ⟨rfl, -⟩ := Job.mk.inj hjob
  exact ⟨m, _, hparse, hresolve⟩

theorem onePerUnit_inOrder (hfs : files.WellFormed) :
    OnePerUnit source files visited outputs summary after.files := by
  obtain ⟨summary', after', directories, units, -, -, hrun', -, -, -, -, haccounts⟩ :=
    runInOrder_runs source h outputs horder ⟨files, events⟩
  obtain ⟨rfl, rfl⟩ := Prod.mk.inj (hrun'.symm.trans hrun)
  have hiff := nodup_destinations_iff h outputs
  rw [destinations_plan] at hiff
  refine ⟨fun hdistinct => ?_, fun hfailed hnodup => ?_, kept_inOrder h horder hrun hfs⟩
  · exact (hiff.mpr hdistinct).sublist haccounts.written_sublist
  · rw [haccounts.written_eq hfailed] at hnodup
    exact hiff.mp hnodup

end Orders

/-- The outputs that a build reports are distinct if no two units of a directory have the same
output name. If nothing fails, they are distinct only then. In a new place they are still there at
the end, each with what its own unit gave. All of this holds for every order of the units. -/
theorem written_nodup {source : UnitSource} {sources outputs : Path} {s : State} {summary : Summary}
    (hfs : s.files.WellFormed)
    (hrun : ((compileTree source sources outputs).run s).1 = .ok summary) :
    OnePerUnit source s.files (walk s.files sources) outputs summary
        ((compileTree source sources outputs).run s).2.files ∧
      ∀ order, order.Perm ((walk s.files sources).plan outputs).jobs → ∀ before,
        ∃ summary after,
          (((walk s.files sources).plan outputs).runInOrder source order).run ⟨s.files, before⟩ =
            (summary, after) ∧
          OnePerUnit source s.files (walk s.files sources) outputs summary after.files := by
  obtain ⟨h, events, hjobs⟩ := run_compileTree_jobs hfs hrun
  exact ⟨onePerUnit_inOrder h (.refl _) hjobs hfs, fun order horder before =>
    ⟨_, _, rfl, onePerUnit_inOrder h horder rfl hfs⟩⟩

theorem written_nodup_packageSite : packageSite.files.WellFormed ∧ ∃ summary after,
    (compileTree (.plain none) ⟨"s"⟩ packageSite.outputs).run ⟨packageSite.files, #[]⟩ =
      (.ok summary, after) ∧
    summary.written.Nodup ∧ ∃ m loc,
      (UnitSource.plain none).parse after.files ⟨"s/a.py"⟩ = .ok m ∧
      after.files.resolve ⟨"./o/a.js"⟩ = .ok (loc, .file ((UnitSource.plain none).output m)) := by
  have hrun : ((compileTree (.plain none) ⟨"s"⟩ packageSite.outputs).run
      ⟨packageSite.files, #[]⟩).1.toOption.map Summary.written =
      some [⟨"./o/a.js"⟩, ⟨"./o/b.js"⟩] := by
    decide +kernel
  have hfailure : (walk packageSite.files ⟨"s"⟩).failure = none := by decide +kernel
  have hnodup : (((walk packageSite.files ⟨"s"⟩).plan packageSite.outputs).jobs.map
      Job.destination).Nodup := by
    decide +kernel
  have hfile : (⟨"s/a.py"⟩, ["a.py"]) ∈ (walk packageSite.files ⟨"s"⟩).files := by
    decide +kernel
  have hpath : outputPath packageSite.outputs ["a.py"] = ⟨"./o/a.js"⟩ := by decide +kernel
  have hdistinct := (nodup_destinations_iff (orderly_walk packageSite.wellFormed hfailure)
    packageSite.outputs).mp hnodup
  have hname := packageSite.isName
  have hnew : IsNewPlace (.plain none) packageSite.files (walk packageSite.files ⟨"s"⟩)
      packageSite.outputs :=
    ⟨_, _, _, rfl, packageSite.opened, hname.isStep, hname.2.1, hname.2.2.1, packageSite.vacant,
      packageSite_ignores⟩
  obtain ⟨summary, hsummary, hwritten⟩ := exists_ok_of_toOption hrun
  obtain ⟨hone, -⟩ := written_nodup packageSite.wellFormed hsummary
  generalize (compileTree (.plain none) ⟨"s"⟩ packageSite.outputs).run ⟨packageSite.files, #[]⟩ =
    final at hsummary hone ⊢
  obtain ⟨result, after⟩ := final
  obtain rfl : result = .ok summary := hsummary
  obtain ⟨m, loc, hparse, hresolve⟩ := hone.kept hnew hdistinct hfile (by simp [hpath, hwritten])
  rw [hpath] at hresolve
  exact ⟨packageSite.wellFormed, summary, after, rfl, hone.nodup hdistinct, m, loc, hparse,
    hresolve⟩

/-- Two units of the same output: both are reported as written, and only one of them is there. -/
theorem written_twice : ∃ summary,
    ((compileTree (.plain none) ⟨"s"⟩ ⟨"o"⟩).run ⟨twoUnits "a.py" "a.txt", #[]⟩).1 = .ok summary ∧
      summary.written = [⟨"o/a.js"⟩, ⟨"o/a.js"⟩] ∧ summary.failed = [] := by
  have hrun : ((compileTree (.plain none) ⟨"s"⟩ ⟨"o"⟩).run
      ⟨twoUnits "a.py" "a.txt", #[]⟩).1.toOption.map (fun summary =>
        (summary.written, summary.failed)) = some ([⟨"o/a.js"⟩, ⟨"o/a.js"⟩], []) := by
    decide +kernel
  obtain ⟨summary, hsummary, hreport⟩ := exists_ok_of_toOption hrun
  exact ⟨summary, hsummary, Prod.mk.inj hreport⟩

end ScriptCompiler.Build
