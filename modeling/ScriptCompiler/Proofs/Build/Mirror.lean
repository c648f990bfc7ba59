import ScriptCompiler.Proofs.Build.Refusal
import ScriptCompiler.Proofs.Build.Units

/-!
# A build mirrors its sources

Where nothing was before, a build leaves an exact mirror of the sources that it visited, and it
leaves the same one whatever the order of its units (`compileTree_mirrors`). Under a name that an
entry can have, the mirror is built at a site (`Site.mirrors_settleAll`). Under any other name all
is refused, and nothing is the mirror of what is left (`mirrors_refused`).
-/

namespace ScriptCompiler.Build

open FileSystem ScriptCompiler.Path

/-! ## Mirrors -/

/-- The file system holds, at `base`, an exact mirror of what was visited, less what is reported as
failed, and elsewhere what it held before. The path `outputs` leads there. -/
structure Mirrors (before : FileSystem) (base : Location) (outputs : Path) (source : UnitSource)
    (visited : Walk) (summary : Summary) (files : FileSystem) : Prop where
  root : files.get? base = some .directory ↔
    ∀ cause, .createDirectory outputs cause ∉ summary.failed
  directory {names : List String} : names ≠ [] →
    (files.get? (base ++ names) = some .directory ↔ names ∈ visited.directories ∧
      ∀ cause, .createDirectory (outputs.join (.ofNames names)) cause ∉ summary.failed)
  /-- What is reported as written is a file in its place, with the output of its own unit. -/
  written {p : Path} : p ∈ summary.written → ∃ path dir unit m,
    (path, dir ++ [unit]) ∈ visited.files ∧ p = outputPath outputs (dir ++ [unit]) ∧
      source.parse files path = .ok m ∧
      files.resolve p = .ok (base ++ dir ++ [(outputFileName ⟨unit⟩).text], .file (source.output m))
  /-- Nothing else is there. -/
  entry {names : List String} {entry : Entry} : files.get? (base ++ names) = some entry →
    entry = .directory ∨ ∃ p ∈ summary.written, files.resolve p = .ok (base ++ names, entry)
  outside {loc : Location} : (∀ names, loc ≠ base ++ names) → files.get? loc = before.get? loc
  workDir : files.workDir = before.workDir

/-- Where nothing is left, everything was reported as failed. -/
theorem mirrors_refused {files : FileSystem} {base : Location} {visited : Walk} {outputs : Path}
    {failed : List BuildError} (source : UnitSource)
    (hvacant : ∀ names, files.get? (base ++ names) = none)
    (hfailed : ∀ p ∈ (visited.plan outputs).directories,
      ∃ cause, .createDirectory p cause ∈ failed) :
    Mirrors files base outputs source visited ⟨[], failed⟩ files where
  root := by
    obtain ⟨cause, hcause⟩ := hfailed outputs List.mem_cons_self
    have hroot := hvacant []
    rw [List.append_nil] at hroot
    rw [hroot]
    exact iff_of_false (by simp) fun hnone => hnone cause hcause
  directory {names} _ := by
    rw [hvacant]
    refine iff_of_false (by simp) fun ⟨hmem, hnone⟩ => ?_
    obtain ⟨cause, hcause⟩ := hfailed (outputs.join (.ofNames names))
      (List.mem_cons_of_mem _ (List.mem_map_of_mem hmem))
    exact hnone cause hcause
  written hp := by cases hp
  entry hget := by
    rw [hvacant] at hget
    cases hget
  outside _ := rfl
  workDir := rfl

namespace Site

variable {site : Site} {source : UnitSource} {visited : Walk} {done : List (List String)}
  {made : FileSystem} {job : Job} {dir : List String}

/-- The units of a plan, and where their outputs go. -/
theorem exists_unit (h : visited.Orderly) (hmade : site.Made done made)
    (hdone : ∀ names, names ∈ done ↔ names = [] ∨ names ∈ visited.directories)
    (hjob : job ∈ (visited.plan site.outputs).jobs) :
    ∃ path dir unit, (path, dir ++ [unit]) ∈ visited.files ∧
      job = ⟨path, outputPath site.outputs (dir ++ [unit])⟩ ∧
      site.Target job dir (outputFileName ⟨unit⟩).text ∧ dir ∈ done := by
  obtain ⟨⟨path, names⟩, hfile, rfl⟩ := List.mem_map.mp hjob
  obtain ⟨hne, hnames⟩ := h.file_names hfile
  have hparent := h.file_parent hfile
  rw [← hdone] at hparent
  obtain ⟨dir, unit, rfl⟩ : ∃ dir unit, names = dir ++ [unit] :=
    ⟨_, _, (List.dropLast_concat_getLast hne).symm⟩
  rw [List.dropLast_concat] at hparent
  have hunit : IsUnitName unit := hnames unit (by simp)
  have hdir := hmade.rooted.isName hparent
  refine ⟨path, dir, unit, hfile, rfl, ⟨?_, hdir, isOutputName_outputFileName hunit⟩, hparent⟩
  dsimp only
  have hunits : ∀ n ∈ dir, IsUnitName n := fun n hn => .of_isName (hdir n hn)
  rw [outputPath_concat _ hunits hunit, outputDirectory_eq _ site.tidy_outputs hunits]

/-! ## Mirrors at a site -/

/-- What a build reports, from what its units do alone. -/
def summaryOf (source : UnitSource) (made : FileSystem) (plan : Plan) : Summary :=
  ⟨writtenOf (plan.jobs.map (result source made)),
    refused plan.directories ++ failedOf (plan.jobs.map (result source made))⟩

theorem createDirectory_mem_failed {plan : Plan} {p : Path} {cause : FileError} :
    .createDirectory p cause ∈ (summaryOf source made plan).failed ↔
      p ∈ plan.directories ∧ ¬ p.Fits ∧ .nameTooLong = cause := by
  rw [summaryOf, List.mem_append, mem_refused]
  exact or_iff_left createDirectory_not_mem_failedOf

/-- A directory that was asked for is reported exactly if its path is too long. -/
theorem not_reported_iff {plan : Plan} {p : Path} (h : p ∈ plan.directories) :
    (∀ cause, .createDirectory p cause ∉ (summaryOf source made plan).failed) ↔ p.Fits := by
  simp [createDirectory_mem_failed, h]

theorem not_reported_directory_iff {names : List String} (h : visited.Orderly) (hne : names ≠ [])
    (hmem : names ∈ visited.directories) :
    (∀ cause, .createDirectory (site.outputs.join (.ofNames names)) cause ∉
      (summaryOf source made (visited.plan site.outputs)).failed) ↔
      (site.outputs.descend names).Fits := by
  have hpath : site.outputs.join (.ofNames names) ∈ (visited.plan site.outputs).directories :=
    List.mem_cons_of_mem _ (List.mem_map_of_mem hmem)
  rw [not_reported_iff hpath, join_ofNames _ hne fun n hn => (h.directory_names hmem n hn).isStep]

section Settled

variable (h : visited.Orderly) (hmade : site.Made done made)
  (hdone : ∀ names, names ∈ done ↔ names = [] ∨ names ∈ visited.directories)
  (hsource : ∀ file ∈ visited.files, source.Ignores site.files site.root file.1)
include h hmade hdone hsource

theorem ready_jobs : ∀ job ∈ (visited.plan site.outputs).jobs, site.Ready source done job := by
  intro job hjob
  obtain ⟨path, dir, unit, hfile, rfl, htarget, hdir⟩ := exists_unit h hmade hdone hjob
  exact ⟨⟨dir, _, htarget, hdir⟩, hsource _ hfile⟩

theorem grown_jobs :
    site.Grown made (settleAll source made (visited.plan site.outputs).jobs made) :=
  grown_settleAll hmade (ready_jobs h hmade hdone hsource) (.refl site made)

theorem directory_settleAll_iff {names : List String} :
    (settleAll source made (visited.plan site.outputs).jobs made).get? (site.root ++ names) =
      some .directory ↔ names ∈ done ∧ (site.outputs.descend names).Fits := by
  have hgrown := grown_jobs h hmade hdone hsource
  rw [← isDirectoryAt_iff, hgrown.isDirectoryAt, isDirectoryAt_iff, hmade.below]
  simp

variable (hdistinct : ((visited.plan site.outputs).jobs.map Job.destination).Nodup)
include hdistinct

/-- A unit that succeeds has its output in its place. -/
theorem resolve_settleAll (hjob : job ∈ (visited.plan site.outputs).jobs) {loc : Location}
    {contents : Contents} (heffect : Build.effect source made job = .ok (loc, contents)) :
    (settleAll source made (visited.plan site.outputs).jobs made).resolve job.destination =
      .ok (loc, .file contents) := by
  have hready := ready_jobs h hmade hdone hsource
  obtain ⟨dir, name, htarget, hdir⟩ := (hready job hjob).target
  obtain ⟨-, -, hslot, -⟩ := hmade.effect_eq_ok htarget hdir heffect
  have hgrown := grown_jobs h hmade hdone hsource
  exact resolve_of_slotLocation (hgrown.keeps.slotLocation hslot)
    (get?_settleAll_of_effect (hmade.distinctPlaces hready hdistinct) hjob heffect)

/-- What is below the root is a directory or the output of a unit. -/
theorem entry_settleAll {names : List String} {entry : Entry}
    (hget : (settleAll source made (visited.plan site.outputs).jobs made).get?
      (site.root ++ names) = some entry) :
    entry = .directory ∨ ∃ job ∈ (visited.plan site.outputs).jobs, ∃ contents,
      Build.effect source made job = .ok (site.root ++ names, contents) ∧
        entry = .file contents := by
  have hready := ready_jobs h hmade hdone hsource
  by_cases hunit : ∃ job ∈ (visited.plan site.outputs).jobs, ∃ contents,
      Build.effect source made job = .ok (site.root ++ names, contents)
  · obtain ⟨job, hjob, contents, heffect⟩ := hunit
    rw [get?_settleAll_of_effect (hmade.distinctPlaces hready hdistinct) hjob heffect] at hget
    exact .inr ⟨job, hjob, contents, heffect, (Option.some.inj hget).symm⟩
  · rw [get?_settleAll_of_forall_ne fun job hjob contents heffect =>
      hunit ⟨job, hjob, contents, heffect⟩, hmade.below] at hget
    split at hget
    · exact .inl (Option.some.inj hget).symm
    · cases hget

theorem mirrors_settleAll :
    Mirrors site.files site.root site.outputs source visited
      (summaryOf source made (visited.plan site.outputs))
      (settleAll source made (visited.plan site.outputs).jobs made) := by
  have hgrown := grown_jobs h hmade hdone hsource
  have hout := hgrown.sameOutside hmade
  refine ⟨?_, ?_, ?_, ?_, fun hloc => (hout.get? hloc).symm, hout.workDir.symm⟩
  · have hroot := @directory_settleAll_iff _ _ _ _ _ h hmade hdone hsource []
    rw [List.append_nil] at hroot
    rw [not_reported_iff (by simp [Walk.plan]), hroot]
    simp [hdone, descend]
  · intro names hne
    rw [directory_settleAll_iff h hmade hdone hsource, hdone, or_iff_right hne]
    exact and_congr_right fun hmem => (not_reported_directory_iff h hne hmem).symm
  · intro p hp
    obtain ⟨job, hjob, rfl, ⟨loc, contents⟩, heffect⟩ := mem_writtenOf.mp hp
    have hresolve := resolve_settleAll h hmade hdone hsource hdistinct hjob heffect
    obtain ⟨path, dir, unit, hfile, rfl, htarget, hdir⟩ := exists_unit h hmade hdone hjob
    obtain ⟨rfl, -, -, m, hparse, rfl⟩ := hmade.effect_eq_ok htarget hdir heffect
    refine ⟨path, dir, unit, m, hfile, rfl, ?_, hresolve⟩
    rw [← hparse]
    exact hsource _ hfile _ _ hout ((Grown.refl site made).sameOutside hmade) hgrown.get?_root
  · intro names entry hget
    rcases entry_settleAll h hmade hdone hsource hdistinct hget with
      hdirectory | ⟨job, hjob, contents, heffect, rfl⟩
    · exact .inl hdirectory
    · exact .inr ⟨_, mem_writtenOf.mpr ⟨job, hjob, rfl, _, heffect⟩,
        resolve_settleAll h hmade hdone hsource hdistinct hjob heffect⟩

/-- The same comes of every order. -/
theorem run_inOrder_eq {order : List Job} (horder : order.Perm (visited.plan site.outputs).jobs)
    (events : Array Event) : ∃ events',
    ((visited.plan site.outputs).runInOrder source order).run ⟨site.files, events⟩ =
      (summaryOf source made (visited.plan site.outputs),
        ⟨settleAll source made (visited.plan site.outputs).jobs made, events'⟩) := by
  have hready := ready_jobs h hmade hdone hsource
  obtain ⟨⟨files, between⟩, done', hrun, hmade', hdone'⟩ :=
    @Site.run_createDirectories site ⟨site.files, events⟩ visited h rfl
  obtain rfl : made = files := hmade.unique hmade' fun names => by rw [hdone, hdone']
  obtain ⟨later, hjobs⟩ := @run_compileJobs site source done made order ⟨made, between⟩ hmade
    (.refl site made) fun job hjob => hready job (horder.subset hjob)
  obtain ⟨events', hplan⟩ :=
    run_inOrder source (visited.plan site.outputs) order ⟨site.files, events⟩
  refine ⟨events', ?_⟩
  rw [hplan]
  simp only [hrun, hjobs]
  rw [filterMap_lookup_perm (result source made) horder,
    settleAll_perm (hmade.distinctPlaces hready hdistinct) horder]
  rfl

end Settled

theorem exists_mirror (site : Site) (h : visited.Orderly)
    (hsource : ∀ file ∈ visited.files, source.Ignores site.files site.root file.1)
    (hdistinct : ((visited.plan site.outputs).jobs.map Job.destination).Nodup) :
    ∃ summary files, Mirrors site.files site.root site.outputs source visited summary files ∧
      ∀ order, order.Perm (visited.plan site.outputs).jobs → ∀ before, ∃ after,
        ((visited.plan site.outputs).runInOrder source order).run ⟨site.files, before⟩ =
          (summary, ⟨files, after⟩) := by
  obtain ⟨made, done, -, hmade, hdone⟩ :=
    @Site.run_createDirectories site ⟨site.files, #[]⟩ visited h rfl
  exact ⟨_, _, mirrors_settleAll h hmade hdone hsource hdistinct,
    fun order horder before => run_inOrder_eq h hmade hdone hsource hdistinct horder before⟩

end Site

theorem writtenOf_map_error (error : Job → BuildError) (jobs : List Job) :
    writtenOf (jobs.map fun job => .error (error job)) = [] := by
  simp [writtenOf, Except.toOption]

theorem failedOf_map_error (error : Job → BuildError) (jobs : List Job) :
    failedOf (jobs.map fun job => .error (error job)) = jobs.map error := by
  simp [failedOf, List.filterMap_map]

/-- Nothing is the mirror of what is refused, and no order of the units makes a difference. -/
theorem exists_mirror_of_not_isName {files : FileSystem} {d : Path} {dir : Location} {x : String}
    {visited : Walk} (source : UnitSource) (hfs : files.WellFormed)
    (hopen : files.openDirectory d = .ok dir) (hstep : IsStep x) (hdot : x ≠ ".") (hup : x ≠ "..")
    (hvacant : files.get? (dir ++ [x]) = none) (hname : ¬ IsName x) (h : visited.Orderly) :
    ∃ summary, Mirrors files (dir ++ [x]) (d.join ⟨x⟩) source visited summary files ∧
      ∀ order, order.Perm (visited.plan (d.join ⟨x⟩)).jobs → ∀ before, ∃ after,
        ((visited.plan (d.join ⟨x⟩)).runInOrder source order).run ⟨files, before⟩ =
          (summary, ⟨files, after⟩) := by
  obtain ⟨errors, error, hreported, hdirectories, hunits⟩ :=
    run_phases_of_not_isName hopen hstep hdot hup hname h source
  refine ⟨⟨[], errors ++ (visited.plan (d.join ⟨x⟩)).jobs.map error⟩, ?_,
    fun order horder before => ?_⟩
  · refine mirrors_refused source (fun names => hfs.vacant_append hvacant) fun p hp => ?_
    obtain ⟨cause, hcause⟩ := hreported p hp
    exact ⟨cause, List.mem_append_left _ hcause⟩
  · obtain ⟨between, hmade⟩ := hdirectories before
    obtain ⟨last, hcompiled⟩ := hunits order horder.subset between
    obtain ⟨after, hplan⟩ :=
      run_inOrder source (visited.plan (d.join ⟨x⟩)) order ⟨files, before⟩
    have hresults := filterMap_lookup_perm
      (fun job => (.error (error job) : Except BuildError Path)) horder
    refine ⟨after, ?_⟩
    rw [hplan]
    simp only [hmade, hcompiled, hresults, writtenOf_map_error, failedOf_map_error]

/-- Under any name where nothing was, every order of the units leaves the same mirror. -/
theorem exists_mirror_of_vacant {files : FileSystem} {d : Path} {dir : Location} {x : String}
    {visited : Walk} {source : UnitSource} (hfs : files.WellFormed)
    (hopen : files.openDirectory d = .ok dir) (hstep : IsStep x) (hdot : x ≠ ".") (hup : x ≠ "..")
    (hvacant : files.get? (dir ++ [x]) = none)
    (hsource : ∀ file ∈ visited.files, source.Ignores files (dir ++ [x]) file.1)
    (h : visited.Orderly)
    (hdistinct : ((visited.plan (d.join ⟨x⟩)).jobs.map Job.destination).Nodup) :
    ∃ summary left, Mirrors files (dir ++ [x]) (d.join ⟨x⟩) source visited summary left ∧
      ∀ order, order.Perm (visited.plan (d.join ⟨x⟩)).jobs → ∀ before, ∃ after,
        ((visited.plan (d.join ⟨x⟩)).runInOrder source order).run ⟨files, before⟩ =
          (summary, ⟨left, after⟩) := by
  by_cases hname : IsName x
  · exact Site.exists_mirror ⟨files, d, dir, x, hfs, hopen, hname, hvacant⟩ h hsource hdistinct
  · obtain ⟨summary, hmirror⟩ := exists_mirror_of_not_isName source hfs hopen hstep hdot hup hvacant
      hname h
    exact ⟨summary, files, hmirror⟩

/-- In a place where nothing was, a build leaves an exact mirror of what it visited, and every order
of its units gives the same summary and the same file system. -/
theorem compileTree_mirrors {source : UnitSource} {sources d : Path} {dir : Location} {x : String}
    {s : State} {summary : Summary} (hfs : s.files.WellFormed)
    (hopen : s.files.openDirectory d = .ok dir) (hstep : IsStep x) (hdot : x ≠ ".") (hup : x ≠ "..")
    (hvacant : s.files.get? (dir ++ [x]) = none)
    (hsource : ∀ file ∈ (walk s.files sources).files, source.Ignores s.files (dir ++ [x]) file.1)
    (hrun : ((compileTree source sources (d.join ⟨x⟩)).run s).1 = .ok summary)
    (hdistinct : (((walk s.files sources).plan (d.join ⟨x⟩)).jobs.map Job.destination).Nodup) :
    ∃ files, ((compileTree source sources (d.join ⟨x⟩)).run s).2.files = files ∧
      Mirrors s.files (dir ++ [x]) (d.join ⟨x⟩) source (walk s.files sources) summary files ∧
      ∀ order, order.Perm ((walk s.files sources).plan (d.join ⟨x⟩)).jobs →
        ∀ before, ∃ after,
          (((walk s.files sources).plan (d.join ⟨x⟩)).runInOrder source order).run
            ⟨s.files, before⟩ = (summary, ⟨files, after⟩) := by
  obtain ⟨horderly, started, hjobs⟩ := run_compileTree_jobs hfs hrun
  obtain ⟨planned, files, hmirrors, horders⟩ := exists_mirror_of_vacant hfs hopen hstep hdot hup
    hvacant hsource horderly hdistinct
  -- The build itself takes the order of the plan.
  obtain ⟨finished, hplan⟩ := horders _ (.refl _) started
  obtain ⟨rfl, hfinal⟩ := Prod.mk.inj (hjobs.symm.trans hplan)
  exact ⟨files, by rw [hfinal], hmirrors, horders⟩

/-- The plain front end does not look at outputs to read a file that was there before. -/
theorem Site.plain_ignores (site : Site) (exports : Option (List String)) {p : Path}
    {loc : Location} {contents : Contents}
    (hslot : site.files.slotLocation p .busy = .ok (loc, false))
    (hget : site.files.get? loc = some (.file contents)) :
    (UnitSource.plain exports).Ignores site.files site.root p := by
  have hread : ∀ a, SameOutside site.root site.files a → a.readFile p = .ok contents := by
    intro a hout
    have hkeep : ∀ {loc entry}, site.files.get? loc = some entry → a.get? loc = some entry :=
      site.get?_of_outside fun hloc => (hout.get? hloc).symm
    have hkeeps : site.files.Keeps a := ⟨hout.workDir.symm, hkeep, hkeep⟩
    rw [readFile, resolve_of_slotLocation (hkeeps.slotLocation hslot) (hkeep hget)]
    rfl
  intro a b ha hb _
  show readModule a p = readModule b p
  unfold readModule
  rw [hread a ha, hread b hb]

/-- A package whose initializer the plain front end refuses, beside another unit. -/
def packageFiles : FileSystem :=
  ((twoUnits "a.py" "b").put ["work", "s", "p"] .directory).put ["work", "s", "p", "__init__.py"]
    (.file (.ofText "!no"))

theorem packageFiles_wellFormed : packageFiles.WellFormed := by
  have hunits := @twoUnits_wellFormed "a.py" "b" (by decide) (by decide) (by decide)
  have hpackage : ((twoUnits "a.py" "b").put ["work", "s", "p"] .directory).WellFormed :=
    hunits.put (show (twoUnits "a.py" "b").get? ["work", "s"] = _ by simp [twoUnits, get?_put])
      (show IsName "p" by decide) (by simp [twoUnits, get?_put, get?_fresh]) _
  exact hpackage.put
    (show ((twoUnits "a.py" "b").put ["work", "s", "p"] _).get? ["work", "s", "p"] = _ by
      simp [get?_put]) (by decide) (by simp [twoUnits, get?_put, get?_fresh]) _

/-- A place beside the package. -/
def packageSite : Site where
  files := packageFiles
  parent := ⟨"."⟩
  parentAt := ["work"]
  name := "o"
  wellFormed := packageFiles_wellFormed
  opened := by
    have hopen : (packageFiles.openDirectory ⟨"."⟩).toOption.map id = some ["work"] := by
      decide +kernel
    obtain ⟨dir, hdir, rfl⟩ := exists_ok_of_toOption hopen
    exact hdir
  isName := by decide
  vacant := by simp [packageFiles, twoUnits, get?_put, get?_fresh]

theorem packageSite_ignores : ∀ file ∈ (walk packageSite.files ⟨"s"⟩).files,
    (UnitSource.plain none).Ignores packageSite.files packageSite.root file.1 := by
  have hfiles : (walk packageSite.files ⟨"s"⟩).files.map Prod.fst =
      [⟨"s/a.py"⟩, ⟨"s/b"⟩, ⟨"s/p/__init__.py"⟩] := by
    decide +kernel
  have hignores : ∀ (p : Path) (loc : Location) (contents : Contents),
      (packageFiles.slotLocation p .busy).toOption.map id = some (loc, false) →
      packageFiles.get? loc = some (.file contents) →
      (UnitSource.plain none).Ignores packageFiles packageSite.root p := by
    intro p loc contents hplace hget
    obtain ⟨place, hslot, rfl⟩ := exists_ok_of_toOption hplace
    exact packageSite.plain_ignores none hslot hget
  intro file hfile
  have hpath := List.mem_map_of_mem (f := Prod.fst) hfile
  rw [hfiles] at hpath
  simp only [List.mem_cons, List.not_mem_nil, or_false] at hpath
  rcases hpath with hpath | hpath | hpath <;> rw [hpath]
  · exact hignores _ ["work", "s", "a.py"] (.ofText "x") (by decide +kernel)
      (by simp [packageFiles, twoUnits, get?_put])
  · exact hignores _ ["work", "s", "b"] (.ofText "x") (by decide +kernel)
      (by simp [packageFiles, twoUnits, get?_put])
  · exact hignores _ ["work", "s", "p", "__init__.py"] (.ofText "!no") (by decide +kernel)
      (by simp [packageFiles, twoUnits, get?_put])

theorem compileTree_mirrors_packageSite : ∃ summary files,
    ((compileTree (.plain none) ⟨"s"⟩ packageSite.outputs).run ⟨packageSite.files, #[]⟩).1 =
      .ok summary ∧
    summary.written = [⟨"./o/a.js"⟩, ⟨"./o/b.js"⟩] ∧
    summary.failed = [.source ⟨"s/p/__init__.py"⟩ (.invalid "!no")] ∧
    Mirrors packageSite.files packageSite.root packageSite.outputs (.plain none)
      (walk packageSite.files ⟨"s"⟩) summary files := by
  have hrun : ((compileTree (.plain none) ⟨"s"⟩ packageSite.outputs).run
      ⟨packageSite.files, #[]⟩).1.toOption.map (fun summary =>
        (summary.written, summary.failed)) =
      some ([⟨"./o/a.js"⟩, ⟨"./o/b.js"⟩], [.source ⟨"s/p/__init__.py"⟩ (.invalid "!no")]) := by
    decide +kernel
  have hdistinct : (((walk packageSite.files ⟨"s"⟩).plan packageSite.outputs).jobs.map
      Job.destination).Nodup := by
    decide +kernel
  obtain ⟨summary, hsummary, hreport⟩ := exists_ok_of_toOption hrun
  have hname := packageSite.isName
  obtain ⟨files, -, hmirrors, -⟩ := @compileTree_mirrors (.plain none) ⟨"s"⟩ packageSite.parent
    packageSite.parentAt packageSite.name ⟨packageSite.files, #[]⟩ summary packageSite.wellFormed
    packageSite.opened hname.isStep hname.2.1 hname.2.2.1 packageSite.vacant packageSite_ignores
    hsummary hdistinct
  obtain ⟨hwritten, hfailed⟩ := Prod.mk.inj hreport
  exact ⟨summary, files, hsummary, hwritten, hfailed, hmirrors⟩

end ScriptCompiler.Build
