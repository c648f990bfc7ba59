import ScriptCompiler.Proofs.Build.Accounts
import ScriptCompiler.Proofs.Files.Making

/-!
# Names that no entry can have

A name can be too long, or have a character that ends texts. Paths through such a name in a
directory are refused whatever is asked of them (`slotLocation_of_not_isName`). So a build that is
to put its outputs there reports all of them as failed, in any order of its units
(`run_phases_of_not_isName`), and changes nothing (`files_compileTree_of_not_isName`). What a build
does is told by the file system alone, and not by the events before it (`blind_compileTree`).
-/

namespace ScriptCompiler

namespace Path

/-- The path goes from `d` on by the step `x`. -/
structure Through (d : Path) (x : String) (p : Path) : Prop where
  isAbsolute : p.isAbsolute = d.isAbsolute
  steps : ∃ more, p.steps = d.openSteps ++ x :: more

variable {d p q : Path} {x : String}

theorem through_name (d : Path) (hstep : IsStep x) : Through d x (d.join ⟨x⟩) :=
  ⟨isAbsolute_join d (isAbsolute_name hstep), [], steps_join_name d hstep⟩

theorem Through.join (h : Through d x p) (hstep : IsStep x) (hq : q.isAbsolute = false) :
    Through d x (p.join q) := by
  obtain ⟨more, hsteps⟩ := h.steps
  refine ⟨by rw [isAbsolute_join p hq, h.isAbsolute], ?_⟩
  rw [steps_join p hq, openSteps, dropOpen, hsteps]
  split
  · next hlast =>
    -- The slash at the end is behind the step.
    have hmore : more ≠ [] := by
      rintro rfl
      rw [List.getLast?_concat] at hlast
      exact hstep.ne_empty (Option.some.inj hlast)
    refine ⟨more.dropLast ++ q.steps, ?_⟩
    rw [List.dropLast_append_of_ne_nil (List.cons_ne_nil x more),
      List.dropLast_cons_of_ne_nil hmore]
    simp
  · exact ⟨more ++ q.steps, by simp⟩

theorem Through.descend {names : List String} (h : Through d x p) (hstep : IsStep x)
    (hnames : ∀ n ∈ names, IsStep n) : Through d x (p.descend names) := by
  induction names generalizing p with
  | nil => exact h
  | cons name names ih =>
    rw [List.forall_mem_cons] at hnames
    exact ih (h.join hstep (isAbsolute_name hnames.1)) hnames.2

end Path

namespace FileSystem

open ScriptCompiler.Path

variable {fs : FileSystem} {d p : Path} {dir : Location} {x : String} {more : List String}

theorem follow_tooLong {links : Nat} {here : Location} {steps : List String}
    (hdir : fs.get? here = some .directory) (hsilent : isSilent x = false) (hup : x ≠ "..")
    (hlong : isTooLong x = true) : fs.follow links here (x :: steps) = .error .nameTooLong := by
  cases links <;> simp [follow, followSteps, isDirectoryAt_iff.mpr hdir, hsilent, hup, hlong]

/-- The slashes at the end of a path are behind its names. -/
theorem dropSlashes_append (front : List String) (hx : x ≠ "") :
    ((front ++ x :: more).reverse.dropWhile (· == "")).reverse =
      front ++ x :: (more.reverse.dropWhile (· == "")).reverse := by
  have hfront : (front ++ x :: more).reverse = more.reverse ++ x :: front.reverse := by simp
  rw [hfront, List.dropWhile_append]
  split
  · next hempty =>
    rw [List.isEmpty_iff] at hempty
    simp [hempty, hx]
  · simp

/-- A name that is no name of an entry, in a path that can be looked up, is too long. -/
theorem isTooLong_of_not_isName (hstep : IsStep x) (hdot : x ≠ ".") (hup : x ≠ "..")
    (hname : ¬ IsName x) (hmem : x ∈ p.steps) (hnul : '\x00' ∉ p.text.toList) :
    isTooLong x = true := by
  have hfree : '\x00' ∉ x.toList := fun hc => hnul (mem_text_of_mem_steps hmem hc)
  by_contra hshort
  refine hname ⟨hstep.ne_empty, hdot, hup, hstep.not_slash, hfree, ?_⟩
  simpa [isTooLong] using hshort

section Refused

variable (hopen : fs.openDirectory d = .ok dir) (hstep : IsStep x) (hdot : x ≠ ".") (hup : x ≠ "..")
  (hthrough : Through d x p)
include hopen hstep hdot hup hthrough

/-- The name is met at the end of the path, or on the way. -/
theorem slotLocation_tooLong (hlong : isTooLong x = true) (hcheck : p.check = .ok ())
    (onOther : FileError) : fs.slotLocation p onOther = .error .nameTooLong := by
  obtain ⟨-, hroute, hdir⟩ := openDirectory_eq_ok_iff.mp hopen
  obtain ⟨more, hsteps⟩ := hthrough.steps
  have hstart : fs.startOf p = fs.startOf d := by rw [startOf, startOf, hthrough.isAbsolute]
  unfold slotLocation slot
  rw [hcheck, hsteps, dropSlashes_append _ hstep.ne_empty, hstart]
  rcases List.eq_nil_or_concat (more.reverse.dropWhile (· == "")).reverse with
    hnil | ⟨front, last, hconcat⟩
  · have hslash := follow_slash_iff.mpr ⟨hroute.openSteps, hdir⟩
    have hfilter : (some x).filter (fun step => step != "." && step != "..") = some x := by
      simp [Option.filter_eq_some_iff, hdot, hup]
    simp [hnil, hslash, hfilter, hlong]
  · have hsilent := hstep.not_silent hdot
    obtain ⟨left, hfollow⟩ := hroute.openSteps.follow_append
    have hfail := hfollow (x :: (front ++ [""]))
    rw [follow_tooLong hdir hsilent hup hlong] at hfail
    have hfront : (d.openSteps ++ x :: (front ++ [last])).dropLast ++ [""] =
        d.openSteps ++ x :: (front ++ [""]) := by
      rw [← List.cons_append, ← List.append_assoc, List.dropLast_concat]
      simp
    rw [hconcat, List.concat_eq_append]
    simp only [ok_bind, hfront, hfail, error_bind]

variable (hname : ¬ IsName x)
include hname

/-- A path through the name is refused, by its text or at the name. -/
theorem slotLocation_of_not_isName (onOther : FileError) : fs.slotLocation p onOther =
    .error (if '\x00' ∈ p.text.toList then .invalidPath else .nameTooLong) := by
  obtain ⟨more, hsteps⟩ := hthrough.steps
  have hmem : x ∈ p.steps := by simp [hsteps]
  by_cases hnul : '\x00' ∈ p.text.toList
  · simp [slotLocation, slot, Path.check, hnul]
  rw [if_neg hnul]
  have hlong := isTooLong_of_not_isName hstep hdot hup hname hmem hnul
  have htext : p.text ≠ "" := by
    intro hempty
    have hpieces : p.steps = [""] := by
      simp [Path.steps, isAbsolute, hempty, Text.piecesOf, Text.pieces]
    rw [hpieces, List.mem_singleton] at hmem
    exact hstep.ne_empty hmem
  by_cases hsize : maxPathSize < p.text.utf8ByteSize
  · simp [slotLocation, slot, Path.check, hnul, htext, hsize]
  · have hcheck : p.check = .ok () := by
      rw [Path.check, if_neg hnul, if_neg htext, if_neg hsize]
    exact slotLocation_tooLong hopen hstep hdot hup hthrough hlong hcheck onOther

theorem createDirectories_of_not_isName : ∃ e,
    (FileM.createDirectories p).run.run fs = (.error e, fs) := by
  have hslot := slotLocation_of_not_isName hopen hstep hdot hup hthrough hname .alreadyExists
  have hcounted : p.countedSteps ≠ [] := by
    obtain ⟨more, hsteps⟩ := hthrough.steps
    have hmem : x ∈ p.steps := by simp [hsteps]
    exact countedSteps_ne_nil hmem (hstep.not_silent hdot)
  have hcreate : fs.createDirectory p =
      .error (if '\x00' ∈ p.text.toList then .invalidPath else .nameTooLong) := by
    rw [createDirectory, hslot]
    rfl
  have hrun := FileM.run_createDirectories hcounted (by rw [hcreate]; split <;> simp)
  rw [hcreate] at hrun
  exact ⟨_, hrun.trans (if_neg (by split <;> simp))⟩

theorem replaceFile_of_not_isName (contents : Contents) : ∃ e,
    (FileM.replaceFile p contents).run.run fs = (.error e, fs) := by
  rcases FileM.replaceFile_cases p contents fs with hrefused | ⟨loc, -, hslot, -⟩
  · exact hrefused
  · rw [slotLocation_of_not_isName hopen hstep hdot hup hthrough hname] at hslot
    cases hslot

end Refused

end FileSystem

namespace Build

open FileSystem ScriptCompiler.Path

/-! ## Builds that are refused -/

section Steps

variable {files : FileSystem}

/-- Directories that are all refused are all reported, whatever was reported before. -/
theorem run_createDirectories_refused {paths : List Path}
    (h : ∀ p ∈ paths, ∃ e, (FileM.createDirectories p).run.run files = (.error e, files)) :
    ∃ errors, (∀ p ∈ paths, ∃ e, .createDirectory p e ∈ errors) ∧
      ∀ events, ∃ later,
        (createDirectories paths).run ⟨files, events⟩ = (errors, ⟨files, later⟩) := by
  induction paths with
  | nil => exact ⟨[], by simp, fun events => ⟨events, rfl⟩⟩
  | cons p paths ih =>
    rw [List.forall_mem_cons] at h
    obtain ⟨e, hrefused⟩ := h.1
    obtain ⟨errors, hmem, hrest⟩ := ih h.2
    refine ⟨.createDirectory p e :: errors, ?_, fun events => ?_⟩
    · rw [List.forall_mem_cons]
      refine ⟨⟨e, List.mem_cons_self⟩, fun q hq => ?_⟩
      obtain ⟨e', he'⟩ := hmem q hq
      exact ⟨e', List.mem_cons_of_mem _ he'⟩
    · obtain ⟨between, hstep⟩ := run_createDirectories_step p paths ⟨files, events⟩
      rw [hrefused] at hstep
      obtain ⟨later, hlater⟩ := hrest between
      refine ⟨later, ?_⟩
      rw [hstep]
      dsimp only
      rw [hlater]
      rfl

/-- Units that all fail change nothing for the ones after them. -/
theorem run_compileJobs_refused {source : UnitSource} {error : Job → BuildError} {jobs : List Job}
    (h : ∀ job ∈ jobs, ∀ events, ∃ later,
      (compileUnit source job.path job.destination).run ⟨files, events⟩ =
        (.error (error job), ⟨files, later⟩)) (events : Array Event) :
    ∃ later, (compileJobs source jobs).run ⟨files, events⟩ =
      (jobs.map fun job => .error (error job), ⟨files, later⟩) := by
  induction jobs generalizing events with
  | nil => exact ⟨events, rfl⟩
  | cons job jobs ih =>
    rw [List.forall_mem_cons] at h
    obtain ⟨between, hunit⟩ := h.1 events
    obtain ⟨later, hrest⟩ := ih h.2 between
    refine ⟨later, ?_⟩
    rw [run_compileJobs_cons hunit, hrest]
    rfl

end Steps

section Refused

variable {d : Path} {dir : Location} {x : String} {files : FileSystem} {visited : Walk}
  (hopen : files.openDirectory d = .ok dir) (hstep : IsStep x) (hdot : x ≠ ".") (hup : x ≠ "..")
  (hname : ¬ IsName x) (h : visited.Orderly)
include hopen hstep hdot hup hname h

theorem createDirectories_plan_of_not_isName {p : Path}
    (hp : p ∈ (visited.plan (d.join ⟨x⟩)).directories) : ∃ e,
    (FileM.createDirectories p).run.run files = (.error e, files) := by
  have hthrough : Through d x p := by
    rcases List.mem_cons.mp hp with rfl | hp
    · exact through_name d hstep
    · obtain ⟨names, hnames, rfl⟩ := List.mem_map.mp hp
      exact (through_name d hstep).join hstep
        (isAbsolute_ofNames fun n hn => (h.directory_names hnames n hn).isStep)
  exact createDirectories_of_not_isName hopen hstep hdot hup hthrough hname

theorem compileUnit_plan_of_not_isName (source : UnitSource) {job : Job}
    (hjob : job ∈ (visited.plan (d.join ⟨x⟩)).jobs) : ∃ e, ∀ events, ∃ later,
    (compileUnit source job.path job.destination).run ⟨files, events⟩ =
      (.error e, ⟨files, later⟩) := by
  obtain ⟨⟨path, relative⟩, hfile, rfl⟩ := List.mem_map.mp hjob
  obtain ⟨hne, hnames⟩ := h.file_names hfile
  obtain ⟨names, unit, rfl⟩ : ∃ names unit, relative = names ++ [unit] :=
    ⟨_, _, (List.dropLast_concat_getLast hne).symm⟩
  have hunit : IsUnitName unit := hnames unit (by simp)
  have hdir : ∀ n ∈ names, IsUnitName n := fun n hn => hnames n (by simp [hn])
  have hthrough : Through d x (outputPath (d.join ⟨x⟩) (names ++ [unit])) := by
    rw [outputPath_concat _ hdir hunit, outputDirectory_eq _ (.join_name hstep hdot) hdir]
    refine Through.join ?_ hstep (isAbsolute_name (isOutputName_outputFileName hunit).toIsStep)
    exact (through_name d hstep).descend hstep fun n hn => (hdir n hn).toIsStep
  have hrun := fun events => run_compileUnit source path
    (outputPath (d.join ⟨x⟩) (names ++ [unit])) ⟨files, events⟩
  cases hparse : source.parse files path with
  | error cause =>
    simp only [hparse] at hrun
    exact ⟨_, hrun⟩
  | ok m =>
    obtain ⟨e, hrefused⟩ := replaceFile_of_not_isName hopen hstep hdot hup hthrough hname
      (source.output m)
    simp only [hparse, hrefused] at hrun
    exact ⟨_, hrun⟩

/-- Every directory and every unit of the plan is refused, and the units are in any order. -/
theorem run_phases_of_not_isName (source : UnitSource) : ∃ errors, ∃ error : Job → BuildError,
    (∀ p ∈ (visited.plan (d.join ⟨x⟩)).directories, ∃ e, .createDirectory p e ∈ errors) ∧
      (∀ events, ∃ later, (createDirectories (visited.plan (d.join ⟨x⟩)).directories).run
        ⟨files, events⟩ = (errors, ⟨files, later⟩)) ∧
      ∀ order ⊆ (visited.plan (d.join ⟨x⟩)).jobs, ∀ events, ∃ later,
        (compileJobs source order).run ⟨files, events⟩ =
          (order.map fun job => .error (error job), ⟨files, later⟩) := by
  obtain ⟨errors, hreported, hdirectories⟩ := run_createDirectories_refused
    fun p hp => createDirectories_plan_of_not_isName hopen hstep hdot hup hname h hp
  have : Nonempty BuildError := ⟨.createDirectory d .nameTooLong⟩
  choose! error hunits using fun job hjob =>
    @compileUnit_plan_of_not_isName _ _ _ _ _ hopen hstep hdot hup hname h source job hjob
  exact ⟨errors, error, hreported, hdirectories, fun order horder =>
    run_compileJobs_refused fun job hjob => hunits job (horder hjob)⟩

end Refused

/-- A build that is to put its outputs under a name that no entry can have changes nothing. -/
theorem files_compileTree_of_not_isName {source : UnitSource} {sources d : Path} {dir : Location}
    {x : String} {s : State} (hfs : s.files.WellFormed) (hopen : s.files.openDirectory d = .ok dir)
    (hstep : IsStep x) (hdot : x ≠ ".") (hup : x ≠ "..") (hname : ¬ IsName x) :
    ((compileTree source sources (d.join ⟨x⟩)).run s).2.files = s.files := by
  cases hfailure : (walk s.files sources).failure with
  | some e =>
    obtain ⟨events, hrun⟩ := @run_compileTree_of_some source s sources (d.join ⟨x⟩) e hfailure
    rw [hrun]
  | none =>
    obtain ⟨errors, error, -, hdirectories, hunits⟩ := run_phases_of_not_isName hopen hstep hdot hup
      hname (orderly_walk hfs hfailure) source
    obtain ⟨events, hrun⟩ := @run_compileTree_of_none source s sources (d.join ⟨x⟩) hfailure
    obtain ⟨later, hplan⟩ :=
      @run_plan source ⟨s.files, events⟩ ((walk s.files sources).plan (d.join ⟨x⟩))
    obtain ⟨between, hmade⟩ := hdirectories events
    obtain ⟨last, hcompiled⟩ := hunits _ (List.Subset.refl _) between
    rw [hrun, hplan]
    simp only [hmade, hcompiled]

/-! ## Events -/

/-- What a step of a build returns, and what it does to the file system, does not depend on the
events before it. -/
def Blind (x : BuildM α) : Prop :=
  ∀ files events events', ∃ result after later later',
    x.run ⟨files, events⟩ = (result, ⟨after, later⟩) ∧
      x.run ⟨files, events'⟩ = (result, ⟨after, later'⟩)

theorem blind_pure (a : α) : Blind (pure a : BuildM α) :=
  fun files events events' => ⟨a, files, events, events', rfl, rfl⟩

theorem Blind.bind {x : BuildM α} {f : α → BuildM β} (hx : Blind x) (hf : ∀ a, Blind (f a)) :
    Blind (x >>= f) := by
  intro files events events'
  obtain ⟨a, between, later, later', h, h'⟩ := hx files events events'
  obtain ⟨b, after, last, last', hb, hb'⟩ := hf a between later later'
  exact ⟨b, after, last, last', by rw [run_bind, h, hb], by rw [run_bind, h', hb']⟩

theorem blind_report (event : Event) : Blind (report event) :=
  fun files _ _ => ⟨(), files, _, _, rfl, rfl⟩

theorem blind_reportAll (events : List Event) : Blind (reportAll events) :=
  fun files _ _ => ⟨(), files, _, _, rfl, rfl⟩

theorem blind_onFiles (action : FileM α) : Blind (onFiles action) :=
  fun _ _ _ => ⟨_, _, _, _, rfl, rfl⟩

theorem blind_compileUnit (source : UnitSource) (path destination : Path) :
    Blind (compileUnit source path destination) := by
  intro files events events'
  obtain ⟨later, h⟩ := run_compileUnit source path destination ⟨files, events⟩
  obtain ⟨later', h'⟩ := run_compileUnit source path destination ⟨files, events'⟩
  cases hparse : source.parse files path with
  | error cause =>
    simp only [hparse] at h h'
    exact ⟨_, _, _, _, h, h'⟩
  | ok m =>
    simp only [hparse] at h h'
    exact ⟨_, _, _, _, h, h'⟩

theorem blind_createDirectories (dirs : List Path) : Blind (createDirectories dirs) := by
  induction dirs with
  | nil => exact blind_pure []
  | cons dir dirs ih =>
    refine (blind_report _).bind fun _ => (blind_onFiles _).bind fun result => ?_
    cases result with
    | ok u => exact ih
    | error cause => exact (blind_report _).bind fun _ => ih.bind fun _ => blind_pure _

theorem blind_compileJobs (source : UnitSource) (jobs : List Job) :
    Blind (compileJobs source jobs) := by
  induction jobs with
  | nil => exact blind_pure []
  | cons job jobs ih =>
    exact (blind_compileUnit source _ _).bind fun _ => ih.bind fun _ => blind_pure _

theorem blind_plan (source : UnitSource) (plan : Plan) : Blind (plan.run source) := by
  refine (blind_createDirectories _).bind fun _ => (blind_compileJobs source _).bind fun _ => ?_
  exact (blind_reportAll _).bind fun _ => (blind_report _).bind fun _ => blind_pure _

theorem blind_compileTree (source : UnitSource) (sources outputs : Path) :
    Blind (compileTree source sources outputs) := by
  intro files events events'
  cases hfailure : (walk files sources).failure with
  | some e =>
    obtain ⟨later, h⟩ := @run_compileTree_of_some source ⟨files, events⟩ _ outputs e hfailure
    obtain ⟨later', h'⟩ := @run_compileTree_of_some source ⟨files, events'⟩ _ outputs e hfailure
    exact ⟨_, _, _, _, h, h'⟩
  | none =>
    obtain ⟨later, h⟩ := @run_compileTree_of_none source ⟨files, events⟩ _ outputs hfailure
    obtain ⟨later', h'⟩ := @run_compileTree_of_none source ⟨files, events'⟩ _ outputs hfailure
    obtain ⟨summary, after, last, last', hplan, hplan'⟩ :=
      blind_plan source ((walk files sources).plan outputs) files later later'
    rw [hplan] at h
    rw [hplan'] at h'
    exact ⟨_, _, _, _, h, h'⟩

end Build

end ScriptCompiler
