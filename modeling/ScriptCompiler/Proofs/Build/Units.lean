import ScriptCompiler.Proofs.Build.Directories

/-!
# Units in any order

After the directories are made, a unit puts one file in its place or changes nothing (`effect`), and
what it does is not changed by the outputs that are there before it (`Site.Grown.effect`): an output
is no directory, no link and no temporary file, and front ends are asked not to look at outputs. So
every unit does what it would do alone (`Site.run_compileJobs`), and if no two of them have the same
place their order does not matter (`Site.settleAll_perm`).
-/

namespace ScriptCompiler.Build

open FileSystem ScriptCompiler.Path

/-! ## What a unit does -/

/-- The place and the contents of the output of a unit, or why it has none. -/
def effect (source : UnitSource) (files : FileSystem) (job : Job) :
    Except BuildError (Location × Contents) :=
  match source.parse files job.path with
  | .error cause => .error (.source job.path cause)
  | .ok m =>
    match files.outputPlace (FileM.directoryOf job.destination)
        (job.destination.steps.getLast job.destination.steps_ne_nil) (source.output m) with
    | .error e => .error (.write job.destination e)
    | .ok loc => .ok (loc, source.output m)

theorem put_comm (files : FileSystem) {loc loc' : Location} (h : loc ≠ loc')
    (entry entry' : Entry) :
    (files.put loc entry).put loc' entry' = (files.put loc' entry').put loc entry := by
  refine ext_get? (fun other => ?_) rfl rfl
  simp only [get?_put]
  by_cases hloc : loc = other
  · rw [if_pos hloc, if_pos hloc, if_neg (by rw [← hloc]; exact Ne.symm h)]
  · rw [if_neg hloc, if_neg hloc]

/-- The file system after an effect. -/
def settle (outcome : Except BuildError (Location × Contents)) (files : FileSystem) : FileSystem :=
  match outcome with
  | .error _ => files
  | .ok (loc, contents) => files.put loc (.file contents)

namespace Site

variable {site : Site} {source : UnitSource} {job : Job} {dir : List String} {name : String}

/-- The output of the job is called `name` and is in the directory that `dir` leads to. -/
structure Target (site : Site) (job : Job) (dir : List String) (name : String) : Prop where
  destination : job.destination = (site.outputs.descend dir).join ⟨name⟩
  dir : ∀ n ∈ dir, IsName n
  name : IsOutputName name

theorem Target.effect_eq (h : site.Target job dir name) (files : FileSystem) :
    effect source files job =
      match source.parse files job.path with
      | .error cause => .error (.source job.path cause)
      | .ok m =>
        match files.outputPlace (site.outputs.descend dir) name (source.output m) with
        | .error e => .error (.write job.destination e)
        | .ok loc => .ok (loc, source.output m) := by
  have hdirectory : FileM.directoryOf job.destination = site.outputs.descend dir := by
    rw [h.destination]
    exact FileM.directoryOf_join (site.tidy_descend h.dir) h.name.toIsStep h.name.ne_dot
  have hlast : job.destination.steps.getLast job.destination.steps_ne_nil = name := by
    simp [h.destination, steps_join_name _ h.name.toIsStep]
  rw [effect, hdirectory, hlast]

theorem Target.run_compileUnit (h : site.Target job dir name) (source : UnitSource) (s : State) :
    ∃ events,
    (compileUnit source job.path job.destination).run s =
      ((effect source s.files job).map fun _ => (),
        ⟨settle (effect source s.files job) s.files, events⟩) := by
  obtain ⟨events, hrun⟩ := Build.run_compileUnit source job.path job.destination s
  refine ⟨events, ?_⟩
  rw [hrun, h.effect_eq]
  cases source.parse s.files job.path with
  | error cause => rfl
  | ok m =>
    dsimp only
    rw [h.destination, FileM.run_replaceFile_join (site.tidy_descend h.dir) h.name.toIsStep
      h.name.ne_dot]
    cases s.files.outputPlace (site.outputs.descend dir) name (source.output m) <;> rfl

/-! ## Outputs that are there before -/

/-- The two file systems agree outside of the tree at `root`. -/
structure SameOutside (root : Location) (a b : FileSystem) : Prop where
  workDir : a.workDir = b.workDir
  device : a.device = b.device
  get? {loc : Location} : (∀ names, loc ≠ root ++ names) → a.get? loc = b.get? loc

end Site

/-- What the front end says of a path does not depend on what is below `root`. -/
def UnitSource.Ignores (source : UnitSource) (files : FileSystem) (root : Location)
    (path : Path) : Prop :=
  ∀ a b, Site.SameOutside root files a → Site.SameOutside root files b →
    a.get? root = b.get? root → source.parse a path = source.parse b path

namespace Site

variable {site : Site} {source : UnitSource} {job : Job} {dir : List String} {name : String}
  {done : List (List String)} {made files : FileSystem} {loc : Location} {contents : Contents}

/-- `files` is `made` with outputs in places that were vacant. -/
structure Grown (site : Site) (made files : FileSystem) : Prop where
  workDir : files.workDir = made.workDir
  device : files.device = made.device
  entry (loc : Location) : files.get? loc = made.get? loc ∨
    made.get? loc = none ∧ (∃ contents, files.get? loc = some (.file contents)) ∧
      ∃ dir name, loc = site.root ++ dir ++ [name] ∧ IsOutputName name

theorem Grown.refl (site : Site) (made : FileSystem) : site.Grown made made :=
  ⟨rfl, rfl, fun _ => .inl rfl⟩

theorem Grown.put (h : site.Grown made files) (hname : IsOutputName name)
    (hvacant : made.get? (site.root ++ dir ++ [name]) = none) (contents : Contents) :
    site.Grown made (files.put (site.root ++ dir ++ [name]) (.file contents)) where
  workDir := h.workDir
  device := h.device
  entry loc := by
    rw [get?_put]
    by_cases hloc : site.root ++ dir ++ [name] = loc
    · rw [if_pos hloc, ← hloc]
      exact .inr ⟨hvacant, ⟨contents, rfl⟩, dir, name, rfl, hname⟩
    · rw [if_neg hloc]
      exact h.entry loc

section Grown

variable (h : site.Grown made files)
include h

theorem Grown.keeps : made.Keeps files := by
  have hkeep : ∀ {loc entry}, made.get? loc = some entry → files.get? loc = some entry := by
    intro loc entry hget
    rcases h.entry loc with hsame | ⟨hvacant, -⟩
    · rw [hsame, hget]
    · rw [hvacant] at hget
      cases hget
  exact ⟨h.workDir, hkeep, hkeep⟩

theorem Grown.isDirectoryAt (loc : Location) :
    files.isDirectoryAt loc = made.isDirectoryAt loc := by
  unfold FileSystem.isDirectoryAt
  rcases h.entry loc with hsame | ⟨hvacant, ⟨contents, hfile⟩, -⟩
  · rw [hsame]
  · rw [hvacant, hfile]
    rfl

theorem Grown.temporary (dir : Location) (hname : IsTemporaryName name) :
    files.get? (dir ++ [name]) = made.get? (dir ++ [name]) := by
  rcases h.entry (dir ++ [name]) with hsame | ⟨-, -, dir', name', hloc, houtput⟩
  · exact hsame
  · obtain ⟨-, hlast⟩ := List.append_inj' hloc rfl
    exact absurd (List.singleton_inj.mp hlast ▸ hname) houtput.not_temporary

theorem Grown.get?_root : files.get? site.root = made.get? site.root := by
  rcases h.entry site.root with hsame | ⟨-, -, dir, name, hloc, -⟩
  · exact hsame
  · have hlength := congrArg List.length hloc
    simp at hlength

theorem Grown.sameOutside (hmade : site.Made done made) :
    SameOutside site.root site.files files where
  workDir := by rw [h.workDir, hmade.workDir]
  device := by rw [h.device, hmade.device]
  get? {loc} hloc := by
    rcases h.entry loc with hsame | ⟨-, -, dir, name, hbelow, -⟩
    · rw [hsame, hmade.outside hloc]
    · rw [List.append_assoc] at hbelow
      exact absurd hbelow (hloc _)

/-- The outputs that are there before do not change what a unit does. -/
theorem Grown.effect (hmade : site.Made done made) (htarget : site.Target job dir name)
    (hdir : dir ∈ done) (hsource : source.Ignores site.files site.root job.path) :
    effect source files job = effect source made job := by
  have hparse : source.parse files job.path = source.parse made job.path :=
    hsource _ _ (h.sameOutside hmade) ((Grown.refl site made).sameOutside hmade) h.get?_root
  have hopen : files.openDirectory (site.outputs.descend dir) =
      made.openDirectory (site.outputs.descend dir) := by
    by_cases hfits : (site.outputs.descend dir).Fits
    · have hmadeOpen := hmade.openDirectory hdir hfits
      rw [hmadeOpen, h.keeps.openDirectory hmadeOpen]
    · rw [site.openDirectory_descend_long htarget.dir hfits,
        site.openDirectory_descend_long htarget.dir hfits]
  have hplace := outputPlace_congr htarget.name.toIsStep hopen h.device
    (fun dir name hname => by rw [h.temporary dir hname]) h.isDirectoryAt
  simp only [htarget.effect_eq, hparse, hplace]

end Grown

/-- An output goes to the place that mirrors the one of its source, which was vacant. -/
theorem Made.effect_eq_ok (hmade : site.Made done made) (htarget : site.Target job dir name)
    (hdir : dir ∈ done) (h : Build.effect source made job = .ok (loc, contents)) :
    loc = site.root ++ dir ++ [name] ∧ made.get? loc = none ∧
      made.slotLocation job.destination .busy = .ok (loc, false) ∧
      ∃ m, source.parse made job.path = .ok m ∧ contents = source.output m := by
  rw [htarget.effect_eq] at h
  cases hparse : source.parse made job.path with
  | error cause => rw [hparse] at h; cases h
  | ok m =>
    rw [hparse] at h
    dsimp only at h
    split at h
    · cases h
    next place hplace =>
    obtain ⟨rfl, rfl⟩ := Prod.mk.inj (Except.ok.inj h)
    obtain ⟨opened, hopen, hfile⟩ := outputPlace_eq_ok hplace
    have hfits : (site.outputs.descend dir).Fits := by
      by_cases hfits : (site.outputs.descend dir).Fits
      · exact hfits
      · rw [site.openDirectory_descend_long htarget.dir hfits] at hopen
        cases hopen
    obtain rfl : site.root ++ dir = opened :=
      Except.ok.inj ((hmade.openDirectory hdir hfits).symm.trans hopen)
    obtain rfl := eq_of_filePlace_join htarget.name.toIsStep hopen hfile
    rw [← htarget.destination] at hfile
    obtain ⟨hslot, hfree⟩ := filePlace_eq_ok_iff.mp hfile
    refine ⟨rfl, ?_, hslot, m, rfl, rfl⟩
    have hbelow := hmade.below (dir ++ [name])
    rw [← List.append_assoc] at hbelow
    split at hbelow
    · exact absurd hbelow hfree
    · exact hbelow

/-! ## Units in any order -/

/-- A unit of a site: its output has a place there, and its front end does not look there. -/
structure Ready (site : Site) (source : UnitSource) (done : List (List String)) (job : Job) :
    Prop where
  target : ∃ dir name, site.Target job dir name ∧ dir ∈ done
  ignores : source.Ignores site.files site.root job.path

theorem Ready.grown (h : site.Ready source done job) (hmade : site.Made done made)
    (hgrown : site.Grown made files) :
    site.Grown made (settle (Build.effect source made job) files) := by
  obtain ⟨dir, name, htarget, hdir⟩ := h.target
  unfold settle
  split
  · exact hgrown
  next loc contents heffect =>
    obtain ⟨rfl, hvacant, -⟩ := hmade.effect_eq_ok htarget hdir heffect
    exact hgrown.put htarget.name hvacant contents

/-- The result of a unit. -/
def result (source : UnitSource) (made : FileSystem) (job : Job) : Except BuildError Path :=
  (Build.effect source made job).map fun _ => job.destination

/-- The file system after some units. -/
def settleAll (source : UnitSource) (made : FileSystem) (jobs : List Job) (files : FileSystem) :
    FileSystem :=
  jobs.foldl (fun files job => settle (Build.effect source made job) files) files

/-- Every unit does what it would do alone. -/
theorem run_compileJobs {jobs : List Job} {s : State} (hmade : site.Made done made)
    (hgrown : site.Grown made s.files) (hjobs : ∀ job ∈ jobs, site.Ready source done job) :
    ∃ events, (compileJobs source jobs).run s =
      (jobs.map (result source made), ⟨settleAll source made jobs s.files, events⟩) := by
  induction jobs generalizing s with
  | nil => exact ⟨s.events, rfl⟩
  | cons job jobs ih =>
    rw [List.forall_mem_cons] at hjobs
    obtain ⟨dir, name, htarget, hdir⟩ := hjobs.1.target
    obtain ⟨events, hunit⟩ := htarget.run_compileUnit source s
    rw [hgrown.effect hmade htarget hdir hjobs.1.ignores] at hunit
    obtain ⟨events', hrest⟩ := ih (s := ⟨settle (Build.effect source made job) s.files, events⟩)
      (hjobs.1.grown hmade hgrown) hjobs.2
    refine ⟨events', ?_⟩
    rw [run_compileJobs_cons hunit, hrest]
    cases heffect : Build.effect source made job <;> simp [result, settleAll, heffect, Except.map]

theorem settleAll_cons (source : UnitSource) (made : FileSystem) (job : Job) (jobs : List Job)
    (files : FileSystem) : settleAll source made (job :: jobs) files =
      settleAll source made jobs (settle (Build.effect source made job) files) := rfl

/-- No two units have an output in the same place. -/
def DistinctPlaces (source : UnitSource) (made : FileSystem) (jobs : List Job) : Prop :=
  ∀ job ∈ jobs, ∀ job' ∈ jobs, ∀ loc contents contents',
    Build.effect source made job = .ok (loc, contents) →
    Build.effect source made job' = .ok (loc, contents') → job = job'

theorem Made.distinctPlaces {jobs : List Job} (hmade : site.Made done made)
    (hjobs : ∀ job ∈ jobs, site.Ready source done job)
    (hdistinct : (jobs.map Job.destination).Nodup) : DistinctPlaces source made jobs := by
  intro job hjob job' hjob' loc contents contents' h h'
  obtain ⟨dir, name, htarget, hdir⟩ := (hjobs job hjob).target
  obtain ⟨dir', name', htarget', hdir'⟩ := (hjobs job' hjob').target
  obtain ⟨rfl, -⟩ := hmade.effect_eq_ok htarget hdir h
  obtain ⟨hloc, -⟩ := hmade.effect_eq_ok htarget' hdir' h'
  obtain ⟨hdirs, hnames⟩ := List.append_inj' hloc rfl
  refine List.inj_on_of_nodup_map hdistinct hjob hjob' ?_
  rw [htarget.destination, htarget'.destination, List.append_cancel_left hdirs,
    List.singleton_inj.mp hnames]

section Settle

variable {jobs order : List Job}

/-- The order of the units does not matter. -/
theorem settleAll_perm (hplaces : DistinctPlaces source made jobs) (h : order.Perm jobs)
    (files : FileSystem) :
    settleAll source made order files = settleAll source made jobs files := by
  refine h.foldl_eq' (fun a ha b hb files => ?_) files
  cases hea : Build.effect source made a with
  | error e => rfl
  | ok output =>
    obtain ⟨loc, contents⟩ := output
    cases heb : Build.effect source made b with
    | error e => rfl
    | ok output' =>
      obtain ⟨loc', contents'⟩ := output'
      by_cases hloc : loc = loc'
      · subst hloc
        obtain rfl := hplaces a (h.subset ha) b (h.subset hb) _ _ _ hea heb
        obtain ⟨-, rfl⟩ := Prod.mk.inj (Except.ok.inj (hea.symm.trans heb))
        rfl
      · exact put_comm files hloc _ _

theorem get?_settleAll_of_forall_ne
    (h : ∀ job ∈ jobs, ∀ contents, Build.effect source made job ≠ .ok (loc, contents)) :
    (settleAll source made jobs files).get? loc = files.get? loc := by
  induction jobs generalizing files with
  | nil => rfl
  | cons job jobs ih =>
    rw [List.forall_mem_cons] at h
    rw [settleAll_cons, ih h.2]
    cases heffect : Build.effect source made job with
    | error e => rfl
    | ok output =>
      obtain ⟨place, contents⟩ := output
      have hne : place ≠ loc := by
        rintro rfl
        exact h.1 contents heffect
      rw [settle, get?_put, if_neg hne]

theorem get?_settleAll_of_effect (hplaces : DistinctPlaces source made jobs) (hjob : job ∈ jobs)
    (h : Build.effect source made job = .ok (loc, contents)) :
    (settleAll source made jobs files).get? loc = some (.file contents) := by
  induction jobs generalizing files with
  | nil => cases hjob
  | cons first jobs ih =>
    rw [settleAll_cons]
    by_cases hmem : job ∈ jobs
    · exact ih (fun a ha b hb => hplaces a (List.mem_cons_of_mem _ ha) b
        (List.mem_cons_of_mem _ hb)) hmem
    · -- The unit is the first one, and none after it has the same place.
      obtain rfl : job = first := (List.mem_cons.mp hjob).resolve_right hmem
      rw [get?_settleAll_of_forall_ne, h, settle, get?_put, if_pos rfl]
      intro other hother contents' heffect
      obtain rfl := hplaces job List.mem_cons_self other (List.mem_cons_of_mem _ hother) _ _ _ h
        heffect
      exact hmem hother

end Settle

theorem grown_settleAll {jobs : List Job} (hmade : site.Made done made)
    (hjobs : ∀ job ∈ jobs, site.Ready source done job) (hgrown : site.Grown made files) :
    site.Grown made (settleAll source made jobs files) := by
  induction jobs generalizing files with
  | nil => exact hgrown
  | cons job jobs ih =>
    rw [List.forall_mem_cons] at hjobs
    exact ih hjobs.2 (hjobs.1.grown hmade hgrown)

/-! ## Results -/

theorem mem_writtenOf {jobs : List Job} {p : Path} :
    p ∈ writtenOf (jobs.map (result source made)) ↔
      ∃ job ∈ jobs, job.destination = p ∧ ∃ output, Build.effect source made job = .ok output := by
  unfold writtenOf
  rw [List.filterMap_map, List.mem_filterMap]
  refine exists_congr fun job => and_congr_right fun _ => ?_
  cases heffect : Build.effect source made job with
  | error e => simp [result, heffect, Except.map, Except.toOption]
  | ok output => simp [result, heffect, Except.map, Except.toOption]

theorem createDirectory_not_mem_failedOf {jobs : List Job} {p : Path} {cause : FileError} :
    .createDirectory p cause ∉ failedOf (jobs.map (result source made)) := by
  unfold failedOf
  rw [List.filterMap_map, List.mem_filterMap]
  rintro ⟨job, -, h⟩
  cases heffect : Build.effect source made job with
  | ok output => simp [result, heffect, Except.map] at h
  | error e =>
    obtain rfl : e = .createDirectory p cause := by simpa [result, heffect, Except.map] using h
    unfold Build.effect at heffect
    split at heffect
    · cases heffect
    split at heffect <;> cases heffect

theorem mem_refused {paths : List Path} {p : Path} {cause : FileError} :
    .createDirectory p cause ∈ refused paths ↔ p ∈ paths ∧ ¬ p.Fits ∧ .nameTooLong = cause := by
  simp [refused, and_assoc]

end Site

end ScriptCompiler.Build
