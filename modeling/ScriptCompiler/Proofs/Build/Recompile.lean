import ScriptCompiler.Proofs.Build.Mirror
import ScriptCompiler.Proofs.Build.Refusal

/-!
# Compiling a tree again

A second build of the same sources to the same place reports what the first one did and changes
nothing (`compileTree_idempotent`). The walk is the same, since the outputs are not among the
sources and no link leads from the sources to them (`walk_mono`). Every directory that could be made
is there (`Site.Grown.run_createDirectories`), and every unit does again what it did, whatever
outputs are there (`Site.run_compileJobs`). Where two units have the same output the second one wins
both times (`Site.settleAll_settleAll`).
-/

namespace ScriptCompiler.Build

open FileSystem ScriptCompiler.Path

/-! ## The same walk -/

section Walks

variable {a b : FileSystem} {root : Path} {loc : Location}

theorem below_congr (h : ∀ names, b.get? (loc ++ names) = a.get? (loc ++ names)) :
    b.below loc = a.below loc := by
  refine Location.eq_of_ordered (pairwise_below b loc) (pairwise_below a loc) ?_
  rintro ⟨names, entry⟩
  rw [mem_below, mem_below, h]

/-- Entries without links are visited by way of directories alone. -/
theorem walkEntries_mono {entries : List (List String × Entry)} (hab : a.Keeps b)
    (hlinks : ∀ names target, (names, Entry.link target) ∉ entries)
    (h : (walkEntries a root entries).failure = none) :
    walkEntries b root entries = walkEntries a root entries := by
  induction entries with
  | nil => rfl
  | cons entry entries ih =>
    obtain ⟨names, entry⟩ := entry
    have hrest := ih fun names target hmem => hlinks names target (List.mem_cons_of_mem _ hmem)
    cases entry with
    | directory =>
      rw [walkEntries_directory] at h
      rw [walkEntries_directory, walkEntries_directory]
      split at h
      · next hopen => rw [hab.openDirectory hopen, hrest h]
      · cases h
    | link target => exact absurd List.mem_cons_self (hlinks names target)
    | file contents =>
      rw [walkEntries_file] at h
      rw [walkEntries_file, walkEntries_file, hrest h]

/-- A walk is the same if there is more, but not below its root, and it meets no link. -/
theorem walk_mono (hwork : b.workDir = a.workDir)
    (hget : ∀ {loc entry}, a.get? loc = some entry → b.get? loc = some entry)
    (htree : ∀ loc entry, a.resolve root = .ok (loc, entry) →
      ∀ names, b.get? (loc ++ names) = a.get? (loc ++ names))
    (hlinks : ∀ loc entry, a.resolve root = .ok (loc, entry) →
      ∀ names target, a.get? (loc ++ names) ≠ some (.link target))
    (h : (walk a root).failure = none) : walk b root = walk a root := by
  have hresolve : ∀ {found}, a.resolve root = .ok found → b.resolve root = .ok found :=
    fun hfound => resolve_mono hget hwork hfound
  unfold walk at h ⊢
  split at h
  · cases h
  · next loc hfound =>
    have hentries := @walkEntries_mono a b root (a.below loc) ⟨hwork, hget, hget⟩
      (fun names target hmem => hlinks loc _ hfound names target (mem_below.mp hmem).2) h
    rw [hresolve hfound]
    dsimp only
    rw [below_congr (htree loc _ hfound), hentries]
  · next found hdir hfound =>
    obtain ⟨loc, entry⟩ := found
    rw [hresolve hfound]
    cases entry with
    | directory => exact absurd rfl (hdir loc)
    | file contents | link target => rfl

end Walks

/-! ## The same directories -/

/-- A directory that is there is asked for again. -/
theorem run_createDirectories_keeps {a b : FileSystem} {p : Path} (hab : a.Keeps b)
    (hproper : p.Proper) (hcounted : p.countedSteps ≠ [])
    (hopen : p.Fits → ∃ loc, a.openDirectory p = .ok loc) :
    (FileM.createDirectories p).run.run b =
      (if p.Fits then .ok () else .error .nameTooLong, b) := by
  have hcheck := hproper.check
  by_cases hfits : p.Fits
  · obtain ⟨loc, hloc⟩ := hopen hfits
    rw [if_pos hfits]
    exact FileM.run_createDirectories_open (hab.openDirectory hloc)
  · rw [if_neg hfits] at hcheck ⊢
    exact FileM.run_createDirectories_long hcounted hcheck

theorem run_createDirectories_unchanged {paths : List Path} {files : FileSystem}
    (h : ∀ p ∈ paths, (FileM.createDirectories p).run.run files =
      (if p.Fits then .ok () else .error .nameTooLong, files)) (events : Array Event) :
    ∃ events', (createDirectories paths).run ⟨files, events⟩ =
      (refused paths, ⟨files, events'⟩) := by
  induction paths generalizing events with
  | nil => exact ⟨events, rfl⟩
  | cons p paths ih =>
    rw [List.forall_mem_cons] at h
    obtain ⟨between, hcons⟩ := @run_createDirectories_cons p ⟨files, events⟩ files h.1 paths
    obtain ⟨events', hrest⟩ := ih h.2 between
    refine ⟨events', ?_⟩
    rw [hcons]
    dsimp only
    rw [hrest, ← refused_append, List.singleton_append]

namespace Site

variable {site : Site} {source : UnitSource} {visited : Walk} {done : List (List String)}
  {made files : FileSystem} {jobs : List Job}

theorem Grown.run_createDirectories (hgrown : site.Grown made files) (hmade : site.Made done made)
    (hdone : ∀ names, names ∈ done ↔ names = [] ∨ names ∈ visited.directories)
    (events : Array Event) :
    ∃ events', (createDirectories (visited.plan site.outputs).directories).run ⟨files, events⟩ =
      (refused (visited.plan site.outputs).directories, ⟨files, events'⟩) := by
  refine run_createDirectories_unchanged (fun p hp => ?_) events
  rcases List.mem_cons.mp hp with rfl | hp
  · refine run_createDirectories_keeps hgrown.keeps site.proper_outputs site.countedSteps_outputs
      fun hfits => ?_
    have hroot : [] ∈ done := (hdone []).mpr (.inl rfl)
    have hopened := hmade.openDirectory hroot hfits
    exact ⟨_, hopened⟩
  · obtain ⟨names, hnames, rfl⟩ := List.mem_map.mp hp
    have hmem : names ∈ done := (hdone names).mpr (.inr hnames)
    have hisName := hmade.rooted.isName hmem
    exact run_createDirectories_keeps hgrown.keeps (site.proper_join_ofNames hisName)
      (site.countedSteps_join_ofNames hisName) fun hfits => ⟨_, hmade.openDirectory_join hmem hfits⟩

/-! ## The same units -/

/-- What units leave at a location is the output of one of them, or what was there. -/
theorem get?_settleAll_cases (source : UnitSource) (made : FileSystem) (jobs : List Job)
    (loc : Location) :
    (∃ contents, ∀ files, (settleAll source made jobs files).get? loc = some (.file contents)) ∨
      ∀ files, (settleAll source made jobs files).get? loc = files.get? loc := by
  induction jobs with
  | nil => exact .inr fun files => rfl
  | cons job jobs ih =>
    rcases ih with ⟨contents, hlast⟩ | hrest
    · exact .inl ⟨contents, fun files => by rw [settleAll_cons, hlast]⟩
    · cases heffect : Build.effect source made job with
      | error e => exact .inr fun files => by rw [settleAll_cons, hrest, heffect, settle]
      | ok output =>
        obtain ⟨place, contents⟩ := output
        by_cases hplace : place = loc
        · refine .inl ⟨contents, fun files => ?_⟩
          rw [settleAll_cons, hrest, heffect, settle, get?_put, if_pos hplace]
        · refine .inr fun files => ?_
          rw [settleAll_cons, hrest, heffect, settle, get?_put, if_neg hplace]

/-- Units that are compiled again leave what they left before. -/
theorem settleAll_settleAll (hmade : site.Made done made)
    (hjobs : ∀ job ∈ jobs, site.Ready source done job) (hgrown : site.Grown made files) :
    settleAll source made jobs (settleAll source made jobs files) =
      settleAll source made jobs files := by
  have hfirst := grown_settleAll hmade hjobs hgrown
  have hsecond := grown_settleAll hmade hjobs hfirst
  refine ext_get? (fun loc => ?_) (hsecond.workDir.trans hfirst.workDir.symm)
    (hsecond.device.trans hfirst.device.symm)
  rcases get?_settleAll_cases source made jobs loc with ⟨contents, hlast⟩ | hrest
  · rw [hlast, hlast]
  · rw [hrest]

section Plans

variable (h : visited.Orderly)
  (hsource : ∀ file ∈ visited.files, source.Ignores site.files site.root file.1)
include h hsource

/-- After its directories are there, a plan does what its units do alone. -/
theorem run_plan_of_createDirectories {before : FileSystem} {events between : Array Event}
    (hmade : site.Made done made)
    (hdone : ∀ names, names ∈ done ↔ names = [] ∨ names ∈ visited.directories)
    (hgrown : site.Grown made files)
    (hrun : (createDirectories (visited.plan site.outputs).directories).run ⟨before, events⟩ =
      (refused (visited.plan site.outputs).directories, ⟨files, between⟩)) :
    ∃ events', ((visited.plan site.outputs).run source).run ⟨before, events⟩ =
      (summaryOf source made (visited.plan site.outputs),
        ⟨settleAll source made (visited.plan site.outputs).jobs files, events'⟩) := by
  obtain ⟨later, hjobs⟩ := @run_compileJobs site source done made _ ⟨files, between⟩ hmade hgrown
    (ready_jobs h hmade hdone hsource)
  obtain ⟨events', hplan⟩ := @Build.run_plan source ⟨before, events⟩ (visited.plan site.outputs)
  refine ⟨events', ?_⟩
  rw [hplan]
  simp only [hrun, hjobs]
  rfl

/-- A plan that is run at its site, and once more. -/
theorem run_plan_twice (events : Array Event) : ∃ summary made done built between,
    site.Made done made ∧ site.Grown made built ∧
      ((visited.plan site.outputs).run source).run ⟨site.files, events⟩ =
        (summary, ⟨built, between⟩) ∧
      ∀ restarted, ∃ last, ((visited.plan site.outputs).run source).run ⟨built, restarted⟩ =
        (summary, ⟨built, last⟩) := by
  obtain ⟨⟨made, started⟩, done, hdirectories, hmade, hdone⟩ :=
    @Site.run_createDirectories site ⟨site.files, events⟩ visited h rfl
  obtain ⟨between, hfirst⟩ :=
    run_plan_of_createDirectories h hsource hmade hdone (.refl site made) hdirectories
  have hgrown := grown_jobs h hmade hdone hsource
  refine ⟨_, made, done, _, between, hmade, hgrown, hfirst, fun restarted => ?_⟩
  obtain ⟨later, hagain⟩ := hgrown.run_createDirectories hmade hdone restarted
  obtain ⟨last, hsecond⟩ := run_plan_of_createDirectories h hsource hmade hdone hgrown hagain
  rw [settleAll_settleAll hmade (ready_jobs h hmade hdone hsource) (.refl site made)] at hsecond
  exact ⟨last, hsecond⟩

end Plans

end Site

/-! ## The same build -/

/-- The sources are a tree without links, and `root` is not in it. -/
structure SourcesApart (files : FileSystem) (sources : Path) (root : Location) : Prop where
  outside {loc : Location} {entry : Entry} : files.resolve sources = .ok (loc, entry) →
    ∀ names, root ≠ loc ++ names
  no_link {loc : Location} {entry : Entry} : files.resolve sources = .ok (loc, entry) →
    ∀ names target, files.get? (loc ++ names) ≠ some (.link target)

namespace Site

variable {site : Site} {source : UnitSource} {sources : Path} {done : List (List String)}
  {made files : FileSystem}

/-- A tree that the site is not in is not at the site. -/
theorem append_ne_root_append {loc : Location} (hloc : (site.files.get? loc).isSome)
    (hapart : ∀ names, site.root ≠ loc ++ names) (names others : List String) :
    loc ++ names ≠ site.root ++ others := by
  intro heq
  rcases List.append_eq_append_iff.mp heq with ⟨rest, hroot, -⟩ | ⟨rest, hrest, -⟩
  · exact hapart rest hroot
  · rw [hrest, site.vacant_root] at hloc
    cases hloc

theorem walk_grown (hapart : SourcesApart site.files sources site.root)
    (hgrown : site.Grown made files) (hmade : site.Made done made)
    (h : (walk site.files sources).failure = none) :
    walk files sources = walk site.files sources := by
  have hout := hgrown.sameOutside hmade
  refine walk_mono hout.workDir.symm (site.get?_of_outside fun hloc => (hout.get? hloc).symm) ?_
    (fun loc entry => hapart.no_link) h
  intro loc entry hfound names
  have hloc : (site.files.get? loc).isSome := by
    rw [(resolve_eq_ok_iff.mp hfound).2]
    rfl
  exact (hout.get? (append_ne_root_append hloc (hapart.outside hfound) names)).symm

/-- A build at a site, and then the same build again. -/
theorem compileTree_twice (source : UnitSource) (events : Array Event)
    (hapart : SourcesApart site.files sources site.root)
    (hsource : ∀ file ∈ (walk site.files sources).files,
      source.Ignores site.files site.root file.1)
    (hfailure : (walk site.files sources).failure = none) :
    ∃ result first second,
      (compileTree source sources site.outputs).run ⟨site.files, events⟩ = (result, first) ∧
      (compileTree source sources site.outputs).run first = (result, second) ∧
      second.files = first.files := by
  have horderly := orderly_walk site.wellFormed hfailure
  obtain ⟨started, hfirst⟩ :=
    @run_compileTree_of_none source ⟨site.files, events⟩ sources site.outputs hfailure
  obtain ⟨summary, made, done, built, between, hmade, hgrown, hplan, hagain⟩ :=
    run_plan_twice horderly hsource started
  have hwalk := walk_grown hapart hgrown hmade hfailure
  obtain ⟨restarted, hsecond⟩ :=
    @run_compileTree_of_none source ⟨built, between⟩ sources site.outputs (by rw [hwalk, hfailure])
  obtain ⟨last, hplan'⟩ := hagain restarted
  rw [hplan] at hfirst
  rw [hwalk, hplan'] at hsecond
  exact ⟨_, _, _, hfirst, hsecond, rfl⟩

end Site

/-- Sources without links are compiled to a new name in a directory, apart from them, by a front end
that does not look there. Then compiling them once more reports the same, failures included, and
leaves every entry as it is. -/
theorem compileTree_idempotent (source : UnitSource) {sources d : Path} {dir : Location}
    {x : String} {s : State} (hfs : s.files.WellFormed) (hopen : s.files.openDirectory d = .ok dir)
    (hstep : IsStep x) (hdot : x ≠ ".") (hup : x ≠ "..")
    (hvacant : s.files.get? (dir ++ [x]) = none)
    (hapart : SourcesApart s.files sources (dir ++ [x]))
    (hsource : ∀ file ∈ (walk s.files sources).files,
      source.Ignores s.files (dir ++ [x]) file.1) :
    ∃ result first second,
      (compileTree source sources (d.join ⟨x⟩)).run s = (result, first) ∧
      (compileTree source sources (d.join ⟨x⟩)).run first = (result, second) ∧
      second.files = first.files := by
  obtain ⟨files, events⟩ := s
  by_cases hunchanged :
      ((compileTree source sources (d.join ⟨x⟩)).run ⟨files, events⟩).2.files = files
  · -- The second build starts from the same files.
    rcases hfirst : (compileTree source sources (d.join ⟨x⟩)).run ⟨files, events⟩ with
      ⟨result, after, later⟩
    rw [hfirst] at hunchanged
    obtain rfl : after = files := hunchanged
    obtain ⟨result', after', last, last', h, h'⟩ :=
      blind_compileTree source sources (d.join ⟨x⟩) after events later
    rw [hfirst] at h
    obtain ⟨rfl, hstate⟩ := Prod.mk.inj h
    obtain ⟨rfl, -⟩ := State.mk.inj hstate
    exact ⟨result, _, _, rfl, h', rfl⟩
  · have hname : IsName x := by
      by_contra hname
      exact hunchanged (files_compileTree_of_not_isName hfs hopen hstep hdot hup hname)
    have hfailure : (walk files sources).failure = none := by
      by_contra hfailure
      obtain ⟨e, he⟩ := Option.ne_none_iff_exists'.mp hfailure
      obtain ⟨later, hrun⟩ :=
        @run_compileTree_of_some source ⟨files, events⟩ sources (d.join ⟨x⟩) e he
      exact hunchanged (by rw [hrun])
    let site : Site := ⟨files, d, dir, x, hfs, hopen, hname, hvacant⟩
    exact @Site.compileTree_twice site sources source events hapart hsource hfailure

theorem packageFiles_no_link (loc : Location) (target : Path) :
    packageFiles.get? loc ≠ some (.link target) := by
  intro h
  simp only [packageFiles, twoUnits, get?_put, get?_fresh] at h
  repeat' split at h
  all_goals cases h

theorem compileTree_idempotent_packageFiles : ∃ summary first second,
    (compileTree (.plain none) ⟨"s"⟩ (Path.join ⟨"."⟩ ⟨"o"⟩)).run ⟨packageFiles, #[]⟩ =
      (.ok summary, first) ∧
    summary.written = [⟨"./o/a.js"⟩, ⟨"./o/b.js"⟩] ∧
    summary.failed = [.source ⟨"s/p/__init__.py"⟩ (.invalid "!no")] ∧
    (compileTree (.plain none) ⟨"s"⟩ (Path.join ⟨"."⟩ ⟨"o"⟩)).run first = (.ok summary, second) ∧
    second.files = first.files := by
  have hrun : ((compileTree (.plain none) ⟨"s"⟩ (Path.join ⟨"."⟩ ⟨"o"⟩)).run
      ⟨packageFiles, #[]⟩).1.toOption.map (fun summary => (summary.written, summary.failed)) =
      some ([⟨"./o/a.js"⟩, ⟨"./o/b.js"⟩], [.source ⟨"s/p/__init__.py"⟩ (.invalid "!no")]) := by
    decide +kernel
  have hroot : (packageFiles.resolve ⟨"s"⟩).toOption.map Prod.fst = some ["work", "s"] := by
    decide +kernel
  have hloc : ∀ loc entry, packageFiles.resolve ⟨"s"⟩ = .ok (loc, entry) →
      loc = ["work", "s"] := by
    intro loc entry h
    rw [h] at hroot
    exact Option.some.inj hroot
  have hapart : SourcesApart packageFiles ⟨"s"⟩ (["work"] ++ ["o"]) := by
    refine ⟨fun h names => ?_, fun _ names => packageFiles_no_link _⟩
    rw [hloc _ _ h]
    simp
  obtain ⟨result, first, second, hfirst, hsecond, hfiles⟩ :=
    @compileTree_idempotent (.plain none) ⟨"s"⟩ ⟨"."⟩ ["work"] "o" ⟨packageFiles, #[]⟩
      packageFiles_wellFormed packageSite.opened ⟨by decide, by decide⟩ (by decide) (by decide)
      packageSite.vacant hapart packageSite_ignores
  rw [hfirst] at hrun
  obtain ⟨summary, rfl, hreport⟩ := exists_ok_of_toOption hrun
  obtain ⟨hwritten, hfailed⟩ := Prod.mk.inj hreport
  exact ⟨summary, first, second, hfirst, hwritten, hfailed, hsecond, hfiles⟩

end ScriptCompiler.Build
