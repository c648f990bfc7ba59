import ScriptCompiler.Proofs.Build.Accounts
import ScriptCompiler.Proofs.Files.Making
import ScriptCompiler.Proofs.Files.Place

/-!
# Making the directories of outputs

A `Site` is a place for a tree of outputs where nothing is yet. There the first phase of a build
makes every visited directory, except those whose path is too long (`Site.run_createDirectories`),
since each is asked for after the directory that it is in. `Site.Made` says what is there after some
of them.
-/

namespace ScriptCompiler

namespace Path

/-- The path is not too long. -/
def Fits (p : Path) : Prop := p.text.utf8ByteSize ≤ maxPathSize

instance (p : Path) : Decidable p.Fits := inferInstanceAs (Decidable (_ ≤ _))

/-- The path can be looked up if it is not too long. -/
structure Proper (p : Path) : Prop where
  ne_empty : p.text ≠ ""
  not_nul : '\x00' ∉ p.text.toList

variable {p q : Path} {name : String}

theorem Proper.check (h : p.Proper) :
    p.check = if p.Fits then .ok () else .error .nameTooLong := by
  unfold Path.check
  rw [if_neg h.not_nul, if_neg h.ne_empty]
  by_cases hfits : p.Fits
  · rw [if_pos hfits, if_neg (Nat.not_lt.mpr hfits)]
  · rw [if_neg hfits, if_pos (Nat.not_le.mp hfits)]

theorem Proper.of_check (h : p.check = .ok ()) : p.Proper := by
  unfold Path.check at h
  split at h
  · cases h
  next hnul =>
  split at h
  · cases h
  next hempty => exact ⟨hempty, hnul⟩

theorem Proper.join (hp : p.Proper) (hq : q.isAbsolute = false) (hnul : '\x00' ∉ q.text.toList) :
    (p.join q).Proper := by
  have hne := hp.ne_empty
  have hnot := hp.not_nul
  rw [Path.join, hq]
  simp only [Bool.false_eq_true, if_false]
  split
  · exact ⟨by simp [String.append_eq_empty_iff, hne], by simp [hnot, hnul]⟩
  · exact ⟨by simp [String.append_eq_empty_iff, hne], by simp [hnot, hnul]⟩

/-- A path is longer than what it starts with. -/
theorem Fits.of_join (hp : p.Tidy) (hq : q.isAbsolute = false) (h : (p.join q).Fits) : p.Fits := by
  unfold Fits at h ⊢
  rw [hp.text_join hq] at h
  simp only [String.utf8ByteSize_append] at h
  omega

end Path

namespace Build

open FileSystem ScriptCompiler.Path

/-! ## Sites -/

/-- A name in a directory that a path leads to, under which nothing is yet. -/
structure Site where
  files : FileSystem
  parent : Path
  parentAt : Location
  name : String
  wellFormed : files.WellFormed
  opened : files.openDirectory parent = .ok parentAt
  isName : IsName name
  vacant : files.get? (parentAt ++ [name]) = none

namespace Site

variable (site : Site)

/-- The path of the outputs. -/
def outputs : Path := site.parent.join ⟨site.name⟩

/-- Where the outputs will be. -/
def root : Location := site.parentAt ++ [site.name]

theorem tidy_outputs : site.outputs.Tidy :=
  Tidy.join_name site.isName.isStep site.isName.2.1

theorem proper_outputs : site.outputs.Proper :=
  (Proper.of_check (openDirectory_eq_ok_iff.mp site.opened).1).join
    (isAbsolute_name site.isName.isStep) site.isName.2.2.2.2.1

theorem mem_openSteps_outputs : site.name ∈ site.outputs.openSteps := by
  rw [outputs, openSteps_join_name _ site.isName.isStep]
  simp

theorem vacant_root (names : List String) : site.files.get? (site.root ++ names) = none :=
  site.wellFormed.vacant_append site.vacant

/-- What was there stays if nothing changes but at the site. -/
theorem get?_of_outside {files : FileSystem}
    (h : ∀ {loc}, (∀ names, loc ≠ site.root ++ names) → files.get? loc = site.files.get? loc)
    {loc : Location} {entry : Entry} (hget : site.files.get? loc = some entry) :
    files.get? loc = some entry := by
  rw [h, hget]
  rintro names rfl
  rw [site.vacant_root] at hget
  cases hget

section Descend

variable {names : List String}

theorem tidy_descend (h : ∀ n ∈ names, IsName n) : (site.outputs.descend names).Tidy :=
  site.tidy_outputs.descend fun n hn => ⟨(h n hn).isStep, (h n hn).2.1⟩

theorem proper_descend (h : ∀ n ∈ names, IsName n) : (site.outputs.descend names).Proper := by
  induction names using List.reverseRecOn with
  | nil => exact site.proper_outputs
  | append_singleton front last ih =>
    have hlast : IsName last := h last (by simp)
    rw [descend_concat]
    exact (ih fun n hn => h n (by simp [hn])).join (isAbsolute_name hlast.isStep) hlast.2.2.2.2.1

theorem proper_join_ofNames (h : ∀ n ∈ names, IsName n) :
    (site.outputs.join (.ofNames names)).Proper := by
  by_cases hnil : names = []
  · subst hnil
    exact site.proper_outputs.join rfl (by decide)
  · rw [join_ofNames _ hnil fun n hn => (h n hn).isStep]
    exact site.proper_descend h

theorem countedSteps_outputs : site.outputs.countedSteps ≠ [] := by
  have hmem := site.mem_openSteps_outputs
  rw [site.tidy_outputs.openSteps] at hmem
  exact countedSteps_ne_nil hmem site.isName.named.not_silent

theorem countedSteps_join_ofNames (h : ∀ n ∈ names, IsName n) :
    (site.outputs.join (.ofNames names)).countedSteps ≠ [] := by
  have hmem : site.name ∈ (site.outputs.join (.ofNames names)).steps := by
    rw [steps_join _ (isAbsolute_ofNames fun n hn => (h n hn).isStep)]
    exact List.mem_append_left _ site.mem_openSteps_outputs
  exact countedSteps_ne_nil hmem site.isName.named.not_silent

theorem openDirectory_descend_long (h : ∀ n ∈ names, IsName n)
    (hfits : ¬ (site.outputs.descend names).Fits) (files : FileSystem) :
    files.openDirectory (site.outputs.descend names) = .error .nameTooLong := by
  have hcheck := (site.proper_descend h).check
  rw [if_neg hfits] at hcheck
  exact openDirectory_of_check hcheck

end Descend

/-! ## Directories that are made -/

/-- With a directory, the ones above it up to the root. -/
structure Rooted (done : List (List String)) : Prop where
  parent {names : List String} : names ∈ done → names.dropLast ∈ done
  isName {names : List String} : names ∈ done → ∀ n ∈ names, IsName n

theorem Rooted.cons {done : List (List String)} {names : List String} (h : Rooted done)
    (hparent : names.dropLast ∈ names :: done) (hnames : ∀ n ∈ names, IsName n) :
    Rooted (names :: done) where
  parent hother := by
    rcases List.mem_cons.mp hother with rfl | hother
    · exact hparent
    · exact List.mem_cons_of_mem _ (h.parent hother)
  isName hother := by
    rcases List.mem_cons.mp hother with rfl | hother
    · exact hnames
    · exact h.isName hother

/-- The file system of a site in which directories were asked for, through the names in `done`. -/
structure Made (done : List (List String)) (files : FileSystem) : Prop where
  rooted : Rooted done
  workDir : files.workDir = site.files.workDir
  device : files.device = site.files.device
  below (names : List String) : files.get? (site.root ++ names) =
    if names ∈ done ∧ (site.outputs.descend names).Fits then some .directory else none
  outside {loc : Location} :
    (∀ names, loc ≠ site.root ++ names) → files.get? loc = site.files.get? loc

theorem made_nil : site.Made [] site.files where
  rooted := ⟨by simp, by simp⟩
  workDir := rfl
  device := rfl
  below names := by simp [site.vacant_root names]
  outside _ := rfl

namespace Made

variable {site} {done : List (List String)} {files : FileSystem} {names : List String}

theorem keeps (h : site.Made done files) : site.files.Keeps files :=
  ⟨h.workDir, site.get?_of_outside h.outside, site.get?_of_outside h.outside⟩

theorem unique {done' : List (List String)} {files' : FileSystem} (h : site.Made done files)
    (h' : site.Made done' files') (hdone : ∀ names, names ∈ done ↔ names ∈ done') :
    files = files' := by
  refine ext_get? (fun loc => ?_) (h.workDir.trans h'.workDir.symm)
    (h.device.trans h'.device.symm)
  by_cases hloc : ∃ names, loc = site.root ++ names
  · obtain ⟨names, rfl⟩ := hloc
    rw [h.below, h'.below]
    simp only [hdone]
  · have hout : ∀ names, loc ≠ site.root ++ names := fun names hnames => hloc ⟨names, hnames⟩
    rw [h.outside hout, h'.outside hout]

/-- A directory is asked for again, or its path is too long. -/
theorem unchanged (h : site.Made done files) (hrooted : Rooted (names :: done))
    (hnames : names ∈ done ∨ ¬ (site.outputs.descend names).Fits) :
    site.Made (names :: done) files where
  rooted := hrooted
  workDir := h.workDir
  device := h.device
  below other := by
    rw [h.below]
    by_cases hother : other = names
    · rcases hnames with hmem | hfits
      · simp [hother, hmem]
      · simp [hother, hfits]
    · simp [hother]
  outside := h.outside

/-- A directory more. -/
theorem put (h : site.Made done files) (hrooted : Rooted (names :: done))
    (hfits : (site.outputs.descend names).Fits) :
    site.Made (names :: done) (files.put (site.root ++ names) .directory) where
  rooted := hrooted
  workDir := h.workDir
  device := h.device
  below other := by
    rw [get?_put, h.below]
    by_cases hother : other = names
    · simp [hother, hfits]
    · simp [hother, Ne.symm hother]
  outside {loc} hloc := by
    rw [get?_put, if_neg (Ne.symm (hloc names)), h.outside hloc]

/-- What was made is found by its path. -/
theorem openDirectory (h : site.Made done files) (hmem : names ∈ done)
    (hfits : (site.outputs.descend names).Fits) :
    files.openDirectory (site.outputs.descend names) = .ok (site.root ++ names) := by
  induction names using List.reverseRecOn with
  | nil =>
    have hget := h.below []
    rw [if_pos ⟨hmem, hfits⟩, List.append_nil] at hget
    rw [List.append_nil]
    refine openDirectory_join (h.keeps.openDirectory site.opened) site.isName ?_ hget
    rw [← Site.outputs, site.proper_outputs.check]
    exact if_pos hfits
  | append_singleton front last ih =>
    have hnames := h.rooted.isName hmem
    have hlast : IsName last := hnames last (by simp)
    have hfront : front ∈ done := by simpa using h.rooted.parent hmem
    have hget := h.below (front ++ [last])
    rw [if_pos ⟨hmem, hfits⟩, ← List.append_assoc] at hget
    have hcheck := (site.proper_descend hnames).check
    rw [if_pos hfits, descend_concat] at hcheck
    rw [descend_concat] at hfits ⊢
    rw [← List.append_assoc]
    have hshort := hfits.of_join (site.tidy_descend (h.rooted.isName hfront))
      (isAbsolute_name hlast.isStep)
    exact openDirectory_join (ih hfront hshort) hlast hcheck hget

/-- The same by the path that a build asks for, which has a slash at its end for the root. -/
theorem openDirectory_join (h : site.Made done files) (hmem : names ∈ done)
    (hfits : (site.outputs.join (.ofNames names)).Fits) :
    files.openDirectory (site.outputs.join (.ofNames names)) = .ok (site.root ++ names) := by
  have hnames := h.rooted.isName hmem
  by_cases hnil : names = []
  · subst hnil
    have hcheck := (site.proper_join_ofNames hnames).check
    rw [if_pos hfits] at hcheck
    have hshort := hfits.of_join site.tidy_outputs rfl
    have hopen := h.openDirectory hmem hshort
    exact openDirectory_slash hopen hcheck
  · rw [join_ofNames _ hnil fun n hn => (hnames n hn).isStep] at hfits ⊢
    exact h.openDirectory hmem hfits

/-- Asking for a directory after the one that it is in. -/
theorem step (h : site.Made done files) (hparent : names.dropLast ∈ done)
    (hnames : ∀ n ∈ names, IsName n) : ∃ after,
    (FileM.createDirectories (site.outputs.join (.ofNames names))).run.run files =
      (if (site.outputs.join (.ofNames names)).Fits then .ok () else .error .nameTooLong, after) ∧
      site.Made (names :: done) after := by
  have hrooted : Rooted (names :: done) := h.rooted.cons (List.mem_cons_of_mem _ hparent) hnames
  have hcheck := (site.proper_join_ofNames hnames).check
  have hcounted := site.countedSteps_join_ofNames hnames
  by_cases hmem : names ∈ done
  · refine ⟨files, ?_, h.unchanged hrooted (.inl hmem)⟩
    by_cases hfits : (site.outputs.join (.ofNames names)).Fits
    · rw [if_pos hfits]
      exact FileM.run_createDirectories_open (h.openDirectory_join hmem hfits)
    · rw [if_neg hfits] at hcheck ⊢
      exact FileM.run_createDirectories_long hcounted hcheck
  · obtain ⟨front, last, rfl⟩ : ∃ front last, names = front ++ [last] := by
      rcases List.eq_nil_or_concat names with rfl | ⟨front, last, rfl⟩
      · exact absurd hparent hmem
      · exact ⟨front, last, List.concat_eq_append⟩
    have hlast : IsName last := hnames last (by simp)
    rw [List.dropLast_concat] at hparent
    rw [join_ofNames _ (by simp) fun n hn => (hnames n hn).isStep] at hcheck hcounted ⊢
    by_cases hfits : (site.outputs.descend (front ++ [last])).Fits
    · rw [if_pos hfits] at hcheck ⊢
      have hvacant := h.below (front ++ [last])
      rw [if_neg (by simp [hmem]), ← List.append_assoc] at hvacant
      have hmade := h.put hrooted hfits
      rw [← List.append_assoc] at hmade
      rw [descend_concat] at hfits hcheck ⊢
      have hshort := hfits.of_join (site.tidy_descend (h.rooted.isName hparent))
        (isAbsolute_name hlast.isStep)
      exact ⟨_, FileM.run_createDirectories_new (h.openDirectory hparent hshort) hlast hcheck
        hvacant, hmade⟩
    · rw [if_neg hfits] at hcheck ⊢
      exact ⟨files, FileM.run_createDirectories_long hcounted hcheck,
        h.unchanged hrooted (.inr hfits)⟩

end Made

/-- The directory of all outputs comes first. -/
theorem made_root : ∃ after,
    (FileM.createDirectories site.outputs).run.run site.files =
      (if site.outputs.Fits then .ok () else .error .nameTooLong, after) ∧
      site.Made [[]] after := by
  have hrooted : Rooted [[]] := site.made_nil.rooted.cons (by simp) (by simp)
  have hcheck := site.proper_outputs.check
  by_cases hfits : site.outputs.Fits
  · rw [if_pos hfits] at hcheck ⊢
    refine ⟨_, FileM.run_createDirectories_new site.opened site.isName hcheck site.vacant, ?_⟩
    have hmade := site.made_nil.put hrooted hfits
    rwa [List.append_nil] at hmade
  · rw [if_neg hfits] at hcheck ⊢
    exact ⟨_, FileM.run_createDirectories_long site.countedSteps_outputs hcheck,
      site.made_nil.unchanged hrooted (.inr hfits)⟩

end Site

/-! ## The first phase of a build -/

/-- The failures of the directories whose paths are too long. -/
def refused (paths : List Path) : List BuildError :=
  (paths.filter fun p => !decide p.Fits).map (.createDirectory · .nameTooLong)

theorem refused_append (paths paths' : List Path) :
    refused (paths ++ paths') = refused paths ++ refused paths' := by
  simp [refused]

theorem run_createDirectories_cons {p : Path} {s : State} {files : FileSystem}
    (h : (FileM.createDirectories p).run.run s.files =
      (if p.Fits then .ok () else .error .nameTooLong, files)) (paths : List Path) :
    ∃ events, (createDirectories (p :: paths)).run s =
      let rest := (createDirectories paths).run ⟨files, events⟩
      (refused [p] ++ rest.1, rest.2) := by
  obtain ⟨events, hrun⟩ := run_createDirectories_step p paths s
  refine ⟨events, ?_⟩
  rw [hrun, h]
  by_cases hfits : p.Fits
  · simp [refused, hfits, DirectoryStep.error?]
  · simp [refused, hfits, DirectoryStep.error?]

namespace Site

variable {site : Site} {s : State}

theorem Made.run {done rest : List (List String)} (h : site.Made done s.files) (hroot : [] ∈ done)
    (hparent : ∀ names ∈ rest, names.dropLast ∈ done ∨ names.dropLast ∈ rest)
    (hfirst : rest.Pairwise fun names later => names.dropLast ≠ later)
    (hnames : ∀ names ∈ rest, ∀ n ∈ names, IsName n) : ∃ after,
    (createDirectories (rest.map fun names => site.outputs.join (.ofNames names))).run s =
      (refused (rest.map fun names => site.outputs.join (.ofNames names)), after) ∧
      site.Made (rest.reverse ++ done) after.files := by
  induction rest generalizing done s with
  | nil => exact ⟨s, rfl, h⟩
  | cons names rest ih =>
    rw [List.forall_mem_cons] at hparent hnames
    rw [List.pairwise_cons] at hfirst
    have hhead : names.dropLast ∈ done := by
      rcases hparent.1 with hdone | hrest
      · exact hdone
      rcases List.mem_cons.mp hrest with hself | hrest
      · -- Only the root is its own parent.
        have hlength := congrArg List.length hself
        rw [List.length_dropLast] at hlength
        obtain rfl : names = [] := List.length_eq_zero_iff.mp (by omega)
        exact hroot
      · exact absurd rfl (hfirst.1 _ hrest)
    obtain ⟨files, hrun, hmade⟩ := h.step hhead hnames.1
    obtain ⟨events, hcons⟩ := run_createDirectories_cons hrun
      (rest.map fun names => site.outputs.join (.ofNames names))
    have hparent' : ∀ other ∈ rest, other.dropLast ∈ names :: done ∨ other.dropLast ∈ rest := by
      intro other hother
      rcases hparent.2 other hother with hdone | hrest
      · exact .inl (List.mem_cons_of_mem _ hdone)
      rcases List.mem_cons.mp hrest with hnames | hrest
      · exact .inl (hnames ▸ List.mem_cons_self)
      · exact .inr hrest
    obtain ⟨after, hrest, hafter⟩ :=
      ih (s := ⟨files, events⟩) hmade (List.mem_cons_of_mem _ hroot) hparent' hfirst.2 hnames.2
    refine ⟨after, ?_, by simpa using hafter⟩
    rw [List.map_cons, hcons]
    dsimp only
    rw [hrest, ← refused_append, List.singleton_append]

/-- After the first phase the visited directories are there, less those that were refused. -/
theorem run_createDirectories {visited : Walk} (h : visited.Orderly) (hs : s.files = site.files) :
    ∃ after done, (createDirectories (visited.plan site.outputs).directories).run s =
      (refused (visited.plan site.outputs).directories, after) ∧ site.Made done after.files ∧
      ∀ names, names ∈ done ↔ names = [] ∨ names ∈ visited.directories := by
  obtain ⟨files, hroot, hmade⟩ := site.made_root
  rw [← hs] at hroot
  obtain ⟨events, hcons⟩ := run_createDirectories_cons hroot
    (visited.directories.map fun names => site.outputs.join (.ofNames names))
  obtain ⟨after, hrest, hafter⟩ := Made.run (s := ⟨files, events⟩) hmade (by simp)
    (fun names hnames => .inr (h.directory_parent hnames)) h.parents_first
    (fun names hnames => h.directory_names hnames)
  refine ⟨after, visited.directories.reverse ++ [[]], ?_, hafter, fun names => ?_⟩
  · show (createDirectories (site.outputs :: _)).run s = (refused (site.outputs :: _), after)
    rw [hcons]
    dsimp only
    rw [hrest, ← refused_append, List.singleton_append]
  · simp [or_comm]

end Site

end Build

end ScriptCompiler
