import Mathlib.Data.List.TakeWhile
import ScriptCompiler.Proofs.Files.Replace

/-!
# Making directories

`FileM.createDirectories` leaves a directory that is there as it is (`run_createDirectories_open`),
makes a new one in a directory that is there (`run_createDirectories_new`), and refuses a path that
is too long (`run_createDirectories_long`). In each case nothing else changes.
-/

namespace ScriptCompiler

namespace FileSystem

variable {fs : FileSystem} {dir : Location}

theorem IsName.isStep {name : String} (h : IsName name) : Path.IsStep name :=
  ⟨h.1, h.2.2.2.1⟩

theorem IsName.named {name : String} (h : IsName name) : Named name where
  not_silent := h.isStep.not_silent h.2.1
  ne_up := h.2.2.1
  not_tooLong := by simp [isTooLong, h.2.2.2.2.2]

/-! ## Directories in directories -/

theorem openDirectory_join {p : Path} {name : String} (hopen : fs.openDirectory p = .ok dir)
    (hname : IsName name) (hcheck : (p.join ⟨name⟩).check = .ok ())
    (hget : fs.get? (dir ++ [name]) = some .directory) :
    fs.openDirectory (p.join ⟨name⟩) = .ok (dir ++ [name]) := by
  obtain ⟨-, hroute, hdir⟩ := openDirectory_eq_ok_iff.mp hopen
  obtain ⟨left, hfollow⟩ := hroute.openSteps.follow_append
  refine openDirectory_eq_ok_iff.mpr ⟨hcheck, route_of_follow ?_ hget, hget⟩
  rw [startOf_join (Path.isAbsolute_name hname.isStep), Path.steps_join_name p hname.isStep,
    hfollow]
  exact follow_last hdir hname.named (by simp [hget])

/-- A slash behind the path of a directory. -/
theorem openDirectory_slash {p : Path} (hopen : fs.openDirectory p = .ok dir)
    (hcheck : (p.join ⟨""⟩).check = .ok ()) : fs.openDirectory (p.join ⟨""⟩) = .ok dir := by
  obtain ⟨-, hroute, hdir⟩ := openDirectory_eq_ok_iff.mp hopen
  refine openDirectory_eq_ok_iff.mpr ⟨hcheck, route_of_follow ?_ hdir, hdir⟩
  rw [startOf_join rfl, Path.steps_join p rfl]
  exact follow_slash_iff.mpr ⟨hroute.openSteps, hdir⟩

/-! ## One directory -/

/-- What is a directory already cannot be made. -/
theorem createDirectory_of_openDirectory {p : Path} (h : fs.openDirectory p = .ok dir) :
    fs.createDirectory p = .error .alreadyExists := by
  obtain ⟨hcheck, hroute, hdir⟩ := openDirectory_eq_ok_iff.mp h
  -- The slashes at the end of the path are cut off, and then its last step.
  obtain ⟨slashes, hslashes⟩ : ∃ slashes,
      (p.steps.reverse.dropWhile (· == "")).reverse ++ slashes = p.steps := by
    have hsuffix : p.steps.reverse.dropWhile (· == "") <:+ p.steps.reverse :=
      List.dropWhile_suffix _
    rw [← List.reverse_prefix, List.reverse_reverse] at hsuffix
    exact hsuffix
  have hempty := List.head?_dropWhile_not (· == "") p.steps.reverse
  rw [← List.getLast?_reverse] at hempty
  rw [← hslashes] at hroute
  unfold createDirectory slotLocation slot
  rw [hcheck]
  generalize (p.steps.reverse.dropWhile (· == "")).reverse = named at hroute hempty ⊢
  cases hlast : named.getLast? with
  | none =>
    obtain rfl := List.getLast?_eq_none_iff.mp hlast
    have hslash := follow_slash_iff.mpr
      ⟨.stop maxLinks (fs.startOf p), hroute.start hdir⟩
    rw [List.nil_append] at hslash
    simp [hslash]
  | some name =>
    obtain ⟨front, rfl⟩ := List.getLast?_eq_some_iff.mp hlast
    rw [List.append_assoc] at hroute
    obtain ⟨left, mid, hfront, hname⟩ := hroute.split
    have hslash := follow_slash_iff.mpr ⟨hfront, hname.start hdir⟩
    rw [hlast] at hempty
    by_cases hdots : name = "." ∨ name = ".."
    · have hfilter : (some name).filter (fun step => step != "." && step != "..") = none := by
        rcases hdots with rfl | rfl <;> decide
      simp [hslash, hfilter]
    · rw [not_or] at hdots
      have hsilent : Path.isSilent name = false := by
        simpa [Path.isSilent, hdots.1] using hempty
      obtain ⟨hlong, hsome⟩ := hname.named hsilent hdots.2
      obtain ⟨entry, hentry⟩ := Option.isSome_iff_exists.mp hsome
      have hfilter : (some name).filter (fun step => step != "." && step != "..") = some name := by
        simpa [Option.filter_eq_some_iff] using hdots
      simp [hslash, hfilter, hlong, hentry]

/-- A name in a directory that is there. -/
theorem createDirectory_join {p : Path} {name : String} (hopen : fs.openDirectory p = .ok dir)
    (hname : IsName name) (hcheck : (p.join ⟨name⟩).check = .ok ())
    (hvacant : fs.get? (dir ++ [name]) = none) :
    fs.createDirectory (p.join ⟨name⟩) = .ok (fs.put (dir ++ [name]) .directory) := by
  unfold createDirectory
  rw [slotLocation_join hopen hname.isStep, hcheck]
  simp [hname.2.1, hname.named.ne_up, hname.named.not_tooLong, hvacant]

theorem createDirectory_of_check {p : Path} {e : FileError} (h : p.check = .error e) :
    fs.createDirectory p = .error e := by
  unfold createDirectory slotLocation slot
  rw [h]
  rfl

theorem openDirectory_of_check {p : Path} {e : FileError} (h : p.check = .error e) :
    fs.openDirectory p = .error e := by
  unfold openDirectory resolve locate
  rw [h]
  rfl

theorem isDirectory_of_openDirectory {p : Path} (h : fs.openDirectory p = .ok dir) :
    fs.isDirectory p = true := by
  obtain ⟨hcheck, hroute, hdir⟩ := openDirectory_eq_ok_iff.mp h
  have hlocate : fs.locate p = .ok dir := by rw [locate_eq hcheck, hroute.follow]
  rw [isDirectory, resolve_eq_ok_iff.mpr ⟨hlocate, hdir⟩]

end FileSystem

/-! ## Directories and the ones above them -/

theorem Path.countedSteps_ne_nil {p : Path} {step : String} (hmem : step ∈ p.steps)
    (hstep : isSilent step = false) : p.countedSteps ≠ [] := by
  unfold countedSteps counted
  split
  · simp
  · intro hnil
    rw [dropSilent, List.reverse_eq_nil_iff, List.dropWhile_eq_nil_iff] at hnil
    have := hnil step (List.mem_reverse.mpr hmem)
    rw [hstep] at this
    cases this

namespace FileM

open FileSystem

variable {fs after : FileSystem} {p : Path}

theorem run_accept (e : FileError) :
    (ensureDirectory.accept p e).run.run fs =
      if e = .alreadyExists ∧ fs.isDirectory p then (.ok (), fs) else (.error e, fs) := by
  rw [ensureDirectory.accept, run_get_bind]
  split <;> rfl

/-- Only a missing parent asks for more than the one directory. -/
theorem run_createDirectories (hcounted : p.countedSteps ≠ [])
    (hfound : fs.createDirectory p ≠ .error .notFound) :
    (createDirectories p).run.run fs =
      match fs.createDirectory p with
      | .ok after => (.ok (), after)
      | .error e =>
        if e = .alreadyExists ∧ fs.isDirectory p then (.ok (), fs) else (.error e, fs) := by
  rw [createDirectories]
  split
  · next hnil => exact absurd (List.reverse_eq_nil_iff.mp hnil) hcounted
  · rw [ensureDirectory, run_get_bind]
    split
    · next after hcreate => rw [hcreate, run_set]
    · next hcreate => exact absurd hcreate hfound
    · next e _ hcreate => rw [hcreate, run_accept]

/-- A directory that is there stays as it is. -/
theorem run_createDirectories_open {dir : Location} (h : fs.openDirectory p = .ok dir) :
    (createDirectories p).run.run fs = (.ok (), fs) := by
  by_cases hcounted : p.countedSteps = []
  · rw [createDirectories, hcounted]
    rfl
  · have hcreate := createDirectory_of_openDirectory h
    rw [run_createDirectories hcounted (by simp [hcreate]), hcreate]
    exact if_pos ⟨rfl, isDirectory_of_openDirectory h⟩

/-- A new directory in one that is there. -/
theorem run_createDirectories_new {dir : Location} {name : String}
    (hopen : fs.openDirectory p = .ok dir) (hname : IsName name)
    (hcheck : (p.join ⟨name⟩).check = .ok ()) (hvacant : fs.get? (dir ++ [name]) = none) :
    (createDirectories (p.join ⟨name⟩)).run.run fs =
      (.ok (), fs.put (dir ++ [name]) .directory) := by
  have hcreate := createDirectory_join hopen hname hcheck hvacant
  have hmem : name ∈ (p.join ⟨name⟩).steps := by simp [Path.steps_join_name p hname.isStep]
  have hcounted := Path.countedSteps_ne_nil hmem hname.named.not_silent
  rw [run_createDirectories hcounted (by simp [hcreate]), hcreate]

/-- A path that is too long is refused. -/
theorem run_createDirectories_long (hcounted : p.countedSteps ≠ [])
    (hcheck : p.check = .error .nameTooLong) :
    (createDirectories p).run.run fs = (.error .nameTooLong, fs) := by
  have hcreate := @createDirectory_of_check fs p _ hcheck
  rw [run_createDirectories hcounted (by simp [hcreate]), hcreate]
  exact if_neg (by simp)

end FileM

end ScriptCompiler
