import ScriptCompiler.Proofs.Files.Replace

/-!
# Where a replaced file goes

Whether a directory has a name left for a temporary file does not depend on which one the file gets,
nor does the length of its path. So replacing a file in a directory that a path leads to depends on
four things only: the directory, whether a temporary name is free in it, what its device refuses,
and whether a directory is in the way. `outputPlace` is the answer in these terms, and it is the
same in file systems that agree on them (`outputPlace_congr`).
-/

namespace ScriptCompiler

namespace FileSystem

variable {a b fs : FileSystem} {dir loc : Location}

/-! ## Free names -/

theorem isSome_temporaryName_congr
    (h : ∀ name, IsTemporaryName name →
      (a.get? (dir ++ [name])).isSome = (b.get? (dir ++ [name])).isSome) :
    (a.get? (dir ++ [a.temporaryName dir])).isSome =
      (b.get? (dir ++ [b.temporaryName dir])).isSome := by
  have hnone : ∀ name, IsTemporaryName name →
      (a.get? (dir ++ [name]) = none ↔ b.get? (dir ++ [name]) = none) := by
    intro name hname
    rw [← Option.not_isSome_iff_eq_none, h name hname, Option.not_isSome_iff_eq_none]
  rw [Bool.eq_iff_iff, ← Decidable.not_iff_not, Option.not_isSome_iff_eq_none,
    Option.not_isSome_iff_eq_none, temporaryName_free_iff, temporaryName_free_iff]
  exact exists_congr fun name => and_congr_right (hnone name)

theorem temporaryDirectory_congr {q : Path} (hopen : a.openDirectory q = b.openDirectory q)
    (hdevice : a.device = b.device)
    (hfree : ∀ dir name, IsTemporaryName name →
      (a.get? (dir ++ [name])).isSome = (b.get? (dir ++ [name])).isSome) :
    a.temporaryDirectory q = b.temporaryDirectory q := by
  unfold temporaryDirectory
  rw [hopen, hdevice]
  cases b.openDirectory q with
  | error e => rw [error_bind, error_bind]
  | ok dir =>
    have hcheck := (a.isTemporaryName_temporaryName dir).check_join
      (b.isTemporaryName_temporaryName dir) q
    simp only [ok_bind, hcheck, isSome_temporaryName_congr (hfree dir)]

/-! ## Places -/

theorem isDirectoryAt_put_file (hvacant : fs.get? loc = none) (contents : Contents)
    (other : Location) :
    (fs.put loc (.file contents)).isDirectoryAt other = fs.isDirectoryAt other := by
  unfold isDirectoryAt
  rw [get?_put]
  split
  · next h => rw [← h, hvacant]; rfl
  · rfl

section Places

variable {q : Path} {name : String} (hname : Path.IsStep name)
include hname

/-- The place of a file in a directory that a path leads to. -/
theorem filePlace_join (hopen : fs.openDirectory q = .ok dir) :
    fs.filePlace (q.join ⟨name⟩) = (do
      (q.join ⟨name⟩).check
      if name = "." ∨ name = ".." then throw .busy
      else if isTooLong name then throw .nameTooLong
      else if fs.isDirectoryAt (dir ++ [name]) then throw .isADirectory
      else return dir ++ [name]) := by
  unfold filePlace
  rw [slotLocation_join hopen hname]
  cases (q.join ⟨name⟩).check with
  | error e => rfl
  | ok u =>
    by_cases hdots : name = "." ∨ name = ".."
    · simp [hdots]
    · cases hlong : isTooLong name <;> simp [hdots]

theorem eq_of_filePlace_join (hopen : fs.openDirectory q = .ok dir)
    (h : fs.filePlace (q.join ⟨name⟩) = .ok loc) : loc = dir ++ [name] := by
  rw [filePlace_join hname hopen] at h
  obtain ⟨u, -, h⟩ := bind_eq_ok_iff.mp h
  split at h
  · cases h
  split at h
  · cases h
  split at h
  · cases h
  injection h with h
  exact h.symm

theorem filePlace_join_congr (ha : a.openDirectory q = .ok dir) (hb : b.openDirectory q = .ok dir)
    (hdir : a.isDirectoryAt (dir ++ [name]) = b.isDirectoryAt (dir ++ [name])) :
    a.filePlace (q.join ⟨name⟩) = b.filePlace (q.join ⟨name⟩) := by
  rw [filePlace_join hname ha, filePlace_join hname hb, hdir]

end Places

/-- The place of a file that is replaced in the directory that `q` leads to. Its temporary file and
then its contents are looked at first. -/
def outputPlace (fs : FileSystem) (q : Path) (name : String) (contents : Contents) :
    Except FileError Location := do
  let _ ← fs.temporaryDirectory q
  match fs.device.writing q contents with
  | some (e, _) => throw e
  | none => fs.filePlace (q.join ⟨name⟩)

theorem outputPlace_congr {q : Path} {name : String} (hname : Path.IsStep name)
    (hopen : a.openDirectory q = b.openDirectory q) (hdevice : a.device = b.device)
    (hfree : ∀ dir name, IsTemporaryName name →
      (a.get? (dir ++ [name])).isSome = (b.get? (dir ++ [name])).isSome)
    (hdir : ∀ loc, a.isDirectoryAt loc = b.isDirectoryAt loc) (contents : Contents) :
    a.outputPlace q name contents = b.outputPlace q name contents := by
  unfold outputPlace
  rw [temporaryDirectory_congr hopen hdevice hfree, hdevice]
  cases htemp : b.temporaryDirectory q with
  | error e => rw [error_bind, error_bind]
  | ok dir =>
    obtain ⟨hb, -⟩ := temporaryDirectory_eq_ok htemp
    rw [filePlace_join_congr hname (hopen.trans hb) hb (hdir _)]

theorem outputPlace_eq_ok {q : Path} {name : String} {contents : Contents}
    (h : fs.outputPlace q name contents = .ok loc) :
    ∃ dir, fs.openDirectory q = .ok dir ∧ fs.filePlace (q.join ⟨name⟩) = .ok loc := by
  obtain ⟨dir, htemp, h⟩ := bind_eq_ok_iff.mp h
  refine ⟨dir, (temporaryDirectory_eq_ok htemp).1, ?_⟩
  split at h
  · cases h
  · exact h

end FileSystem

namespace FileM

open FileSystem

theorem directoryOf_join {q : Path} (hq : q.Tidy) {name : String} (hname : Path.IsStep name)
    (hdot : name ≠ ".") : directoryOf (q.join ⟨name⟩) = q := by
  rw [directoryOf, hq.parent?_join_name hname hdot]
  exact if_neg hq.text_ne_empty

/-- A file of a directory that a path leads to is put in its place, or nothing changes. -/
theorem run_replaceFile_join {q : Path} (hq : q.Tidy) {name : String} (hname : Path.IsStep name)
    (hdot : name ≠ ".") (contents : Contents) (fs : FileSystem) :
    (replaceFile (q.join ⟨name⟩) contents).run.run fs =
      match fs.outputPlace q name contents with
      | .error e => (.error e, fs)
      | .ok loc => (.ok (), fs.put loc (.file contents)) := by
  have hdirectory := directoryOf_join hq hname hdot
  unfold outputPlace
  cases htemp : fs.temporaryDirectory q with
  | error e =>
    rw [← hdirectory] at htemp
    exact run_replaceFile_of_error htemp contents
  | ok dir =>
    obtain ⟨hopen, -, hvacant⟩ := temporaryDirectory_eq_ok htemp
    rw [← hdirectory] at htemp
    rw [run_replaceFile htemp, hdirectory, ok_bind]
    cases fs.device.writing q contents with
    | some refusal =>
      obtain ⟨e, part⟩ := refusal
      simp only [throw_eq_error]
    | none =>
      have hkeeps : fs.Keeps (fs.put (dir ++ [fs.temporaryName dir]) (.file contents)) :=
        keeps_put_file (by simp [hvacant]) (by simp [hvacant]) contents
      have hplace := filePlace_join_congr hname (hkeeps.openDirectory hopen) hopen
        (isDirectoryAt_put_file hvacant contents _)
      cases hfile : fs.filePlace (q.join ⟨name⟩) with
      | error e => simp only [hplace, hfile]
      | ok loc => simp only [hplace, hfile]

end FileM

end ScriptCompiler
