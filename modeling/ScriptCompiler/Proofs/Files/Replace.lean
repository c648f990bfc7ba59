import ScriptCompiler.Files.Action
import ScriptCompiler.Proofs.Files.Route
import ScriptCompiler.Proofs.Files.Spelling

/-!
# Replacing a file

`FileM.replaceFile` makes a temporary file, writes to it and renames it. `replaceFile_cases` says
what comes of it as one change: the file system with a file in the place that the path names, or the
file system as it was. The temporary file has a place of its own, which was vacant
(`createTemporary_eq_ok`), so renaming or removing it leaves nothing of it behind, whatever part of
the contents it held when it was removed (`run_replaceFile`).
-/

namespace ScriptCompiler

namespace FileSystem

variable {fs held : FileSystem} {loc dir old : Location} {contents : Contents}

theorem put_erase (hget : fs.get? loc = none) (entry : Entry) :
    (fs.put loc entry).erase loc = fs := by
  refine ext_get? (fun other => ?_) rfl rfl
  rw [get?_erase, get?_put]
  split
  · next h => rw [← h, hget]
  · rfl

theorem put_put (fs : FileSystem) (loc : Location) (entry entry' : Entry) :
    (fs.put loc entry).put loc entry' = fs.put loc entry' := by
  refine ext_get? (fun other => ?_) rfl rfl
  simp only [get?_put]
  split <;> rfl

end FileSystem

/-! ## Temporary files -/

theorem utf8ByteSize_letters {cs : List Char} (h : ∀ c ∈ cs, c ∈ nameLetters) :
    (String.ofList cs).utf8ByteSize = cs.length := by
  have hone : nameLetters.all (fun c => c.utf8Size == 1) = true := by decide
  induction cs with
  | nil => rfl
  | cons c cs ih =>
    rw [List.forall_mem_cons] at h
    have hc : c.utf8Size = 1 := by simpa using List.all_eq_true.mp hone c h.1
    rw [String.ofList_cons, String.utf8ByteSize_append, String.utf8ByteSize_singleton, hc, ih h.2,
      List.length_cons, Nat.add_comm]

namespace IsTemporaryName

variable {name : String} (h : IsTemporaryName name)
include h

/-- A temporary name has no character that its start and the letters do not have. -/
theorem not_mem {c : Char} (hstart : c ∉ ".tmp".toList) (hletter : c ∉ nameLetters) :
    c ∉ name.toList := by
  obtain ⟨tail, -, hletters, rfl⟩ := h
  rw [String.toList_ofList, List.mem_append]
  rintro (hmem | hmem)
  · exact hstart hmem
  · exact hletter (hletters c hmem)

theorem length_toList : name.toList.length = 10 := by
  obtain ⟨tail, hsize, -, rfl⟩ := h
  simp [hsize]

theorem isStep : Path.IsStep name where
  ne_empty := by
    rintro rfl
    exact absurd h.length_toList (by decide)
  not_slash := h.not_mem (by decide) (by decide)

theorem ne_dots : name ≠ "." ∧ name ≠ ".." := by
  constructor <;> rintro rfl <;> exact absurd h.length_toList (by decide)

theorem utf8ByteSize_eq : name.utf8ByteSize = 10 := by
  obtain ⟨tail, hsize, hletters, rfl⟩ := h
  rw [String.ofList_append, String.utf8ByteSize_append, utf8ByteSize_letters hletters, hsize]
  rfl

theorem not_tooLong : isTooLong name = false := by
  simp [isTooLong, h.utf8ByteSize_eq, maxNameSize]

/-- The paths of two temporary files of a directory are of one length. -/
theorem check_join {other : String} (hother : IsTemporaryName other) (p : Path) :
    (p.join ⟨name⟩).check = (p.join ⟨other⟩).check := by
  have hnul : '\x00' ∉ name.toList := h.not_mem (by decide) (by decide)
  have hnul' : '\x00' ∉ other.toList := hother.not_mem (by decide) (by decide)
  unfold Path.join
  rw [Path.isAbsolute_name h.isStep, Path.isAbsolute_name hother.isStep]
  split
  · next habs => cases habs
  -- With a slash between the two or without, both texts grow by as much.
  split <;> simp [Path.check, hnul, hnul', h.isStep.ne_empty, hother.isStep.ne_empty,
    h.utf8ByteSize_eq, hother.utf8ByteSize_eq]

end IsTemporaryName

namespace FileSystem

variable {fs held : FileSystem} {loc dir old : Location} {contents : Contents}

theorem isTemporaryName_temporaryName (fs : FileSystem) (dir : Location) :
    IsTemporaryName (fs.temporaryName dir) := fs.device.isTemporaryName _

/-- The next temporary file has a name of its own, unless no name is left. -/
theorem temporaryName_free_iff : fs.get? (dir ++ [fs.temporaryName dir]) = none ↔
    ∃ name, IsTemporaryName name ∧ fs.get? (dir ++ [name]) = none := by
  have hfree : ∀ name, name ∉ fs.namesIn dir ↔ fs.get? (dir ++ [name]) = none := by
    simp [mem_namesIn]
  refine ⟨fun h => ⟨_, fs.isTemporaryName_temporaryName dir, h⟩, fun ⟨name, hname, hvacant⟩ => ?_⟩
  rw [← hfree] at hvacant ⊢
  exact fs.device.not_taken ⟨name, hname, hvacant⟩

theorem Route.openSteps {links : Nat} {here : Location} {p : Path}
    (h : fs.Route links here p.steps dir) : fs.Route links here p.openSteps dir := by
  unfold Path.openSteps Path.dropOpen
  split
  · next hlast =>
    obtain ⟨front, hfront⟩ := List.getLast?_eq_some_iff.mp hlast
    rw [hfront, List.dropLast_concat]
    rw [hfront] at h
    exact h.of_append_silent
  · exact h

theorem startOf_join {p q : Path} (hq : q.isAbsolute = false) :
    fs.startOf (p.join q) = fs.startOf p := by
  unfold startOf
  rw [Path.isAbsolute_join p hq]

/-- The place of a name in a directory that a path leads to. -/
theorem slotLocation_join {p : Path} {name : String} (hopen : fs.openDirectory p = .ok dir)
    (hname : Path.IsStep name) (e : FileError) :
    fs.slotLocation (p.join ⟨name⟩) e = (do
      (p.join ⟨name⟩).check
      if name = "." ∨ name = ".." then throw e
      else if isTooLong name then throw .nameTooLong
      else return (dir ++ [name], false)) := by
  obtain ⟨-, hroute, hdir⟩ := openDirectory_eq_ok_iff.mp hopen
  refine slotLocation_eq (Path.steps_join_name p hname) hname.ne_empty ?_ hdir e
  rw [startOf_join (Path.isAbsolute_name hname)]
  exact hroute.openSteps

/-- The directory that a new temporary file goes to. -/
def temporaryDirectory (fs : FileSystem) (p : Path) : Except FileError Location := do
  let dir ← fs.openDirectory p
  match fs.device.creation p with
  | some e => throw e
  | none =>
    (p.join ⟨fs.temporaryName dir⟩).check
    if (fs.get? (dir ++ [fs.temporaryName dir])).isSome then throw .alreadyExists
    return dir

/-- A new temporary file is empty, and nothing else is new. -/
theorem createTemporary_eq (fs : FileSystem) (p : Path) :
    fs.createTemporary p = (do
      let dir ← fs.temporaryDirectory p
      return (p.join ⟨fs.temporaryName dir⟩,
        fs.put (dir ++ [fs.temporaryName dir]) (.file .empty))) := by
  unfold createTemporary temporaryDirectory
  cases hopen : fs.openDirectory p with
  | error e => rfl
  | ok dir =>
    cases hcreation : fs.device.creation p with
    | some e => rfl
    | none =>
      have hname := fs.isTemporaryName_temporaryName dir
      have hslot := slotLocation_join hopen hname.isStep .alreadyExists
      rw [if_neg (by simp [hname.ne_dots]), if_neg (by simp [hname.not_tooLong])] at hslot
      simp only [ok_bind, createEntry, hslot]
      cases (p.join ⟨fs.temporaryName dir⟩).check with
      | error e => rfl
      | ok u => cases hget : fs.get? (dir ++ [fs.temporaryName dir]) <;> simp [hget]

theorem temporaryDirectory_eq_ok {p : Path} (h : fs.temporaryDirectory p = .ok dir) :
    fs.openDirectory p = .ok dir ∧ (p.join ⟨fs.temporaryName dir⟩).check = .ok () ∧
      fs.get? (dir ++ [fs.temporaryName dir]) = none := by
  obtain ⟨found, hopen, h⟩ := bind_eq_ok_iff.mp h
  split at h
  · cases h
  obtain ⟨u, hcheck, h⟩ := bind_eq_ok_iff.mp h
  split at h
  · cases h
  next hfree =>
  obtain rfl : found = dir := Except.ok.inj h
  exact ⟨hopen, hcheck, by simpa using hfree⟩

/-- A temporary file is in a place that was vacant, and its path names that place whatever the file
holds. -/
theorem createTemporary_eq_ok {p temporary : Path}
    (h : fs.createTemporary p = .ok (temporary, held)) :
    ∃ dir, fs.temporaryDirectory p = .ok dir ∧
      held = fs.put (dir ++ [fs.temporaryName dir]) (.file .empty) ∧
      ∀ contents e, (fs.put (dir ++ [fs.temporaryName dir]) (.file contents)).slotLocation
        temporary e = .ok (dir ++ [fs.temporaryName dir], false) := by
  rw [createTemporary_eq] at h
  obtain ⟨dir, htemp, h⟩ := bind_eq_ok_iff.mp h
  obtain ⟨rfl, rfl⟩ := Prod.mk.inj (Except.ok.inj h)
  refine ⟨dir, htemp, rfl, fun contents e => ?_⟩
  obtain ⟨hopen, hcheck, hvacant⟩ := temporaryDirectory_eq_ok htemp
  have hname := fs.isTemporaryName_temporaryName dir
  -- The directory is found as before: a file is on no route.
  have hkeeps : fs.Keeps (fs.put (dir ++ [fs.temporaryName dir]) (.file contents)) :=
    keeps_put_file (by simp [hvacant]) (by simp [hvacant]) contents
  rw [slotLocation_join (hkeeps.openDirectory hopen) hname.isStep, hcheck]
  simp [hname.ne_dots, hname.not_tooLong]

/-! ## Moving a file -/

/-- Where a file goes that is renamed to a path. -/
def filePlace (fs : FileSystem) (p : Path) : Except FileError Location := do
  let (loc, slash) ← fs.slotLocation p .busy
  if slash then throw .notADirectory
  if fs.isDirectoryAt loc then throw .isADirectory
  return loc

theorem rename_file {source target : Path} (hold : fs.slotLocation source .busy = .ok (old, false))
    (hget : fs.get? old = some (.file contents)) :
    fs.rename source target = (do
      let new ← fs.filePlace target
      return (fs.erase old).put new (.file contents)) := by
  unfold rename filePlace
  rw [hold]
  cases fs.slotLocation target .busy with
  | error e => rfl
  | ok place =>
    obtain ⟨new, slash⟩ := place
    simp only [ok_bind, hget]
    cases slash with
    | true => rfl
    | false =>
      cases hnew : fs.get? new with
      | none => simp [isDirectoryAt, hnew]
      | some entry => cases entry <;> simp [isDirectoryAt, hnew, Entry.isDirectory]

theorem writeFile_file {p : Path} {e : FileError}
    (hold : fs.slotLocation p e = .ok (old, false)) (hget : fs.get? old = some (.file contents))
    (new : Contents) : fs.writeFile p new = .ok (fs.put old (.file new)) := by
  obtain ⟨hlocate, -⟩ := resolve_eq_ok_iff.mp (resolve_of_slotLocation hold hget)
  simp [writeFile, hlocate, hget]

theorem remove_file {p : Path} {slash : Bool} (hold : fs.slotLocation p .busy = .ok (old, slash))
    (hget : fs.get? old = some (.file contents)) : fs.remove p = .ok (fs.erase old) := by
  simp [remove, hold, hget]

theorem filePlace_eq_ok_iff {p : Path} : fs.filePlace p = .ok loc ↔
    fs.slotLocation p .busy = .ok (loc, false) ∧ fs.get? loc ≠ some .directory := by
  unfold filePlace
  cases fs.slotLocation p .busy with
  | error e => simp
  | ok place =>
    obtain ⟨found, slash⟩ := place
    cases slash with
    | true => simp
    | false =>
      change (if fs.isDirectoryAt found then _ else Except.ok found) = _ ↔ _
      split
      · next hdir =>
        rw [isDirectoryAt_iff] at hdir
        simp only [throw_eq_error, error_bind, reduceCtorEq, false_iff, not_and, Except.ok.injEq,
          Prod.mk.injEq, and_true]
        rintro rfl hno
        exact hno hdir
      · next hdir =>
        rw [isDirectoryAt_iff] at hdir
        simp only [Except.ok.injEq, Prod.mk.injEq, and_true]
        constructor
        · rintro rfl
          exact ⟨rfl, hdir⟩
        · exact And.left

/-- A file that was put in the place that a path names is read by the path, unless the path went
through the link that the file took the place of. -/
theorem readFile_put {p : Path} (h : fs.slotLocation p .busy = .ok (loc, false))
    (hdir : fs.get? loc ≠ some .directory) (contents : Contents) :
    (fs.put loc (.file contents)).readFile p = .ok contents ∨
      (∃ target, fs.get? loc = some (.link target)) ∧
        ∀ place, (fs.put loc (.file contents)).slotLocation p .busy ≠ .ok place := by
  have hread : (fs.put loc (.file contents)).slotLocation p .busy = .ok (loc, false) →
      (fs.put loc (.file contents)).readFile p = .ok contents := by
    intro hslot
    have hresolve := resolve_of_slotLocation hslot (by rw [get?_put, if_pos rfl])
    rw [readFile, hresolve]
    rfl
  by_cases hlink : ∃ target, fs.get? loc = some (.link target)
  · cases hslot : (fs.put loc (.file contents)).slotLocation p .busy with
    | error e => exact .inr ⟨hlink, by simp⟩
    | ok place =>
      -- What the path names now, it named before.
      have hbefore := (put_file_keeps fs loc contents).slotLocation hslot
      rw [h] at hbefore
      exact .inl (hread (hslot.trans hbefore.symm))
  · have hno : ∀ target, fs.get? loc ≠ some (.link target) := fun target ht => hlink ⟨target, ht⟩
    exact .inl (hread ((keeps_put_file hdir hno contents).slotLocation h))

end FileSystem

namespace FileM

open FileSystem

/-! ## Running requests -/

section Running

variable {α β : Type} (fs : FileSystem)

theorem run_bind (x : FileM α) (f : α → FileM β) :
    (x >>= f).run.run fs =
      match x.run.run fs with
      | (.ok a, after) => (f a).run.run after
      | (.error e, after) => (.error e, after) := by
  rw [ExceptT.run_bind, StateT.run_bind]
  generalize x.run.run fs = outcome
  rcases outcome with ⟨_ | _, _⟩ <;> rfl

theorem run_tryCatch (x : FileM α) (handle : FileError → FileM α) :
    (tryCatch x handle).run.run fs =
      match x.run.run fs with
      | (.ok a, after) => (.ok a, after)
      | (.error e, after) => (handle e).run.run after := by
  show (ExceptT.tryCatch x handle).run.run fs =
    match StateT.run (m := Id) x fs with
    | (.ok a, after) => (.ok a, after)
    | (.error e, after) => (handle e).run.run after
  unfold ExceptT.tryCatch
  rw [ExceptT.run_mk, StateT.run_bind]
  generalize StateT.run (m := Id) x fs = outcome
  rcases outcome with ⟨_ | _, _⟩ <;> rfl

/-- A step that looks at the file system first. -/
theorem run_get_bind (f : FileSystem → FileM α) : (get >>= f).run.run fs = (f fs).run.run fs := rfl

theorem run_set (after : FileSystem) : (set after : FileM PUnit).run.run fs = (.ok ⟨⟩, after) := rfl

theorem run_throw (e : FileError) : (throw e : FileM α).run.run fs = (.error e, fs) := rfl

theorem run_request (f : FileSystem → Except FileError FileSystem) :
    (request f).run.run fs =
      match f fs with
      | .ok after => (.ok (), after)
      | .error e => (.error e, fs) := by
  rw [request, run_get_bind]
  cases f fs with
  | ok after => exact run_set fs after
  | error e => exact run_throw fs e

end Running

/-! ## Replacing -/

theorem run_createTemporary (dir : Path) (fs : FileSystem) :
    (createTemporary dir).run.run fs =
      match fs.createTemporary dir with
      | .ok (temporary, held) => (.ok temporary, held)
      | .error e => (.error e, fs) := by
  rw [createTemporary, run_get_bind]
  cases fs.createTemporary dir with
  | ok created => rfl
  | error e => exact run_throw fs e

section Temporary

variable {fs : FileSystem} {temporary : Path} {place : Location}
  (hslot : ∀ contents e,
    (fs.put place (.file contents)).slotLocation temporary e = .ok (place, false))
include hslot

/-- Contents are written to a temporary file, in whole or in part. -/
theorem run_writeAll (dir : Path) (old contents : Contents) :
    (writeAll dir temporary contents).run.run (fs.put place (.file old)) =
      match fs.device.writing dir contents with
      | none => (.ok (), fs.put place (.file contents))
      | some (e, part) => (.error e, fs.put place (.file part)) := by
  have hwrite : ∀ new, (fs.put place (.file old)).writeFile temporary new =
      .ok (fs.put place (.file new)) := by
    intro new
    rw [writeFile_file (hslot old .busy) (by rw [get?_put, if_pos rfl]), put_put]
  have hdevice : (fs.put place (.file old)).device = fs.device := rfl
  rw [writeAll, run_get_bind, hdevice]
  cases fs.device.writing dir contents with
  | none => simp only [run_request, hwrite]
  | some refusal =>
    obtain ⟨e, part⟩ := refusal
    simp only [run_bind, run_request, hwrite, run_throw]

variable (hvacant : fs.get? place = none)
include hvacant

theorem run_rename (p : Path) (contents : Contents) :
    (request (·.rename temporary p)).run.run (fs.put place (.file contents)) =
      match (fs.put place (.file contents)).filePlace p with
      | .error e => (.error e, fs.put place (.file contents))
      | .ok loc => (.ok (), fs.put loc (.file contents)) := by
  rw [run_request, rename_file (hslot contents .busy) (by rw [get?_put, if_pos rfl]),
    put_erase hvacant]
  cases (fs.put place (.file contents)).filePlace p <;> rfl

/-- A temporary file is removed whatever it holds. -/
theorem run_remove (contents : Contents) :
    (request (·.remove temporary)).run.run (fs.put place (.file contents)) = (.ok (), fs) := by
  have hremove := remove_file (hslot contents .busy) (by rw [get?_put, if_pos rfl])
  rw [put_erase hvacant] at hremove
  rw [run_request, hremove]

end Temporary

/-- The temporary file is gone in the end, whether it was refused contents, was refused the place of
the file, or took it. -/
theorem run_replaceFile {p : Path} {dir : Location} {fs : FileSystem}
    (h : fs.temporaryDirectory (directoryOf p) = .ok dir) (contents : Contents) :
    (replaceFile p contents).run.run fs =
      match fs.device.writing (directoryOf p) contents with
      | some (e, _) => (.error e, fs)
      | none =>
        match (fs.put (dir ++ [fs.temporaryName dir]) (.file contents)).filePlace p with
        | .error e => (.error e, fs)
        | .ok loc => (.ok (), fs.put loc (.file contents)) := by
  obtain ⟨-, -, hvacant⟩ := temporaryDirectory_eq_ok h
  have hcreate := fs.createTemporary_eq (directoryOf p)
  rw [h, ok_bind, pure_eq_ok] at hcreate
  obtain ⟨_, hsame, -, hslot⟩ := createTemporary_eq_ok hcreate
  obtain rfl := Except.ok.inj (h.symm.trans hsame)
  generalize (directoryOf p).join ⟨fs.temporaryName dir⟩ = temporary at hslot hcreate
  generalize dir ++ [fs.temporaryName dir] = place at hvacant hslot hcreate ⊢
  rw [replaceFile, run_bind, run_createTemporary, hcreate]
  simp only [run_tryCatch, run_bind, run_writeAll hslot]
  cases fs.device.writing (directoryOf p) contents with
  | some refusal => simp only [run_remove hslot hvacant, run_throw]
  | none =>
    simp only [run_rename hslot hvacant]
    cases (fs.put place (.file contents)).filePlace p with
    | ok loc => rfl
    | error e => simp only [run_remove hslot hvacant, run_throw]

theorem run_replaceFile_of_error {p : Path} {e : FileError} {fs : FileSystem}
    (h : fs.temporaryDirectory (directoryOf p) = .error e) (contents : Contents) :
    (replaceFile p contents).run.run fs = (.error e, fs) := by
  have hcreate := fs.createTemporary_eq (directoryOf p)
  rw [h, error_bind] at hcreate
  rw [replaceFile, run_bind, run_createTemporary, hcreate]

/-- Where a replaced file is found. -/
theorem replaceFile_cases (p : Path) (contents : Contents) (fs : FileSystem) :
    (∃ e, (replaceFile p contents).run.run fs = (.error e, fs)) ∨
      ∃ loc, (replaceFile p contents).run.run fs = (.ok (), fs.put loc (.file contents)) ∧
        fs.slotLocation p .busy = .ok (loc, false) ∧ fs.get? loc ≠ some .directory := by
  cases htemp : fs.temporaryDirectory (directoryOf p) with
  | error e => exact .inl ⟨e, run_replaceFile_of_error htemp contents⟩
  | ok dir =>
    rw [run_replaceFile htemp]
    obtain ⟨-, -, hvacant⟩ := temporaryDirectory_eq_ok htemp
    generalize dir ++ [fs.temporaryName dir] = place at hvacant ⊢
    cases fs.device.writing (directoryOf p) contents with
    | some refusal => exact .inl ⟨refusal.1, rfl⟩
    | none =>
      cases hplace : (fs.put place (.file contents)).filePlace p with
      | error e => exact .inl ⟨e, rfl⟩
      | ok loc =>
        obtain ⟨hslot, hdir⟩ := filePlace_eq_ok_iff.mp hplace
        refine .inr ⟨loc, rfl, (put_file_keeps fs place contents).slotLocation hslot,
          fun hwas => hdir ?_⟩
        have hne : place ≠ loc := by rintro rfl; rw [hvacant] at hwas; cases hwas
        rw [get?_put, if_neg hne, hwas]

end FileM

end ScriptCompiler
