import ScriptCompiler.Build.Compile
import ScriptCompiler.Proofs.Files.Replace

/-!
# Compiling a unit is atomic

A unit that fails leaves the file system as it was, wherever it fails: before there is a temporary
file, with a part of the output in it, or with all of it. A unit that is compiled leaves the file
system with one entry more or another one: the output, in the place that its path names. If a link
was there, the link is gone and what it led to is untouched (`compileUnit_atomic`).
-/

namespace ScriptCompiler.Build

open FileSystem

/-! ## Running a build -/

section Running

variable (s : State)

@[simp]
theorem run_report (event : Event) :
    (report event).run s = ((), { s with events := s.events.push event }) := rfl

@[simp]
theorem run_reportAll (events : List Event) :
    (reportAll events).run s = ((), { s with events := s.events ++ events }) := rfl

@[simp]
theorem run_onFiles (action : FileM α) :
    (onFiles action).run s =
      ((action.run.run s.files).1, { s with files := (action.run.run s.files).2 }) := rfl

@[simp]
theorem run_get : (get : BuildM State).run s = (s, s) := rfl

end Running

/-! ## Units -/

/-- The output of a module: the prelude, and the module after it. -/
def UnitSource.output (source : UnitSource) (m : Source.Module) : Contents :=
  .ofText (Prelude.text ++ (Lowering.lower m (source.exports m)).tree.render)

/-- A unit asks for its module and then for its output to be replaced, in the same file system. -/
theorem run_compileUnit (source : UnitSource) (path destination : Path) (s : State) :
    ∃ events, (compileUnit source path destination).run s =
      match source.parse s.files path with
      | .error cause => (.error (.source path cause), ⟨s.files, events⟩)
      | .ok m =>
        let written := (FileM.replaceFile destination (source.output m)).run.run s.files
        (written.1.mapError (.write destination), ⟨written.2, events⟩) := by
  simp only [compileUnit, run_bind, run_report, run_get]
  cases source.parse s.files path with
  | error cause => exact ⟨_, rfl⟩
  | ok m =>
    simp only [run_bind, run_reportAll, run_onFiles, run_pure, unitText_eq]
    exact ⟨_, rfl⟩

/-- A unit that fails leaves the file system as it was. A unit that is compiled puts its output in
the place that its path names, whatever was there but a directory, and leaves every other entry as
it was. The path then leads to the output, unless it went through the very link that the output
took the place of. -/
theorem compileUnit_atomic (source : UnitSource) (path destination : Path) (s : State) :
    ∃ result after, (compileUnit source path destination).run s = (result, after) ∧
      ((∃ e, result = .error e) ∧ after.files = s.files ∨
        result = .ok () ∧ ∃ m loc, source.parse s.files path = .ok m ∧
          s.files.slotLocation destination .busy = .ok (loc, false) ∧
          s.files.get? loc ≠ some .directory ∧
          after.files.get? loc = some (.file (source.output m)) ∧
          (∀ other, other ≠ loc → after.files.get? other = s.files.get? other) ∧
          after.files.workDir = s.files.workDir ∧ after.files.device = s.files.device ∧
          (after.files.readFile destination = .ok (source.output m) ∨
            (∃ target, s.files.get? loc = some (.link target)) ∧
              ∀ place, after.files.slotLocation destination .busy ≠ .ok place)) := by
  obtain ⟨events, hrun⟩ := run_compileUnit source path destination s
  cases hparse : source.parse s.files path with
  | error cause =>
    rw [hparse] at hrun
    exact ⟨_, _, hrun, .inl ⟨⟨_, rfl⟩, rfl⟩⟩
  | ok m =>
    simp only [hparse] at hrun
    rcases FileM.replaceFile_cases destination (source.output m) s.files with
      ⟨e, hreplace⟩ | ⟨loc, hreplace, hslot, hdir⟩
    · rw [hreplace] at hrun
      exact ⟨_, _, hrun, .inl ⟨⟨_, rfl⟩, rfl⟩⟩
    · rw [hreplace] at hrun
      refine ⟨_, _, hrun, .inr ⟨rfl, m, loc, rfl, hslot, hdir, ?_, fun other hother => ?_, rfl, rfl,
        readFile_put hslot hdir _⟩⟩
      · rw [get?_put, if_pos rfl]
      · rw [get?_put, if_neg (Ne.symm hother)]

/-- A unit whose output is a link to another file. -/
def linkedFiles : FileSystem :=
  ((fresh.put ["work", "a.py"] (.file (.ofText "hi"))).put
    ["work", "kept"] (.file (.ofText "kept"))).put ["work", "a.js"] (.link ⟨"kept"⟩)

/-- The same on a device that takes a part of every output and then no more. -/
def fullFiles : FileSystem :=
  { linkedFiles with
    device := { Device.standard with writing := fun _ _ => some (.busy, .ofText "part") } }

theorem compileUnit_atomic_linkedFiles :
    (∃ after m,
      (compileUnit (.plain none) ⟨"a.py"⟩ ⟨"a.js"⟩).run ⟨linkedFiles, #[]⟩ = (.ok (), after) ∧
      after.files.get? ["work", "a.js"] = some (.file ((UnitSource.plain none).output m)) ∧
      after.files.get? ["work", "kept"] = some (.file (.ofText "kept"))) ∧
    ∃ e after,
      (compileUnit (.plain none) ⟨"a.py"⟩ ⟨"a.js"⟩).run ⟨fullFiles, #[]⟩ = (.error e, after) ∧
      after.files = fullFiles := by
  constructor
  · have hok : ((compileUnit (.plain none) ⟨"a.py"⟩ ⟨"a.js"⟩).run ⟨linkedFiles, #[]⟩).1.isOk := by
      decide +kernel
    have hslot : (linkedFiles.slotLocation ⟨"a.js"⟩ .busy).toOption =
        some (["work", "a.js"], false) := by
      decide +kernel
    obtain ⟨result, after, hrun, ⟨⟨e, he⟩, -⟩ | ⟨rfl, m, loc, -, hloc, -, houtput, hothers, -⟩⟩ :=
      compileUnit_atomic (.plain none) ⟨"a.py"⟩ ⟨"a.js"⟩ ⟨linkedFiles, #[]⟩
    · rw [hrun, he] at hok
      cases hok
    · rw [hloc] at hslot
      obtain ⟨rfl, -⟩ := Prod.mk.inj (Option.some.inj hslot)
      refine ⟨after, m, hrun, houtput, ?_⟩
      rw [hothers _ (by decide)]
      simp [linkedFiles, get?_put]
  · have hno : ((compileUnit (.plain none) ⟨"a.py"⟩ ⟨"a.js"⟩).run ⟨fullFiles, #[]⟩).1.isOk =
        false := by
      decide +kernel
    obtain ⟨result, after, hrun, ⟨⟨e, rfl⟩, hfiles⟩ | ⟨rfl, -⟩⟩ :=
      compileUnit_atomic (.plain none) ⟨"a.py"⟩ ⟨"a.js"⟩ ⟨fullFiles, #[]⟩
    · exact ⟨e, after, hrun, hfiles⟩
    · rw [hrun] at hno
      cases hno

end ScriptCompiler.Build
