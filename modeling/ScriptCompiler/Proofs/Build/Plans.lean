import Mathlib.Data.List.Nodup
import ScriptCompiler.Proofs.Build.Atomic
import ScriptCompiler.Proofs.Build.Visits

/-!
# The plan of a build

A build runs the plan of its walk in two phases (`run_compileTree`, `run_plan`). The outputs of the
plan are distinct exactly if the output names within each directory are (`nodup_destinations_iff`).
-/

namespace ScriptCompiler.Build

open FileSystem

/-! ## Running a plan -/

section Running

variable {source : UnitSource} {s : State}

theorem run_compileJobs_cons {job : Job} {result : Except BuildError Unit} {after : State}
    (h : (compileUnit source job.path job.destination).run s = (result, after)) (jobs : List Job) :
    (compileJobs source (job :: jobs)).run s =
      ((result.map fun _ => job.destination) :: ((compileJobs source jobs).run after).1,
        ((compileJobs source jobs).run after).2) := by
  simp only [compileJobs, run_bind, run_pure, h]

/-- A plan is run in two phases. -/
theorem run_plan (plan : Plan) : ∃ events,
    let made := (createDirectories plan.directories).run s
    let compiled := (compileJobs source plan.jobs).run made.2
    (plan.run source).run s =
      (⟨writtenOf compiled.1, made.1 ++ failedOf compiled.1⟩, ⟨compiled.2.files, events⟩) :=
  ⟨_, rfl⟩

/-- A build whose walk fails ends with that failure, and has changed no file. -/
theorem run_compileTree_of_some {sources outputs : Path} {e : BuildError}
    (h : (walk s.files sources).failure = some e) : ∃ events,
      (compileTree source sources outputs).run s = (.error e, ⟨s.files, events⟩) := by
  simp only [compileTree, run_bind, run_report, run_get, h]
  exact ⟨_, rfl⟩

/-- A build whose walk ends well runs the plan of the walk. -/
theorem run_compileTree_of_none {sources outputs : Path}
    (h : (walk s.files sources).failure = none) : ∃ events,
      let ran := (((walk s.files sources).plan outputs).run source).run ⟨s.files, events⟩
      (compileTree source sources outputs).run s = (.ok ran.1, ran.2) := by
  simp only [compileTree, run_bind, run_report, run_get, h]
  exact ⟨_, rfl⟩

/-- A build that does not end early runs the plan of its walk. -/
theorem run_compileTree {sources outputs : Path} {summary : Summary}
    (h : ((compileTree source sources outputs).run s).1 = .ok summary) :
    (walk s.files sources).failure = none ∧ ∃ events,
      (compileTree source sources outputs).run s =
        (.ok summary,
          (((walk s.files sources).plan outputs).run source |>.run ⟨s.files, events⟩).2) ∧
      (((walk s.files sources).plan outputs).run source |>.run ⟨s.files, events⟩).1 = summary := by
  cases hfailure : (walk s.files sources).failure with
  | some e =>
    obtain ⟨events, hrun⟩ := @run_compileTree_of_some source s sources outputs e hfailure
    rw [hrun] at h
    cases h
  | none =>
    obtain ⟨events, hrun⟩ := @run_compileTree_of_none source s sources outputs hfailure
    rw [hrun] at h ⊢
    injection h with h
    exact ⟨rfl, events, by rw [h], h⟩

end Running

/-! ## Distinct outputs -/

/-- The names of the visited files. -/
def Walk.units (visited : Walk) : List (List String) := visited.files.map Prod.snd

/-- The files of a directory have distinct output names. -/
def Walk.DistinctOutputs (visited : Walk) : Prop :=
  ∀ dir name name', dir ++ [name] ∈ visited.units → dir ++ [name'] ∈ visited.units →
    outputFileName ⟨name⟩ = outputFileName ⟨name'⟩ → name = name'

theorem destinations_plan (visited : Walk) (outputs : Path) :
    (visited.plan outputs).jobs.map Job.destination = visited.units.map (outputPath outputs) := by
  simp [Walk.plan, Walk.units]

section Orderly

variable {visited : Walk} (h : visited.Orderly)
include h

theorem Walk.Orderly.nodup_units : visited.units.Nodup := by
  have hsub : visited.units.Sublist (visited.visits.map Visit.relative) := by
    unfold Walk.units Walk.files
    induction visited.visits with
    | nil => exact .slnil
    | cons visit visits ih =>
      cases visit with
      | directory relative => exact .cons _ ih
      | file path relative => exact .cons_cons _ ih
  exact h.nodup.sublist hsub

theorem Walk.Orderly.unit_names {names : List String} (hmem : names ∈ visited.units) :
    ∃ dir name, names = dir ++ [name] ∧ (∀ n ∈ dir, IsUnitName n) ∧ IsUnitName name := by
  obtain ⟨⟨path, names⟩, hfile, rfl⟩ := List.mem_map.mp hmem
  obtain ⟨hne, hnames⟩ := h.file_names hfile
  refine ⟨_, _, (List.dropLast_concat_getLast hne).symm, fun n hn => ?_, ?_⟩
  · exact hnames n (List.dropLast_subset _ hn)
  · exact hnames _ (List.getLast_mem hne)

/-- The outputs of a plan are distinct exactly if the output names in each directory are. -/
theorem nodup_destinations_iff (outputs : Path) :
    ((visited.plan outputs).jobs.map Job.destination).Nodup ↔ visited.DistinctOutputs := by
  rw [destinations_plan, List.nodup_map_iff_inj_on h.nodup_units]
  constructor
  · intro hinj dir name name' hmem hmem' hout
    obtain ⟨d, n, heq, hdir, hname⟩ := h.unit_names hmem
    obtain ⟨rfl, rfl⟩ : dir = d ∧ name = n := by simpa using List.append_inj' heq rfl
    obtain ⟨d, n, heq, -, hname'⟩ := h.unit_names hmem'
    obtain ⟨rfl, rfl⟩ : dir = d ∧ name' = n := by simpa using List.append_inj' heq rfl
    have hpath : outputPath outputs (dir ++ [name]) = outputPath outputs (dir ++ [name']) := by
      rw [outputPath_concat outputs hdir hname, outputPath_concat outputs hdir hname', hout]
    simpa using hinj _ hmem _ hmem' hpath
  · intro hdistinct names hmem names' hmem' hpath
    obtain ⟨dir, name, rfl, hdir, hname⟩ := h.unit_names hmem
    obtain ⟨dir', name', rfl, hdir', hname'⟩ := h.unit_names hmem'
    obtain ⟨rfl, hout⟩ := outputPath_inj outputs hdir hname hdir' hname' hpath
    rw [hdistinct dir name name' hmem hmem' hout]

end Orderly

/-- A directory with two units. -/
def twoUnits (name name' : String) : FileSystem :=
  ((fresh.put ["work", "s"] .directory).put ["work", "s", name] (.file (.ofText "x"))).put
    ["work", "s", name'] (.file (.ofText "x"))

theorem twoUnits_wellFormed {name name' : String} (hname : IsName name) (hname' : IsName name')
    (hne : name ≠ name') : (twoUnits name name').WellFormed := by
  have hdir : (fresh.put ["work", "s"] .directory).WellFormed :=
    fresh_wellFormed.put (show fresh.get? ["work"] = _ by simp [get?_fresh])
      (show IsName "s" by decide) (by simp [get?_fresh]) _
  have hone : ((fresh.put ["work", "s"] .directory).put ["work", "s", name]
      (.file (.ofText "x"))).WellFormed :=
    hdir.put (show (fresh.put ["work", "s"] .directory).get? ["work", "s"] = _ by simp [get?_put])
      hname (by simp [get?_put, get?_fresh]) _
  exact hone.put
    (show ((fresh.put ["work", "s"] .directory).put ["work", "s", name] _).get? ["work", "s"] = _ by
      simp [get?_put]) hname' (by simp [get?_put, get?_fresh, hne]) _

theorem exists_ok_of_toOption {α β ε : Type} {x : Except ε α} {f : α → β} {b : β}
    (h : x.toOption.map f = some b) : ∃ a, x = .ok a ∧ f a = b := by
  cases x with
  | error e => cases h
  | ok a => exact ⟨a, rfl, Option.some.inj h⟩

end ScriptCompiler.Build
