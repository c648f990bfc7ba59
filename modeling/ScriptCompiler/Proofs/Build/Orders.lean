import Mathlib.Data.List.Perm.Basic
import ScriptCompiler.Proofs.Build.Plans

/-!
# Orders of units

Once the directories are made, nothing says in which order the units are compiled.
`Plan.runInOrder` compiles them in a given one and reports them in the order of the plan, whichever
it was; a build as it is run takes the order of the plan (`Plan.runInOrder_jobs`).
-/

namespace ScriptCompiler.Build

/-- Runs a plan and compiles its units in the given order. The summary lists them in the order of
the plan. -/
def Plan.runInOrder (source : UnitSource) (plan : Plan) (order : List Job) : BuildM Summary := do
  let directoryErrors ← createDirectories plan.directories
  let compiled ← compileJobs source order
  let results := plan.jobs.filterMap fun job => (order.zip compiled).lookup job
  let unitErrors := failedOf results
  reportAll (unitErrors.map .unitFailed)
  let summary : Summary := ⟨writtenOf results, directoryErrors ++ unitErrors⟩
  report (.finished summary.written.length summary.failed.length)
  return summary

theorem run_inOrder (source : UnitSource) (plan : Plan) (order : List Job) (s : State) :
    ∃ events,
    let made := (createDirectories plan.directories).run s
    let compiled := (compileJobs source order).run made.2
    let results := plan.jobs.filterMap fun job => (order.zip compiled.1).lookup job
    (plan.runInOrder source order).run s =
      (⟨writtenOf results, made.1 ++ failedOf results⟩, ⟨compiled.2.files, events⟩) :=
  ⟨_, rfl⟩

/-! ## Results by job -/

section Lookup

variable {α β γ : Type} [DecidableEq α] {key : γ → α} {value : γ → β} {l order : List γ}

theorem lookup_zip_map {a : γ} (ha : a ∈ order)
    (hkey : ∀ b ∈ order, key b = key a → value b = value a) :
    ((order.map key).zip (order.map value)).lookup (key a) = some (value a) := by
  induction order with
  | nil => cases ha
  | cons first order ih =>
    rw [List.forall_mem_cons] at hkey
    rw [List.map_cons, List.map_cons, List.zip_cons_cons]
    by_cases hfirst : key first = key a
    · simp [hfirst, hkey.1 hfirst]
    · have hmem : a ∈ order := by
        refine (List.mem_cons.mp ha).resolve_left ?_
        rintro rfl
        exact hfirst rfl
      rw [List.lookup_cons, beq_false_of_ne (Ne.symm hfirst)]
      exact ih hmem hkey.2

/-- Values that were stored in one order are found in the other. -/
theorem filterMap_lookup_map (hmem : l ⊆ order)
    (hkey : ∀ a ∈ l, ∀ b ∈ order, key b = key a → value b = value a) :
    (l.map key).filterMap (fun k => ((order.map key).zip (order.map value)).lookup k) =
      l.map value := by
  rw [List.filterMap_map]
  exact List.filterMap_eq_map_iff_forall_eq_some.mpr fun a ha =>
    lookup_zip_map (hmem ha) (hkey a ha)

end Lookup

/-- A result that depends on the job alone is found whatever the order. -/
theorem filterMap_lookup_perm {β : Type} (result : Job → β) {order jobs : List Job}
    (h : order.Perm jobs) :
    jobs.filterMap (fun job => (order.zip (order.map result)).lookup job) = jobs.map result := by
  have hfound := @filterMap_lookup_map _ _ _ _ id result jobs order h.symm.subset
    fun a _ b _ hkey => congrArg result hkey
  simpa only [List.map_id] using hfound

theorem length_compileJobs (source : UnitSource) (jobs : List Job) (s : State) :
    ((compileJobs source jobs).run s).1.length = jobs.length := by
  induction jobs generalizing s with
  | nil => rfl
  | cons job jobs ih => exact congrArg (· + 1) (ih _)

/-- The order of the plan is one of the orders. -/
theorem Plan.runInOrder_jobs (source : UnitSource) {plan : Plan} (h : plan.jobs.Nodup) :
    plan.runInOrder source plan.jobs = plan.run source := by
  have hfound : ∀ {results : List (Except BuildError Path)}, results.length = plan.jobs.length →
      plan.jobs.filterMap (fun job => (plan.jobs.zip results).lookup job) = results := by
    intro results hlength
    have hfst : (plan.jobs.zip results).map Prod.fst = plan.jobs := List.map_fst_zip hlength.ge
    have hsnd : (plan.jobs.zip results).map Prod.snd = results := List.map_snd_zip hlength.le
    have hkey := List.inj_on_of_nodup_map (hfst.symm ▸ h)
    have hlookup := @filterMap_lookup_map _ _ _ _ Prod.fst Prod.snd (plan.jobs.zip results) _
      (List.Subset.refl _) fun a ha b hb hjob => congrArg Prod.snd (hkey hb ha hjob)
    rwa [hfst, hsnd] at hlookup
  have hrun : ∀ s, (plan.runInOrder source plan.jobs).run s = (plan.run source).run s := by
    intro s
    simp only [Plan.runInOrder, Plan.run, run_bind]
    rw [hfound (length_compileJobs source plan.jobs _)]
  exact funext hrun

/-! ## Orders of a walk -/

theorem exists_map_of_perm {α β : Type} {f : α → β} {order : List β} {l : List α}
    (h : order.Perm (l.map f)) : ∃ l' : List α, order = l'.map f ∧ l'.Perm l := by
  have hcomp : Relation.Comp (· = List.map f ·) (·.Perm ·) order l := by
    rw [List.eq_map_comp_perm]
    exact h
  exact hcomp

/-- No two jobs of a plan are for the same source. -/
theorem Walk.Orderly.nodup_jobs {visited : Walk} (h : visited.Orderly) (outputs : Path) :
    (visited.plan outputs).jobs.Nodup := by
  refine (List.Nodup.of_map _ h.nodup_units).map_on fun file hfile other hother hjob => ?_
  obtain ⟨path, names⟩ := file
  obtain ⟨path', names'⟩ := other
  obtain ⟨rfl, -⟩ := Job.mk.inj hjob
  rw [h.file_path hfile hother]

/-- A build that does not end early runs the plan of its walk in the order of the plan. -/
theorem run_compileTree_jobs {source : UnitSource} {sources outputs : Path} {s : State}
    {summary : Summary} (hfs : s.files.WellFormed)
    (hrun : ((compileTree source sources outputs).run s).1 = .ok summary) :
    (walk s.files sources).Orderly ∧ ∃ events,
      (((walk s.files sources).plan outputs).runInOrder source
        ((walk s.files sources).plan outputs).jobs).run ⟨s.files, events⟩ =
          (summary, ((compileTree source sources outputs).run s).2) := by
  obtain ⟨hfailure, events, hfinal, hsummary⟩ := run_compileTree hrun
  have h := orderly_walk hfs hfailure
  refine ⟨h, events, ?_⟩
  rw [Plan.runInOrder_jobs source (h.nodup_jobs outputs), hfinal]
  exact Prod.ext hsummary rfl

end ScriptCompiler.Build
