import Mathlib.Data.List.DropRight
import ScriptCompiler.Proofs.Files.Spelling

/-!
# Steps that count

Of the steps of a path, the silent ones at its end are not counted (`counted`), and none of the
silent ones but a dot at the head of a relative path is a component (`significant`). A path that is
made of counted steps has those steps (`openSteps_ofSteps`), and no component is lost by leaving out
the other steps (`significant_counted`) or a slash at the end (`components_openSteps`).
-/

namespace ScriptCompiler.Path

open Text

/-! ## Counted steps -/

theorem dropSilent_isPrefix (steps : List String) : dropSilent steps <+: steps := by
  rw [← List.reverse_suffix, dropSilent, List.reverse_reverse]
  exact List.dropWhile_suffix _

theorem getLast?_dropSilent (steps : List String) : (dropSilent steps).getLast? ≠ some "" := by
  rw [dropSilent, List.getLast?_reverse]
  intro h
  have hhead := List.head?_dropWhile_not isSilent steps.reverse
  rw [h] at hhead
  exact absurd hhead (by decide)

theorem counted_isPrefix (absolute : Bool) (steps : List String) :
    counted absolute steps <+: steps := by
  unfold counted
  split
  · exact List.prefix_cons_inj _ |>.mpr (dropSilent_isPrefix _)
  · exact dropSilent_isPrefix _

theorem getLast?_counted (absolute : Bool) (steps : List String) :
    (counted absolute steps).getLast? ≠ some "" := by
  unfold counted
  split
  · next rest =>
    cases hrest : dropSilent rest with
    | nil => decide
    | cons step more =>
      rw [List.getLast?_cons_of_ne_nil (by simp), ← hrest]
      exact getLast?_dropSilent rest
  · exact getLast?_dropSilent _

theorem openSteps_isPrefix (p : Path) : p.openSteps <+: p.steps := by
  unfold openSteps dropOpen
  split
  · exact List.dropLast_prefix p.steps
  · exact List.prefix_rfl

theorem head?_openSteps {p : Path} (h : p.isAbsolute = false) : p.openSteps.head? ≠ some "" := by
  have htext := ofSteps_steps p
  rw [h] at htext
  intro hhead
  obtain ⟨step, rest, hsteps⟩ := List.exists_cons_of_ne_nil p.steps_ne_nil
  cases rest with
  | nil =>
    rw [openSteps, hsteps] at hhead
    by_cases hstep : step = "" <;> simp [dropOpen, hstep] at hhead
  | cons next rest =>
    obtain rfl : step = "" := by
      rw [openSteps, hsteps, dropOpen_cons (by simp)] at hhead
      simpa using hhead
    -- An empty step before another one is a slash at the head of the text.
    rw [hsteps] at htext
    rw [← htext] at h
    simp [ofSteps, isAbsolute, toList_joinedBy, List.intercalate] at h

theorem isAbsolute_ofSteps {absolute : Bool} {steps : List String}
    (hslash : ∀ s ∈ steps, '/' ∉ s.toList) (hhead : absolute = false → steps.head? ≠ some "") :
    (ofSteps absolute steps).isAbsolute = absolute := by
  cases steps with
  | nil => cases absolute <;> rfl
  | cons step rest => exact (steps_ofSteps hslash (by simpa using hhead)).1

theorem openSteps_ofSteps {absolute : Bool} {steps : List String}
    (hslash : ∀ s ∈ steps, '/' ∉ s.toList) (hhead : absolute = false → steps.head? ≠ some "")
    (hlast : steps.getLast? ≠ some "") : (ofSteps absolute steps).openSteps = steps := by
  cases steps with
  | nil => cases absolute <;> rfl
  | cons step rest =>
    rw [openSteps, (steps_ofSteps hslash (by simpa using hhead)).2]
    exact dropOpen_of_getLast? hlast

/-! ## Components -/

/-- The components among the steps of a path, given whether it starts at the root. -/
def significant (absolute : Bool) (steps : List String) : List String :=
  match absolute, steps with
  | false, "." :: rest => "." :: rest.filter (!isSilent ·)
  | _, steps => steps.filter (!isSilent ·)

theorem components_eq (p : Path) : p.components = significant p.isAbsolute p.steps := rfl

theorem significant_of_head? {absolute : Bool} {steps : List String}
    (h : absolute = false → steps.head? ≠ some ".") :
    significant absolute steps = steps.filter (!isSilent ·) := by
  unfold significant
  split
  · exact absurd rfl (h rfl)
  · rfl

theorem counted_of_head? {absolute : Bool} {steps : List String}
    (h : absolute = false → steps.head? ≠ some ".") :
    counted absolute steps = dropSilent steps := by
  unfold counted
  split
  · exact absurd rfl (h rfl)
  · rfl

theorem filter_dropSilent (steps : List String) :
    (dropSilent steps).filter (!isSilent ·) = steps.filter (!isSilent ·) := by
  have hsplit : dropSilent steps ++ (steps.reverse.takeWhile isSilent).reverse = steps := by
    rw [dropSilent, ← List.reverse_append, List.takeWhile_append_dropWhile, List.reverse_reverse]
  have hsilent : ((steps.reverse.takeWhile isSilent).reverse).filter (!isSilent ·) = [] := by
    rw [List.filter_eq_nil_iff]
    intro step hstep
    have := List.mem_takeWhile_imp (List.mem_reverse.mp hstep)
    simp [this]
  nth_rewrite 2 [← hsplit]
  rw [List.filter_append, hsilent, List.append_nil]

theorem filter_dropOpen (steps : List String) :
    (dropOpen steps).filter (!isSilent ·) = steps.filter (!isSilent ·) := by
  unfold dropOpen
  split
  · next hlast =>
    obtain ⟨front, rfl⟩ := List.getLast?_eq_some_iff.mp hlast
    rw [List.dropLast_concat, List.filter_append]
    exact (List.append_nil _).symm
  · rfl

theorem head?_of_isPrefix {front steps : List String} {step : String} (h : front <+: steps)
    (hstep : steps.head? ≠ some step) : front.head? ≠ some step := by
  obtain ⟨more, rfl⟩ := h
  cases front with
  | nil => simp
  | cons first front => exact hstep

/-- The steps that are not counted are no components. -/
theorem significant_counted (absolute : Bool) (steps : List String) :
    significant absolute (counted absolute steps) = significant absolute steps := by
  by_cases h : absolute = false ∧ steps.head? = some "."
  · obtain ⟨rfl, hhead⟩ := h
    obtain ⟨rest, rfl⟩ := List.head?_eq_some_iff.mp hhead
    exact congrArg ("." :: ·) (filter_dropSilent rest)
  · rw [not_and] at h
    have hdrop := fun habs => head?_of_isPrefix (dropSilent_isPrefix steps) (h habs)
    rw [counted_of_head? h, significant_of_head? hdrop, filter_dropSilent, significant_of_head? h]

theorem counted_counted (absolute : Bool) (steps : List String) :
    counted absolute (counted absolute steps) = counted absolute steps := by
  have hdrop : ∀ steps, dropSilent (dropSilent steps) = dropSilent steps := by
    intro steps
    rw [dropSilent, dropSilent, List.reverse_reverse, List.dropWhile_idempotent]
  by_cases h : absolute = false ∧ steps.head? = some "."
  · obtain ⟨rfl, hhead⟩ := h
    obtain ⟨rest, rfl⟩ := List.head?_eq_some_iff.mp hhead
    exact congrArg ("." :: ·) (hdrop rest)
  · rw [not_and] at h
    have hhead := fun habs => head?_of_isPrefix (dropSilent_isPrefix steps) (h habs)
    rw [counted_of_head? h, counted_of_head? hhead, hdrop]

/-- The slash at the end of a path adds no component. -/
theorem components_openSteps (p : Path) : p.components = significant p.isAbsolute p.openSteps := by
  rw [components_eq]
  by_cases h : p.isAbsolute = false ∧ p.steps.head? = some "."
  · obtain ⟨habs, hhead⟩ := h
    obtain ⟨rest, hsteps⟩ := List.head?_eq_some_iff.mp hhead
    rw [openSteps, hsteps, habs]
    by_cases hnil : rest = []
    · rw [hnil]
      rfl
    · rw [dropOpen_cons hnil]
      exact congrArg ("." :: ·) (filter_dropOpen rest).symm
  · rw [not_and] at h
    have hopen := fun habs => head?_of_isPrefix p.openSteps_isPrefix (h habs)
    rw [significant_of_head? h, significant_of_head? hopen, openSteps, filter_dropOpen]

theorem components_name {name : String} (h : IsStep name) (hdot : name ≠ ".") :
    (⟨name⟩ : Path).components = [name] := by
  rw [components_eq, steps_name h, significant_of_head? (by simpa using fun _ => hdot)]
  simp [h.not_silent hdot]

end ScriptCompiler.Path
