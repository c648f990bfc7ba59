import Mathlib.Data.List.Nodup
import ScriptCompiler.Proofs.Scopes.Lowered

/-!
# Hoisting declares what a lowered scope assigns

The declarations at the head of a scope come from the bindings of its source, the assignments in it
from lowering each statement. Both list the same names in the same order: what an item assigns once
it is lowered are the names of its bindings, those of functions left out (`Lowers.assigned`). So a
lowered scope declares each variable that it assigns once, before its first statement, and nothing
else without a value (`hoisting_declares_assigned`).
-/

namespace ScriptCompiler.Lowering

open Source (DottedImport NamedImport declaredNames)
open Script (bareNames)

/-- The names of bindings that are declared at the head of their scope. -/
def hoistedNames (bindings : List Source.Binding) : List String :=
  (bindings.filter (·.kind ≠ .defined)).map Source.Binding.name

theorem written_uses (i : Source.Item) :
    i.uses.filterMap Use.written? = hoistedNames i.stmt.bindings := by
  cases i with
  | importModules entries =>
    have hentry : ∀ entry : DottedImport,
        entry.uses.filterMap Use.written? = entry.bound?.toList := by
      rintro ⟨parts, asName⟩
      match asName, parts with
      | some x, parts => rfl
      | none, [] => rfl
      | none, part :: parts =>
        simp [DottedImport.uses, DottedImport.bound?, Use.written?]
    simp [Source.Item.uses, List.filterMap_flatMap, hentry, ← List.filterMap_eq_flatMap_toList,
      hoistedNames, Source.Item.stmt, Source.Stmt.bindings, List.filter_map, Function.comp_def]
  | importNames path names =>
    simp [Source.Item.uses, List.filterMap_map, Use.written?, hoistedNames, Source.Item.stmt,
      Source.Stmt.bindings, List.filter_map, Function.comp_def]
  | expr e =>
    simp [Source.Item.uses, List.filterMap_map, Use.written?, hoistedNames, Source.Item.stmt,
      Source.Stmt.bindings, Function.comp_def]
  | assign targets value =>
    simp [Source.Item.uses, List.filterMap_map, Use.written?, hoistedNames, Source.Item.stmt,
      Source.Stmt.bindings, List.filter_map, Function.comp_def]
  | define f parameters body => rfl

/-- What a lowered scope assigns are the names that its source binds other than by a function. -/
theorem Lowers.assigned {s : Source.Scope} {t : Script.Scope} (h : Lowers s t) :
    t.assigned = hoistedNames (Source.bindings s.body) := by
  have hwritten : ∀ us : List Use, us.filterMap Use.written? =
      (us.filter (·.written?.isSome)).filterMap Use.written? := by
    intro us
    rw [List.filterMap_filter]
    exact List.filterMap_congr fun u _ => by cases u <;> rfl
  have huses : t.uses.filter (·.written?.isSome) = s.uses.filter (·.written?.isSome) :=
    h.uses fun _ _ => rfl
  have hshown : (s.shown.map Use.read).filterMap Use.written? = [] := by
    simp [List.filterMap_map, Function.comp_def, Use.written?]
  rw [Script.Scope.assigned, hwritten, huses, ← hwritten, Source.Scope.uses,
    List.filterMap_append, hshown, List.append_nil, List.filterMap_flatMap,
    Source.bindings_eq_flatMap_items]
  simp only [written_uses, hoistedNames, List.filter_flatMap, List.map_flatMap]

theorem Lowers.declaredNames_eq {s : Source.Scope} {t : Script.Scope} (h : Lowers s t) :
    declaredNames s.body = t.assigned.eraseDups := by
  rw [h.assigned]; rfl

/-! ## Declarations -/

theorem bareNames_lowerBody (body : List Source.Stmt) (σ : State) :
    bareNames ((lowerBody body).run σ).1 = [] := by
  rw [bareNames, flatMap_lowerBody (F := fun _ => []) body]
  · simp
  intro i _ is his
  cases his with
  | importModules entries => exact flatMap_lowerEntry_eq_nil fun _ => rfl
  | importNames n path names => simp [Script.Item.bare, List.flatMap_map]
  | expr e | condition e | assign targets value | define f parameters body σ => rfl

/-- Only the temporaries of imports are declared where they are used. -/
theorem not_mem_vars_lowerBody {x : String} (hx : ¬ IsTemporary x) (body : List Source.Stmt)
    (σ : State) : x ∉ (Script.items ((lowerBody body).run σ).1).flatMap Script.Item.vars := by
  have hfilter : (Script.items ((lowerBody body).run σ).1).flatMap
      (fun i => i.vars.filter (· = x)) = [] := by
    rw [flatMap_lowerBody (F := fun _ => []) body]
    · simp
    intro i _ is his
    cases his with
    | importModules entries => exact flatMap_lowerEntry_eq_nil fun _ => rfl
    | importNames n path names =>
      have hn : temporaryName n ≠ x := fun h => hx ⟨n, h.symm⟩
      simp [Script.Item.vars, List.flatMap_map, hn]
    | expr e | condition e | assign targets value | define f parameters body σ => rfl
  rw [← List.filter_flatMap, List.filter_eq_nil_iff] at hfilter
  intro hmem
  exact hfilter x hmem (by simp)

theorem nodup_eraseDups : ∀ xs : List String, xs.eraseDups.Nodup
  | [] => by simp
  | x :: xs => by
    rw [List.eraseDups_cons, List.nodup_cons]
    exact ⟨by simp [List.mem_eraseDups], nodup_eraseDups _⟩
termination_by xs => xs.length
decreasing_by exact Nat.lt_succ_of_le (List.length_filter_le ..)

theorem Lowers.hoisted {s : Source.Scope} {t : Script.Scope} (h : Lowers s t) :
    ∃ rest, t.body = (declaredNames s.body).map (.var · none) ++ rest ∧ bareNames rest = [] := by
  obtain ⟨σ, rfl⟩ := h
  refine ⟨((lowerBody s.body).run σ).1 ++ s.shown.map exportName, List.append_assoc .., ?_⟩
  have hbody := bareNames_lowerBody s.body σ
  simp only [bareNames] at hbody ⊢
  simp [hbody, items_map_exportName, List.flatMap_map, Script.Item.bare]

theorem Lowers.count_vars {s : Source.Scope} {t : Script.Scope} (h : Lowers s t) {x : String}
    (hx : ¬ IsTemporary x) : t.vars.count x = (declaredNames s.body).count x := by
  obtain ⟨σ, hitems⟩ := h.flatMap_items
  have hbody := List.count_eq_zero.mpr (not_mem_vars_lowerBody hx s.body σ)
  rw [Script.Scope.vars, hitems, List.count_append, List.count_append, hbody]
  simp [Script.Item.vars, List.count_eq_zero]

theorem bareNames_append (ss us : List Script.Stmt) :
    bareNames (ss ++ us) = bareNames ss ++ bareNames us := by
  simp [bareNames]

theorem bareNames_map_var (xs : List String) : bareNames (xs.map (.var · none)) = xs := by
  simp [bareNames, Script.items_map_var, List.flatMap_map, Script.Item.bare]

theorem exists_of_forall₂ {R : α → β → Prop} : ∀ {as : List α} {bs : List β},
    List.Forall₂ R as bs → ∀ b ∈ bs, ∃ a, R a b
  | _, _, .nil => nofun
  | _, _, .cons h hs => List.forall_mem_cons.mpr ⟨⟨_, h⟩, exists_of_forall₂ hs⟩

/-- Every scope of a lowered module comes from a source scope. -/
theorem exists_lowers {m : Source.Module} {exports : List String} {t : Script.Scope}
    (ht : (lower m exports).tree.scope.Inside t) : ∃ s, Lowers s t := by
  induction ht with
  | self => exact ⟨_, lowers_lower m exports⟩
  | inner _ hmem ih =>
    obtain ⟨s, hs⟩ := ih
    exact exists_of_forall₂ hs.functions _ hmem

/-- Every scope of a lowered module starts with declarations of what it assigns, each variable once
and in the order of its first assignment, and declares no other variable without a value. -/
theorem hoisting_declares_assigned (m : Source.Module) (exports : List String) {t : Script.Scope}
    (ht : (lower m exports).tree.scope.Inside t) :
    ∃ names rest, t.body = names.map (.var · none) ++ rest ∧ names = t.assigned.eraseDups ∧
      bareNames rest = [] ∧ ∀ x ∈ t.assigned, (bareNames t.body).count x = 1 ∧
        (¬ IsTemporary x → t.vars.count x = 1) := by
  obtain ⟨s, hs⟩ := exists_lowers ht
  obtain ⟨rest, hbody, hrest⟩ := hs.hoisted
  refine ⟨declaredNames s.body, rest, hbody, hs.declaredNames_eq, hrest, fun x hx => ?_⟩
  have hcount : (declaredNames s.body).count x = 1 := by
    rw [hs.declaredNames_eq]
    exact List.count_eq_one_of_mem (nodup_eraseDups _) (List.mem_eraseDups.mpr hx)
  refine ⟨?_, fun htemp => (hs.count_vars htemp).trans hcount⟩
  rw [hbody, bareNames_append, bareNames_map_var, hrest, List.append_nil, hcount]

/-- A module with a function that binds names by assignment and by each form of import. -/
def hoistingSample : Source.Module where
  body := [.branch (.name "c") [.define "f" ["x"]
    [.assign ["b", "a"] (.name "x"),
      .branch (.name "b") [.importModules [⟨["p", "q"], none⟩]]
        [.importNames ["m"] [⟨"n", some "b"⟩]],
      .define "g" [] [.assign ["h"] (.int 1)]]] []]

theorem hoisting_declares_assigned_sample :
    ∃ t, (lower hoistingSample ["f"]).tree.scope.Inside t ∧ t.assigned = ["b", "a", "p", "b"] ∧
      ∃ rest, t.body = ["b", "a", "p"].map (.var · none) ++ rest ∧ bareNames rest = [] := by
  have hmem : ∃ t ∈ (lower hoistingSample ["f"]).tree.scope.functions,
      t.assigned = ["b", "a", "p", "b"] := ⟨_, List.mem_cons_self, rfl⟩
  obtain ⟨t, ht, hassigned⟩ := hmem
  have hinside := Script.Scope.Inside.self.inner ht
  obtain ⟨names, rest, hbody, hnames, hrest, -⟩ := hoisting_declares_assigned _ _ hinside
  rw [hassigned] at hnames
  have hdups : ["b", "a", "p", "b"].eraseDups = ["b", "a", "p"] := by decide
  rw [hdups] at hnames
  exact ⟨t, hinside, hassigned, rest, hnames ▸ hbody, hrest⟩

end ScriptCompiler.Lowering
