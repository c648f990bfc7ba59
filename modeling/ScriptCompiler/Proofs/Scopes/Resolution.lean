import ScriptCompiler.Proofs.Scopes.Hoisting

/-!
# Lowering keeps name resolution

A module and its lowered tree are paired, and the functions of a pair of scopes one by one, in the
order in which they stand. Paired scopes have the same names of their own but for the temporaries
of imports (`Lowers.mem_locals_iff`), and the plain variables that the lowered one uses are those of
the source, in order (`Lowers.plain_uses`). So every variable is found in the same place of the two
chains of scopes around it, or in neither (`lowering_keeps_resolution`).
-/

namespace ScriptCompiler

/-! ## Variables of a plain scope -/

namespace Source

theorem mem_names_of_mem_bindings (i : Item) {x : String}
    (hx : x ∈ i.stmt.bindings.map Binding.name) : x ∈ i.stmt.names := by
  cases i <;> simp_all [Item.stmt, Stmt.bindings, Stmt.names]

theorem mem_namesOf_of_mem_declaredNames {body : List Stmt} {x : String}
    (hx : x ∈ declaredNames body) : x ∈ namesOf body := by
  rw [declaredNames, List.mem_eraseDups, List.mem_map] at hx
  obtain ⟨b, hb, rfl⟩ := hx
  have hb := (List.mem_filter.mp hb).1
  rw [bindings_eq_flatMap_items, List.mem_flatMap] at hb
  obtain ⟨i, hi, hb⟩ := hb
  rw [namesOf_eq_flatMap_items]
  exact List.mem_flatMap.mpr ⟨i, hi, mem_names_of_mem_bindings i (List.mem_map_of_mem hb)⟩

theorem DottedImport.forall_bound_cons {entry : DottedImport} {entries : List DottedImport}
    {p : String → Prop} : (∀ x ∈ (entry :: entries).filterMap DottedImport.bound?, p x) ↔
      (∀ x ∈ entry.bound?, p x) ∧ ∀ x ∈ entries.filterMap DottedImport.bound?, p x := by
  cases hbound : entry.bound? with
  | none => simp [List.filterMap_cons_none hbound]
  | some x => simp [List.filterMap_cons_some hbound]

theorem DottedImport.bound?_of_mem_uses {entry : DottedImport} {u : Use} (hu : u ∈ entry.uses) :
    entry.bound? = some u.name := by
  obtain ⟨parts, asName⟩ := entry
  match asName, parts with
  | some x, parts =>
    rw [DottedImport.uses, List.mem_singleton] at hu
    rw [hu]; rfl
  | none, [] => cases hu
  | none, part :: parts =>
    simp only [DottedImport.uses, List.mem_cons, List.mem_map] at hu
    rcases hu with rfl | ⟨_, _, rfl⟩ <;> rfl

theorem mem_names_of_mem_uses (i : Item) {u : Use} (hu : u ∈ i.uses) : u.name ∈ i.stmt.names := by
  cases i with
  | importModules entries =>
    obtain ⟨entry, hentry, hu⟩ := List.mem_flatMap.mp hu
    exact List.mem_filterMap.mpr ⟨entry, hentry, DottedImport.bound?_of_mem_uses hu⟩
  | importNames path names =>
    obtain ⟨entry, hentry, rfl⟩ := List.mem_map.mp hu
    exact List.mem_map.mpr ⟨entry, hentry, rfl⟩
  | expr e =>
    obtain ⟨x, hx, rfl⟩ := List.mem_map.mp hu
    exact hx
  | assign targets value =>
    rcases List.mem_append.mp hu with hu | hu
    · obtain ⟨x, hx, rfl⟩ := List.mem_map.mp hu
      exact List.mem_append_left _ hx
    · obtain ⟨x, hx, rfl⟩ := List.mem_map.mp hu
      exact List.mem_append_right _ hx
  | define f parameters body => cases hu

theorem Scope.Plain.item {s : Scope} (h : s.Plain) : ∀ i ∈ items s.body, ∀ x ∈ i.stmt.names,
    IsPlain x := by
  intro i hi x hx
  refine h x (List.mem_append_left _ (List.mem_append_right _ ?_))
  rw [namesOf_eq_flatMap_items]
  exact List.mem_flatMap.mpr ⟨i, hi, hx⟩

theorem Scope.Plain.functions {s : Scope} (h : s.Plain) : ∀ s' ∈ s.functions, s'.Plain := by
  intro s' hs' x hx
  obtain ⟨i, hi, hs'⟩ := List.mem_flatMap.mp hs'
  cases i with
  | define f parameters body =>
    rw [Item.functions, List.mem_singleton] at hs'
    subst hs'
    refine h.item _ hi x ?_
    rw [List.append_nil] at hx
    exact List.mem_cons_of_mem _ hx
  | _ => cases hs'

theorem Scope.Plain.uses {s : Scope} (h : s.Plain) : ∀ u ∈ s.uses, IsPlain u.name := by
  intro u hu
  rcases List.mem_append.mp hu with hu | hu
  · obtain ⟨i, hi, hu⟩ := List.mem_flatMap.mp hu
    exact h.item i hi u.name (mem_names_of_mem_uses i hu)
  · obtain ⟨x, hx, rfl⟩ := List.mem_map.mp hu
    exact h x (List.mem_append_right _ hx)

theorem Scope.Plain.locals {s : Scope} (h : s.Plain) : ∀ x ∈ s.locals, IsPlain x := by
  intro x hx
  rcases List.mem_append.mp hx with hx | hx
  · exact h x (List.mem_append_left _ (List.mem_append_left _ hx))
  · rw [bindings_eq_flatMap_items, List.map_flatMap, List.mem_flatMap] at hx
    obtain ⟨i, hi, hx⟩ := hx
    exact h.item i hi x (mem_names_of_mem_bindings i hx)

end Source

namespace Lowering

open Source (DottedImport NamedImport declaredNames)

/-! ## The names of a lowered scope -/

/-- The names of bindings by functions. -/
def definedNames (bindings : List Source.Binding) : List String :=
  (bindings.filter (·.kind = .defined)).map Source.Binding.name

theorem mem_map_name_iff {bindings : List Source.Binding} {x : String} :
    x ∈ bindings.map Source.Binding.name ↔
      x ∈ hoistedNames bindings ∨ x ∈ definedNames bindings := by
  simp only [hoistedNames, definedNames, List.mem_map, List.mem_filter, decide_eq_true_eq]
  constructor
  · rintro ⟨b, hb, rfl⟩
    by_cases hk : b.kind = .defined
    · exact .inr ⟨b, ⟨hb, hk⟩, rfl⟩
    · exact .inl ⟨b, ⟨hb, hk⟩, rfl⟩
  · rintro (⟨b, hb, rfl⟩ | ⟨b, hb, rfl⟩) <;> exact ⟨b, hb.1, rfl⟩

theorem Emits.declared {i : Source.Item} {is : List Script.Item} (h : Emits i is) {x : String}
    (hx : ¬ IsTemporary x) :
    is.flatMap (fun j => j.declared.filter (· = x)) =
      (definedNames i.stmt.bindings).filter (· = x) := by
  cases h with
  | importModules entries =>
    rw [flatMap_lowerEntry_eq_nil fun _ => rfl]
    simp [definedNames, Source.Item.stmt, Source.Stmt.bindings, List.filter_map, Function.comp_def]
  | importNames n path names =>
    have hn : temporaryName n ≠ x := fun h => hx ⟨n, h.symm⟩
    simp [definedNames, Source.Item.stmt, Source.Stmt.bindings, List.filter_map, Function.comp_def,
      Script.Item.declared, List.flatMap_map, hn]
  | expr e => rfl
  | condition e => rfl
  | assign targets value =>
    simp [definedNames, Source.Item.stmt, Source.Stmt.bindings, List.filter_map, Function.comp_def,
      Script.Item.declared]
  | define f parameters body σ =>
    simp [definedNames, Source.Item.stmt, Source.Stmt.bindings, Script.Item.declared]

theorem mem_declared_lowerBody_iff {x : String} (hx : ¬ IsTemporary x) (body : List Source.Stmt)
    (σ : State) :
    x ∈ (Script.items ((lowerBody body).run σ).1).flatMap Script.Item.declared ↔
      x ∈ definedNames (Source.bindings body) := by
  have hfilter := flatMap_lowerBody body (fun i _ is his => Emits.declared his hx) σ
  have hdefined : (Source.items body).flatMap
      (fun i => (definedNames i.stmt.bindings).filter (· = x)) =
      (definedNames (Source.bindings body)).filter (· = x) := by
    rw [Source.bindings_eq_flatMap_items]
    simp only [definedNames, List.filter_flatMap, List.map_flatMap]
  rw [hdefined, ← List.filter_flatMap] at hfilter
  have hmem : ∀ xs : List String, x ∈ xs ↔ x ∈ xs.filter (· = x) := by simp
  rw [hmem, hfilter, ← hmem]

theorem Lowers.mem_locals_iff {s : Source.Scope} {t : Script.Scope} (h : Lowers s t) {x : String}
    (hx : ¬ IsTemporary x) : x ∈ t.locals ↔ x ∈ s.locals := by
  have hparams : t.parameters = s.parameters := by obtain ⟨σ, rfl⟩ := h; rfl
  obtain ⟨σ, hitems⟩ := h.flatMap_items
  have hdeclared : x ∈ declaredNames s.body ↔ x ∈ hoistedNames (Source.bindings s.body) :=
    List.mem_eraseDups
  simp only [Script.Scope.locals, Source.Scope.locals, hparams, hitems, List.mem_append,
    mem_declared_lowerBody_iff hx, mem_map_name_iff, ← hdeclared]
  simp [Script.Item.declared]

/-- The plain variables that a lowered scope uses are those of its source. -/
theorem Lowers.plain_uses {s : Source.Scope} {t : Script.Scope} (h : Lowers s t) (hs : s.Plain) :
    t.uses.filter (IsPlain ·.name) = s.uses := by
  rw [h.uses fun x hx => decide_eq_false hx]
  exact List.filter_eq_self.mpr fun u hu => decide_eq_true (hs.uses u hu)

/-! ## Chains of scopes -/

/-- The scopes around a place of a module and those around it in the lowered module, from the inside
out. Functions are paired in the order in which they stand in their scopes. -/
inductive Paired (m : Source.Module) (exports : List String) :
    List Source.Scope → List Script.Scope → Prop
  | module : Paired m exports [m.scope exports] [(lower m exports).tree.scope]
  | inner {s s' : Source.Scope} {ss : List Source.Scope} {t t' : Script.Scope}
      {ts : List Script.Scope} : Paired m exports (s :: ss) (t :: ts) →
      (s', t') ∈ s.functions.zip t.functions → Paired m exports (s' :: s :: ss) (t' :: t :: ts)

section Chains

variable {m : Source.Module} {exports : List String} {ss : List Source.Scope}
  {ts : List Script.Scope}

theorem Paired.lowers (h : Paired m exports ss ts) (hm : (m.scope exports).Plain) :
    List.Forall₂ (fun s t => s.Plain ∧ Lowers s t) ss ts := by
  induction h with
  | module => exact .cons ⟨hm, lowers_lower m exports⟩ .nil
  | inner _ hmem ih =>
    cases ih with
    | cons hhead htail =>
      obtain ⟨hs, hlowers⟩ := hhead
      have hs' := hs.functions _ (List.of_mem_zip hmem).1
      exact .cons ⟨hs', List.forall₂_zip hlowers.functions hmem⟩ (.cons ⟨hs, hlowers⟩ htail)

/-- The scopes further out are paired too. -/
theorem Paired.drop (h : Paired m exports ss ts) : ∀ {k : Nat}, k < ss.length →
    Paired m exports (ss.drop k) (ts.drop k) := by
  induction h with
  | module =>
    intro k hk
    obtain rfl : k = 0 := by simpa using hk
    exact .module
  | inner hp hmem ih =>
    intro k hk
    cases k with
    | zero => exact .inner hp hmem
    | succ k => exact ih (Nat.lt_of_succ_lt_succ hk)

theorem resolve_eq_of_forall₂ {x : String} (hx : IsPlain x)
    (h : List.Forall₂ (fun s t => s.Plain ∧ Lowers s t) ss ts) :
    resolve (ss.map Source.Scope.locals) x = resolve (ts.map Script.Scope.locals) x := by
  induction h with
  | nil => rfl
  | cons hhead _ ih =>
    have hlocals := hhead.2.mem_locals_iff (not_isTemporary_of_isPlain hx)
    simp only [resolve, List.map_cons, List.findIdx?_cons, hlocals] at ih ⊢
    rw [ih]

end Chains

/-- A lowered scope has the names of its source scope, but for temporaries, and it reads and assigns
the same plain variables in the same order. Each is found in the scope paired with the one that it
is found in at the source, or in none on both sides. -/
theorem lowering_keeps_resolution {m : Source.Module} {exports : List String}
    (hm : (m.scope exports).Plain) {s : Source.Scope} {ss : List Source.Scope} {t : Script.Scope}
    {ts : List Script.Scope} (h : Paired m exports (s :: ss) (t :: ts)) :
    s.functions.length = t.functions.length ∧
      (∀ x, (x ∈ t.locals ∧ ¬ IsTemporary x) ↔ x ∈ s.locals) ∧
      t.uses.filter (IsPlain ·.name) = s.uses ∧
      ∀ u ∈ s.uses,
        resolve ((s :: ss).map Source.Scope.locals) u.name =
            resolve ((t :: ts).map Script.Scope.locals) u.name ∧
          ∀ k ∈ resolve ((s :: ss).map Source.Scope.locals) u.name,
            Paired m exports ((s :: ss).drop k) ((t :: ts).drop k) := by
  have hchain := h.lowers hm
  obtain ⟨⟨hs, hlowers⟩, -⟩ := List.forall₂_cons.mp hchain
  refine ⟨hlowers.functions.length_eq, fun x => ⟨fun hx => ?_, fun hx => ?_⟩,
    hlowers.plain_uses hs, fun u hu => ⟨?_, fun k hk => h.drop ?_⟩⟩
  · exact (hlowers.mem_locals_iff hx.2).mp hx.1
  · have htemp := not_isTemporary_of_isPlain (hs.locals x hx)
    exact ⟨(hlowers.mem_locals_iff htemp).mpr hx, htemp⟩
  · exact resolve_eq_of_forall₂ (hs.uses u hu) hchain
  · have hlt := (List.findIdx?_eq_some_iff_findIdx_eq.mp hk).1
    rwa [List.length_map] at hlt

/-- A function in a function in a branch. The `a` that the inner one reads is bound by the function
around it and by the module. -/
def resolutionSample : Source.Module where
  body := [.assign ["a"] (.int 1), .branch (.name "a")
    [.define "f" ["b"] [.define "g" [] [.assign ["c"] (.binary .add (.name "a") (.name "b"))],
      .importNames ["m"] [⟨"a", none⟩], .ret (.name "g")]] []]

theorem lowering_keeps_resolution_sample :
    ∃ s ss t ts, Paired resolutionSample ["a"] (s :: ss) (t :: ts) ∧ ss.length = 2 ∧
      t.uses.filter (IsPlain ·.name) = [.write "c", .read "a", .read "b"] ∧
      resolve ((t :: ts).map Script.Scope.locals) "a" = some 1 := by
  have hm : (resolutionSample.scope ["a"]).Plain := by
    unfold Source.Scope.Plain
    decide
  have hchain : ∃ s ss t ts, Paired resolutionSample ["a"] (s :: ss) (t :: ts) ∧ ss.length = 2 ∧
      s.uses = [.write "c", .read "a", .read "b"] ∧
      resolve ((s :: ss).map Source.Scope.locals) "a" = some 1 :=
    ⟨_, _, _, _, .inner (.inner .module List.mem_cons_self) List.mem_cons_self, rfl, rfl, rfl⟩
  obtain ⟨s, ss, t, ts, h, hlength, huses, hresolve⟩ := hchain
  obtain ⟨-, -, hcopied, hsame⟩ := lowering_keeps_resolution hm h
  refine ⟨s, ss, t, ts, h, hlength, hcopied.trans huses, ?_⟩
  have ha := (hsame (.read "a") (by simp [huses])).1
  exact ha.symm.trans hresolve

end Lowering

end ScriptCompiler
