import Mathlib.Data.List.Forall2
import ScriptCompiler.Proofs.Lowering.Run
import ScriptCompiler.Proofs.Scopes.Items

/-!
# Lowered scopes

`Emits` says once what lowering emits for an item of a source scope. A view of the items of a
lowered body agrees with a view of the items of its source if they agree on what each item emits
(`forall₂_lowerBody`), so what a lowered scope declares, uses and defines follows from one case for
each kind of item. `Lowers` relates a source scope to a script scope that lowering made from it. The
functions of the two are related one by one (`Lowers.functions`), and they use the same variables in
the same order, but for reads of names that are not plain (`Lowers.uses`).
-/

namespace ScriptCompiler.Lowering

open Source (DottedImport NamedImport declaredNames)
open List (Forall₂)

/-- What lowering emits for an item. -/
inductive Emits : Source.Item → List Script.Item → Prop
  | importModules (entries : List DottedImport) :
      Emits (.importModules entries) (Script.items (entries.flatMap lowerEntry))
  | importNames (n : UInt32) (path : List String) (names : List NamedImport) :
      Emits (.importNames path names)
        (.var (temporaryName n) (some (Prelude.load (modulePath path))) ::
          names.map fun entry =>
            .expr (.assign entry.bound (.property (.name (temporaryName n)) entry.name)))
  | expr (e : Source.Expr) : Emits (.expr e) [.expr (lowerExpr e)]
  | condition (e : Source.Expr) : Emits (.expr e) [.expr (Prelude.truth (lowerExpr e))]
  | assign (targets : List String) (value : Source.Expr) :
      Emits (.assign targets value) [.expr (chain targets (lowerExpr value))]
  | define (f : String) (parameters : List String) (body : List Source.Stmt) (σ : State) :
      Emits (.define f parameters body)
        [.function f parameters (declarations body ++ ((lowerBody body).run σ).1)]

theorem items_map_lowerNamed (temporary : String) (names : List NamedImport) :
    Script.items (names.map (lowerNamed temporary)) = names.map fun entry =>
      .expr (.assign entry.bound (.property (.name temporary) entry.name)) :=
  Script.items_map_expr _ names

theorem exists_expr_of_mem_loadBelow : ∀ {parts : List String} {parent : Script.Expr}
    {loaded : List String}, ∀ i ∈ Script.items (loadBelow parent loaded parts), ∃ e, i = .expr e
  | [], _, _ => by simp [loadBelow, Script.items]
  | part :: parts, parent, loaded => by
    simp only [loadBelow, Script.items, Script.Stmt.items, List.singleton_append,
      List.forall_mem_cons]
    exact ⟨⟨_, rfl⟩, exists_expr_of_mem_loadBelow⟩

/-- Imports of modules emit expressions only. -/
theorem exists_expr_of_mem_lowerEntry {entries : List DottedImport} {i : Script.Item}
    (hi : i ∈ Script.items (entries.flatMap lowerEntry)) : ∃ e, i = .expr e := by
  rw [Script.items_flatMap, List.mem_flatMap] at hi
  obtain ⟨entry, -, hi⟩ := hi
  unfold lowerEntry at hi
  split at hi
  · simp only [Script.items, Script.Stmt.items, List.append_nil, List.mem_singleton] at hi
    exact ⟨_, hi⟩
  · cases hi
  · simp only [Script.items, Script.Stmt.items, List.singleton_append, List.mem_cons] at hi
    rcases hi with rfl | hi
    · exact ⟨_, rfl⟩
    · exact exists_expr_of_mem_loadBelow i hi

section Views

variable {α β : Type} {R : α → β → Prop} {F : Source.Item → List α} {G : Script.Item → List β}

mutual

theorem forall₂_lowerStmt : ∀ {s : Source.Stmt},
    (∀ i ∈ s.items, ∀ {is}, Emits i is → Forall₂ R (F i) (is.flatMap G)) → ∀ σ : State,
    Forall₂ R (s.items.flatMap F) (((lowerStmt s).run σ).1.items.flatMap G)
  | .importModules entries, h, σ => by
    simpa [Source.Stmt.items, Script.Stmt.items, lowerImport] using
      h _ List.mem_cons_self (.importModules entries)
  | .importNames path names, h, σ => by
    simpa [Source.Stmt.items, Script.Stmt.items, Script.items, items_map_lowerNamed] using
      h _ List.mem_cons_self (.importNames σ.nextImport path names)
  | .expr e, h, σ => by
    simpa [Source.Stmt.items, Script.Stmt.items] using h _ List.mem_cons_self (.expr e)
  | .ret e, h, σ => by
    simpa [Source.Stmt.items, Script.Stmt.items] using h _ List.mem_cons_self (.expr e)
  | .assign targets value, h, σ => by
    simpa [Source.Stmt.items, Script.Stmt.items] using
      h _ List.mem_cons_self (.assign targets value)
  | .define f parameters body, h, σ => by
    simpa [Source.Stmt.items, Script.Stmt.items] using
      h _ List.mem_cons_self (.define f parameters body (σ.enter body))
  | .branch c t e, h, σ => by
    simp only [Source.Stmt.items, List.forall_mem_cons, List.forall_mem_append] at h
    obtain ⟨hc, ht, he⟩ := h
    simp only [run_lowerStmt_branch, Source.Stmt.items, Script.Stmt.items, List.flatMap_cons,
      List.flatMap_append]
    -- The condition is an item of its own; the two sides are lowered from different states.
    have hcond := hc (.condition c)
    rw [List.flatMap_singleton] at hcond
    exact List.rel_append hcond (List.rel_append (forall₂_lowerBody ht _) (forall₂_lowerBody he _))

theorem forall₂_lowerBody : ∀ {ss : List Source.Stmt},
    (∀ i ∈ Source.items ss, ∀ {is}, Emits i is → Forall₂ R (F i) (is.flatMap G)) → ∀ σ : State,
    Forall₂ R ((Source.items ss).flatMap F) ((Script.items ((lowerBody ss).run σ).1).flatMap G)
  | [], _, _ => by simp [Source.items, Script.items]
  | s :: ss, h, σ => by
    simp only [Source.items, List.forall_mem_append] at h
    simp only [run_lowerBody_cons, Source.items, Script.items, List.flatMap_append]
    exact List.rel_append (forall₂_lowerStmt h.1 _) (forall₂_lowerBody h.2 _)

end

theorem flatMap_lowerBody {G' : Script.Item → List α} (ss : List Source.Stmt)
    (h : ∀ i ∈ Source.items ss, ∀ {is}, Emits i is → is.flatMap G' = F i) (σ : State) :
    (Script.items ((lowerBody ss).run σ).1).flatMap G' = (Source.items ss).flatMap F := by
  have heach : ∀ i ∈ Source.items ss, ∀ {is}, Emits i is →
      Forall₂ Eq (F i) (is.flatMap G') := by
    intro i hi is his
    rw [List.forall₂_eq_eq_eq, h i hi his]
  have hall := forall₂_lowerBody heach σ
  rw [List.forall₂_eq_eq_eq] at hall
  exact hall.symm

theorem flatMap_lowerEntry_eq_nil (hG : ∀ e, G (.expr e) = []) {entries : List DottedImport} :
    (Script.items (entries.flatMap lowerEntry)).flatMap G = [] := by
  rw [List.flatMap_eq_nil_iff]
  intro i hi
  obtain ⟨e, rfl⟩ := exists_expr_of_mem_lowerEntry hi
  exact hG e

end Views

/-- `t` is what lowering makes of the scope `s`, from some state. -/
def Lowers (s : Source.Scope) (t : Script.Scope) : Prop :=
  ∃ σ : State, t = ⟨s.parameters,
    declarations s.body ++ ((lowerBody s.body).run σ).1 ++ s.shown.map exportName⟩

theorem lowers_lower (m : Source.Module) (exports : List String) :
    Lowers (m.scope exports) (lower m exports).tree.scope :=
  ⟨State.enter {} m.body, rfl⟩

theorem items_declarations (body : List Source.Stmt) :
    Script.items (declarations body) = (declaredNames body).map (.var · none) :=
  Script.items_map_var _

theorem items_map_exportName (xs : List String) :
    Script.items (xs.map exportName) =
      xs.map fun x => .expr (.assignProperty (.name Prelude.exportsName) x (.name x)) :=
  Script.items_map_expr _ xs

/-- A view of a lowered scope: of its declarations, its body and the names it shows. -/
theorem Lowers.flatMap_items {s : Source.Scope} {t : Script.Scope} (h : Lowers s t) :
    ∃ σ : State, ∀ {β : Type} (G : Script.Item → List β), (Script.items t.body).flatMap G =
      (declaredNames s.body).flatMap (fun x => G (.var x none)) ++
        (Script.items ((lowerBody s.body).run σ).1).flatMap G ++
        s.shown.flatMap fun x =>
          G (.expr (.assignProperty (.name Prelude.exportsName) x (.name x))) := by
  obtain ⟨σ, rfl⟩ := h
  refine ⟨σ, fun G => ?_⟩
  simp only [Script.items_append, items_declarations, items_map_exportName, List.flatMap_append,
    List.flatMap_map]

theorem Lowers.functions {s : Source.Scope} {t : Script.Scope} (h : Lowers s t) :
    Forall₂ Lowers s.functions t.functions := by
  obtain ⟨σ, hitems⟩ := h.flatMap_items
  have hlowered : Forall₂ Lowers ((Source.items s.body).flatMap Source.Item.functions)
      ((Script.items ((lowerBody s.body).run σ).1).flatMap Script.Item.functions) := by
    refine forall₂_lowerBody (fun i _ is his => ?_) σ
    cases his with
    | importModules entries =>
      rw [flatMap_lowerEntry_eq_nil fun _ => rfl]
      exact .nil
    | importNames n path names => simp [Source.Item.functions, Script.Item.functions]
    | expr e => simp [Source.Item.functions, Script.Item.functions]
    | condition e => simp [Source.Item.functions, Script.Item.functions]
    | assign targets value => simp [Source.Item.functions, Script.Item.functions]
    | define f parameters body σ' =>
      simp only [Source.Item.functions, Script.Item.functions, List.flatMap_cons,
        List.flatMap_nil, List.append_nil]
      exact .cons ⟨σ', by simp⟩ .nil
  have hnone : ∀ names : List String, names.flatMap (fun _ => ([] : List Script.Scope)) = [] := by
    simp
  rw [Source.Scope.functions, Script.Scope.functions, hitems]
  simpa [Script.Item.functions, hnone] using hlowered

/-! ## Uses -/

section Uses

variable {p : Use → Bool}

mutual

theorem uses_lowerExpr (hp : ∀ x, ¬ IsPlain x → p (.read x) = false) : ∀ e : Source.Expr,
    (lowerExpr e).uses.filter p = (e.names.map .read).filter p
  | .name _ | .nothing | .bool _ | .int _ | .str _ => by
    simp only [lowerExpr, Script.Expr.uses, Source.Expr.names, List.map_cons, List.map_nil]
  | .list es => by
    simp only [lowerExpr, Script.Expr.uses, Source.Expr.names, uses_lowerExprs hp es]
  | .attr e a => by
    simp [lowerExpr, Prelude.readAttribute, Script.Expr.uses, Script.Expr.usesAll,
      Source.Expr.names, hp, uses_lowerExpr hp e]
  | .binary op l r => by
    simp [lowerExpr, Prelude.operation, Script.Expr.uses, Script.Expr.usesAll, Source.Expr.names,
      hp, uses_lowerExpr hp l, uses_lowerExpr hp r]
  | .call f es => by
    simp only [lowerExpr, Script.Expr.uses, Source.Expr.names, List.filter_append, List.map_append,
      uses_lowerExpr hp f, uses_lowerExprs hp es]

theorem uses_lowerExprs (hp : ∀ x, ¬ IsPlain x → p (.read x) = false) : ∀ es : List Source.Expr,
    (Script.Expr.usesAll (lowerExprs es)).filter p = ((Source.Expr.namesAll es).map .read).filter p
  | [] => by simp only [lowerExprs, Script.Expr.usesAll, Source.Expr.namesAll, List.map_nil]
  | e :: es => by
    simp only [lowerExprs, Script.Expr.usesAll, Source.Expr.namesAll, List.filter_append,
      List.map_append, uses_lowerExpr hp e, uses_lowerExprs hp es]

end

theorem uses_chain (targets : List String) (value : Script.Expr) :
    (chain targets value).uses = targets.map .write ++ value.uses := by
  induction targets with
  | nil => rfl
  | cons x targets ih =>
    show .write x :: (chain targets value).uses = _
    rw [ih, List.map_cons, List.cons_append]

variable (hp : ∀ x, ¬ IsPlain x → p (.read x) = false)

include hp

theorem uses_load (path : String) : (Prelude.load path).uses.filter p = [] := by
  simp [Prelude.load, Script.Expr.uses, Script.Expr.usesAll, hp]

theorem uses_loadBelow {x : String} : ∀ (parent : Script.Expr) (loaded parts : List String),
    parent.uses = [.read x] →
    (Script.items (loadBelow parent loaded parts)).flatMap (·.uses.filter p) =
      (parts.map fun _ => Use.read x).filter p
  | _, _, [], _ => by simp [loadBelow, Script.items]
  | parent, loaded, part :: parts, h => by
    have ih := uses_loadBelow (.property parent part) (loaded ++ [part]) parts h
    have hfirst : (Script.Expr.assignProperty parent part
        (Prelude.load (modulePath (loaded ++ [part])))).uses.filter p = [.read x].filter p := by
      rw [Script.Expr.uses, h, List.filter_append, uses_load hp, List.append_nil]
    rw [loadBelow, Script.items, Script.Stmt.items, List.singleton_append, List.flatMap_cons,
      Script.Item.uses_expr, hfirst, ih, ← List.filter_append, List.singleton_append, List.map_cons]

theorem uses_lowerEntry (entry : DottedImport) :
    (Script.items (lowerEntry entry)).flatMap (·.uses.filter p) = entry.uses.filter p := by
  obtain ⟨parts, asName⟩ := entry
  have hassign : ∀ x path,
      (Script.Expr.assign x (Prelude.load path)).uses.filter p = [.write x].filter p := by
    intro x path
    rw [Script.Expr.uses, ← List.singleton_append, List.filter_append, uses_load hp,
      List.append_nil]
  match asName, parts with
  | some x, parts =>
    simp only [lowerEntry, DottedImport.uses, Script.items, Script.Stmt.items, List.append_nil,
      List.flatMap_cons, List.flatMap_nil, Script.Item.uses_expr, hassign]
  | none, [] => rfl
  | none, part :: parts =>
    have hbelow := uses_loadBelow hp (x := part) (.name part) [part] parts rfl
    simp only [lowerEntry, DottedImport.uses, Script.items, Script.Stmt.items,
      List.singleton_append, List.flatMap_cons, Script.Item.uses_expr, hassign, hbelow]
    rw [← List.filter_append, List.singleton_append]

/-- An item uses the same variables once it is lowered. -/
theorem Emits.uses {i : Source.Item} {is : List Script.Item} (h : Emits i is) :
    is.flatMap (·.uses.filter p) = i.uses.filter p := by
  cases h with
  | importModules entries =>
    rw [Script.items_flatMap, List.flatMap_assoc, Source.Item.uses, List.filter_flatMap]
    exact List.flatMap_congr fun entry _ => uses_lowerEntry hp entry
  | importNames n path names =>
    rw [List.flatMap_cons, List.flatMap_map, Source.Item.uses, List.map_eq_flatMap,
      List.filter_flatMap, Script.Item.uses, uses_load hp, List.nil_append]
    refine List.flatMap_congr fun entry _ => ?_
    simp [Script.Item.uses, Script.Expr.uses, List.filter_cons, hp]
  | expr e => simp [Script.Item.uses, Source.Item.uses, uses_lowerExpr hp]
  | condition e =>
    simp [Script.Item.uses, Source.Item.uses, Prelude.truth, Script.Expr.uses,
      Script.Expr.usesAll, hp, uses_lowerExpr hp]
  | assign targets value =>
    simp [Script.Item.uses, Source.Item.uses, uses_chain, uses_lowerExpr hp]
  | define f parameters body σ => rfl

/-- A lowered scope uses the variables of its source, in order. -/
theorem Lowers.uses {s : Source.Scope} {t : Script.Scope} (h : Lowers s t) :
    t.uses.filter p = s.uses.filter p := by
  obtain ⟨σ, hitems⟩ := h.flatMap_items
  have hbody := flatMap_lowerBody s.body (fun i _ is his => Emits.uses hp his) σ
  have hshown : s.shown.flatMap (fun x => (Script.Item.expr
      (.assignProperty (.name Prelude.exportsName) x (.name x))).uses.filter p) =
      (s.shown.map .read).filter p := by
    rw [List.map_eq_flatMap, List.filter_flatMap]
    refine List.flatMap_congr fun x _ => ?_
    simp [Script.Item.uses, Script.Expr.uses, List.filter_cons, hp]
  rw [Script.Scope.uses, List.filter_flatMap, hitems, hbody, hshown, Source.Scope.uses,
    List.filter_append, List.filter_flatMap]
  simp [Script.Item.uses]

end Uses

end ScriptCompiler.Lowering
