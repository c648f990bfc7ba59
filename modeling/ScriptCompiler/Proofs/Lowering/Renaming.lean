import ScriptCompiler.Proofs.Lowering.Grammar
import ScriptCompiler.Proofs.Scopes.Resolution

/-!
# Renaming lowered code

`rename` renames the variables of a script. A renaming of temporaries spares all other names: the
plain ones, those of the prelude's functions and the exports object. What lowering emits without a
temporary is `Steady`: it stores in plain names only, and a renaming that spares such names leaves
it as it is. This is proved form by form, up to the declarations and the exports of a module.
-/

namespace ScriptCompiler

namespace Script

mutual

/-- The variables that a statement declares with a value, in the order they are printed and in its
functions too. -/
def Stmt.initialised : Stmt → List (String × Expr)
  | .run ss => initialisedOf ss
  | .function _ _ body => initialisedOf body
  | .var x (some e) => [(x, e)]
  | .expr _ | .ret _ | .var _ none => []
  | .branch _ t e => initialisedOf t ++ initialisedOf e

def initialisedOf : List Stmt → List (String × Expr)
  | [] => []
  | s :: ss => s.initialised ++ initialisedOf ss

end

/-- The variables that an expression stores in. -/
def Expr.assigned (e : Expr) : List String := e.uses.filterMap Use.written?

mutual

/-- The names that a statement binds in another way: declared with no value, assigned, of functions
and of their parameters. -/
def Stmt.bound : Stmt → List String
  | .run ss => boundOf ss
  | .expr e | .ret e | .var _ (some e) => e.assigned
  | .function f ps body => f :: (ps ++ boundOf body)
  | .var x none => [x]
  | .branch c t e => c.assigned ++ (boundOf t ++ boundOf e)

def boundOf : List Stmt → List String
  | [] => []
  | s :: ss => s.bound ++ boundOf ss

end

mutual

/-- The expression with its variables renamed. -/
def Expr.rename (f : String → String) : Expr → Expr
  | .name x => .name (f x)
  | .null => .null
  | .bool b => .bool b
  | .number n => .number n
  | .str s => .str s
  | .array es => .array (renameAll f es)
  | .property o p => .property (o.rename f) p
  | .call g es => .call (g.rename f) (renameAll f es)
  | .assign x v => .assign (f x) (v.rename f)
  | .assignProperty o p v => .assignProperty (o.rename f) p (v.rename f)

def Expr.renameAll (f : String → String) : List Expr → List Expr
  | [] => []
  | e :: es => e.rename f :: renameAll f es

end

mutual

/-- The statement with its variables renamed. -/
def Stmt.rename (f : String → String) : Stmt → Stmt
  | .run ss => .run (renameAll f ss)
  | .expr e => .expr (e.rename f)
  | .function g ps body => .function (f g) (ps.map f) (renameAll f body)
  | .ret e => .ret (e.rename f)
  | .var x none => .var (f x) none
  | .var x (some e) => .var (f x) (some (e.rename f))
  | .branch c t e => .branch (c.rename f) (renameAll f t) (renameAll f e)

def Stmt.renameAll (f : String → String) : List Stmt → List Stmt
  | [] => []
  | s :: ss => s.rename f :: renameAll f ss

end

theorem initialisedOf_append (ss us : List Stmt) :
    initialisedOf (ss ++ us) = initialisedOf ss ++ initialisedOf us := by
  induction ss with
  | nil => rfl
  | cons s ss ih => rw [List.cons_append, initialisedOf, initialisedOf, ih, List.append_assoc]

theorem boundOf_append (ss us : List Stmt) : boundOf (ss ++ us) = boundOf ss ++ boundOf us := by
  induction ss with
  | nil => rfl
  | cons s ss ih => rw [List.cons_append, boundOf, boundOf, ih, List.append_assoc]

theorem Stmt.renameAll_append (f : String → String) (ss us : List Stmt) :
    Stmt.renameAll f (ss ++ us) = Stmt.renameAll f ss ++ Stmt.renameAll f us := by
  induction ss with
  | nil => rfl
  | cons s ss ih => rw [List.cons_append, renameAll, renameAll, ih, List.cons_append]

theorem initialisedOf_singleton (s : Stmt) : initialisedOf [s] = s.initialised := by
  rw [initialisedOf, initialisedOf, List.append_nil]

theorem boundOf_singleton (s : Stmt) : boundOf [s] = s.bound := by
  rw [boundOf, boundOf, List.append_nil]

end Script

namespace Lowering

open Source (DottedImport namesOf)
open Script (initialisedOf boundOf)
open Script.Stmt (renameAll)

/-! ## Statements without temporaries -/

/-- A renaming that changes no name but temporaries. -/
structure Spares (f : String → String) : Prop where
  plain {x : String} : IsPlain x → f x = x
  function (g : Prelude.Function) : f g.name = g.name
  exports : f Prelude.exportsName = Prelude.exportsName

/-- An expression that has no temporary. -/
structure Steady (e : Script.Expr) : Prop where
  assigned : ∀ x ∈ e.assigned, IsPlain x
  renamed {f : String → String} : Spares f → e.rename f = e

/-- Statements that have no temporary. -/
structure SteadyAll (ss : List Script.Stmt) : Prop where
  initialised : initialisedOf ss = []
  bound : ∀ x ∈ boundOf ss, IsPlain x
  renamed {f : String → String} : Spares f → renameAll f ss = ss

theorem SteadyAll.nil : SteadyAll [] := ⟨rfl, nofun, fun _ => rfl⟩

theorem SteadyAll.append {ss us : List Script.Stmt} (hss : SteadyAll ss) (hus : SteadyAll us) :
    SteadyAll (ss ++ us) where
  initialised := by rw [Script.initialisedOf_append, hss.initialised, hus.initialised]; rfl
  bound := by
    rw [Script.boundOf_append, List.forall_mem_append]
    exact ⟨hss.bound, hus.bound⟩
  renamed hf := by rw [Script.Stmt.renameAll_append, hss.renamed hf, hus.renamed hf]

theorem SteadyAll.single {s : Script.Stmt} (hinitialised : s.initialised = [])
    (hbound : ∀ x ∈ s.bound, IsPlain x)
    (hrenamed : ∀ {f : String → String}, Spares f → s.rename f = s) : SteadyAll [s] where
  initialised := by rw [Script.initialisedOf_singleton, hinitialised]
  bound := by
    rw [Script.boundOf_singleton]
    exact hbound
  renamed hf := by rw [renameAll, renameAll, hrenamed hf]

theorem SteadyAll.expr {e : Script.Expr} (h : Steady e) : SteadyAll [.expr e] :=
  .single rfl h.assigned fun hf => by rw [Script.Stmt.rename, h.renamed hf]

theorem SteadyAll.ret {e : Script.Expr} (h : Steady e) : SteadyAll [.ret e] :=
  .single rfl h.assigned fun hf => by rw [Script.Stmt.rename, h.renamed hf]

theorem SteadyAll.run {ss : List Script.Stmt} (h : SteadyAll ss) : SteadyAll [.run ss] :=
  .single h.initialised h.bound fun hf => by rw [Script.Stmt.rename, h.renamed hf]

theorem SteadyAll.var {x : String} (h : IsPlain x) : SteadyAll [.var x none] :=
  .single rfl (fun _ hy => List.mem_singleton.mp hy ▸ h) fun hf => by
    rw [Script.Stmt.rename, hf.plain h]

/-! ## Expressions -/

mutual

theorem rename_lowerExpr {f : String → String} (hf : Spares f) : ∀ {e : Source.Expr},
    (∀ x ∈ e.names, IsPlain x) → (lowerExpr e).rename f = lowerExpr e
  | .name x, h => by
    rw [lowerExpr, Script.Expr.rename, hf.plain (h x List.mem_cons_self)]
  | .nothing, _ | .bool _, _ | .int _, _ | .str _, _ => rfl
  | .list es, h => by
    rw [lowerExpr, Script.Expr.rename, rename_lowerExprs hf h]
  | .attr e a, h => by
    have hname : f Prelude.attributeName = Prelude.attributeName := hf.function .getAttr
    simp only [lowerExpr, Prelude.readAttribute, Script.Expr.rename, Script.Expr.renameAll, hname,
      rename_lowerExpr hf (e := e) h]
  | .binary op l r, h => by
    rw [Source.Expr.names, List.forall_mem_append] at h
    have hname : f (Prelude.operatorName op) = Prelude.operatorName op := hf.function (.operator op)
    simp only [lowerExpr, Prelude.operation, Script.Expr.rename, Script.Expr.renameAll, hname,
      rename_lowerExpr hf h.1, rename_lowerExpr hf h.2]
  | .call g es, h => by
    rw [Source.Expr.names, List.forall_mem_append] at h
    rw [lowerExpr, Script.Expr.rename, rename_lowerExpr hf h.1, rename_lowerExprs hf h.2]

theorem rename_lowerExprs {f : String → String} (hf : Spares f) : ∀ {es : List Source.Expr},
    (∀ x ∈ Source.Expr.namesAll es, IsPlain x) →
    Script.Expr.renameAll f (lowerExprs es) = lowerExprs es
  | [], _ => rfl
  | e :: es, h => by
    rw [Source.Expr.namesAll, List.forall_mem_append] at h
    rw [lowerExprs, Script.Expr.renameAll, rename_lowerExpr hf h.1, rename_lowerExprs hf h.2]

end

/-- A lowered expression stores in no variable. -/
theorem assigned_lowerExpr (e : Source.Expr) : (lowerExpr e).assigned = [] := by
  rw [Script.Expr.assigned, List.filterMap_eq_nil_iff]
  intro u hu
  have hreads : (e.names.map Use.read).filter (·.written?.isSome) = [] := by
    simp [List.filter_eq_nil_iff, Use.written?]
  have hfilter := uses_lowerExpr (p := (·.written?.isSome)) (fun _ _ => rfl) e
  rw [hreads, List.filter_eq_nil_iff] at hfilter
  simpa using hfilter u hu

theorem steady_lowerExpr {e : Source.Expr} (h : ∀ x ∈ e.names, IsPlain x) :
    Steady (lowerExpr e) where
  assigned := by simp [assigned_lowerExpr]
  renamed hf := rename_lowerExpr hf h

theorem steady_truth {e : Script.Expr} (h : Steady e) : Steady (Prelude.truth e) where
  assigned := by
    have huses : (Prelude.truth e).assigned = e.assigned := by
      simp [Script.Expr.assigned, Prelude.truth, Script.Expr.uses, Script.Expr.usesAll,
        List.filterMap_cons, Use.written?]
    rw [huses]
    exact h.assigned
  renamed {f} hf := by
    have hname : f Prelude.boolName = Prelude.boolName := hf.function .truth
    simp only [Prelude.truth, Script.Expr.rename, Script.Expr.renameAll, hname, h.renamed hf]

theorem steady_load (path : String) : Steady (Prelude.load path) where
  assigned := by
    simp [Script.Expr.assigned, Prelude.load, Script.Expr.uses, Script.Expr.usesAll, Use.written?]
  renamed {f} hf := by
    have hname : f Prelude.loadName = Prelude.loadName := hf.function .load
    simp only [Prelude.load, Script.Expr.rename, Script.Expr.renameAll, hname]

theorem Steady.assign {x : String} {v : Script.Expr} (hx : IsPlain x) (hv : Steady v) :
    Steady (.assign x v) where
  assigned := by
    rw [Script.Expr.assigned, Script.Expr.uses]
    exact List.forall_mem_cons.mpr ⟨hx, hv.assigned⟩
  renamed hf := by rw [Script.Expr.rename, hf.plain hx, hv.renamed hf]

theorem Steady.assignProperty {o v : Script.Expr} (ho : Steady o) (p : String) (hv : Steady v) :
    Steady (.assignProperty o p v) where
  assigned := by
    rw [Script.Expr.assigned, Script.Expr.uses, List.filterMap_append, List.forall_mem_append]
    exact ⟨ho.assigned, hv.assigned⟩
  renamed hf := by rw [Script.Expr.rename, ho.renamed hf, hv.renamed hf]

theorem Steady.property {o : Script.Expr} (ho : Steady o) (p : String) :
    Steady (.property o p) where
  assigned := ho.assigned
  renamed hf := by rw [Script.Expr.rename, ho.renamed hf]

theorem Steady.name {x : String} (hx : IsPlain x) : Steady (.name x) where
  assigned := nofun
  renamed hf := by rw [Script.Expr.rename, hf.plain hx]

theorem steady_chain {value : Script.Expr} (hvalue : Steady value) : ∀ {targets : List String},
    (∀ x ∈ targets, IsPlain x) → Steady (chain targets value)
  | [], _ => hvalue
  | x :: targets, h => by
    rw [List.forall_mem_cons] at h
    exact .assign h.1 (steady_chain hvalue h.2)

/-! ## Imports, declarations and exports -/

theorem steadyAll_loadBelow : ∀ {parts loaded : List String} {parent : Script.Expr},
    Steady parent → SteadyAll (loadBelow parent loaded parts)
  | [], _, _, _ => .nil
  | part :: _, _, _, hparent =>
    (SteadyAll.expr (hparent.assignProperty part (steady_load _))).append
      (steadyAll_loadBelow (hparent.property part))

theorem steadyAll_lowerEntry (entry : DottedImport) (h : ∀ x ∈ entry.bound?, IsPlain x) :
    SteadyAll (lowerEntry entry) := by
  obtain ⟨parts, asName⟩ := entry
  match asName, parts with
  | some x, parts => exact .expr (.assign (h x rfl) (steady_load _))
  | none, [] => exact .nil
  | none, part :: parts =>
    have hpart : IsPlain part := h part rfl
    exact (SteadyAll.expr (.assign hpart (steady_load _))).append
      (steadyAll_loadBelow (.name hpart))

theorem steadyAll_entries : ∀ {entries : List DottedImport},
    (∀ x ∈ entries.filterMap DottedImport.bound?, IsPlain x) →
    SteadyAll (entries.flatMap lowerEntry)
  | [], _ => .nil
  | entry :: entries, h => by
    rw [DottedImport.forall_bound_cons] at h
    exact (steadyAll_lowerEntry entry h.1).append (steadyAll_entries h.2)

theorem steadyAll_vars : ∀ {names : List String}, (∀ x ∈ names, IsPlain x) →
    SteadyAll (names.map (.var · none))
  | [], _ => .nil
  | x :: names, h => by
    rw [List.forall_mem_cons] at h
    exact (SteadyAll.var h.1).append (steadyAll_vars h.2)

theorem steadyAll_declarations {body : List Source.Stmt} (h : ∀ x ∈ namesOf body, IsPlain x) :
    SteadyAll (declarations body) :=
  steadyAll_vars fun x hx => h x (Source.mem_namesOf_of_mem_declaredNames hx)

theorem steadyAll_exports : ∀ {exports : List String}, (∀ x ∈ exports, IsPlain x) →
    SteadyAll (exports.map exportName)
  | [], _ => .nil
  | x :: exports, h => by
    rw [List.forall_mem_cons] at h
    have hobject : Steady (.name Prelude.exportsName) := ⟨nofun, fun hf => by
      rw [Script.Expr.rename, hf.exports]⟩
    exact (SteadyAll.expr (hobject.assignProperty x (.name h.1))).append (steadyAll_exports h.2)

end Lowering

end ScriptCompiler
