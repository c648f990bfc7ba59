import ScriptCompiler.Proofs.Lowering.Run
import ScriptCompiler.Proofs.Meaning.Evaluate

/-!
# The grammar of lowered code

The sites of a script are its expressions at every depth, each with its place in what is around it.
`Allowed` is the grammar of lowered code: it says which expression may stand in which place, and
where a name that is not plain may stand. Every site of a lowered statement is allowed, whatever
stands before the statement and whatever the number of the next temporary is
(`allAllowed_lowerStmt`).
-/

namespace ScriptCompiler

/-! ## Sites of a script -/

namespace Script

/-- How an expression stands in what is around it. -/
inductive Place where
  /-- A statement, a returned value or the first value of a variable. -/
  | statement
  | condition
  | element
  | argument
  /-- The callee of a call with these arguments, which has a place of its own. -/
  | callee (call : Place) (arguments : List Expr)
  /-- The object that a property is read from. -/
  | object (property : Place) (name : String)
  /-- The object that a value is stored in, as a property. -/
  | target (name : String) (value : Expr)
  /-- The value that is stored. -/
  | value

/-- On the way to an object that a value is stored in. -/
def Place.InTarget : Place → Prop
  | .target _ _ => True
  | .object property _ => property.InTarget
  | _ => False

theorem Place.InTarget.ne_condition {place : Place} (h : place.InTarget) : place ≠ .condition := by
  rintro rfl
  exact h

/-- An expression in its place, with the statements before it in the run that its statement is in,
if it is in one. -/
structure Site where
  before : List Stmt
  place : Place
  expr : Expr

mutual

/-- The parts of an expression in a place, from the outside in. -/
def Expr.sites (before : List Stmt) : Place → Expr → List Site
  | place, .name x => [⟨before, place, .name x⟩]
  | place, .null => [⟨before, place, .null⟩]
  | place, .bool b => [⟨before, place, .bool b⟩]
  | place, .number n => [⟨before, place, .number n⟩]
  | place, .str s => [⟨before, place, .str s⟩]
  | place, .array es => ⟨before, place, .array es⟩ :: Expr.sitesAll before .element es
  | place, .property o p => ⟨before, place, .property o p⟩ :: o.sites before (.object place p)
  | place, .call f es =>
    ⟨before, place, .call f es⟩ ::
      (f.sites before (.callee place es) ++ Expr.sitesAll before .argument es)
  | place, .assign x v => ⟨before, place, .assign x v⟩ :: v.sites before .value
  | place, .assignProperty o p v =>
    ⟨before, place, .assignProperty o p v⟩ ::
      (o.sites before (.target p v) ++ v.sites before .value)

def Expr.sitesAll (before : List Stmt) : Place → List Expr → List Site
  | _, [] => []
  | place, e :: es => e.sites before place ++ Expr.sitesAll before place es

end

mutual

/-- The sites of a statement that stands after others. -/
def Stmt.sites : List Stmt → Stmt → List Site
  | _, .run ss => sitesInRun [] ss
  | before, .expr e => e.sites before .statement
  | _, .function _ _ body => sitesEach body
  | before, .ret e => e.sites before .statement
  | _, .var _ none => []
  | before, .var _ (some e) => e.sites before .statement
  | before, .branch c t e => c.sites before .condition ++ (sitesEach t ++ sitesEach e)

/-- The sites of the statements of a run. -/
def sitesInRun : List Stmt → List Stmt → List Site
  | _, [] => []
  | before, s :: ss => s.sites before ++ sitesInRun (before ++ [s]) ss

/-- The sites of statements that are in no run. -/
def sitesEach : List Stmt → List Site
  | [] => []
  | s :: ss => s.sites [] ++ sitesEach ss

end

theorem sitesInRun_append (before ss us : List Stmt) :
    sitesInRun before (ss ++ us) = sitesInRun before ss ++ sitesInRun (before ++ ss) us := by
  induction ss generalizing before with
  | nil => simp [sitesInRun]
  | cons s ss ih => simp [sitesInRun, ih]

theorem sitesEach_append (ss us : List Stmt) :
    sitesEach (ss ++ us) = sitesEach ss ++ sitesEach us := by
  induction ss with
  | nil => rfl
  | cons s ss ih => simp [sitesEach, ih]

theorem forall_sitesInRun {P : Site → Prop} : ∀ {ss before : List Stmt},
    (∀ s ∈ ss, ∀ earlier, before ⊆ earlier → ∀ site ∈ s.sites earlier, P site) →
    ∀ site ∈ sitesInRun before ss, P site
  | [], _, _ => nofun
  | s :: ss, before, h => by
    rw [sitesInRun, List.forall_mem_append]
    refine ⟨h s List.mem_cons_self before (List.Subset.refl _), forall_sitesInRun ?_⟩
    intro s' hs' earlier hsub
    exact h s' (List.mem_cons_of_mem _ hs') earlier (List.append_subset.mp hsub).1

theorem forall_sitesEach {P : Site → Prop} : ∀ {ss : List Stmt},
    (∀ s ∈ ss, ∀ before, ∀ site ∈ s.sites before, P site) → ∀ site ∈ sitesEach ss, P site
  | [], _ => nofun
  | s :: ss, h => by
    rw [sitesEach, List.forall_mem_append]
    exact ⟨h s List.mem_cons_self [],
      forall_sitesEach fun s' hs' => h s' (List.mem_cons_of_mem _ hs')⟩

def Expr.isName (x : String) : Expr → Bool
  | .name y => y = x
  | _ => false

/-- How many of the sites are the variable `x`. -/
def reads (x : String) (sites : List Site) : Nat := sites.countP (·.expr.isName x)

@[simp]
theorem reads_nil (x : String) : reads x [] = 0 := rfl

@[simp]
theorem reads_append (x : String) (as bs : List Site) :
    reads x (as ++ bs) = reads x as + reads x bs := List.countP_append

@[simp]
theorem reads_cons (x : String) (site : Site) (sites : List Site) :
    reads x (site :: sites) = reads x sites + if site.expr.isName x then 1 else 0 :=
  List.countP_cons

end Script

/-! ## The grammar of lowered code -/

namespace Prelude

open Script (Place Expr)

/-- The calls that a function of the prelude is meant for. -/
def Function.Takes : Function → Place → List Expr → Prop
  | .truth, call, arguments => call = .condition ∧ ∃ e, arguments = [e]
  | .getAttr, _, arguments => ∃ e a, arguments = [e, .str a]
  | .operator _, _, arguments => ∃ l r, arguments = [l, r]
  | .load, _, arguments => ∃ path, arguments = [.str path]

theorem Function.name_inj {f g : Function} : f.name = g.name ↔ f = g := by
  refine ⟨fun h => ?_, congrArg _⟩
  have hfound := g.ofName?_name
  rw [← h, f.ofName?_name] at hfound
  exact Option.some.inj hfound

/-- The second character tells a function from the exports object and from a temporary. -/
theorem Function.second_name (f : Function) : f.name.toList[1]? = some 't' := by
  rcases f with _ | _ | op | _
  · decide
  · decide
  · cases op <;> decide
  · decide

theorem Function.name_ne_exportsName (f : Function) : f.name ≠ exportsName := by
  intro h
  have hsecond := f.second_name
  rw [h] at hsecond
  revert hsecond
  decide

end Prelude

namespace Lowering

open Script (Place Site reads sitesInRun sitesEach)
open Prelude (Function)
open Source (DottedImport NamedImport)

theorem second_temporaryName (n : UInt32) : (temporaryName n).toList[1]? = some 'i' := by
  simp [temporaryName, temporaryStem]

theorem name_ne_temporaryName (f : Function) (n : UInt32) : f.name ≠ temporaryName n := by
  intro h
  have hsecond := f.second_name
  rw [h, second_temporaryName] at hsecond
  cases hsecond

theorem exportsName_ne_temporaryName (n : UInt32) : Prelude.exportsName ≠ temporaryName n := by
  intro h
  have hsecond := second_temporaryName n
  rw [← h] at hsecond
  revert hsecond
  decide

/-- An expression that may stand everywhere but in a condition, if its parts may. -/
def IsFree : Script.Expr → Prop
  | .name _ | .property _ _ | .assign _ _ => False
  | _ => True

/-- What may stand in a place of lowered code that calls these functions of the prelude. -/
inductive Allowed (serves : Function → Prop) (before : List Script.Stmt) :
    Place → Script.Expr → Prop
  | free {place e} : IsFree e → place ≠ .condition → Allowed serves before place e
  | condition (e) : Allowed serves before .condition (Prelude.truth e)
  | plain {place x} : IsPlain x → place ≠ .condition → Allowed serves before place (.name x)
  | function {f call arguments} : serves f → f.Takes call arguments →
      Allowed serves before (.callee call arguments) (.name f.name)
  /-- A temporary is read once its module is loaded. -/
  | temporary {property p n path} :
      .var (temporaryName n) (some (Prelude.load path)) ∈ before →
      Allowed serves before (.object property p) (.name (temporaryName n))
  | member {place n p} : place ≠ .condition →
      Allowed serves before place (.property (.name (temporaryName n)) p)
  | onTheWay {place o p} : place.InTarget → Allowed serves before place (.property o p)
  | assign {place x v} : IsPlain x → place ≠ .condition →
      Allowed serves before place (.assign x v)

section Inversion

variable {serves : Function → Prop} {before : List Script.Stmt} {place : Place}

theorem Allowed.of_function {f : Function} (h : Allowed serves before place (.name f.name)) :
    serves f ∧ ∃ call arguments, place = .callee call arguments ∧ f.Takes call arguments := by
  generalize hx : f.name = x at h
  cases h with
  | free hfree => cases hfree
  | plain hplain => exact absurd (hx ▸ hplain) f.not_isPlain_name
  | function hserves htakes =>
    obtain rfl := Function.name_inj.mp hx
    exact ⟨hserves, _, _, rfl, htakes⟩
  | temporary => exact absurd hx (name_ne_temporaryName f _)

theorem Allowed.of_temporary {n : UInt32}
    (h : Allowed serves before place (.name (temporaryName n))) :
    ∃ property p path, place = .object property p ∧
      .var (temporaryName n) (some (Prelude.load path)) ∈ before := by
  generalize hx : temporaryName n = x at h
  cases h with
  | free hfree => cases hfree
  | plain hplain => exact absurd (hx ▸ hplain) (not_isPlain_temporaryName n)
  | function => exact absurd hx.symm (name_ne_temporaryName _ n)
  | temporary hdeclared => exact ⟨_, _, _, rfl, hdeclared⟩

theorem Allowed.ne_exportsName {e : Script.Expr} (h : Allowed serves before place e) :
    e ≠ .name Prelude.exportsName := by
  rintro rfl
  generalize hx : Prelude.exportsName = x at h
  cases h with
  | free hfree => cases hfree
  | plain hplain => exact absurd (hx ▸ hplain) Prelude.not_isPlain_exportsName
  | function => exact Function.name_ne_exportsName _ hx.symm
  | temporary => exact exportsName_ne_temporaryName _ hx

theorem Allowed.of_condition {e : Script.Expr} (h : Allowed serves before .condition e) :
    ∃ value, e = Prelude.truth value := by
  generalize hplace : Place.condition = place at h
  cases h with
  | condition value => exact ⟨value, rfl⟩
  | onTheWay hway =>
    rw [← hplace] at hway
    exact hway.elim
  | function => cases hplace
  | temporary => cases hplace
  | free _ hne | plain _ hne | member hne | assign _ hne => exact absurd hplace.symm hne

theorem Allowed.of_property {o : Script.Expr} {p : String}
    (h : Allowed serves before place (.property o p)) :
    (∃ n, o = .name (temporaryName n)) ∨ place.InTarget := by
  cases h with
  | free hfree => cases hfree
  | member => exact .inl ⟨_, rfl⟩
  | onTheWay hway => exact .inr hway

theorem Allowed.of_assign {x : String} {v : Script.Expr}
    (h : Allowed serves before place (.assign x v)) : IsPlain x := by
  cases h with
  | free hfree => cases hfree
  | assign hplain => exact hplain

theorem Allowed.mono {serves' : Function → Prop} {e : Script.Expr}
    (hsub : ∀ f, serves f → serves' f) (h : Allowed serves before place e) :
    Allowed serves' before place e := by
  cases h with
  | free hfree hne => exact .free hfree hne
  | condition value => exact .condition value
  | plain hplain hne => exact .plain hplain hne
  | function hserves htakes => exact .function (hsub _ hserves) htakes
  | temporary hdeclared => exact .temporary hdeclared
  | member hne => exact .member hne
  | onTheWay hway => exact .onTheWay hway
  | assign hplain hne => exact .assign hplain hne

end Inversion

/-- Sites that are all allowed. -/
def AllAllowed (serves : Function → Prop) (sites : List Site) : Prop :=
  ∀ site ∈ sites, Allowed serves site.before site.place site.expr

section Lists

variable {serves : Function → Prop}

@[simp]
theorem allAllowed_nil : AllAllowed serves [] := nofun

@[simp]
theorem allAllowed_cons {site : Site} {sites : List Site} : AllAllowed serves (site :: sites) ↔
    Allowed serves site.before site.place site.expr ∧ AllAllowed serves sites :=
  List.forall_mem_cons

@[simp]
theorem allAllowed_append {as bs : List Site} :
    AllAllowed serves (as ++ bs) ↔ AllAllowed serves as ∧ AllAllowed serves bs :=
  List.forall_mem_append

theorem AllAllowed.mono {serves' : Function → Prop} {sites : List Site}
    (hsub : ∀ f, serves f → serves' f) (h : AllAllowed serves sites) : AllAllowed serves' sites :=
  fun site hsite => (h site hsite).mono hsub

/-- A function that may not be called is not there. -/
theorem AllAllowed.reads_eq_zero {sites : List Site} (h : AllAllowed serves sites) {f : Function}
    (hf : ¬ serves f) : reads f.name sites = 0 := by
  rw [reads, List.countP_eq_zero]
  rintro ⟨earlier, place, e⟩ hsite hname
  obtain rfl : e = .name f.name := by
    cases e <;> simp_all [Script.Expr.isName]
  exact hf (h _ hsite).of_function.1

end Lists

/-! ## Lowered code is allowed -/

theorem sitesEach_declarations (body : List Source.Stmt) : sitesEach (declarations body) = [] := by
  rw [declarations]
  induction Source.declaredNames body with
  | nil => rfl
  | cons x xs ih => rw [List.map_cons, sitesEach, ih, Script.Stmt.sites, List.append_nil]

theorem sitesInRun_declarations (before : List Script.Stmt) (body : List Source.Stmt) :
    sitesInRun before (declarations body) = [] := by
  rw [declarations]
  induction Source.declaredNames body generalizing before with
  | nil => rfl
  | cons x xs ih => rw [List.map_cons, sitesInRun, ih, Script.Stmt.sites, List.append_nil]

/-- Any function of the prelude. -/
def Anything (_ : Function) : Prop := True

section Expressions

variable {before : List Script.Stmt}

-- The place is arbitrary: the parts of an expression stand in other places than the expression.
mutual

theorem allAllowed_lowerExpr : ∀ {e : Source.Expr}, (∀ x ∈ e.names, IsPlain x) →
    ∀ {place : Place}, place ≠ .condition →
    AllAllowed Anything ((lowerExpr e).sites before place)
  | .name x, h, place, hplace => by
    simp only [lowerExpr, Script.Expr.sites, allAllowed_cons, allAllowed_nil, and_true]
    exact .plain (h x List.mem_cons_self) hplace
  | .nothing, _, _, hplace | .bool _, _, _, hplace | .int _, _, _, hplace
  | .str _, _, _, hplace => by
    simp only [lowerExpr, Script.Expr.sites, allAllowed_cons, allAllowed_nil, and_true]
    exact .free trivial hplace
  | .list es, h, place, hplace => by
    simp only [lowerExpr, Script.Expr.sites, allAllowed_cons]
    exact ⟨.free trivial hplace, allAllowed_lowerExprs h nofun⟩
  | .attr e a, h, place, hplace => by
    rw [Source.Expr.names] at h
    simp only [lowerExpr, Prelude.readAttribute, Script.Expr.sites, Script.Expr.sitesAll,
      allAllowed_cons, allAllowed_append, allAllowed_nil, and_true]
    exact ⟨.free trivial hplace, .function (f := .getAttr) trivial ⟨_, _, rfl⟩,
      allAllowed_lowerExpr h nofun, .free trivial nofun⟩
  | .binary op l r, h, place, hplace => by
    rw [Source.Expr.names, List.forall_mem_append] at h
    simp only [lowerExpr, Prelude.operation, Script.Expr.sites, Script.Expr.sitesAll,
      allAllowed_cons, allAllowed_append, allAllowed_nil, and_true]
    exact ⟨.free trivial hplace, .function (f := .operator op) trivial ⟨_, _, rfl⟩,
      allAllowed_lowerExpr h.1 nofun, allAllowed_lowerExpr h.2 nofun⟩
  | .call f es, h, place, hplace => by
    rw [Source.Expr.names, List.forall_mem_append] at h
    simp only [lowerExpr, Script.Expr.sites, allAllowed_cons, allAllowed_append]
    exact ⟨.free trivial hplace, allAllowed_lowerExpr h.1 nofun, allAllowed_lowerExprs h.2 nofun⟩

theorem allAllowed_lowerExprs : ∀ {es : List Source.Expr},
    (∀ x ∈ Source.Expr.namesAll es, IsPlain x) → ∀ {place : Place}, place ≠ .condition →
    AllAllowed Anything (Script.Expr.sitesAll before place (lowerExprs es))
  | [], _, _, _ => by simp [lowerExprs, Script.Expr.sitesAll]
  | e :: es, h, place, hplace => by
    rw [Source.Expr.namesAll, List.forall_mem_append] at h
    simp only [lowerExprs, Script.Expr.sitesAll, allAllowed_append]
    exact ⟨allAllowed_lowerExpr h.1 hplace, allAllowed_lowerExprs h.2 hplace⟩

end

theorem allAllowed_truth {e : Script.Expr} (h : AllAllowed Anything (e.sites before .argument)) :
    AllAllowed Anything ((Prelude.truth e).sites before .condition) := by
  simp only [Prelude.truth, Script.Expr.sites, Script.Expr.sitesAll, allAllowed_cons,
    allAllowed_append, allAllowed_nil, and_true]
  exact ⟨.condition e, .function (f := .truth) trivial ⟨rfl, _, rfl⟩, h⟩

theorem allAllowed_chain {value : Script.Expr}
    (hvalue : ∀ {place : Place}, place ≠ .condition →
      AllAllowed Anything (value.sites before place)) :
    ∀ {targets : List String}, (∀ x ∈ targets, IsPlain x) → ∀ {place : Place}, place ≠ .condition →
    AllAllowed Anything ((chain targets value).sites before place)
  | [], _, _, hplace => hvalue hplace
  | x :: targets, h, place, hplace => by
    rw [List.forall_mem_cons] at h
    simp only [chain, List.foldr_cons, Script.Expr.sites, allAllowed_cons]
    exact ⟨.assign h.1 hplace, allAllowed_chain hvalue h.2 nofun⟩

end Expressions

/-- The one function that imports call. -/
def Loading (f : Function) : Prop := f = .load

theorem allAllowed_load (path : String) {before : List Script.Stmt} {place : Place}
    (hplace : place ≠ .condition) :
    AllAllowed Loading ((Prelude.load path).sites before place) := by
  simp only [Prelude.load, Script.Expr.sites, Script.Expr.sitesAll, allAllowed_cons,
    allAllowed_append, allAllowed_nil, and_true]
  exact ⟨.free trivial hplace, .function (f := .load) rfl ⟨_, rfl⟩, .free trivial nofun⟩

/-- Every module on the way is stored in the one before it, which `parent` reads. -/
theorem allAllowed_loadBelow : ∀ {parts : List String} {parent : Script.Expr}
    {loaded : List String},
    (∀ before, ∀ place : Place, place.InTarget → AllAllowed Loading (parent.sites before place)) →
    ∀ s ∈ loadBelow parent loaded parts, ∀ before, AllAllowed Loading (s.sites before)
  | [], _, _, _ => nofun
  | part :: parts, parent, loaded, h => by
    rw [loadBelow, List.forall_mem_cons]
    refine ⟨fun before => ?_, allAllowed_loadBelow fun before place hplace => ?_⟩
    · simp only [Script.Stmt.sites, Script.Expr.sites, allAllowed_cons, allAllowed_append]
      exact ⟨.free trivial nofun, h before _ trivial, allAllowed_load _ nofun⟩
    · simp only [Script.Expr.sites, allAllowed_cons]
      exact ⟨.onTheWay hplace, h before _ hplace⟩

theorem allAllowed_assign_load {x : String} (hx : IsPlain x) (path : String)
    (before : List Script.Stmt) :
    AllAllowed Loading ((Script.Stmt.expr (.assign x (Prelude.load path))).sites before) := by
  simp only [Script.Stmt.sites, Script.Expr.sites, allAllowed_cons]
  exact ⟨.assign hx nofun, allAllowed_load path nofun⟩

theorem allAllowed_lowerEntry {entry : DottedImport} (h : ∀ x ∈ entry.bound?, IsPlain x) :
    ∀ s ∈ lowerEntry entry, ∀ before, AllAllowed Loading (s.sites before) := by
  obtain ⟨parts, asName⟩ := entry
  match asName, parts with
  | some x, parts =>
    rw [lowerEntry, List.forall_mem_singleton]
    exact allAllowed_assign_load (h x rfl) _
  | none, [] => nofun
  | none, part :: parts =>
    have hpart : IsPlain part := h part rfl
    rw [lowerEntry, List.forall_mem_cons]
    refine ⟨allAllowed_assign_load hpart _, allAllowed_loadBelow fun before place hplace => ?_⟩
    simp only [Script.Expr.sites, allAllowed_cons, allAllowed_nil, and_true]
    exact .plain hpart hplace.ne_condition

theorem allAllowed_lowerImport {entries : List DottedImport}
    (h : ∀ x ∈ entries.filterMap DottedImport.bound?, IsPlain x) (before : List Script.Stmt) :
    AllAllowed Loading ((lowerImport entries).sites before) := by
  rw [lowerImport, Script.Stmt.sites]
  refine Script.forall_sitesInRun fun s hs earlier _ => ?_
  obtain ⟨entry, hentry, hs⟩ := List.mem_flatMap.mp hs
  refine allAllowed_lowerEntry (fun x hx => h x ?_) s hs earlier
  exact List.mem_filterMap.mpr ⟨entry, hentry, hx⟩

theorem allAllowed_importRun {names : List NamedImport}
    (h : ∀ x ∈ names.map NamedImport.bound, IsPlain x) (n : UInt32) (path : String)
    (before : List Script.Stmt) :
    AllAllowed Loading ((Script.Stmt.run (.var (temporaryName n) (some (Prelude.load path)) ::
      names.map (lowerNamed (temporaryName n)))).sites before) := by
  rw [Script.Stmt.sites, sitesInRun, allAllowed_append]
  refine ⟨allAllowed_load path nofun, Script.forall_sitesInRun fun s hs earlier hsub => ?_⟩
  obtain ⟨entry, hentry, rfl⟩ := List.mem_map.mp hs
  -- The load is the first statement of the run, so it is before every name that is read.
  have hdeclared : .var (temporaryName n) (some (Prelude.load path)) ∈ earlier :=
    hsub (List.mem_append_right _ List.mem_cons_self)
  have hbound := h _ (List.mem_map_of_mem hentry)
  show AllAllowed Loading _
  simp only [lowerNamed, Script.Stmt.sites, Script.Expr.sites, allAllowed_cons, allAllowed_nil,
    and_true]
  exact ⟨.assign hbound nofun, .member nofun, .temporary hdeclared⟩

mutual

/-- Every site of a lowered statement is allowed. -/
theorem allAllowed_lowerStmt : ∀ {s : Source.Stmt}, (∀ x ∈ s.names, IsPlain x) →
    ∀ (σ : State) (before : List Script.Stmt),
    AllAllowed Anything (((lowerStmt s).run σ).1.sites before)
  | .importModules entries, h, σ, before => by
    rw [run_lowerStmt_importModules]
    exact (allAllowed_lowerImport h before).mono fun _ _ => trivial
  | .importNames path names, h, σ, before => by
    rw [run_lowerStmt_importNames, run_lowerImportNames]
    exact (allAllowed_importRun h _ _ before).mono fun _ _ => trivial
  | .expr e, h, σ, before => by
    rw [run_lowerStmt_expr, Script.Stmt.sites]
    exact allAllowed_lowerExpr h nofun
  | .ret e, h, σ, before => by
    rw [run_lowerStmt_ret, Script.Stmt.sites]
    exact allAllowed_lowerExpr h nofun
  | .assign targets value, h, σ, before => by
    rw [Source.Stmt.names, List.forall_mem_append] at h
    rw [run_lowerStmt_assign, Script.Stmt.sites]
    exact allAllowed_chain (allAllowed_lowerExpr h.2) h.1 nofun
  | .define f parameters body, h, σ, before => by
    rw [Source.Stmt.names, List.forall_mem_append] at h
    rw [run_lowerStmt_define, Script.Stmt.sites, Script.sitesEach_append, sitesEach_declarations,
      List.nil_append]
    exact Script.forall_sitesEach (allAllowed_lowerBody h.2 _)
  | .branch c t e, h, σ, before => by
    rw [Source.Stmt.names, List.forall_mem_append, List.forall_mem_append] at h
    obtain ⟨⟨hc, ht⟩, he⟩ := h
    rw [run_lowerStmt_branch, Script.Stmt.sites, allAllowed_append, allAllowed_append]
    exact ⟨allAllowed_truth (allAllowed_lowerExpr hc nofun),
      Script.forall_sitesEach (allAllowed_lowerBody ht _),
      Script.forall_sitesEach (allAllowed_lowerBody he _)⟩

theorem allAllowed_lowerBody : ∀ {ss : List Source.Stmt}, (∀ x ∈ Source.namesOf ss, IsPlain x) →
    ∀ σ : State, ∀ s ∈ ((lowerBody ss).run σ).1, ∀ before, AllAllowed Anything (s.sites before)
  | [], _, _ => by simp
  | s :: ss, h, σ => by
    rw [Source.namesOf, List.forall_mem_append] at h
    rw [run_lowerBody_cons, List.forall_mem_cons]
    exact ⟨allAllowed_lowerStmt h.1 σ, allAllowed_lowerBody h.2 _⟩

end

end Lowering

end ScriptCompiler
