import ScriptCompiler.Proofs.Lowering.Grammar
import ScriptCompiler.Proofs.Prelude.Operators
import ScriptCompiler.Proofs.Scopes.Resolution

/-!
# How lowered code uses the prelude

The grammar of lowered code says where a function of the prelude may be called. How often it is
called is a count: once for every attribute, and for an operator once for every place where the
source applies it (`reads_lower`). `UsesPrelude` says of a script that it is written against the
prelude and against nothing else; the script of every module is (`lowering_uses_prelude`).
-/

namespace ScriptCompiler

/-! ## Parts of a source -/

namespace Source

mutual

/-- The parts of an expression, the expression first. -/
def Expr.nodes : Expr → List Expr
  | .name x => [.name x]
  | .nothing => [.nothing]
  | .bool b => [.bool b]
  | .int n => [.int n]
  | .str s => [.str s]
  | .list es => .list es :: Expr.nodesAll es
  | .attr e a => .attr e a :: e.nodes
  | .binary op l r => .binary op l r :: (l.nodes ++ r.nodes)
  | .call f es => .call f es :: (f.nodes ++ Expr.nodesAll es)

def Expr.nodesAll : List Expr → List Expr
  | [] => []
  | e :: es => e.nodes ++ Expr.nodesAll es

end

mutual

/-- The expressions of a statement at every depth, in its functions too. -/
def Stmt.nodes : Stmt → List Expr
  | .importModules _ | .importNames _ _ => []
  | .expr e | .ret e | .assign _ e => e.nodes
  | .define _ _ body => nodesOf body
  | .branch c t e => c.nodes ++ (nodesOf t ++ nodesOf e)

def nodesOf : List Stmt → List Expr
  | [] => []
  | s :: ss => s.nodes ++ nodesOf ss

end

def Expr.isAttr : Expr → Bool
  | .attr _ _ => true
  | _ => false

def Expr.isBinary (op : BinaryOp) : Expr → Bool
  | .binary op' _ _ => op' = op
  | _ => false

end Source

namespace Lowering

open Script (Place Site reads sitesInRun sitesEach)
open Prelude (Function)

/-! ## How often a function is called -/

/-- The function of the prelude that a part of a source expression is lowered to a call of. -/
def function? : Source.Expr → Option Function
  | .attr _ _ => some .getAttr
  | .binary op _ _ => some (.operator op)
  | _ => none

section Calls

variable {f : Function} {before : List Script.Stmt}

theorem ne_name_of_isPlain {x : String} (hx : IsPlain x) : x ≠ f.name := by
  rintro rfl
  exact f.not_isPlain_name hx

mutual

theorem reads_lowerExpr : ∀ {e : Source.Expr}, (∀ x ∈ e.names, IsPlain x) → ∀ {place : Place},
    reads f.name ((lowerExpr e).sites before place) = e.nodes.countP (function? · = some f)
  | .name x, h, place => by
    have hx : x ≠ f.name := ne_name_of_isPlain (h x List.mem_cons_self)
    simp [lowerExpr, Script.Expr.sites, Source.Expr.nodes, function?, Script.Expr.isName, hx]
  | .nothing, _, _ | .bool _, _, _ | .int _, _, _ | .str _, _, _ => by
    simp [lowerExpr, Script.Expr.sites, Source.Expr.nodes, function?, Script.Expr.isName]
  | .list es, h, place => by
    rw [Source.Expr.names] at h
    simp [lowerExpr, Script.Expr.sites, Source.Expr.nodes, function?, Script.Expr.isName,
      reads_lowerExprs h]
  | .attr e a, h, place => by
    rw [Source.Expr.names] at h
    have hname : Prelude.attributeName = f.name ↔ .getAttr = f := Function.name_inj (f := .getAttr)
    simp [lowerExpr, Prelude.readAttribute, Script.Expr.sites, Script.Expr.sitesAll,
      Source.Expr.nodes, List.countP_cons, function?, Script.Expr.isName, hname, reads_lowerExpr h]
  | .binary op l r, h, place => by
    rw [Source.Expr.names, List.forall_mem_append] at h
    have hname : Prelude.operatorName op = f.name ↔ .operator op = f :=
      Function.name_inj (f := .operator op)
    simp [lowerExpr, Prelude.operation, Script.Expr.sites, Script.Expr.sitesAll,
      Source.Expr.nodes, List.countP_cons, function?, Script.Expr.isName, hname,
      reads_lowerExpr h.1, reads_lowerExpr h.2]
  | .call g es, h, place => by
    rw [Source.Expr.names, List.forall_mem_append] at h
    simp [lowerExpr, Script.Expr.sites, Source.Expr.nodes, function?, Script.Expr.isName,
      reads_lowerExpr h.1, reads_lowerExprs h.2]

theorem reads_lowerExprs : ∀ {es : List Source.Expr},
    (∀ x ∈ Source.Expr.namesAll es, IsPlain x) → ∀ {place : Place},
    reads f.name (Script.Expr.sitesAll before place (lowerExprs es)) =
      (Source.Expr.nodesAll es).countP (function? · = some f)
  | [], _, _ => by simp [lowerExprs, Script.Expr.sitesAll, Source.Expr.nodesAll]
  | e :: es, h, place => by
    rw [Source.Expr.namesAll, List.forall_mem_append] at h
    simp [lowerExprs, Script.Expr.sitesAll, Source.Expr.nodesAll, reads_lowerExpr h.1,
      reads_lowerExprs h.2]

end

theorem reads_chain (x : String) (value : Script.Expr) {k : Nat}
    (hvalue : ∀ {place : Place}, reads x (value.sites before place) = k) :
    ∀ (targets : List String) {place : Place},
    reads x ((chain targets value).sites before place) = k
  | [], _ => hvalue
  | y :: targets, place => by
    have ih : reads x ((chain targets value).sites before .value) = k :=
      reads_chain x value hvalue targets
    show reads x ((Script.Expr.assign y (chain targets value)).sites before place) = k
    simp [Script.Expr.sites, Script.Expr.isName, ih]

mutual

theorem reads_lowerStmt (htruth : f ≠ .truth) (hload : f ≠ .load) : ∀ {s : Source.Stmt},
    (∀ x ∈ s.names, IsPlain x) → ∀ (σ : State) (before : List Script.Stmt),
    reads f.name (((lowerStmt s).run σ).1.sites before) = s.nodes.countP (function? · = some f)
  | .importModules entries, h, σ, before => by
    rw [run_lowerStmt_importModules]
    exact (allAllowed_lowerImport h before).reads_eq_zero hload
  | .importNames path names, h, σ, before => by
    rw [run_lowerStmt_importNames, run_lowerImportNames]
    exact (allAllowed_importRun h _ _ before).reads_eq_zero hload
  | .expr e, h, σ, before => by
    rw [run_lowerStmt_expr, Script.Stmt.sites, Source.Stmt.nodes]
    exact reads_lowerExpr h
  | .ret e, h, σ, before => by
    rw [run_lowerStmt_ret, Script.Stmt.sites, Source.Stmt.nodes]
    exact reads_lowerExpr h
  | .assign targets value, h, σ, before => by
    rw [Source.Stmt.names, List.forall_mem_append] at h
    rw [run_lowerStmt_assign, Script.Stmt.sites, Source.Stmt.nodes]
    exact reads_chain _ _ (reads_lowerExpr h.2) targets
  | .define g parameters body, h, σ, before => by
    rw [Source.Stmt.names, List.forall_mem_append] at h
    rw [run_lowerStmt_define, Script.Stmt.sites, Script.sitesEach_append, sitesEach_declarations,
      List.nil_append, Source.Stmt.nodes]
    exact reads_lowerBody htruth hload h.2 _
  | .branch c t e, h, σ, before => by
    rw [Source.Stmt.names, List.forall_mem_append, List.forall_mem_append] at h
    obtain ⟨⟨hc, ht⟩, he⟩ := h
    have hname : Prelude.boolName ≠ f.name := fun heq =>
      htruth (Function.name_inj (f := .truth).mp heq).symm
    simp [Script.Stmt.sites, Source.Stmt.nodes, Prelude.truth, Script.Expr.sites,
      Script.Expr.sitesAll, Script.Expr.isName, hname, reads_lowerExpr hc,
      reads_lowerBody htruth hload ht, reads_lowerBody htruth hload he]

theorem reads_lowerBody (htruth : f ≠ .truth) (hload : f ≠ .load) : ∀ {ss : List Source.Stmt},
    (∀ x ∈ Source.namesOf ss, IsPlain x) → ∀ σ : State,
    reads f.name (sitesEach ((lowerBody ss).run σ).1) =
      (Source.nodesOf ss).countP (function? · = some f)
  | [], _, _ => by simp [sitesEach, Source.nodesOf]
  | s :: ss, h, σ => by
    rw [Source.namesOf, List.forall_mem_append] at h
    simp [sitesEach, Source.nodesOf, reads_lowerStmt htruth hload h.1,
      reads_lowerBody htruth hload h.2]

end

theorem reads_sitesInRun (htruth : f ≠ .truth) (hload : f ≠ .load) : ∀ {ss : List Source.Stmt},
    (∀ x ∈ Source.namesOf ss, IsPlain x) → ∀ (σ : State) (before : List Script.Stmt),
    reads f.name (sitesInRun before ((lowerBody ss).run σ).1) =
      (Source.nodesOf ss).countP (function? · = some f)
  | [], _, _, _ => by simp [sitesInRun, Source.nodesOf]
  | s :: ss, h, σ, before => by
    rw [Source.namesOf, List.forall_mem_append] at h
    simp [sitesInRun, Source.nodesOf, reads_lowerStmt htruth hload h.1,
      reads_sitesInRun htruth hload h.2]

end Calls

/-! ## Modules -/

/-- A lowered module before its exports. -/
def front (body : List Source.Stmt) : List Script.Stmt :=
  declarations body ++ ((lowerBody body).run (State.enter {} body)).1

section Modules

variable {m : Source.Module} {exports : List String}

theorem allAllowed_front {body : List Source.Stmt} (h : ∀ x ∈ Source.namesOf body, IsPlain x) :
    AllAllowed Anything (sitesInRun [] (front body)) := by
  rw [front, Script.sitesInRun_append, sitesInRun_declarations, List.nil_append]
  exact Script.forall_sitesInRun fun s hs earlier _ => allAllowed_lowerBody h _ s hs earlier

theorem reads_front {body : List Source.Stmt} (h : ∀ x ∈ Source.namesOf body, IsPlain x)
    {f : Function} (htruth : f ≠ .truth) (hload : f ≠ .load) :
    reads f.name (sitesInRun [] (front body)) =
      (Source.nodesOf body).countP (function? · = some f) := by
  rw [front, Script.sitesInRun_append, sitesInRun_declarations, List.nil_append]
  exact reads_sitesInRun htruth hload h _ _

/-- The sites of the exports. -/
theorem sites_exportName (before : List Script.Stmt) (x : String) :
    (exportName x).sites before =
      [⟨before, .statement, .assignProperty (.name Prelude.exportsName) x (.name x)⟩,
        ⟨before, .target x (.name x), .name Prelude.exportsName⟩, ⟨before, .value, .name x⟩] := by
  simp [exportName, Script.Stmt.sites, Script.Expr.sites]

theorem reads_exports (f : Function) (h : ∀ x ∈ exports, IsPlain x) (before : List Script.Stmt) :
    reads f.name (sitesInRun before (exports.map exportName)) = 0 := by
  induction exports generalizing before with
  | nil => rfl
  | cons x exports ih =>
    rw [List.forall_mem_cons] at h
    have hx : x ≠ f.name := ne_name_of_isPlain h.1
    have hexports : Prelude.exportsName ≠ f.name := f.name_ne_exportsName.symm
    simp [sitesInRun, sites_exportName, Script.Expr.isName, hx, hexports, ih h.2]

theorem sites_lower : (lower m exports).tree.sites [] =
    sitesInRun [] (front m.body) ++ sitesInRun (front m.body) (exports.map exportName) := by
  rw [lower_tree, Script.Stmt.sites, Script.sitesInRun_append]
  rfl

theorem plain_module (hm : (m.scope exports).Plain) :
    (∀ x ∈ Source.namesOf m.body, IsPlain x) ∧ ∀ x ∈ exports, IsPlain x :=
  List.forall_mem_append.mp hm

/-- Every site of a lowered module is allowed but the exports object, which stands where a name is
shown. -/
theorem allowed_or_exports (hm : (m.scope exports).Plain) :
    ∀ site ∈ (lower m exports).tree.sites [], Allowed Anything site.before site.place site.expr ∨
      (∃ x, site.place = .target x (.name x)) ∧ site.expr = .name Prelude.exportsName := by
  obtain ⟨hbody, hexports⟩ := plain_module hm
  rw [sites_lower, List.forall_mem_append]
  refine ⟨fun site hsite => .inl (allAllowed_front hbody site hsite),
    Script.forall_sitesInRun fun s hs earlier _ => ?_⟩
  obtain ⟨x, hx, rfl⟩ := List.mem_map.mp hs
  rw [sites_exportName, List.forall_mem_cons, List.forall_mem_cons, List.forall_mem_singleton]
  exact ⟨.inl (.free trivial nofun), .inr ⟨⟨x, rfl⟩, rfl⟩, .inl (.plain (hexports x hx) nofun)⟩

theorem allowed_of_expr (hm : (m.scope exports).Plain) {site : Site}
    (hsite : site ∈ (lower m exports).tree.sites []) {e : Script.Expr} (he : site.expr = e)
    (hne : e ≠ .name Prelude.exportsName) : Allowed Anything site.before site.place e := by
  subst he
  exact (allowed_or_exports hm site hsite).resolve_right fun hexports => hne hexports.2

theorem callee_of_name (hm : (m.scope exports).Plain) (f : Function) {site : Site}
    (hsite : site ∈ (lower m exports).tree.sites []) (hname : site.expr = .name f.name) :
    ∃ call arguments, site.place = .callee call arguments ∧ f.Takes call arguments := by
  have hne : Script.Expr.name f.name ≠ .name Prelude.exportsName := by
    simpa using f.name_ne_exportsName
  exact (allowed_of_expr hm hsite hname hne).of_function.2

theorem reads_lower (hm : (m.scope exports).Plain) {f : Function} (htruth : f ≠ .truth)
    (hload : f ≠ .load) : reads f.name ((lower m exports).tree.sites []) =
      (Source.nodesOf m.body).countP (function? · = some f) := by
  obtain ⟨hbody, hexports⟩ := plain_module hm
  rw [sites_lower, Script.reads_append, reads_front hbody htruth hload, reads_exports f hexports,
    Nat.add_zero]

/-- A scope of a lowered module has no names of its own but plain ones and temporaries. -/
theorem isPlain_or_isTemporary_locals (hm : (m.scope exports).Plain) {t : Script.Scope}
    (ht : (lower m exports).tree.scope.Inside t) : ∀ x ∈ t.locals, IsPlain x ∨ IsTemporary x := by
  have hsource : ∃ s, s.Plain ∧ Lowers s t := by
    induction ht with
    | self => exact ⟨_, hm, lowers_lower m exports⟩
    | inner _ hmem ih =>
      obtain ⟨s, hs, hlowers⟩ := ih
      have hpairs := (List.forall₂_and_left _ _).mpr ⟨hs.functions, hlowers.functions⟩
      exact exists_of_forall₂ hpairs _ hmem
  obtain ⟨s, hs, hlowers⟩ := hsource
  intro x hx
  by_cases htemp : IsTemporary x
  · exact .inr htemp
  · exact .inl (hs.locals x ((hlowers.mem_locals_iff htemp).mp hx))

end Modules

/-- The script of a module uses the names that are not plain as the prelude provides for them. -/
structure UsesPrelude (m : Source.Module) (exports : List String) (tree : Script.Stmt) : Prop where
  /-- A branch tests the truth of a value. -/
  condition : ∀ site ∈ tree.sites [], site.place = .condition → ∃ e, site.expr = Prelude.truth e
  /-- Nothing else asks for the truth of a value. -/
  truthCall : ∀ site ∈ tree.sites [], site.expr = .name Prelude.boolName →
    ∃ e, site.place = .callee .condition [e]
  attributeCall : ∀ site ∈ tree.sites [], site.expr = .name Prelude.attributeName →
    ∃ call e a, site.place = .callee call [e, .str a]
  attributeCount : reads Prelude.attributeName (tree.sites []) =
    (Source.nodesOf m.body).countP Source.Expr.isAttr
  operatorCall : ∀ op, ∀ site ∈ tree.sites [], site.expr = .name (Prelude.operatorName op) →
    ∃ call l r, site.place = .callee call [l, r]
  operatorCount : ∀ op, reads (Prelude.operatorName op) (tree.sites []) =
    (Source.nodesOf m.body).countP (Source.Expr.isBinary op)
  /-- The prelude defines the operator once. -/
  defined : ∀ op, Prelude.occurrences (Prelude.definitionHead op).toList Prelude.text.toList = 1
  loadCall : ∀ site ∈ tree.sites [], site.expr = .name Prelude.loadName →
    ∃ call path, site.place = .callee call [.str path]
  /-- The exports object is used at the end only, once for every name that is shown. -/
  exported : ∃ front, tree = .run (front ++ exports.map exportName) ∧
    ∀ site ∈ (Script.Stmt.run front).sites [], site.expr ≠ .name Prelude.exportsName
  /-- A temporary is read for a property, after the statement of the same run that fills it. -/
  temporary : ∀ n, ∀ site ∈ tree.sites [], site.expr = .name (temporaryName n) →
    ∃ property p path, site.place = .object property p ∧
      .var (temporaryName n) (some (Prelude.load path)) ∈ site.before
  /-- No other property is read, but on the way to where an import stores a module. -/
  property : ∀ site ∈ tree.sites [], ∀ o p, site.expr = .property o p →
    (∃ n, o = .name (temporaryName n)) ∨ site.place.InTarget
  assigned : ∀ site ∈ tree.sites [], ∀ x v, site.expr = .assign x v → IsPlain x
  declared : ∀ t, tree.scope.Inside t → ∀ x ∈ t.locals, IsPlain x ∨ IsTemporary x

/-- Lowered code leaves to the prelude what the prelude is for, and uses its functions, the exports
object and the temporaries of imports in no other way. -/
theorem lowering_uses_prelude {m : Source.Module} {exports : List String}
    (hm : (m.scope exports).Plain) : UsesPrelude m exports (lower m exports).tree where
  condition site hsite hplace := by
    rcases allowed_or_exports hm site hsite with hallowed | ⟨⟨x, htarget⟩, -⟩
    · rw [hplace] at hallowed
      exact hallowed.of_condition
    · rw [hplace] at htarget
      cases htarget
  truthCall site hsite hname := by
    obtain ⟨call, arguments, hplace, rfl, e, rfl⟩ := callee_of_name hm .truth hsite hname
    exact ⟨e, hplace⟩
  attributeCall site hsite hname := by
    obtain ⟨call, arguments, hplace, e, a, rfl⟩ := callee_of_name hm .getAttr hsite hname
    exact ⟨call, e, a, hplace⟩
  attributeCount := by
    refine (reads_lower hm (f := .getAttr) nofun nofun).trans (List.countP_congr fun e _ => ?_)
    cases e <;> simp [function?, Source.Expr.isAttr]
  operatorCall op site hsite hname := by
    obtain ⟨call, arguments, hplace, l, r, rfl⟩ := callee_of_name hm (.operator op) hsite hname
    exact ⟨call, l, r, hplace⟩
  operatorCount op := by
    refine (reads_lower hm (f := .operator op) nofun nofun).trans
      (List.countP_congr fun e _ => ?_)
    cases e <;> simp [function?, Source.Expr.isBinary]
  defined := Prelude.occurrences_definitionHead
  loadCall site hsite hname := by
    obtain ⟨call, arguments, hplace, path, rfl⟩ := callee_of_name hm .load hsite hname
    exact ⟨call, path, hplace⟩
  exported := by
    refine ⟨front m.body, lower_tree m exports, fun site hsite => ?_⟩
    rw [Script.Stmt.sites] at hsite
    exact (allAllowed_front (plain_module hm).1 site hsite).ne_exportsName
  temporary n site hsite hname := by
    have hne : Script.Expr.name (temporaryName n) ≠ .name Prelude.exportsName := by
      simpa using (exportsName_ne_temporaryName n).symm
    exact (allowed_of_expr hm hsite hname hne).of_temporary
  property site hsite o p hproperty := (allowed_of_expr hm hsite hproperty nofun).of_property
  assigned site hsite x v hassign := (allowed_of_expr hm hsite hassign nofun).of_assign
  declared _ ht := isPlain_or_isTemporary_locals hm ht

/-- A module with every form that needs the prelude. An attribute and a string are spelled like a
function of the prelude. -/
def preludeSample : Source.Module where
  body := [.importModules [⟨["p", "q"], none⟩], .define "f" ["x"]
    [.importNames ["m"] [⟨"a", none⟩, ⟨"b", some "c"⟩],
      .branch (.attr (.name "x") "$tern.bool")
        [.ret (.binary .add (.attr (.name "a") "b") (.str "$tern.bool"))] []]]

theorem lowering_uses_prelude_sample :
    (preludeSample.scope ["f"]).Plain ∧
      UsesPrelude preludeSample ["f"] (lower preludeSample ["f"]).tree ∧
      reads Prelude.attributeName ((lower preludeSample ["f"]).tree.sites []) = 2 ∧
      reads (Prelude.operatorName .add) ((lower preludeSample ["f"]).tree.sites []) = 1 ∧
      reads (temporaryName 0) ((lower preludeSample ["f"]).tree.sites []) = 2 := by
  have hm : (preludeSample.scope ["f"]).Plain := by
    unfold Source.Scope.Plain
    decide
  have huses := lowering_uses_prelude hm
  refine ⟨hm, huses, huses.attributeCount.trans rfl, (huses.operatorCount .add).trans rfl, ?_⟩
  decide +kernel

end Lowering

end ScriptCompiler
