import ScriptCompiler.ScriptUnit
import ScriptCompiler.Proofs.Meaning.Evaluate
import ScriptCompiler.Proofs.Printing.Shown
import ScriptCompiler.Proofs.Scopes.Resolution

/-!
# The strings of a unit

The text of a unit after the prelude holds the strings of its module, as literals: the strings and
the attribute names of its expressions, and the paths of the modules that it imports. If every name
that it prints is quiet, nothing else in it opens a literal, so reading its literals gives back
these strings, in the order they are printed (`unit_literals`). What a string holds does not matter.
-/

namespace ScriptCompiler

namespace Source

open Lowering (modulePath)

mutual

/-- The strings of an expression, in the order they are printed. An attribute is named by a string
once it is lowered. -/
def Expr.strings : Expr → List String
  | .str s => [s]
  | .name _ | .nothing | .bool _ | .int _ => []
  | .list es => stringsAll es
  | .attr e a => e.strings ++ [a]
  | .binary _ l r => l.strings ++ r.strings
  | .call f es => f.strings ++ stringsAll es

def Expr.stringsAll : List Expr → List String
  | [] => []
  | e :: es => e.strings ++ stringsAll es

end

/-- The paths that an entry loads: one for each part, or the last one alone if it is renamed. -/
def DottedImport.paths (entry : DottedImport) : List String :=
  match entry.asName with
  | some _ => [modulePath entry.parts]
  | none => (List.range entry.parts.length).map fun i => modulePath (entry.parts.take (i + 1))

mutual

/-- The strings of a statement, in the order they are printed. -/
def Stmt.strings : Stmt → List String
  | .importModules entries => entries.flatMap DottedImport.paths
  | .importNames path _ => [modulePath path]
  | .expr e | .ret e | .assign _ e => e.strings
  | .define _ _ body => stringsOf body
  | .branch c t e => c.strings ++ (stringsOf t ++ stringsOf e)

def stringsOf : List Stmt → List String
  | [] => []
  | s :: ss => s.strings ++ stringsOf ss

end

/-- The parts that an entry prints as properties, each of the module before it. -/
def DottedImport.properties (entry : DottedImport) : List String :=
  match entry.asName with
  | some _ => []
  | none => entry.parts.tail

mutual

/-- The names that a statement prints as properties. -/
def Stmt.properties : Stmt → List String
  | .importModules entries => entries.flatMap DottedImport.properties
  | .importNames _ names => names.map NamedImport.name
  | .expr _ | .ret _ | .assign _ _ => []
  | .define _ _ body => propertiesOf body
  | .branch _ t e => propertiesOf t ++ propertiesOf e

def propertiesOf : List Stmt → List String
  | [] => []
  | s :: ss => s.properties ++ propertiesOf ss

end

end Source

namespace Lowering

open Source (DottedImport NamedImport declaredNames namesOf propertiesOf stringsOf)
open Script Text

/-! ## Expressions -/

theorem isQuiet_function (f : Prelude.Function) : isQuiet f.name = true := by
  rcases f with _ | _ | op | _
  · decide
  · decide
  · cases op <;> decide
  · decide

theorem shows_function (f : Prelude.Function) : (Script.Expr.name f.name).Shows [] :=
  .name (isQuiet_function f)

mutual

theorem shows_lowerExpr : ∀ {e : Source.Expr}, (∀ x ∈ e.names, isQuiet x = true) →
    (lowerExpr e).Shows e.strings
  | .name x, h => .name (h x List.mem_cons_self)
  | .nothing, _ => .null
  | .bool b, _ => .bool b
  | .int n, _ => .number n
  | .str s, _ => .str s
  | .list es, h => .array (showsAll_lowerExprs h)
  | .attr e a, h => by
    have harguments : Script.Expr.ShowsAll [lowerExpr e, .str a] (e.strings ++ [a]) :=
      .cons (shows_lowerExpr (e := e) h) (.cons (.str a) .nil)
    have hcall := Script.Expr.Shows.call (shows_function .getAttr) harguments
    exact hcall
  | .binary op l r, h => by
    rw [Source.Expr.names, List.forall_mem_append] at h
    have harguments := Script.Expr.ShowsAll.cons (shows_lowerExpr h.1)
      (.cons (shows_lowerExpr h.2) .nil)
    rw [List.append_nil] at harguments
    have hcall := Script.Expr.Shows.call (shows_function (.operator op)) harguments
    exact hcall
  | .call f es, h => by
    rw [Source.Expr.names, List.forall_mem_append] at h
    exact .call (shows_lowerExpr h.1) (showsAll_lowerExprs h.2)

theorem showsAll_lowerExprs : ∀ {es : List Source.Expr},
    (∀ x ∈ Source.Expr.namesAll es, isQuiet x = true) →
    Script.Expr.ShowsAll (lowerExprs es) (Source.Expr.stringsAll es)
  | [], _ => .nil
  | e :: es, h => by
    rw [Source.Expr.namesAll, List.forall_mem_append] at h
    exact .cons (shows_lowerExpr h.1) (showsAll_lowerExprs h.2)

end

theorem shows_load (path : String) : (Prelude.load path).Shows [path] :=
  .call (shows_function .load) (.cons (.str path) .nil)

theorem shows_truth {e : Script.Expr} {strings : List String} (h : e.Shows strings) :
    (Prelude.truth e).Shows strings := by
  have hcall := Script.Expr.Shows.call (shows_function .truth) (.cons h .nil)
  rwa [List.nil_append, List.append_nil] at hcall

theorem shows_chain {value : Script.Expr} {strings : List String} (hvalue : value.Shows strings) :
    ∀ {targets : List String}, (∀ x ∈ targets, isQuiet x = true) →
    (chain targets value).Shows strings
  | [], _ => hvalue
  | x :: targets, h => by
    rw [List.forall_mem_cons] at h
    exact .assign h.1 (shows_chain hvalue h.2)

/-! ## Imports -/

theorem isQuiet_temporaryName (n : UInt32) : isQuiet (temporaryName n) = true := by
  rw [isQuiet, temporaryName, String.toList_append, List.all_append, Bool.and_eq_true]
  refine ⟨by decide, List.all_eq_true.mpr fun c hc => isQuietChar_of_isDigit ?_⟩
  exact Nat.isDigit_of_mem_toDigits (by decide) (by decide) (Nat.toList_repr ▸ hc)

/-- The modules on the way of a dotted import. -/
theorem shows_loadBelow : ∀ {parts : List String} {parent : Script.Expr} (loaded : List String),
    parent.Shows [] → (∀ x ∈ parts, isQuiet x = true) →
    Script.Stmt.ShowsAll (loadBelow parent loaded parts)
      ((List.range parts.length).map fun i => modulePath (loaded ++ parts.take (i + 1)))
  | [], _, _, _, _ => .nil
  | part :: parts, parent, loaded, hparent, h => by
    rw [List.forall_mem_cons] at h
    have hbelow := shows_loadBelow (loaded ++ [part]) (.property hparent h.1) h.2
    have hfirst := Script.Stmt.Shows.expr
      (.assignProperty hparent h.1 (shows_load (modulePath (loaded ++ [part]))))
    rw [loadBelow, List.length_cons, List.range_succ_eq_map, List.map_cons, List.map_map]
    simpa [Function.comp_def] using Script.Stmt.ShowsAll.cons hfirst hbelow

theorem shows_lowerEntry {entry : DottedImport} (hbound : ∀ x ∈ entry.bound?, isQuiet x = true)
    (hproperties : ∀ x ∈ entry.properties, isQuiet x = true) :
    Script.Stmt.ShowsAll (lowerEntry entry) entry.paths := by
  obtain ⟨parts, asName⟩ := entry
  match asName, parts with
  | some x, parts => exact .cons (.expr (.assign (hbound x rfl) (shows_load _))) .nil
  | none, [] => exact .nil
  | none, part :: parts =>
    have hpart := hbound part rfl
    have hparts : ∀ x ∈ parts, isQuiet x = true := hproperties
    have hbelow := shows_loadBelow [part] (.name hpart) hparts
    have hfirst := Script.Stmt.Shows.expr (.assign hpart (shows_load (modulePath [part])))
    rw [lowerEntry, DottedImport.paths, List.length_cons, List.range_succ_eq_map, List.map_cons,
      List.map_map]
    simpa [Function.comp_def] using Script.Stmt.ShowsAll.cons hfirst hbelow

theorem shows_lowerImport : ∀ {entries : List DottedImport},
    (∀ x ∈ entries.filterMap DottedImport.bound?, isQuiet x = true) →
    (∀ x ∈ entries.flatMap DottedImport.properties, isQuiet x = true) →
    (lowerImport entries).Shows (entries.flatMap DottedImport.paths)
  | [], _, _ => .run .nil
  | entry :: entries, hbound, hproperties => by
    rw [DottedImport.forall_bound_cons] at hbound
    rw [List.flatMap_cons, List.forall_mem_append] at hproperties
    exact (shows_lowerEntry hbound.1 hproperties.1).append
      (shows_lowerImport hbound.2 hproperties.2)

theorem shows_lowerNamed {temporary : String} (ht : isQuiet temporary = true) :
    ∀ {names : List NamedImport}, (∀ x ∈ names.map NamedImport.bound, isQuiet x = true) →
    (∀ x ∈ names.map NamedImport.name, isQuiet x = true) →
    Script.Stmt.ShowsAll (names.map (lowerNamed temporary)) []
  | [], _, _ => .nil
  | entry :: names, hbound, hname => by
    rw [List.map_cons, List.forall_mem_cons] at hbound hname
    exact .cons (.expr (.assign hbound.1 (.property (.name ht) hname.1)))
      (shows_lowerNamed ht hbound.2 hname.2)

/-! ## Statements -/

theorem shows_declarations {body : List Source.Stmt} (h : ∀ x ∈ namesOf body, isQuiet x = true) :
    Script.Stmt.ShowsAll (declarations body) [] := by
  have hdeclared : ∀ x ∈ declaredNames body, isQuiet x = true := fun x hx =>
    h x (Source.mem_namesOf_of_mem_declaredNames hx)
  unfold declarations
  generalize declaredNames body = xs at hdeclared
  induction xs with
  | nil => exact .nil
  | cons x xs ih =>
    rw [List.forall_mem_cons] at hdeclared
    exact .cons (.var hdeclared.1) (ih hdeclared.2)

mutual

theorem shows_lowerStmt : ∀ {s : Source.Stmt}, (∀ x ∈ s.names, isQuiet x = true) →
    (∀ x ∈ s.properties, isQuiet x = true) → ∀ σ : State,
    ((lowerStmt s).run σ).1.Shows s.strings
  | .importModules entries, hn, hp, σ => by
    rw [run_lowerStmt_importModules]
    exact shows_lowerImport hn hp
  | .importNames path names, hn, hp, σ => by
    rw [run_lowerStmt_importNames, run_lowerImportNames]
    have htemporary := isQuiet_temporaryName σ.nextImport
    exact .run (.cons (.init htemporary (shows_load _)) (shows_lowerNamed htemporary hn hp))
  | .expr e, hn, _, σ => by
    rw [run_lowerStmt_expr]
    exact .expr (shows_lowerExpr hn)
  | .ret e, hn, _, σ => by
    rw [run_lowerStmt_ret]
    exact .ret (shows_lowerExpr hn)
  | .assign targets value, hn, _, σ => by
    rw [Source.Stmt.names, List.forall_mem_append] at hn
    rw [run_lowerStmt_assign]
    exact .expr (shows_chain (shows_lowerExpr hn.2) hn.1)
  | .define f parameters body, hn, hp, σ => by
    rw [Source.Stmt.names, List.cons_append, List.forall_mem_cons, List.forall_mem_append] at hn
    rw [run_lowerStmt_define]
    exact .function hn.1 hn.2.1
      ((shows_declarations hn.2.2).append (showsAll_lowerBody hn.2.2 hp _))
  | .branch c t e, hn, hp, σ => by
    rw [Source.Stmt.names, List.forall_mem_append, List.forall_mem_append] at hn
    rw [Source.Stmt.properties, List.forall_mem_append] at hp
    obtain ⟨⟨hc, ht⟩, he⟩ := hn
    rw [run_lowerStmt_branch]
    exact .branch (shows_truth (shows_lowerExpr hc)) (showsAll_lowerBody ht hp.1 _)
      (showsAll_lowerBody he hp.2 _)

theorem showsAll_lowerBody : ∀ {ss : List Source.Stmt}, (∀ x ∈ namesOf ss, isQuiet x = true) →
    (∀ x ∈ propertiesOf ss, isQuiet x = true) → ∀ σ : State,
    Script.Stmt.ShowsAll ((lowerBody ss).run σ).1 (stringsOf ss)
  | [], _, _, _ => by
    rw [run_lowerBody_nil]
    exact .nil
  | s :: ss, hn, hp, σ => by
    rw [namesOf, List.forall_mem_append] at hn
    rw [propertiesOf, List.forall_mem_append] at hp
    rw [run_lowerBody_cons]
    exact .cons (shows_lowerStmt hn.1 hp.1 σ) (showsAll_lowerBody hn.2 hp.2 _)

end

theorem showsAll_exports : ∀ {exports : List String}, (∀ x ∈ exports, isQuiet x = true) →
    Script.Stmt.ShowsAll (exports.map exportName) []
  | [], _ => .nil
  | x :: exports, h => by
    rw [List.forall_mem_cons] at h
    have hobject : isQuiet Prelude.exportsName = true := by decide
    exact .cons (.expr (.assignProperty (.name hobject) h.1 (.name h.1))) (showsAll_exports h.2)

/-- The text of a unit after the prelude has the strings of the module as its literals, in order,
and no control character, whatever the strings hold. -/
theorem unit_literals (m : Source.Module) (exports : List String)
    (h : ∀ x ∈ namesOf m.body ++ propertiesOf m.body ++ exports, isQuiet x = true) :
    ∃ body, unitText (lower m exports).tree = Prelude.text ++ body ∧
      literals? body.toList = some ((stringsOf m.body).map String.toList) ∧
      ∀ c ∈ body.toList, 0x20 ≤ c.toNat := by
  rw [List.forall_mem_append, List.forall_mem_append] at h
  obtain ⟨⟨hnames, hproperties⟩, hexports⟩ := h
  have hshows : (lower m exports).tree.Shows (stringsOf m.body) := by
    have hbody := (shows_declarations hnames).append
      (showsAll_lowerBody hnames hproperties (State.enter {} m.body))
    have hrun := hbody.append (showsAll_exports hexports)
    rw [List.nil_append, List.append_nil] at hrun
    exact .run hrun
  exact ⟨_, unitText_eq _, hshows.render⟩

/-- A module whose strings hold quotes, backslashes, a line end and text that looks like code. -/
def stringsSample : Source.Module where
  body := [.importModules [⟨["p", "q"], none⟩, ⟨["r", "."], some "s"⟩],
    .importNames [".."] [⟨"n", none⟩],
    .define "f" ["x"] [.branch (.attr (.str "\"") "a\\")
      [.ret (.call (.attr (.name "x") "\n") [.str "\");", .list [.str "\\\""]])] []]]

theorem unit_literals_sample :
    ∃ body, unitText (lower stringsSample ["f"]).tree = Prelude.text ++ body ∧
      literals? body.toList = some (["p", "p/q", "r/./", "../", "\"", "a\\", "\n", "\");",
        "\\\""].map String.toList) ∧
      ∀ c ∈ body.toList, 0x20 ≤ c.toNat := by
  have hstrings : stringsOf stringsSample.body = ["p", "p/q", "r/./", "../", "\"", "a\\", "\n",
      "\");", "\\\""] := by decide
  rw [← hstrings]
  exact unit_literals stringsSample ["f"] (by decide)

end Lowering

end ScriptCompiler
