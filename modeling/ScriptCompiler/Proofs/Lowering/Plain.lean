import ScriptCompiler.Lowering.Stmt

/-!
# Plain names

A name is plain if it does not start with a `$`. Lowering and the prelude keep the other names for
themselves: the temporaries of imports, the prelude's functions and the exports object. `namesOf`
lists the names that a source body writes as variables, in its functions too; attributes, parts of
a module path after the first and the names that an import renames are not among them.
-/

namespace ScriptCompiler

/-- A name that a source can write. -/
def IsPlain (x : String) : Prop := x.toList.head? ≠ some '$'

instance (x : String) : Decidable (IsPlain x) := inferInstanceAs (Decidable (_ ≠ _))

namespace Source

mutual

/-- The variables that an expression reads, from left to right. -/
def Expr.names : Expr → List String
  | .name x => [x]
  | .nothing | .bool _ | .int _ | .str _ => []
  | .list es => Expr.namesAll es
  | .attr e _ => e.names
  | .binary _ l r => l.names ++ r.names
  | .call f es => f.names ++ Expr.namesAll es

/-- The variables that a list of expressions reads. -/
def Expr.namesAll : List Expr → List String
  | [] => []
  | e :: es => e.names ++ Expr.namesAll es

end

mutual

/-- The variables of a statement: read, bound, parameters, and those of its functions. -/
def Stmt.names : Stmt → List String
  | .importModules entries => entries.filterMap DottedImport.bound?
  | .importNames _ names => names.map NamedImport.bound
  | .expr e | .ret e => e.names
  | .assign targets value => targets ++ value.names
  | .define f parameters body => f :: parameters ++ namesOf body
  | .branch c t e => c.names ++ namesOf t ++ namesOf e

/-- The variables of a body. -/
def namesOf : List Stmt → List String
  | [] => []
  | s :: ss => s.names ++ namesOf ss

end

end Source

/-! ## Names that are not plain -/

namespace Prelude

@[simp]
theorem not_isPlain_boolName : ¬ IsPlain boolName := by decide

@[simp]
theorem not_isPlain_attributeName : ¬ IsPlain attributeName := by decide

@[simp]
theorem not_isPlain_loadName : ¬ IsPlain loadName := by decide

@[simp]
theorem not_isPlain_exportsName : ¬ IsPlain exportsName := by decide

@[simp]
theorem not_isPlain_operatorName (op : BinaryOp) : ¬ IsPlain (operatorName op) := by
  cases op <;> decide

end Prelude

namespace Lowering

/-- A temporary of an import. -/
def IsTemporary (x : String) : Prop := ∃ n, x = temporaryName n

@[simp]
theorem not_isPlain_temporaryName (n : UInt32) : ¬ IsPlain (temporaryName n) := by
  simp [IsPlain, temporaryName, temporaryStem]

theorem not_isTemporary_of_isPlain {x : String} (h : IsPlain x) : ¬ IsTemporary x := by
  rintro ⟨n, rfl⟩
  exact not_isPlain_temporaryName n h

end Lowering

end ScriptCompiler
