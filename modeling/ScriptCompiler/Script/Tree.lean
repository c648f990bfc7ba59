/-!
# Script trees

The language that units are written in: expressions and statements with exactly the forms that
lowering needs. A `run` groups statements without a scope of its own; printing shows no trace of
the grouping, and `flatten` removes it.
-/

namespace ScriptCompiler.Script

/-- Expressions. -/
inductive Expr where
  /-- A variable, or a dotted path to one of the prelude's functions. -/
  | name (text : String)
  | null
  | bool (value : Bool)
  | number (value : Int64)
  | str (value : String)
  | array (elements : List Expr)
  | property (object : Expr) (name : String)
  | call (callee : Expr) (arguments : List Expr)
  /-- Stores a value in a variable. -/
  | assign (name : String) (value : Expr)
  /-- Stores a value in a property of an object. -/
  | assignProperty (object : Expr) (name : String) (value : Expr)

/-- Statements. -/
inductive Stmt where
  | run (statements : List Stmt)
  | expr (value : Expr)
  | function (name : String) (parameters : List String) (body : List Stmt)
  | ret (value : Expr)
  /-- Declares a variable of the enclosing function or unit. -/
  | var (name : String) (initial : Option Expr)
  | branch (condition : Expr) (whenTrue whenFalse : List Stmt)

mutual

/-- The statements that `s` stands for once no run is left at any depth. -/
def Stmt.flatten : Stmt → List Stmt
  | .run ss => flattenAll ss
  | .expr e => [.expr e]
  | .function f ps body => [.function f ps (flattenAll body)]
  | .ret e => [.ret e]
  | .var x init => [.var x init]
  | .branch c t e => [.branch c (flattenAll t) (flattenAll e)]

/-- The statements that a list of statements stands for. -/
def flattenAll : List Stmt → List Stmt
  | [] => []
  | s :: ss => s.flatten ++ flattenAll ss

end

end ScriptCompiler.Script
