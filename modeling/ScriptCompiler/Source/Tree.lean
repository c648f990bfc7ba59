import ScriptCompiler.Operator
import ScriptCompiler.Text.Pieces

/-!
# Source trees

The checked source language: dynamic expressions, and statements whose names are visible in the
whole function or module that binds them. An import names a module by its parts; an import of
several dotted parts binds its first part unless it is given another name.
-/

namespace ScriptCompiler.Source

/-- Expressions. -/
inductive Expr where
  | name (text : String)
  | nothing
  | bool (value : Bool)
  | int (value : Int64)
  | str (value : String)
  | list (elements : List Expr)
  | attr (value : Expr) (name : String)
  | binary (op : BinaryOp) (left right : Expr)
  | call (callee : Expr) (arguments : List Expr)

/-- A module to import, with the name to bind it to if one is given. -/
structure DottedImport where
  parts : List String
  asName : Option String
  deriving DecidableEq, Repr

/-- A name to import from a module, with the name to bind it to if one is given. -/
structure NamedImport where
  name : String
  asName : Option String
  deriving DecidableEq, Repr

/-- Statements. -/
inductive Stmt where
  | importModules (entries : List DottedImport)
  | importNames (path : List String) (names : List NamedImport)
  | expr (value : Expr)
  /-- Stores one value in every target. -/
  | assign (targets : List String) (value : Expr)
  | define (name : String) (parameters : List String) (body : List Stmt)
  | ret (value : Expr)
  | branch (condition : Expr) (whenTrue whenFalse : List Stmt)

/-- A module is its statements. -/
structure Module where
  body : List Stmt

/-- The entry that a dotted text writes: its parts stand between the dots. -/
def DottedImport.ofText (text : String) (asName : Option String) : DottedImport :=
  ⟨Text.piecesOf '.' text, asName⟩

/-- The name that the entry binds. -/
def DottedImport.bound? (entry : DottedImport) : Option String :=
  entry.asName.or entry.parts.head?

/-- The name that the import binds. -/
def NamedImport.bound (entry : NamedImport) : String :=
  entry.asName.getD entry.name

end ScriptCompiler.Source
