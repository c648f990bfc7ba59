import ScriptCompiler.Lowering.Expr
import ScriptCompiler.Lowering.Import
import ScriptCompiler.Source.Scope

/-!
# Lowering statements and modules

A name of the source language is visible in the whole scope that binds it, so a lowered scope starts
with the declarations of its names. A module ends with one assignment to the exports object for each
name that it shows.
-/

namespace ScriptCompiler.Lowering

open Source (declaredNames)

/-- The declarations at the head of a scope. -/
def hoist (body : List Source.Stmt) : LowerM (List Script.Stmt) := do
  let names := declaredNames body
  report (.hoisted names.length)
  return names.map (.var · none)

/-- One value stored in every target; the first target is the outermost assignment. -/
def chain (targets : List String) (value : Script.Expr) : Script.Expr :=
  targets.foldr .assign value

mutual

/-- The script statement of a source statement. -/
def lowerStmt : Source.Stmt → LowerM Script.Stmt
  | .importModules entries => return lowerImport entries
  | .importNames path names => lowerImportNames path names
  | .expr e => return .expr (lowerExpr e)
  | .assign targets value => return .expr (chain targets (lowerExpr value))
  | .define f parameters body => do
    let declarations ← hoist body
    let lowered ← lowerBody body
    return .function f parameters (declarations ++ lowered)
  | .ret e => return .ret (lowerExpr e)
  | .branch c t e => do
    let whenTrue ← lowerBody t
    let whenFalse ← lowerBody e
    return .branch (Prelude.truth (lowerExpr c)) whenTrue whenFalse

/-- The script statements of a body, one for each of its statements. -/
def lowerBody : List Source.Stmt → LowerM (List Script.Stmt)
  | [] => return []
  | s :: ss => do
    let lowered ← lowerStmt s
    let rest ← lowerBody ss
    return lowered :: rest

end

/-- Shows a name to other units. -/
def exportName (name : String) : Script.Stmt :=
  .expr (.assignProperty (.name Prelude.exportsName) name (.name name))

/-- The script of a module that shows `exports`. -/
def lowerModule (exports : List String) (m : Source.Module) : LowerM Script.Stmt := do
  let declarations ← hoist m.body
  let lowered ← lowerBody m.body
  return .run (declarations ++ lowered ++ exports.map exportName)

/-- A lowered module and what its lowering reported. -/
structure Lowered where
  tree : Script.Stmt
  events : List Event

/-- Lowers a module on its own: its temporaries are numbered from zero. -/
def lower (m : Source.Module) (exports : List String) : Lowered :=
  let (tree, state) := (lowerModule exports m).run {}
  ⟨tree, state.events.toList⟩

end ScriptCompiler.Lowering
