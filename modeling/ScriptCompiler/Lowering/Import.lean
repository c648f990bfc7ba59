import ScriptCompiler.Lowering.State
import ScriptCompiler.Prelude.Names
import ScriptCompiler.Source.Tree

/-!
# Lowering imports

`modulePath` writes the parts of a module as the path that the prelude loads. An import of dotted
parts loads every module on the way and hangs each one on the one before it; an import under
another name loads the last one only. An import of names loads its module into a temporary and
reads the names from there.
-/

namespace ScriptCompiler.Lowering

open Source (DottedImport NamedImport)
open Script (Expr Stmt)

/-- The path of a module: its parts between slashes. A path that would end in a dot names a
directory and gets a slash at its end. -/
def modulePath (parts : List String) : String :=
  let path := Text.joinedBy '/' parts
  if path.toList.getLast? = some '.' then path ++ "/" else path

/-- Loads the modules on the way of a dotted import: `loaded` are the parts before `parts`, and
`parent` reads the module that they name. -/
def loadBelow (parent : Expr) (loaded : List String) : List String → List Stmt
  | [] => []
  | part :: parts =>
    .expr (.assignProperty parent part (Prelude.load (modulePath (loaded ++ [part])))) ::
      loadBelow (.property parent part) (loaded ++ [part]) parts

/-- The assignments of one entry. -/
def lowerEntry (entry : DottedImport) : List Stmt :=
  match entry.asName, entry.parts with
  | some x, parts => [.expr (.assign x (Prelude.load (modulePath parts)))]
  | none, [] => []
  | none, part :: parts =>
    .expr (.assign part (Prelude.load (modulePath [part]))) :: loadBelow (.name part) [part] parts

/-- Imports of modules. -/
def lowerImport (entries : List DottedImport) : Stmt := .run (entries.flatMap lowerEntry)

/-- The binding of a name that is read from the module in a temporary. -/
def lowerNamed (temporary : String) (entry : NamedImport) : Stmt :=
  .expr (.assign entry.bound (.property (.name temporary) entry.name))

/-- Imports of names from a module. -/
def lowerImportNames (parts : List String) (names : List NamedImport) : LowerM Stmt := do
  let temporary ← freshTemporary
  let path := modulePath parts
  report (.bound temporary path)
  return .run (.var temporary (some (Prelude.load path)) :: names.map (lowerNamed temporary))

end ScriptCompiler.Lowering
