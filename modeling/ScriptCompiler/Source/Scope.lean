import ScriptCompiler.Source.Tree

/-!
# Scopes

A scope is a module or a function body. `bindings` lists the places of a scope that bind a name, in
source order: both sides of a branch belong to the scope around it, the body of a function does
not. `declaredNames` are the names that the scope has to declare before its first statement, and
`Module.exports` are the names that a module shows to others.
-/

namespace ScriptCompiler.Source

/-- How a name is bound. -/
inductive BindingKind where
  | assigned
  | imported
  | defined
  deriving DecidableEq, Repr

/-- A place that binds a name. -/
structure Binding where
  name : String
  kind : BindingKind
  deriving DecidableEq, Repr

mutual

/-- The bindings that a statement makes in the scope around it. -/
def Stmt.bindings : Stmt → List Binding
  | .importModules entries => (entries.filterMap DottedImport.bound?).map (⟨·, .imported⟩)
  | .importNames _ names => names.map (⟨·.bound, .imported⟩)
  | .expr _ => []
  | .assign targets _ => targets.map (⟨·, .assigned⟩)
  | .define f _ _ => [⟨f, .defined⟩]
  | .ret _ => []
  | .branch _ t e => bindings t ++ bindings e

/-- The bindings of a scope, in source order. -/
def bindings : List Stmt → List Binding
  | [] => []
  | s :: ss => s.bindings ++ bindings ss

end

/-- The names to declare for a scope, each once, by first binding. A function declares itself. -/
def declaredNames (body : List Stmt) : List String :=
  (((bindings body).filter (·.kind ≠ .defined)).map Binding.name).eraseDups

/-- The variable that lists the exports of a module. -/
def exportListName : String := "__all__"

/-- The text of a string literal. -/
def Expr.text? : Expr → Option String
  | .str s => some s
  | _ => none

/-- The exports that a statement lists: the strings of a list assigned to `exportListName`. -/
def Stmt.exportList? : Stmt → Option (List String)
  | .assign targets (.list elements) =>
    if exportListName ∈ targets then some (elements.filterMap Expr.text?) else none
  | _ => none

/-- A name that a module keeps to itself unless it lists its exports. -/
def isPrivate (name : String) : Bool := name.toList.head? == some '_'

/-- The names that a module shows: those of its first export list if it has one at its top level,
and else the names it binds and does not keep to itself. Each occurs once. -/
def Module.exports (m : Module) : List String :=
  match m.body.findSome? Stmt.exportList? with
  | some names => names.eraseDups
  | none => (((bindings m.body).map Binding.name).filter (!isPrivate ·)).eraseDups

end ScriptCompiler.Source
