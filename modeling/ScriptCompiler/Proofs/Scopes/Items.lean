import ScriptCompiler.Proofs.Lowering.Plain

/-!
# What stands in a scope

A scope is a module or a function with its parameters. Its items are what stands in it in order,
through runs and both sides of branches, and not in the functions that it defines. What a scope
binds, declares, uses and defines are views of its items. `resolve` finds the innermost scope of a
chain that has a name of its own.
-/

namespace ScriptCompiler

/-- A variable where it stands: read, or stored in by an assignment. -/
inductive Use where
  | read (name : String)
  | write (name : String)
  deriving DecidableEq

def Use.name : Use → String
  | .read x | .write x => x

def Use.written? : Use → Option String
  | .read _ => none
  | .write x => some x

/-! ## Source scopes -/

namespace Source

inductive Item where
  | importModules (entries : List DottedImport)
  | importNames (path : List String) (names : List NamedImport)
  | expr (value : Expr)
  | assign (targets : List String) (value : Expr)
  | define (name : String) (parameters : List String) (body : List Stmt)

mutual

def Stmt.items : Stmt → List Item
  | .importModules entries => [.importModules entries]
  | .importNames path names => [.importNames path names]
  | .expr e | .ret e => [.expr e]
  | .assign targets value => [.assign targets value]
  | .define f parameters body => [.define f parameters body]
  | .branch c t e => .expr c :: (items t ++ items e)

def items : List Stmt → List Item
  | [] => []
  | s :: ss => s.items ++ items ss

end

/-- A module or a function. A module shows names to others at its end, a function shows none. -/
structure Scope where
  parameters : List String
  body : List Stmt
  shown : List String

def Module.scope (m : Module) (exports : List String) : Scope := ⟨[], m.body, exports⟩

/-- The names that belong to the scope itself. -/
def Scope.locals (s : Scope) : List String := s.parameters ++ (bindings s.body).map Binding.name

def Item.functions : Item → List Scope
  | .define _ parameters body => [⟨parameters, body, []⟩]
  | _ => []

/-- The functions defined in a scope and in no function of it. -/
def Scope.functions (s : Scope) : List Scope := (items s.body).flatMap Item.functions

/-- The variables of one entry. An import of dotted parts stores in its first part and reads it once
for each module below it. -/
def DottedImport.uses (entry : DottedImport) : List Use :=
  match entry.asName, entry.parts with
  | some x, _ => [.write x]
  | none, [] => []
  | none, part :: parts => .write part :: parts.map fun _ => .read part

def Item.uses : Item → List Use
  | .importModules entries => entries.flatMap DottedImport.uses
  | .importNames _ names => names.map (.write ·.bound)
  | .expr e => e.names.map .read
  | .assign targets value => targets.map .write ++ value.names.map .read
  | .define _ _ _ => []

/-- The variables that stand in a scope, from left to right, and then those that it shows. -/
def Scope.uses (s : Scope) : List Use := (items s.body).flatMap Item.uses ++ s.shown.map .read

/-- Every variable of the scope and of its functions is plain. -/
def Scope.Plain (s : Scope) : Prop := ∀ x ∈ s.parameters ++ namesOf s.body ++ s.shown, IsPlain x

/-- The item as a statement. -/
def Item.stmt : Item → Stmt
  | .importModules entries => .importModules entries
  | .importNames path names => .importNames path names
  | .expr e => .expr e
  | .assign targets value => .assign targets value
  | .define f parameters body => .define f parameters body

mutual

theorem Stmt.bindings_eq_flatMap_items : ∀ s : Stmt, s.bindings = s.items.flatMap (·.stmt.bindings)
  | .importModules _ | .importNames _ _ | .expr _ | .ret _ | .assign _ _ | .define _ _ _ => by
    simp [Stmt.bindings, Stmt.items, Item.stmt]
  | .branch c t e => by
    simp [Stmt.bindings, Stmt.items, Item.stmt, bindings_eq_flatMap_items t,
      bindings_eq_flatMap_items e]

theorem bindings_eq_flatMap_items : ∀ ss : List Stmt,
    bindings ss = (items ss).flatMap (·.stmt.bindings)
  | [] => rfl
  | s :: ss => by
    rw [bindings, items, List.flatMap_append, s.bindings_eq_flatMap_items,
      bindings_eq_flatMap_items ss]

end

mutual

theorem Stmt.names_eq_flatMap_items : ∀ s : Stmt, s.names = s.items.flatMap (·.stmt.names)
  | .importModules _ | .importNames _ _ | .expr _ | .ret _ | .assign _ _ | .define _ _ _ => by
    simp [Stmt.names, Stmt.items, Item.stmt]
  | .branch c t e => by
    simp [Stmt.names, Stmt.items, Item.stmt, namesOf_eq_flatMap_items t,
      namesOf_eq_flatMap_items e]

theorem namesOf_eq_flatMap_items : ∀ ss : List Stmt, namesOf ss = (items ss).flatMap (·.stmt.names)
  | [] => rfl
  | s :: ss => by
    rw [namesOf, items, List.flatMap_append, s.names_eq_flatMap_items, namesOf_eq_flatMap_items ss]

end

end Source

/-! ## Script scopes -/

namespace Script

inductive Item where
  | expr (value : Expr)
  | var (name : String) (initial : Option Expr)
  | function (name : String) (parameters : List String) (body : List Stmt)

mutual

def Stmt.items : Stmt → List Item
  | .run ss => items ss
  | .expr e | .ret e => [.expr e]
  | .function f parameters body => [.function f parameters body]
  | .var x initial => [.var x initial]
  | .branch c t e => .expr c :: (items t ++ items e)

def items : List Stmt → List Item
  | [] => []
  | s :: ss => s.items ++ items ss

end

@[simp]
theorem items_append (ss us : List Stmt) : items (ss ++ us) = items ss ++ items us := by
  induction ss with
  | nil => rfl
  | cons s ss ih => simp only [List.cons_append, items, ih, List.append_assoc]

theorem items_flatMap (f : α → List Stmt) (as : List α) :
    items (as.flatMap f) = as.flatMap fun a => items (f a) := by
  induction as with
  | nil => rfl
  | cons a as ih => simp only [List.flatMap_cons, items_append, ih]

theorem items_map_expr (f : α → Expr) (as : List α) :
    items (as.map fun a => .expr (f a)) = as.map fun a => .expr (f a) := by
  induction as with
  | nil => rfl
  | cons a as ih => simp only [List.map_cons, items, Stmt.items, ih, List.singleton_append]

theorem items_map_var (xs : List String) :
    items (xs.map (.var · none)) = xs.map (.var · none) := by
  induction xs with
  | nil => rfl
  | cons x xs ih => simp only [List.map_cons, items, Stmt.items, ih, List.singleton_append]

mutual

/-- The variables of an expression, in the order they are printed. -/
def Expr.uses : Expr → List Use
  | .name x => [.read x]
  | .null | .bool _ | .number _ | .str _ => []
  | .array es => usesAll es
  | .property o _ => o.uses
  | .call f es => f.uses ++ usesAll es
  | .assign x v => .write x :: v.uses
  | .assignProperty o _ v => o.uses ++ v.uses

def Expr.usesAll : List Expr → List Use
  | [] => []
  | e :: es => e.uses ++ usesAll es

end

/-- A unit or a function. -/
structure Scope where
  parameters : List String
  body : List Stmt

/-- The scope of a unit. -/
def Stmt.scope : Stmt → Scope
  | .run ss => ⟨[], ss⟩
  | s => ⟨[], [s]⟩

def Item.uses : Item → List Use
  | .expr e | .var _ (some e) => e.uses
  | .var _ none | .function _ _ _ => []

@[simp]
theorem Item.uses_expr (e : Expr) : (Item.expr e).uses = e.uses := rfl

/-- The name of a variable declared with no value. -/
def Item.bare : Item → List String
  | .var x none => [x]
  | _ => []

/-- The name of a variable declared with or without a value. -/
def Item.vars : Item → List String
  | .var x _ => [x]
  | _ => []

def Item.declared : Item → List String
  | .var x _ | .function x _ _ => [x]
  | .expr _ => []

def Item.functions : Item → List Scope
  | .function _ parameters body => [⟨parameters, body⟩]
  | _ => []

/-- The variables that stand in a scope, in the order they are printed. -/
def Scope.uses (t : Scope) : List Use := (items t.body).flatMap Item.uses

/-- The variables that a scope assigns, in the order they are printed. -/
def Scope.assigned (t : Scope) : List String := t.uses.filterMap Use.written?

def Scope.vars (t : Scope) : List String := (items t.body).flatMap Item.vars

/-- The names that belong to the scope itself. -/
def Scope.locals (t : Scope) : List String :=
  t.parameters ++ (items t.body).flatMap Item.declared

/-- The functions defined in a scope and in no function of it. -/
def Scope.functions (t : Scope) : List Scope := (items t.body).flatMap Item.functions

/-- The scope itself and the functions in it at any depth. -/
inductive Scope.Inside (root : Scope) : Scope → Prop
  | self : Inside root root
  | inner {t t' : Scope} : Inside root t → t' ∈ t.functions → Inside root t'

/-- The names declared with no value by statements of a scope. -/
def bareNames (ss : List Stmt) : List String := (items ss).flatMap Item.bare

end Script

/-! ## Resolution -/

/-- The place of the innermost scope that has `x` of its own, in a chain that lists the own names of
each scope from the inside out. -/
def resolve (chain : List (List String)) (x : String) : Option Nat := chain.findIdx? (x ∈ ·)

end ScriptCompiler
