import ScriptCompiler.Lowering.Stmt
import ScriptCompiler.Proofs.Lowering.Plain

/-!
# Evaluation on an abstract machine

A `Machine` gives a meaning to what neither language decides: its values, a state, and operations
that may change the state and may fail. Over any machine a source body (`Source.execAll`) and a
script (`Script.execAll`) are steps of `Eval`, which also keeps the variables. A `return` leaves a
body the way a failure does. A form that is given no meaning here (a function, an import of dotted
parts, a stored property, a prelude function with a wrong number of arguments) is `stuck`.

The two evaluators differ where the languages do. A source assignment stores its value in its
targets from left to right, a chain of script assignments from the inside out. A source branch asks
for the truth of its condition, a script branch tests the value of its condition as it is. A source
reads attributes and applies operators, a script calls functions of the prelude by name.
-/

namespace ScriptCompiler

/-- A meaning for the dynamic operations. -/
structure Machine where
  Value : Type
  State : Type
  Error : Type
  null : Value
  bool : Bool → Value
  int : Int64 → Value
  str : String → Value
  list : List Value → EStateM Error State Value
  call : Value → List Value → EStateM Error State Value
  /-- The attribute of a value; its name is a value too. -/
  getAttr : Value → Value → EStateM Error State Value
  binOp : BinaryOp → Value → Value → EStateM Error State Value
  truthy : Value → EStateM Error State Bool
  /-- The module at a path, which is a value. -/
  load : Value → EStateM Error State Value
  getProp : Value → String → EStateM Error State Value
  /-- What reading a variable gives that nothing was stored in. -/
  unbound : String → EStateM Error State Value
  /-- Whether a script branch takes its first side. -/
  test : Value → Bool
  test_bool : ∀ b, test (bool b) = b

/-- The variables of a body and the state of the machine. -/
structure Env (M : Machine) where
  vars : String → Option M.Value
  state : M.State

/-- Why a body ends before its last statement. -/
inductive Stop (M : Machine) where
  | failed (error : M.Error)
  | returned (value : M.Value)
  | stuck

abbrev Eval (M : Machine) := EStateM (Stop M) (Env M)

variable {M : Machine} {α : Type}

/-- The environment with `v` stored in `x`. -/
def Env.set (env : Env M) (x : String) (v : M.Value) : Env M :=
  { env with vars := fun y => if y = x then some v else env.vars y }

namespace Eval

/-- An operation of the machine, which does not see the variables. -/
def lift (x : EStateM M.Error M.State α) : Eval M α := fun env =>
  match x.run env.state with
  | .ok a s => .ok a { env with state := s }
  | .error e s => .error (.failed e) { env with state := s }

def read (x : String) : Eval M M.Value := fun env =>
  match env.vars x with
  | some v => .ok v env
  | none => lift (M.unbound x) env

def store (x : String) (v : M.Value) : Eval M Unit := fun env => .ok () (env.set x v)

theorem run_lift (x : EStateM M.Error M.State α) (env : Env M) :
    (lift x).run env =
      match x.run env.state with
      | .ok a s => .ok a { env with state := s }
      | .error e s => .error (.failed e) { env with state := s } := rfl

theorem run_read (x : String) (env : Env M) :
    (read x).run env =
      match env.vars x with
      | some v => .ok v env
      | none => (lift (M.unbound x)).run env := rfl

@[simp]
theorem run_store (x : String) (v : M.Value) (env : Env M) :
    (store x v).run env = .ok () (env.set x v) := rfl

end Eval

open Eval

/-! ## Functions of the prelude -/

namespace Prelude

/-- The functions that lowered code calls by name. -/
inductive Function where
  | truth
  | getAttr
  | operator (op : BinaryOp)
  | load
  deriving DecidableEq

def Function.name : Function → String
  | .truth => boolName
  | .getAttr => attributeName
  | .operator op => operatorName op
  | .load => loadName

def Function.all : List Function :=
  [.truth, .getAttr, .load] ++ BinaryOp.all.map .operator

def Function.ofName? (x : String) : Option Function := Function.all.find? (·.name = x)

@[simp]
theorem Function.ofName?_name (f : Function) : Function.ofName? f.name = some f := by
  rcases f with _ | _ | op | _
  · rfl
  · rfl
  · cases op <;> rfl
  · rfl

theorem Function.not_isPlain_name (f : Function) : ¬ IsPlain f.name := by
  cases f with
  | truth => exact not_isPlain_boolName
  | getAttr => exact not_isPlain_attributeName
  | operator op => exact not_isPlain_operatorName op
  | load => exact not_isPlain_loadName

theorem Function.ofName?_eq_none {x : String} (h : IsPlain x) : Function.ofName? x = none := by
  simp only [Function.ofName?, List.find?_eq_none, decide_eq_true_eq]
  rintro f - rfl
  exact f.not_isPlain_name h

/-- The function that an expression names. -/
def called? : Script.Expr → Option Function
  | .name x => Function.ofName? x
  | _ => none

/-- A function applied to the values of its arguments. -/
def Function.apply : Function → List M.Value → Eval M M.Value
  | .truth, [v] => return M.bool (← lift (M.truthy v))
  | .getAttr, [v, a] => lift (M.getAttr v a)
  | .operator op, [l, r] => lift (M.binOp op l r)
  | .load, [path] => lift (M.load path)
  | _, _ => throw .stuck

end Prelude

/-! ## The two evaluators -/

namespace Source

variable (M)

mutual

def Expr.eval : Expr → Eval M M.Value
  | .name x => read x
  | .nothing => return M.null
  | .bool b => return M.bool b
  | .int n => return M.int n
  | .str s => return M.str s
  | .list es => do lift (M.list (← evalAll es))
  | .attr e a => do lift (M.getAttr (← e.eval) (M.str a))
  | .binary op l r => do
    let left ← l.eval
    let right ← r.eval
    lift (M.binOp op left right)
  | .call f es => do
    let callee ← f.eval
    let arguments ← evalAll es
    lift (M.call callee arguments)

/-- The values of expressions, from left to right. -/
def Expr.evalAll : List Expr → Eval M (List M.Value)
  | [] => return []
  | e :: es => do
    let v ← e.eval
    let vs ← evalAll es
    return v :: vs

end

variable {M}

/-- Stores a value in every target, from left to right. -/
def storeAll (v : M.Value) : List String → Eval M Unit
  | [] => return
  | x :: xs => do
    store x v
    storeAll v xs

/-- Binds names to the properties of a loaded module, in order. -/
def bindNames (module : M.Value) : List NamedImport → Eval M Unit
  | [] => return
  | entry :: entries => do
    let v ← lift (M.getProp module entry.name)
    store entry.bound v
    bindNames module entries

variable (M)

mutual

def Stmt.exec : Stmt → Eval M Unit
  | .importModules _ => throw .stuck
  | .importNames path names => do
    let module ← lift (M.load (M.str (Lowering.modulePath path)))
    bindNames module names
  | .expr e => do
    let _ ← e.eval M
  | .assign targets value => do storeAll (← value.eval M) targets
  | .define _ _ _ => throw .stuck
  | .ret e => do throw (.returned (← e.eval M))
  | .branch c t e => do
    let v ← c.eval M
    if ← lift (M.truthy v) then execAll t else execAll e

def execAll : List Stmt → Eval M Unit
  | [] => return
  | s :: ss => do
    s.exec
    execAll ss

end

end Source

namespace Script

variable (M)

mutual

def Expr.eval : Expr → Eval M M.Value
  | .name x => read x
  | .null => return M.null
  | .bool b => return M.bool b
  | .number n => return M.int n
  | .str s => return M.str s
  | .array es => do lift (M.list (← evalAll es))
  | .property o p => do lift (M.getProp (← o.eval) p)
  | .call f es =>
    match Prelude.called? f with
    | some function => do function.apply (← evalAll es)
    | none => do
      let callee ← f.eval
      let arguments ← evalAll es
      lift (M.call callee arguments)
  | .assign x v => do
    let value ← v.eval
    store x value
    return value
  | .assignProperty _ _ _ => throw .stuck

/-- The values of expressions, from left to right. -/
def Expr.evalAll : List Expr → Eval M (List M.Value)
  | [] => return []
  | e :: es => do
    let v ← e.eval
    let vs ← evalAll es
    return v :: vs

end

mutual

def Stmt.exec : Stmt → Eval M Unit
  | .run ss => execAll ss
  | .expr e => do
    let _ ← e.eval M
  | .function _ _ _ => throw .stuck
  | .ret e => do throw (.returned (← e.eval M))
  | .var _ none => return
  | .var x (some e) => do store x (← e.eval M)
  | .branch c t e => do if M.test (← c.eval M) then execAll t else execAll e

def execAll : List Stmt → Eval M Unit
  | [] => return
  | s :: ss => do
    s.exec
    execAll ss

end

end Script

end ScriptCompiler
