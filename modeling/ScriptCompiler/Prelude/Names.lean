import ScriptCompiler.Operator
import ScriptCompiler.Script.Tree

/-!
# The prelude, as lowered code sees it

Lowered code leaves every dynamic operation to one object, which the prelude defines at the head of
each unit. These are the names under which the object offers them, and the calls that lowered code
makes. The names start with a `$`, which no name that a source can write does, so that no source
shadows them.
-/

namespace ScriptCompiler.Prelude

open Script (Expr)

/-- The object that holds the operations. -/
def objectName : String := "$tern"

/-- The truth of a value. -/
def boolName : String := "$tern.bool"

/-- The attribute of a value. -/
def attributeName : String := "$tern.getattr"

/-- The module of a path. -/
def loadName : String := "$tern.require"

/-- The table of operators. -/
def operatorsName : String := "$tern.operators"

/-- The object that holds what a unit exports. -/
def exportsName : String := "$exports"

/-- The functions that every unit finds under their own names. -/
def builtinNames : List String := ["print", "str", "bool", "len", "abs"]

/-- The function of an operator. -/
def operatorName (op : BinaryOp) : String := operatorsName ++ "." ++ op.tag

/-- The truth of `e`. -/
def truth (e : Expr) : Expr := .call (.name boolName) [e]

/-- An attribute of `e`. -/
def readAttribute (e : Expr) (name : String) : Expr := .call (.name attributeName) [e, .str name]

/-- An operator applied to two values. -/
def operation (op : BinaryOp) (left right : Expr) : Expr :=
  .call (.name (operatorName op)) [left, right]

/-- The module at `path`. -/
def load (path : String) : Expr := .call (.name loadName) [.str path]

end ScriptCompiler.Prelude
