/-!
# Binary operators

The operators of the source language. Each has a `tag`, under which the prelude files its
implementation, the `symbol` of the source text, the `overload` method that a left operand other
than a number is asked for, and a native form for two numbers (`onNumbers`).
-/

namespace ScriptCompiler

/-- The binary operators. -/
inductive BinaryOp where
  | add
  | sub
  | mul
  | trueDiv
  | floorDiv
  | mod
  | pow
  | shiftLeft
  | shiftRight
  | bitAnd
  | bitOr
  | bitXor
  deriving DecidableEq, Repr

/-- How an operator acts on two numbers in the script. -/
inductive NumberOp where
  /-- A token between the operands. -/
  | token (text : String)
  /-- A call of a prelude function. -/
  | helper (name : String)
  deriving DecidableEq, Repr

namespace BinaryOp

/-- Every operator, in the order of the prelude's table. -/
def all : List BinaryOp :=
  [add, sub, mul, trueDiv, floorDiv, mod, pow, shiftLeft, shiftRight, bitAnd, bitOr, bitXor]

theorem mem_all (op : BinaryOp) : op ∈ all := by
  cases op <;> decide

/-- The name of the operator. -/
def name : BinaryOp → String
  | add => "Add"
  | sub => "Sub"
  | mul => "Mul"
  | trueDiv => "TrueDiv"
  | floorDiv => "FloorDiv"
  | mod => "Mod"
  | pow => "Pow"
  | shiftLeft => "LShift"
  | shiftRight => "RShift"
  | bitAnd => "BitAnd"
  | bitOr => "BitOr"
  | bitXor => "BitXor"

/-- The operator of a name. -/
def ofName? (s : String) : Option BinaryOp := all.find? fun op => op.name = s

/-- The key of the operator in the prelude's table. -/
def tag : BinaryOp → String
  | add => "add"
  | sub => "sub"
  | mul => "mul"
  | trueDiv => "truediv"
  | floorDiv => "floordiv"
  | mod => "mod"
  | pow => "pow"
  | shiftLeft => "lshift"
  | shiftRight => "rshift"
  | bitAnd => "and"
  | bitOr => "or"
  | bitXor => "xor"

/-- The operator as the source writes it. -/
def symbol : BinaryOp → String
  | add => "+"
  | sub => "-"
  | mul => "*"
  | trueDiv => "/"
  | floorDiv => "//"
  | mod => "%"
  | pow => "**"
  | shiftLeft => "<<"
  | shiftRight => ">>"
  | bitAnd => "&"
  | bitOr => "|"
  | bitXor => "^"

/-- The method of the left operand that overloads the operator. -/
def overload (op : BinaryOp) : String := "__" ++ op.tag ++ "__"

/-- The native form. Remainder, power and floored division differ from the script's own. -/
def onNumbers : BinaryOp → NumberOp
  | floorDiv => .helper "numberFloorDiv"
  | mod => .helper "numberMod"
  | pow => .helper "numberPow"
  | op => .token op.symbol

end BinaryOp

end ScriptCompiler
