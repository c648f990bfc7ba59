import ScriptCompiler.Prelude.Names
import ScriptCompiler.Source.Tree

/-!
# Lowering expressions

Literals, names, lists and calls keep their form. An attribute and an operator become calls of the
prelude, which decides at run time what they mean.
-/

namespace ScriptCompiler.Lowering

open Source (Expr)

mutual

/-- The script expression of a source expression. -/
def lowerExpr : Expr → Script.Expr
  | .name x => .name x
  | .nothing => .null
  | .bool b => .bool b
  | .int n => .number n
  | .str s => .str s
  | .list es => .array (lowerExprs es)
  | .attr e a => Prelude.readAttribute (lowerExpr e) a
  | .binary op l r => Prelude.operation op (lowerExpr l) (lowerExpr r)
  | .call f es => .call (lowerExpr f) (lowerExprs es)

/-- The script expressions of a list of source expressions. -/
def lowerExprs : List Expr → List Script.Expr
  | [] => []
  | e :: es => lowerExpr e :: lowerExprs es

end

end ScriptCompiler.Lowering
