import ScriptCompiler.Lowering.Stmt
import ScriptCompiler.Prelude.Text
import ScriptCompiler.Script.Printer

/-!
# Units

A unit is what one source module becomes: the prelude, and the lowered module on the line after it.
-/

namespace ScriptCompiler

/-- The text of a unit: the prelude followed by the printed module. -/
def unitText (tree : Script.Stmt) : String := tree.print Prelude.text

theorem unitText_eq (tree : Script.Stmt) : unitText tree = Prelude.text ++ tree.render :=
  tree.print_eq Prelude.text

end ScriptCompiler
