import ScriptCompiler.Script.Tree
import ScriptCompiler.Text.Quoted

/-!
# Printing script trees

`Expr.print` and `Stmt.print` append the text of a tree to the text written so far, on one line
and with no blank that the form does not ask for. `render` is the text alone; printing after `out`
writes exactly `out` followed by it (`Expr.print_eq`, `Stmt.print_eq`).
-/

namespace ScriptCompiler.Script

open Text

mutual

/-- Appends the text of an expression. Only the object of a property is put in parentheses. -/
def Expr.print : Expr → String → String
  | .name x, out => out ++ x
  | .null, out => out ++ "null"
  | .bool true, out => out ++ "true"
  | .bool false, out => out ++ "false"
  | .number n, out => out ++ toString n.toInt
  | .str s, out => out ++ Quoted.quote s
  | .array es, out => printList es (out ++ "[") ++ "]"
  | .property o p, out => o.print (out ++ "(") ++ ")." ++ p
  | .call f es, out => printList es (f.print out ++ "(") ++ ")"
  | .assign x v, out => v.print (out ++ x ++ " = ")
  | .assignProperty o p v, out => v.print (o.print (out ++ "(") ++ ")." ++ p ++ " = ")

/-- Appends expressions with a comma and a blank between two neighbours. -/
def Expr.printList : List Expr → String → String
  | [], out => out
  | e :: es, out => printTail es (e.print out)

/-- Appends the expressions that follow the first of a list. -/
def Expr.printTail : List Expr → String → String
  | [], out => out
  | e :: es, out => printTail es (e.print (out ++ ", "))

end

mutual

/-- Appends the text of a statement. -/
def Stmt.print : Stmt → String → String
  | .run ss, out => printAll ss out
  | .expr e, out => e.print out ++ ";"
  | .function f ps body, out =>
    printAll body (out ++ "function " ++ f ++ "(" ++ ", ".intercalate ps ++ ") \x7b ") ++ " \x7d"
  | .ret e, out => e.print (out ++ "return ") ++ ";"
  | .var x none, out => out ++ "var " ++ x ++ ";"
  | .var x (some e), out => e.print (out ++ "var " ++ x ++ " = ") ++ ";"
  | .branch c t e, out =>
    printAll e (printAll t (c.print (out ++ "if (") ++ ") \x7b ") ++ " \x7d else \x7b ") ++ " \x7d"

/-- Appends the texts of statements, with nothing between them. -/
def Stmt.printAll : List Stmt → String → String
  | [], out => out
  | s :: ss, out => printAll ss (s.print out)

end

/-- The text of an expression. -/
def Expr.render (e : Expr) : String := e.print ""

/-- The text of a statement. -/
def Stmt.render (s : Stmt) : String := s.print ""

/-! ## Printing only appends -/

mutual

theorem Expr.print_append : ∀ (e : Expr) (a b : String), e.print (a ++ b) = a ++ e.print b
  | .name _, a, b | .null, a, b | .bool true, a, b | .bool false, a, b | .number _, a, b
  | .str _, a, b => by simp only [Expr.print, String.append_assoc]
  | .array es, a, b => by
    simp only [Expr.print, String.append_assoc, Expr.printList_append es a]
  | .property o p, a, b => by
    simp only [Expr.print, String.append_assoc, Expr.print_append o a]
  | .call f es, a, b => by
    simp only [Expr.print, String.append_assoc, Expr.print_append f a, Expr.printList_append es a]
  | .assign x v, a, b => by
    simp only [Expr.print, String.append_assoc, Expr.print_append v a]
  | .assignProperty o p v, a, b => by
    simp only [Expr.print, String.append_assoc, Expr.print_append o a, Expr.print_append v a]

theorem Expr.printList_append : ∀ (es : List Expr) (a b : String),
    Expr.printList es (a ++ b) = a ++ Expr.printList es b
  | [], a, b => rfl
  | e :: es, a, b => by
    simp only [Expr.printList, Expr.print_append e a, Expr.printTail_append es a]

theorem Expr.printTail_append : ∀ (es : List Expr) (a b : String),
    Expr.printTail es (a ++ b) = a ++ Expr.printTail es b
  | [], a, b => rfl
  | e :: es, a, b => by
    simp only [Expr.printTail, String.append_assoc, Expr.print_append e a,
      Expr.printTail_append es a]

end

mutual

theorem Stmt.print_append : ∀ (s : Stmt) (a b : String), s.print (a ++ b) = a ++ s.print b
  | .run ss, a, b => by simp only [Stmt.print, Stmt.printAll_append ss a]
  | .expr e, a, b => by simp only [Stmt.print, String.append_assoc, Expr.print_append e a]
  | .function f ps body, a, b => by
    simp only [Stmt.print, String.append_assoc, Stmt.printAll_append body a]
  | .ret e, a, b => by simp only [Stmt.print, String.append_assoc, Expr.print_append e a]
  | .var x none, a, b => by simp only [Stmt.print, String.append_assoc]
  | .var x (some e), a, b => by simp only [Stmt.print, String.append_assoc, Expr.print_append e a]
  | .branch c t e, a, b => by
    simp only [Stmt.print, String.append_assoc, Expr.print_append c a, Stmt.printAll_append t a,
      Stmt.printAll_append e a]

theorem Stmt.printAll_append : ∀ (ss : List Stmt) (a b : String),
    Stmt.printAll ss (a ++ b) = a ++ Stmt.printAll ss b
  | [], a, b => rfl
  | s :: ss, a, b => by
    simp only [Stmt.printAll, Stmt.print_append s a, Stmt.printAll_append ss a]

end

/-- An expression is written after what is there, which stays as it is. -/
theorem Expr.print_eq (e : Expr) (out : String) : e.print out = out ++ e.render := by
  rw [Expr.render, ← Expr.print_append, String.append_empty]

/-- A statement is written after what is there, which stays as it is. -/
theorem Stmt.print_eq (s : Stmt) (out : String) : s.print out = out ++ s.render := by
  rw [Stmt.render, ← Stmt.print_append, String.append_empty]

end ScriptCompiler.Script
