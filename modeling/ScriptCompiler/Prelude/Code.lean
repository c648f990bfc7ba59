/-!
# Indented code

The prelude is the one part of a unit that is laid out for reading: one line a statement, and the
inside of a block four blanks further in.
-/

namespace ScriptCompiler.Prelude

/-- A piece of code that takes whole lines. -/
inductive Code where
  | line (text : String)
  /-- A block in braces, with the text before the opening and after the closing one. -/
  | block (head : String) (body : List Code) (tail : String)
  /-- A block with a second one that runs when the first one fails. -/
  | attempt (body handler : List Code)

/-- A line one level further in. -/
def indented (line : String) : String := "    " ++ line

mutual

/-- The lines of a piece of code. -/
def Code.lines : Code → List String
  | .line text => [text]
  | .block head body tail =>
    (head ++ " \x7b") :: ((linesOf body).map indented ++ ["\x7d" ++ tail])
  | .attempt body handler =>
    "try \x7b" :: ((linesOf body).map indented ++
      "\x7d catch (error) \x7b" :: ((linesOf handler).map indented ++ ["\x7d"]))

/-- The lines of several pieces of code. -/
def linesOf : List Code → List String
  | [] => []
  | c :: cs => c.lines ++ linesOf cs

end

/-- The text of several pieces of code. Every line is ended. -/
def textOf (code : List Code) : String :=
  String.join ((linesOf code).map (· ++ "\n"))

end ScriptCompiler.Prelude
