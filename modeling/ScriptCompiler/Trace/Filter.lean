import ScriptCompiler.Text.Blank

/-!
# Filter lines

A filter line says which records are written. Blanks around it do not count. A line that is a bare
level stands for that level in the parts of this program and for warnings elsewhere; any other line
is taken as it is.
-/

namespace ScriptCompiler.Trace

def levelNames : List (List Char) :=
  ["off", "error", "warn", "info", "debug", "trace"].map String.toList

/-- A text in lower case, as far as ASCII goes. -/
def lowerCase (s : List Char) : List Char := s.map Char.toLower

def decimal (digits : List Char) : Nat :=
  digits.foldl (fun n c => n * 10 + (c.toNat - 48)) 0

/-- The text writes a number of a level, with any number of zeros in front. -/
def isLevelNumber (digits : List Char) : Bool :=
  !digits.isEmpty && digits.all Char.isDigit && decide (decimal digits ≤ 5)

def dropPlus : List Char → List Char
  | '+' :: s => s
  | s => s

/-- The text is a bare level: nothing, a name in any case, or a number. -/
def isLevel (s : List Char) : Bool :=
  s.isEmpty || levelNames.contains (lowerCase s) || isLevelNumber (dropPlus s)

/-- The parts of this program that speak in the trace. -/
def parts : List String := ["ternc", "tern_codegen"]

/-- The line that sets a level for the parts of this program. -/
def levelLine (level : String) : String :=
  ",".intercalate ("warn" :: parts.map fun part => part ++ "=" ++ level)

def directives (line : String) : String :=
  let s := Text.trim line.toList
  if isLevel s then levelLine (String.ofList (lowerCase s)) else String.ofList s

end ScriptCompiler.Trace
