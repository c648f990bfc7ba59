import ScriptCompiler.Text.Pieces

/-!
# Paths

A path is a text whose steps stand between slashes. Empty steps and single dots say nothing, except
that a dot at the head of a relative path counts as a step of its own; a double dot is a step like
any other, since what it means depends on links. Operations keep the text of the steps they do not
touch, the silent ones included.

A path is a text here. Systems also allow paths whose bytes are not UTF-8; those have no counterpart.
-/

namespace ScriptCompiler

structure Path where
  text : String
  deriving DecidableEq, Repr

namespace Path

def isAbsolute (p : Path) : Bool := p.text.toList.head? == some '/'

/-- The texts between the slashes, without the empty one before a slash at the head. -/
def steps (p : Path) : List String :=
  let pieces := Text.piecesOf '/' p.text
  if p.isAbsolute then pieces.tail else pieces

def ofSteps (absolute : Bool) (steps : List String) : Path :=
  ⟨(if absolute then "/" else "") ++ Text.joinedBy '/' steps⟩

def ofNames (names : List String) : Path := ofSteps false names

/-- A step that leads nowhere else. -/
def isSilent (step : String) : Bool := step == "" || step == "."

/-- Steps without the silent ones at their end. -/
def dropSilent (steps : List String) : List String :=
  (steps.reverse.dropWhile isSilent).reverse

/-- Steps up to the last one that counts. -/
def counted (absolute : Bool) (steps : List String) : List String :=
  match absolute, steps with
  | false, "." :: rest => "." :: dropSilent rest
  | _, _ => dropSilent steps

def countedSteps (p : Path) : List String := counted p.isAbsolute p.steps

def components (p : Path) : List String :=
  match p.isAbsolute, p.steps with
  | false, "." :: rest => "." :: rest.filter (!isSilent ·)
  | _, steps => steps.filter (!isSilent ·)

/-- The two paths go through the same steps from the same start. -/
def sameAs (p q : Path) : Bool :=
  p.isAbsolute == q.isAbsolute && p.components == q.components

/-- The path without its last step; a path without steps has no parent. -/
def parent? (p : Path) : Option Path :=
  match p.countedSteps with
  | [] => none
  | steps => some (ofSteps p.isAbsolute (counted p.isAbsolute steps.dropLast))

/-- The last step, if it is a name. -/
def fileName? (p : Path) : Option String :=
  p.countedSteps.getLast?.filter fun step => step != "." && step != ".."

/-- The second path, started where the first one ends. -/
def join (p q : Path) : Path :=
  if q.isAbsolute then q
  else if p.text == "" || p.text.toList.getLast? == some '/' then ⟨p.text ++ q.text⟩
  else ⟨p.text ++ "/" ++ q.text⟩

def withFileName (p name : Path) : Path :=
  match p.fileName? with
  | some _ => (p.parent?.getD ⟨""⟩).join name
  | none => p.join name

/-- A file name in two parts, before and after its last dot. A dot at the head divides nothing. -/
def splitExtension (name : String) : String × Option String :=
  let pieces := Text.piecesOf '.' name
  match pieces.dropLast with
  | [] => (name, none)
  | [""] => (name, none)
  | front => (Text.joinedBy '.' front, pieces.getLast?)

def stem (name : String) : String := (splitExtension name).1

/-- The path with another extension on its file name, and nothing behind it.

The extension is cut from the end of the text first. A name that is then left with two dots alone
is no file name any more, and the path stays as the cut left it. -/
def withExtension (p : Path) (ext : String) : Path :=
  match p.fileName? with
  | none => p
  | some name =>
    let front := p.countedSteps.dropLast
    let (stem, old) := splitExtension name
    if stem == "." && old.isSome && p.steps == p.countedSteps then
      ofSteps p.isAbsolute (front ++ [".."])
    else
      ofSteps p.isAbsolute (front ++ [stem ++ "." ++ ext])

end Path

end ScriptCompiler
