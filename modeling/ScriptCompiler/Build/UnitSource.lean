import ScriptCompiler.Build.Error
import ScriptCompiler.Files.Resolve
import ScriptCompiler.Source.Scope

/-!
# Sources of units

The compiler leaves reading and checking to a front end: `UnitSource` asks it for the module of a
path, and for the names that the module shows.
-/

namespace ScriptCompiler.Build

/-- A front end. It reads the file system and does not change it. -/
structure UnitSource where
  parse : FileSystem → Path → Except SourceError Source.Module
  exports : Source.Module → List String := Source.Module.exports

def printing (text : String) : Source.Module :=
  ⟨[.expr (.call (.name "print") [.str text])]⟩

/-- The module of a text: a text that starts with an exclamation mark is refused with itself as the
reason, and any other becomes a module that prints it. -/
def moduleOfText (text : String) : Except SourceError Source.Module :=
  if text.toList.head? = some '!' then .error (.invalid text) else .ok (printing text)

/-- The module of a file: a stored one as it is, else the one of its text. -/
def readModule (fs : FileSystem) (p : Path) : Except SourceError Source.Module :=
  match fs.readFile p with
  | .error cause => .error (.unreadable cause)
  | .ok (.checked m) => .ok m
  | .ok (.bytes data) =>
    match String.fromUTF8? data with
    | none => .error (.unreadable .invalidText)
    | some text => moduleOfText text

/-- The simplest front end. It shows the given names for every module if there are any given. -/
def UnitSource.plain (exports : Option (List String)) : UnitSource where
  parse := readModule
  exports m := exports.getD m.exports

end ScriptCompiler.Build
