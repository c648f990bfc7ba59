import ScriptCompiler.Files.Error
import ScriptCompiler.Files.Path

/-!
# Build errors

What can go wrong in a build, with the path it is about and the cause.
-/

namespace ScriptCompiler.Build

/-- Why a source gives no module. -/
inductive SourceError where
  | unreadable (cause : FileError)
  /-- The front end refuses the source, for a reason in words. -/
  | invalid (reason : String)
  deriving DecidableEq, Repr

def SourceError.message : SourceError → String
  | unreadable _ => "read failed"
  | invalid reason => reason

/-- What a build reports as failed. -/
inductive BuildError where
  /-- A directory of sources cannot be listed. -/
  | walk (path : Path) (cause : FileError)
  | createDirectory (path : Path) (cause : FileError)
  | source (path : Path) (cause : SourceError)
  | write (path : Path) (cause : FileError)
  deriving DecidableEq, Repr

namespace BuildError

def path : BuildError → Path
  | walk p _ | createDirectory p _ | source p _ | write p _ => p

/-- The error in words, without its cause. -/
def message : BuildError → String
  | walk p _ => "cannot read source tree at " ++ p.text
  | createDirectory p _ => "cannot create output directory " ++ p.text
  | source p _ => "cannot load unit " ++ p.text
  | write p _ => "cannot write " ++ p.text

end BuildError

end ScriptCompiler.Build
