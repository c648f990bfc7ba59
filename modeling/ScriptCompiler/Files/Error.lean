/-!
# File errors

Why the file system refuses a request. `FileError.message` is the system's own wording.
-/

namespace ScriptCompiler

inductive FileError where
  /-- A step of the path leads to nothing. -/
  | notFound
  /-- A step goes on from something other than a directory. -/
  | notADirectory
  | isADirectory
  | alreadyExists
  /-- A directory that has to be empty is not. -/
  | notEmpty
  /-- Too many links on the way. -/
  | linkLoop
  | nameTooLong
  /-- The path ends in a step that is no name of an entry. -/
  | busy
  /-- A directory cannot move into itself. -/
  | invalidMove
  /-- The path holds a NUL. -/
  | invalidPath
  /-- The bytes of a file are no text. -/
  | invalidText
  deriving DecidableEq, Repr

def FileError.message : FileError → String
  | notFound => "No such file or directory (os error 2)"
  | notADirectory => "Not a directory (os error 20)"
  | isADirectory => "Is a directory (os error 21)"
  | alreadyExists => "File exists (os error 17)"
  | notEmpty => "Directory not empty (os error 39)"
  | linkLoop => "Too many levels of symbolic links (os error 40)"
  | nameTooLong => "File name too long (os error 36)"
  | busy => "Device or resource busy (os error 16)"
  | invalidMove => "Invalid argument (os error 22)"
  | invalidPath => "file name contained an unexpected NUL byte"
  | invalidText => "stream did not contain valid UTF-8"

end ScriptCompiler
