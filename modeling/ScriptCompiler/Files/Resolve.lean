import ScriptCompiler.Files.Error
import ScriptCompiler.Files.System

/-!
# Finding the location of a path

`follow` goes through the steps of a path from a directory on. A step that meets a link goes on
with the steps of its target, at most `maxLinks` times in all. A silent step stays where it is, but
only a directory lets any step go on, so a slash behind the name of a file is refused.

`resolve` finds an entry and follows a link at its end; `slot` finds the directory that an entry is
in, and the name under which it is or would be there, and follows no link at its end.
-/

namespace ScriptCompiler

def maxLinks : Nat := 40

/-- The number of bytes that a path may have. -/
def maxPathSize : Nat := 4095

def isTooLong (name : String) : Bool := maxNameSize < name.utf8ByteSize

/-- What can be said of a path before it is looked up. -/
def Path.check (p : Path) : Except FileError Unit :=
  if '\x00' ∈ p.text.toList then .error .invalidPath
  else if p.text = "" then .error .notFound
  else if maxPathSize < p.text.utf8ByteSize then .error .nameTooLong
  else .ok ()

namespace FileSystem

/-- Goes through steps from a location on, up to a link, where `onLink` takes over with the place
where the target starts and the steps that are left. The last step may lead to nothing. -/
def followSteps (fs : FileSystem) (onLink : Location → List String → Except FileError Location) :
    Location → List String → Except FileError Location
  | here, [] => .ok here
  | here, step :: steps =>
    if !fs.isDirectoryAt here then .error .notADirectory
    else if Path.isSilent step then fs.followSteps onLink here steps
    else if step = ".." then fs.followSteps onLink here.dropLast steps
    else if isTooLong step then .error .nameTooLong
    else
      match fs.get? (here ++ [step]) with
      | none => if steps.isEmpty then .ok (here ++ [step]) else .error .notFound
      | some (.link target) =>
        onLink (if target.isAbsolute then [] else here) (target.steps ++ steps)
      | some _ => fs.followSteps onLink (here ++ [step]) steps

/-- Goes through steps and at most `links` links. -/
def follow (fs : FileSystem) : (links : Nat) → Location → List String → Except FileError Location
  | 0 => fs.followSteps fun _ _ => .error .linkLoop
  | links + 1 => fs.followSteps (fs.follow links)

def startOf (fs : FileSystem) (p : Path) : Location :=
  if p.isAbsolute then [] else fs.workDir

/-- The location that a path leads to, which may be vacant. -/
def locate (fs : FileSystem) (p : Path) : Except FileError Location := do
  p.check
  fs.follow maxLinks (fs.startOf p) p.steps

def resolve (fs : FileSystem) (p : Path) : Except FileError (Location × Entry) := do
  let loc ← fs.locate p
  match fs.get? loc with
  | some entry => return (loc, entry)
  | none => throw .notFound

def isDirectory (fs : FileSystem) (p : Path) : Bool :=
  match fs.resolve p with
  | .ok (_, .directory) => true
  | _ => false

def openDirectory (fs : FileSystem) (p : Path) : Except FileError Location := do
  match ← fs.resolve p with
  | (loc, .directory) => return loc
  | _ => throw .notADirectory

def readFile (fs : FileSystem) (p : Path) : Except FileError Contents := do
  match ← fs.resolve p with
  | (_, .file contents) => return contents
  | (_, .directory) => throw .isADirectory
  | (_, .link _) => throw .linkLoop

/-- The place of an entry: its directory, and its name there unless the path ends in a step that is
no name. `slash` says that a slash follows the name. -/
structure Slot where
  dir : Location
  name : Option String
  slash : Bool

def slot (fs : FileSystem) (p : Path) : Except FileError Slot := do
  p.check
  let named := (p.steps.reverse.dropWhile (· == "")).reverse
  let dir ← fs.follow maxLinks (fs.startOf p) (named.dropLast ++ [""])
  return ⟨dir, named.getLast?.filter fun step => step != "." && step != "..",
    named.length < p.steps.length⟩

/-- The location that a path names, refused with `onOther` if it ends in a step that is no name. -/
def slotLocation (fs : FileSystem) (p : Path) (onOther : FileError) :
    Except FileError (Location × Bool) := do
  let slot ← fs.slot p
  match slot.name with
  | none => throw onOther
  | some name =>
    if isTooLong name then throw .nameTooLong
    return (slot.dir ++ [name], slot.slash)

end FileSystem

end ScriptCompiler
