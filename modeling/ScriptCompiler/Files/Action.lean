import ScriptCompiler.Files.Resolve

/-!
# Changing a file system

The requests that change a file system. A single request either is refused or changes the file
system, never both; `FileM` strings requests together and keeps what was changed before one of them
is refused.
-/

namespace ScriptCompiler

namespace FileSystem

/-- A new directory. Its parent has to be there. -/
def createDirectory (fs : FileSystem) (p : Path) : Except FileError FileSystem := do
  let (loc, _) ← fs.slotLocation p .alreadyExists
  match fs.get? loc with
  | some _ => throw .alreadyExists
  | none => return fs.put loc .directory

/-- A new file or link, which is not made behind a link. -/
def createEntry (fs : FileSystem) (p : Path) (entry : Entry) : Except FileError FileSystem := do
  let (loc, slash) ← fs.slotLocation p .alreadyExists
  match fs.get? loc with
  | some _ => throw .alreadyExists
  | none => if slash then throw .notFound else return fs.put loc entry

/-- The file that a path leads to, with new contents. A missing file is made. -/
def writeFile (fs : FileSystem) (p : Path) (contents : Contents) : Except FileError FileSystem := do
  let loc ← fs.locate p
  match fs.get? loc with
  | some .directory => throw .isADirectory
  | _ => return fs.put loc (.file contents)

/-- No file, link or directory at a path any more, nor anything below it. -/
def remove (fs : FileSystem) (p : Path) : Except FileError FileSystem := do
  let (loc, _) ← fs.slotLocation p .busy
  match fs.get? loc with
  | none => throw .notFound
  | some .directory => return fs.eraseTree loc
  | some _ => return fs.erase loc

/-- An entry under another path. A file or link that is there is replaced, and so is an empty
directory by a directory. -/
def rename (fs : FileSystem) (source target : Path) : Except FileError FileSystem := do
  let (old, oldSlash) ← fs.slotLocation source .busy
  let (new, newSlash) ← fs.slotLocation target .busy
  match fs.get? old with
  | none => throw .notFound
  | some .directory =>
    if old = new then return fs
    if (Location.relativeTo old new).isSome then throw .invalidMove
    match fs.get? new with
    | none => return fs.moveTree old new
    | some .directory =>
      if (fs.below new).isEmpty then return fs.moveTree old new else throw .notEmpty
    | some _ => throw .notADirectory
  | some entry =>
    if oldSlash || newSlash then throw .notADirectory
    match fs.get? new with
    | some .directory => throw .isADirectory
    | _ => return (fs.erase old).put new entry

def temporaryName (fs : FileSystem) (dir : Location) : String :=
  fs.device.temporaryName (fs.namesIn dir)

/-- A new temporary file in a directory, which is empty, and its path. -/
def createTemporary (fs : FileSystem) (dir : Path) : Except FileError (Path × FileSystem) := do
  let loc ← fs.openDirectory dir
  match fs.device.creation dir with
  | some e => throw e
  | none =>
    let path := dir.join ⟨fs.temporaryName loc⟩
    return (path, ← fs.createEntry path (.file .empty))

end FileSystem

abbrev FileM := ExceptT FileError (StateM FileSystem)

namespace FileM

def request (f : FileSystem → Except FileError FileSystem) : FileM Unit := do
  match f (← get) with
  | .ok fs => set fs
  | .error e => throw e

/-- Makes a directory and, if its parent is missing, the parent by `makeParent` first. A directory
that is there already is as good as a new one. -/
def ensureDirectory (p : Path) (makeParent : FileM Unit) : FileM Unit := do
  match (← get).createDirectory p with
  | .ok fs => set fs
  | .error .notFound =>
    makeParent
    match (← get).createDirectory p with
    | .ok fs => set fs
    | .error e => accept e
  | .error e => accept e
where
  /-- Refuses unless a directory is there. -/
  accept (e : FileError) : FileM Unit := do
    if e = .alreadyExists ∧ (← get).isDirectory p then return else throw e

/-- Makes the directory that steps lead to, given in reverse. -/
def ensureSteps (absolute : Bool) : (reversed : List String) → FileM Unit
  | [] => return
  | step :: above =>
    if Path.counted absolute (step :: above).reverse = (step :: above).reverse then
      ensureDirectory (.ofSteps absolute (step :: above).reverse) (ensureSteps absolute above)
    else ensureSteps absolute above

/-- Makes a directory and the ones above it. The empty path asks for nothing. -/
def createDirectories (p : Path) : FileM Unit :=
  match p.countedSteps.reverse with
  | [] => return
  | _ :: above => ensureDirectory p (ensureSteps p.isAbsolute above)

def directoryOf (p : Path) : Path :=
  match p.parent? with
  | some dir => if dir.text = "" then ⟨"."⟩ else dir
  | none => ⟨"."⟩

def createTemporary (dir : Path) : FileM Path := do
  match (← get).createTemporary dir with
  | .ok (temporary, fs) =>
    set fs
    return temporary
  | .error e => throw e

/-- Writes contents to a file of a directory. If the device refuses them, the file is left with the
part that was taken before. -/
def writeAll (dir p : Path) (contents : Contents) : FileM Unit := do
  match (← get).device.writing dir contents with
  | none => request (·.writeFile p contents)
  | some (e, part) =>
    request (·.writeFile p part)
    throw e

/-- Gives a file new contents in one step: they are written to a temporary file in the same
directory, which then takes the place of the file. If either is refused the temporary file goes. -/
def replaceFile (p : Path) (contents : Contents) : FileM Unit := do
  let temporary ← createTemporary (directoryOf p)
  tryCatch (do
    writeAll (directoryOf p) temporary contents
    request (·.rename temporary p)) fun e => do
      request (·.remove temporary)
      throw e

end FileM

end ScriptCompiler
