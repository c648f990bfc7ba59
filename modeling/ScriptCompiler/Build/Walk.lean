import ScriptCompiler.Build.Error
import ScriptCompiler.Files.Resolve

/-!
# Walking a tree of sources

The walk visits a directory before what is in it, and the entries of a directory in the order of
their names. Real directories are entered. A link to a directory is visited as one and not entered,
so links that lead back into the tree do no harm. The walk ends early only at a directory that
cannot be opened by its path.
-/

namespace ScriptCompiler.Build

/-- A step of the walk. `relative` are the names that lead there from the root of the walk. -/
inductive Visit where
  | directory (relative : List String)
  | file (path : Path) (relative : List String)
  deriving DecidableEq, Repr

def Visit.relative : Visit → List String
  | directory relative => relative
  | file _ relative => relative

/-- The visits that were made, and the error that ended the walk early. -/
structure Walk where
  visits : List Visit
  failure : Option BuildError

def Walk.cons (visit : Visit) (walk : Walk) : Walk := { walk with visits := visit :: walk.visits }

def visitLink (fs : FileSystem) (path : Path) (relative : List String) : Visit :=
  if fs.isDirectory path then .directory relative else .file path relative

/-- Visits entries below `root`, given with the names that lead to them. -/
def walkEntries (fs : FileSystem) (root : Path) : List (List String × Entry) → Walk
  | [] => ⟨[], none⟩
  | (names, entry) :: entries =>
    let path := root.join (.ofNames names)
    match entry with
    | .directory =>
      match fs.openDirectory path with
      | .ok _ => (walkEntries fs root entries).cons (.directory names)
      | .error cause => ⟨[.directory names], some (.walk path cause)⟩
    | .link _ => (walkEntries fs root entries).cons (visitLink fs path names)
    | .file _ => (walkEntries fs root entries).cons (.file path names)

/-- Walks the tree at `root`. A root that is a file is the only visit. -/
def walk (fs : FileSystem) (root : Path) : Walk :=
  match fs.resolve root with
  | .error cause => ⟨[], some (.walk root cause)⟩
  | .ok (loc, .directory) => (walkEntries fs root (fs.below loc)).cons (.directory [])
  | .ok _ => ⟨[.file root root.fileName?.toList], none⟩

def Walk.directories (walk : Walk) : List (List String) :=
  walk.visits.filterMap fun
    | .directory relative => some relative
    | .file _ _ => none

def Walk.files (walk : Walk) : List (Path × List String) :=
  walk.visits.filterMap fun
    | .directory _ => none
    | .file path relative => some (path, relative)

end ScriptCompiler.Build
