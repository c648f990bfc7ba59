import ScriptCompiler.Build.Event
import ScriptCompiler.Build.OutputName
import ScriptCompiler.Build.UnitSource
import ScriptCompiler.Build.Walk
import ScriptCompiler.Files.Action
import ScriptCompiler.ScriptUnit

/-!
# Compiling units and trees

`compileUnit` reads one source and replaces one output. `compileTree` walks a tree of sources, makes
the directories of the outputs, and compiles every unit; what fails on the way is collected in the
summary and keeps nothing else from being built. Only a walk that fails ends the build, before
anything is written.
-/

namespace ScriptCompiler.Build

structure Job where
  path : Path
  destination : Path
  deriving DecidableEq, Repr

/-- What a build of a tree has to do: the directories to make, in order, and then the units to
compile, in any order. -/
structure Plan where
  directories : List Path
  jobs : List Job
  deriving DecidableEq, Repr

/-- The plan that gives every visited directory and file its place below `outputs`. -/
def Walk.plan (visited : Walk) (outputs : Path) : Plan where
  directories := outputs :: visited.directories.map fun names => outputs.join (.ofNames names)
  jobs := visited.files.map fun (path, names) => ⟨path, outputPath outputs names⟩

/-- The file system that a build works on, and the events in the order they were reported. -/
structure State where
  files : FileSystem
  events : Array Event := #[]

abbrev BuildM := StateM State

def report (event : Event) : BuildM Unit :=
  modify fun s => { s with events := s.events.push event }

def reportAll (events : List Event) : BuildM Unit :=
  modify fun s => { s with events := s.events ++ events }

/-- Changes the file system, and keeps what was changed before a refusal. -/
def onFiles (action : FileM α) : BuildM (Except FileError α) :=
  modifyGet fun s =>
    let (result, files) := action.run.run s.files
    (result, { s with files })

/-- Compiles the source at `path` into the output at `destination`. -/
def compileUnit (source : UnitSource) (path destination : Path) :
    BuildM (Except BuildError Unit) := do
  report (.compiling path)
  match source.parse (← get).files path with
  | .error cause => return .error (.source path cause)
  | .ok m =>
    let lowered := Lowering.lower m (source.exports m)
    reportAll (lowered.events.map .lowering)
    let result ← onFiles (FileM.replaceFile destination (.ofText (unitText lowered.tree)))
    return result.mapError (.write destination)

structure Summary where
  /-- The outputs, in the order of the walk. -/
  written : List Path
  failed : List BuildError

def Summary.hasErrors (summary : Summary) : Bool := !summary.failed.isEmpty

/-- Makes directories, and returns what failed. -/
def createDirectories : List Path → BuildM (List BuildError)
  | [] => return []
  | dir :: dirs => do
    report (.creatingDirectory dir)
    match ← onFiles (FileM.createDirectories dir) with
    | .ok _ => createDirectories dirs
    | .error cause =>
      report (.directoryFailed dir cause)
      return .createDirectory dir cause :: (← createDirectories dirs)

/-- Compiles units one after the other: for each its output, or what failed. -/
def compileJobs (source : UnitSource) : List Job → BuildM (List (Except BuildError Path))
  | [] => return []
  | job :: jobs => do
    let result ← compileUnit source job.path job.destination
    let results ← compileJobs source jobs
    return (result.map fun _ => job.destination) :: results

def writtenOf (results : List (Except BuildError Path)) : List Path :=
  results.filterMap Except.toOption

def failedOf (results : List (Except BuildError Path)) : List BuildError :=
  results.filterMap fun
    | .ok _ => none
    | .error e => some e

def Plan.run (source : UnitSource) (plan : Plan) : BuildM Summary := do
  let directoryErrors ← createDirectories plan.directories
  let results ← compileJobs source plan.jobs
  let unitErrors := failedOf results
  reportAll (unitErrors.map .unitFailed)
  let summary : Summary := ⟨writtenOf results, directoryErrors ++ unitErrors⟩
  report (.finished summary.written.length summary.failed.length)
  return summary

/-- Compiles the tree of sources at `sources` into the tree of outputs at `outputs`. -/
def compileTree (source : UnitSource) (sources outputs : Path) :
    BuildM (Except BuildError Summary) := do
  report (.started sources outputs)
  let visited := walk (← get).files sources
  match visited.failure with
  | some e => return .error e
  | none => return .ok (← (visited.plan outputs).run source)

end ScriptCompiler.Build
