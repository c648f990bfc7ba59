import ScriptCompiler.Build.Error
import ScriptCompiler.Lowering.State

/-!
# Build events

What a build reports while it runs.
-/

namespace ScriptCompiler.Build

inductive Event where
  /-- A tree is about to be compiled. -/
  | started (sources outputs : Path)
  | creatingDirectory (dir : Path)
  | directoryFailed (dir : Path) (cause : FileError)
  | compiling (path : Path)
  | lowering (event : Lowering.Event)
  | unitFailed (error : BuildError)
  /-- A tree has been compiled, with these counts. -/
  | finished (written failed : Nat)
  deriving DecidableEq, Repr

/-- The part of the program that speaks. -/
def traceTarget : String := "ternc::driver"

def Event.record : Event → Trace.Record
  | started sources outputs =>
    ⟨.debug, traceTarget, "span compile_tree",
      [("source_root", sources.text), ("destination_root", outputs.text)]⟩
  | creatingDirectory dir => ⟨.debug, traceTarget, "creating output directory", [("dir", dir.text)]⟩
  | directoryFailed dir cause =>
    ⟨.warn, traceTarget, "cannot create output directory",
      [("dir", dir.text), ("error", cause.message)]⟩
  | compiling path => ⟨.debug, traceTarget, "compiling unit", [("path", path.text)]⟩
  | lowering event => event.record
  | unitFailed error =>
    ⟨.warn, traceTarget, "unit failed", [("path", error.path.text), ("error", error.message)]⟩
  | finished written failed =>
    ⟨.info, traceTarget, "compiled tree",
      [("written", toString written), ("failed", toString failed)]⟩

end ScriptCompiler.Build
