import ScriptCompiler.Files.Path

/-!
# Names of outputs

A unit is written under the name of its source with the extension of scripts. The initializer of a
package is written under the name that a script host loads for a directory.
-/

namespace ScriptCompiler.Build

/-- The source that stands for its package. -/
def initializerName : String := "__init__.py"

/-- The script that stands for its directory. -/
def entryName : String := "index.js"

def scriptExtension : String := "js"

def outputFileName (name : Path) : Path :=
  if name.sameAs ⟨initializerName⟩ then ⟨entryName⟩ else name.withExtension scriptExtension

/-- The output of the source that is reached through `relative` from the root of the sources. -/
def outputPath (destination : Path) (relative : List String) : Path :=
  let path := destination.join (.ofNames relative)
  match relative.getLast? with
  | some name => path.withFileName (outputFileName ⟨name⟩)
  | none => path

end ScriptCompiler.Build
