import ScriptCompiler.Files.Resolve
import ScriptCompiler.Prelude.Text

/-!
# Listings

What is below a directory, each entry with what it is. A file that starts with the prelude is an
output, and is shown without it.
-/

namespace ScriptCompiler.Build

inductive Listed where
  | directory
  | link (target : Path)
  /-- A stored module. -/
  | checked
  /-- An output, with the text after the prelude. -/
  | output (body : String)
  | text (contents : String)
  /-- Bytes that are no text. -/
  | binary
  deriving DecidableEq, Repr

/-- What follows `head` in a text that starts with it. -/
def after? (head text : String) : Option String :=
  if head.toList.isPrefixOf text.toList then
    some (String.ofList (text.toList.drop head.toList.length))
  else none

def listed : Entry → Listed
  | .directory => .directory
  | .link target => .link target
  | .file (.checked _) => .checked
  | .file (.bytes data) =>
    match String.fromUTF8? data with
    | none => .binary
    | some text =>
      match after? Prelude.text text with
      | some body => .output body
      | none => .text text

/-- The entries below a directory in the order of locations, with their paths. Nothing is listed
for a path that leads to no directory. -/
def listing (fs : FileSystem) (dir : Path) : List (Path × Listed) :=
  match fs.openDirectory dir with
  | .error _ => []
  | .ok loc => (fs.below loc).map fun (names, entry) =>
    (⟨dir.text ++ "/" ++ (Path.ofNames names).text⟩, listed entry)

end ScriptCompiler.Build
