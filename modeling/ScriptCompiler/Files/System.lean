import Std.Data.ExtTreeMap
import ScriptCompiler.Files.Device

/-!
# File systems

A file system maps locations to entries. A location is the list of names on the way from the root,
so nothing is reached under two locations except through links, and the entries below a directory
are those whose location extends its own. Locations are ordered name by name, and names by their
bytes: a directory comes right before what is below it. As in paths, names are texts, so there are no
entries whose names are not UTF-8.
-/

namespace ScriptCompiler

/-- The names on the way from the root to an entry. -/
abbrev Location := List String

namespace Location

/-- The order of locations: name by name. UTF-8 keeps the order of the characters, so the order of
the characters of two names is the order of their bytes. -/
def order : Location → Location → Ordering := List.compareLex compare

instance : Std.TransCmp order := inferInstanceAs (Std.TransCmp (List.compareLex compare))

instance : Std.LawfulEqCmp order := inferInstanceAs (Std.LawfulEqCmp (List.compareLex compare))

/-- The names on the way from `dir` to a location at or below it. -/
def relativeTo : (dir loc : Location) → Option (List String)
  | [], loc => some loc
  | _ :: _, [] => none
  | a :: dir, b :: loc => if a = b then relativeTo dir loc else none

theorem relativeTo_eq_some_iff {dir loc : Location} {names : List String} :
    relativeTo dir loc = some names ↔ loc = dir ++ names := by
  induction dir generalizing loc with
  | nil => simp [relativeTo, eq_comm]
  | cons a dir ih =>
    cases loc with
    | nil => simp [relativeTo]
    | cons b loc =>
      by_cases h : a = b
      · simp [relativeTo, h, ih]
      · simp [relativeTo, h, Ne.symm h]

end Location

inductive Entry where
  | directory
  | file (contents : Contents)
  /-- A symbolic link, with the text of its target. -/
  | link (target : Path)

/-- The entry is a directory itself, not by a link. -/
def Entry.isDirectory : Entry → Bool
  | .directory => true
  | _ => false

/-- The number of bytes that a name may have. -/
def maxNameSize : Nat := 255

/-- The entries of a file system, the root among them, where relative paths start, and the device
that the entries are on. -/
structure FileSystem where
  entries : Std.ExtTreeMap Location Entry Location.order
  workDir : Location
  device : Device

namespace FileSystem

def get? (fs : FileSystem) (loc : Location) : Option Entry := fs.entries[loc]?

def isDirectoryAt (fs : FileSystem) (loc : Location) : Bool :=
  (fs.get? loc).any Entry.isDirectory

def put (fs : FileSystem) (loc : Location) (entry : Entry) : FileSystem :=
  { fs with entries := fs.entries.insert loc entry }

def erase (fs : FileSystem) (loc : Location) : FileSystem :=
  { fs with entries := fs.entries.erase loc }

/-- The entries below a directory in the order of locations, each with the names that lead to it. -/
def below (fs : FileSystem) (dir : Location) : List (List String × Entry) :=
  fs.entries.toList.filterMap fun (loc, entry) =>
    match Location.relativeTo dir loc with
    | some (name :: names) => some (name :: names, entry)
    | _ => none

def namesIn (fs : FileSystem) (dir : Location) : List String :=
  (fs.below dir).filterMap fun
    | ([name], _) => some name
    | _ => none

/-- The file system without an entry and all below it. -/
def eraseTree (fs : FileSystem) (loc : Location) : FileSystem :=
  { fs with entries := fs.entries.filter fun k _ => (Location.relativeTo loc k).isNone }

/-- The file system with an entry, and all below it, moved to another location. -/
def moveTree (fs : FileSystem) (source target : Location) : FileSystem :=
  match fs.get? source with
  | none => fs
  | some entry =>
    let moved := (fs.below source).map fun (names, e) => (target ++ names, e)
    ((target, entry) :: moved).foldl (fun fs (loc, e) => fs.put loc e) (fs.eraseTree source)

/-- An empty working directory, in the root. -/
def fresh : FileSystem :=
  ((⟨∅, ["work"], .standard⟩ : FileSystem).put [] .directory).put ["work"] .directory

/-! ## Views -/

/-- A file system is what it holds at every location, where relative paths start, and its device. -/
theorem ext_get? {a b : FileSystem} (h : ∀ loc, a.get? loc = b.get? loc)
    (hw : a.workDir = b.workDir) (hd : a.device = b.device) : a = b := by
  obtain ⟨ea, wa, da⟩ := a
  obtain ⟨eb, wb, db⟩ := b
  obtain rfl : ea = eb := Std.ExtTreeMap.ext_getElem? h
  obtain rfl : wa = wb := hw
  obtain rfl : da = db := hd
  rfl

theorem get?_put (fs : FileSystem) (loc : Location) (entry : Entry) (other : Location) :
    (fs.put loc entry).get? other = if loc = other then some entry else fs.get? other := by
  simp [get?, put, Std.ExtTreeMap.getElem?_insert]

theorem get?_erase (fs : FileSystem) (loc other : Location) :
    (fs.erase loc).get? other = if loc = other then none else fs.get? other := by
  simp [get?, erase, Std.ExtTreeMap.getElem?_erase]

theorem mem_below {fs : FileSystem} {dir : Location} {names : List String} {entry : Entry} :
    (names, entry) ∈ fs.below dir ↔ names ≠ [] ∧ fs.get? (dir ++ names) = some entry := by
  simp only [below, List.mem_filterMap, Prod.exists, get?]
  constructor
  · rintro ⟨loc, e, hmem, h⟩
    split at h
    · rename_i name rest hrel
      obtain rfl := Location.relativeTo_eq_some_iff.1 hrel
      simp only [Option.some.injEq, Prod.mk.injEq] at h
      obtain ⟨rfl, rfl⟩ := h
      exact ⟨by simp, Std.ExtTreeMap.mem_toList_iff_getElem?_eq_some.1 hmem⟩
    · simp at h
  · rintro ⟨hne, hget⟩
    refine ⟨dir ++ names, entry, Std.ExtTreeMap.mem_toList_iff_getElem?_eq_some.2 hget, ?_⟩
    obtain ⟨name, rest, rfl⟩ := List.exists_cons_of_ne_nil hne
    rw [Location.relativeTo_eq_some_iff.2 rfl]

theorem mem_namesIn {fs : FileSystem} {dir : Location} {name : String} :
    name ∈ fs.namesIn dir ↔ (fs.get? (dir ++ [name])).isSome := by
  rw [namesIn, List.mem_filterMap, Option.isSome_iff_exists]
  constructor
  · rintro ⟨⟨names, entry⟩, hmem, hname⟩
    split at hname
    · next found _ heq =>
      obtain ⟨rfl, -⟩ := Prod.mk.inj heq
      obtain rfl := Option.some.inj hname
      exact ⟨entry, (mem_below.mp hmem).2⟩
    · cases hname
  · rintro ⟨entry, hget⟩
    exact ⟨([name], entry), mem_below.mpr ⟨by simp, hget⟩, rfl⟩

/-! ## Well-formed file systems -/

/-- A name that an entry can have. -/
def IsName (name : String) : Prop :=
  name ≠ "" ∧ name ≠ "." ∧ name ≠ ".." ∧ '/' ∉ name.toList ∧ '\x00' ∉ name.toList ∧
    name.utf8ByteSize ≤ maxNameSize

/-- The root is a directory, every other entry is in a directory and has a name of its own, and
relative paths start in a directory. -/
structure WellFormed (fs : FileSystem) : Prop where
  root : fs.get? [] = some .directory
  parent {dir : Location} {name : String} : (fs.get? (dir ++ [name])).isSome →
    IsName name ∧ fs.get? dir = some .directory
  workDir : fs.get? fs.workDir = some .directory

theorem get?_fresh (loc : Location) :
    fresh.get? loc = if ["work"] = loc ∨ [] = loc then some .directory else none := by
  have hempty : (⟨∅, ["work"], .standard⟩ : FileSystem).get? loc = none := by simp [get?]
  by_cases h : ["work"] = loc <;> by_cases h' : [] = loc <;>
    simp [fresh, get?_put, h, h', hempty]

theorem fresh_wellFormed : fresh.WellFormed where
  root := by simp [get?_fresh]
  parent {dir name} h := by
    have hloc : ["work"] = dir ++ [name] := by
      by_cases hl : ["work"] = dir ++ [name]
      · exact hl
      · simp [get?_fresh, hl] at h
    obtain ⟨rfl, rfl⟩ : dir = [] ∧ name = "work" := by
      cases dir with
      | nil => simpa [eq_comm] using hloc
      | cons a dir => simp at hloc
    exact ⟨⟨by decide, by decide, by decide, by decide, by decide, by decide⟩, by simp [get?_fresh]⟩
  workDir := by simp [get?_fresh, show fresh.workDir = ["work"] from rfl]

end FileSystem

end ScriptCompiler
