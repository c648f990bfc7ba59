import ScriptCompiler.Files.Error
import ScriptCompiler.Files.Path
import ScriptCompiler.Source.Tree

/-!
# Devices

Some answers of a file system are not told by its entries: which name a temporary file gets, and
whether there is room for what is written. A `Device` gives them. It may take any name for a
temporary file that nothing else has, and it may refuse a new file, or refuse contents after it has
taken a part of them. It decides by the directory as it is asked for and by the contents, so it
answers the same when it is asked again.

`Device.standard` takes the first free name in the order of letters and refuses nothing.
-/

namespace ScriptCompiler

/-- What a file holds: bytes, or a module in the form in which the front end stores it. -/
inductive Contents where
  | bytes (data : ByteArray)
  | checked (m : Source.Module)

namespace Contents

def ofText (text : String) : Contents := .bytes text.toUTF8

def empty : Contents := .bytes .empty

end Contents

/-! ## Temporary names -/

def nameLetters : List Char :=
  "ABCDEFGHIJKLMNOPQRSTUVWXYZabcdefghijklmnopqrstuvwxyz0123456789".toList

/-- The name is that of a temporary file: a fixed start, and six letters or digits. -/
def IsTemporaryName (name : String) : Prop :=
  ∃ tail : List Char, tail.length = 6 ∧ (∀ c ∈ tail, c ∈ nameLetters) ∧
    name = String.ofList (".tmp".toList ++ tail)

structure Device where
  /-- The name of a new temporary file in a directory that has the `taken` names. -/
  temporaryName : (taken : List String) → String
  isTemporaryName (taken : List String) : IsTemporaryName (temporaryName taken)
  /-- Only where every such name is taken is the name of a new file taken too. -/
  not_taken {taken : List String} : (∃ name, IsTemporaryName name ∧ name ∉ taken) →
    temporaryName taken ∉ taken
  /-- Why there can be no new temporary file in a directory. -/
  creation : (dir : Path) → Option FileError
  /-- Why contents are refused for a file in a directory, and the part that it took before. -/
  writing : (dir : Path) → Contents → Option (FileError × Contents)

/-! ## The first free name -/

/-- The first name that is not taken, of those that go on from `front` with `size` letters. -/
def freeName? (taken : List String) : (size : Nat) → (front : List Char) → Option String
  | 0, front => if String.ofList front ∈ taken then none else some (String.ofList front)
  | size + 1, front => nameLetters.findSome? fun c => freeName? taken size (front ++ [c])

section FreeName

variable {taken : List String} {size : Nat} {front : List Char}

theorem exists_of_freeName? {name : String} (h : freeName? taken size front = some name) :
    name ∉ taken ∧ ∃ tail : List Char, tail.length = size ∧ (∀ c ∈ tail, c ∈ nameLetters) ∧
      name = String.ofList (front ++ tail) := by
  induction size generalizing front with
  | zero =>
    unfold freeName? at h
    split at h
    · cases h
    · next hfree =>
      obtain rfl := Option.some.inj h
      exact ⟨hfree, [], rfl, by simp, by rw [List.append_nil]⟩
  | succ size ih =>
    obtain ⟨c, hc, hrest⟩ := List.exists_of_findSome?_eq_some h
    obtain ⟨hfree, tail, hsize, hletters, rfl⟩ := ih hrest
    refine ⟨hfree, c :: tail, by rw [List.length_cons, hsize], ?_, by simp⟩
    exact List.forall_mem_cons.mpr ⟨hc, hletters⟩

/-- The search misses no name. -/
theorem isSome_freeName? {tail : List Char} (hsize : tail.length = size)
    (hletters : ∀ c ∈ tail, c ∈ nameLetters) (hfree : String.ofList (front ++ tail) ∉ taken) :
    (freeName? taken size front).isSome := by
  induction tail generalizing size front with
  | nil =>
    obtain rfl : 0 = size := hsize
    rw [List.append_nil] at hfree
    simp [freeName?, hfree]
  | cons c tail ih =>
    obtain rfl : tail.length + 1 = size := hsize
    rw [List.forall_mem_cons] at hletters
    have hfree' : String.ofList (front ++ [c] ++ tail) ∉ taken := by simpa using hfree
    exact List.findSome?_isSome_iff.mpr ⟨c, hletters.1, ih rfl hletters.2 hfree'⟩

end FreeName

def Device.standard : Device where
  temporaryName taken :=
    (freeName? taken 6 ".tmp".toList).getD (String.ofList (".tmp".toList ++ List.replicate 6 'A'))
  isTemporaryName taken := by
    cases hfree : freeName? taken 6 ".tmp".toList with
    | none => exact ⟨_, List.length_replicate, fun c hc => by
        rw [List.eq_of_mem_replicate hc]
        decide, rfl⟩
    | some name =>
      obtain ⟨-, tail, hsize, hletters, rfl⟩ := exists_of_freeName? hfree
      exact ⟨tail, hsize, hletters, rfl⟩
  not_taken {taken} := by
    rintro ⟨_, ⟨tail, hsize, hletters, rfl⟩, hfree⟩
    obtain ⟨name, hname⟩ := Option.isSome_iff_exists.mp (isSome_freeName? hsize hletters hfree)
    rw [hname]
    exact (exists_of_freeName? hname).1
  creation _ := none
  writing _ _ := none

end ScriptCompiler
