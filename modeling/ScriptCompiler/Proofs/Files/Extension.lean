import ScriptCompiler.Proofs.Files.Spelling

/-!
# Stems and extensions

`Splits` says where a file name is divided: at its last dot, unless there is none or its only one is
its first character. A name has one stem and at most one extension (`splits_iff`), and a change of
extension keeps the stem (`withExtension_name`).
-/

namespace ScriptCompiler.Path

open Text

/-! ## Two parts of a name -/

/-- A file name, its stem and its extension. The name is divided at its last dot. A name without a
dot, or with its only dot at its head, is its own stem. -/
inductive Splits : String → String → Option String → Prop where
  | plain {name : String} (h : '.' ∉ name.toList) : Splits name name none
  | hidden {rest : String} (h : '.' ∉ rest.toList) : Splits ("." ++ rest) ("." ++ rest) none
  | cut {front ext : String} (hfront : front ≠ "") (hext : '.' ∉ ext.toList) :
      Splits (front ++ "." ++ ext) front (some ext)

/-- The name has the stem. -/
def HasStem (name s : String) : Prop := ∃ ext, Splits name s ext

theorem piecesOf_of_not_mem {sep : Char} {s : String} (h : sep ∉ s.toList) :
    piecesOf sep s = [s] := by
  simp [piecesOf, pieces_of_not_mem h]

theorem piecesOf_concat {ext : String} (front : String) (hext : '.' ∉ ext.toList) :
    piecesOf '.' (front ++ "." ++ ext) = piecesOf '.' front ++ [ext] := by
  rw [← piecesOf_of_not_mem hext]
  exact piecesOf_append '.' front ext

theorem Splits.splitExtension_eq {name s : String} {ext : Option String} (h : Splits name s ext) :
    splitExtension name = (s, ext) := by
  cases h with
  | plain h => simp [splitExtension, piecesOf_of_not_mem h]
  | @hidden rest h =>
    have hpieces : piecesOf '.' ("." ++ rest) = [""] ++ [rest] := piecesOf_concat "" h
    simp [splitExtension, hpieces]
  | cut hfront hext =>
    have hpieces := piecesOf_concat s hext
    have hjoin := joinedBy_piecesOf '.' s
    unfold splitExtension
    dsimp only
    rw [hpieces, List.dropLast_concat]
    split
    · next hnil => exact absurd hnil (piecesOf_ne_nil '.' s)
    · next hempty =>
      rw [hempty] at hjoin
      exact absurd hjoin.symm hfront
    · rw [hjoin, List.getLast?_concat]

/-- A name with a dot in it has a last one. -/
theorem exists_last_dot {name : String} (h : '.' ∈ name.toList) :
    ∃ front ext, name = front ++ "." ++ ext ∧ '.' ∉ ext.toList := by
  have hne := piecesOf_ne_nil '.' name
  have hlast := not_mem_of_mem_piecesOf (List.getLast_mem hne)
  have hjoin := joinedBy_piecesOf '.' name
  rw [← List.dropLast_concat_getLast hne] at hjoin
  by_cases hfront : (piecesOf '.' name).dropLast = []
  · rw [hfront, List.nil_append] at hjoin
    have hname : (piecesOf '.' name).getLast hne = name := by simpa [joinedBy] using hjoin
    rw [hname] at hlast
    exact absurd h hlast
  · rw [joinedBy_concat '.' hfront] at hjoin
    exact ⟨_, _, hjoin.symm, hlast⟩

theorem exists_splits (name : String) : ∃ s ext, Splits name s ext := by
  by_cases hdot : '.' ∈ name.toList
  · obtain ⟨front, ext, rfl, hext⟩ := exists_last_dot hdot
    by_cases hfront : front = ""
    · rw [hfront, String.empty_append]
      exact ⟨_, _, .hidden hext⟩
    · exact ⟨_, _, .cut hfront hext⟩
  · exact ⟨_, _, .plain hdot⟩

theorem splits_iff {name s : String} {ext : Option String} :
    Splits name s ext ↔ splitExtension name = (s, ext) := by
  refine ⟨Splits.splitExtension_eq, fun heq => ?_⟩
  obtain ⟨s', ext', h⟩ := exists_splits name
  obtain ⟨rfl, rfl⟩ := Prod.mk.inj (h.splitExtension_eq.symm.trans heq)
  exact h

theorem hasStem_iff {name s : String} : HasStem name s ↔ stem name = s := by
  simp only [HasStem, splits_iff, stem]
  exact ⟨fun ⟨ext, h⟩ => by rw [h], fun h => ⟨_, by rw [← h]⟩⟩

theorem mem_of_mem_stem {name : String} {c : Char} (h : c ∈ (stem name).toList) :
    c ∈ name.toList := by
  obtain ⟨s, ext, hsplits⟩ := exists_splits name
  rw [stem, hsplits.splitExtension_eq] at h
  cases hsplits with
  | plain | hidden => exact h
  | cut => simp [h]

/-! ## Another extension -/

/-- The extension of a name is replaced, or added where there is none. A stem of one dot makes two
with the dot behind it: these are no file name, and get no extension. -/
theorem withExtension_name {name : String} (h : IsStep name) (hdot : name ≠ ".") (hup : name ≠ "..")
    (ext : String) : (⟨name⟩ : Path).withExtension ext =
      if stem name = "." then ⟨".."⟩ else ⟨stem name ++ "." ++ ext⟩ := by
  have hsilent := h.not_silent hdot
  have hsteps : (⟨name⟩ : Path).steps = [] ++ [name] := steps_name h
  have hcounted : (⟨name⟩ : Path).countedSteps = [name] := by
    rw [countedSteps, hsteps, counted_concat _ _ hsilent, List.nil_append]
  have hname : ∀ last, ofSteps (⟨name⟩ : Path).isAbsolute [last] = ⟨last⟩ := by
    intro last
    rw [isAbsolute_name h]
    exact ofNames_singleton last
  rw [withExtension, fileName?_eq hsteps hsilent hup, hcounted]
  obtain ⟨s, old, hsplits⟩ := exists_splits name
  have hsplit := hsplits.splitExtension_eq
  cases hsplits with
  | plain | hidden => simp [stem, hsplit, hname, hdot]
  | cut => simp [stem, hsplit, hname, hsteps]

end ScriptCompiler.Path
