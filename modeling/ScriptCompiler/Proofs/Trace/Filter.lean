import Mathlib.Data.List.Forall2
import ScriptCompiler.Proofs.Text.Trimmed
import ScriptCompiler.Trace.Filter

/-!
# Filter lines are stable

A filter is settled if it is trimmed and not a bare level. Asking for the filter of a line always
gives a settled one (`settled_directives`), and a settled filter stands for itself
(`Settled.directives_eq`); a line that is composed from a level is settled because no level has a
comma. `IsLevel` says which texts are levels without the steps of the test, and `Recased` what it is
to change the case of letters. Neither trimming nor the test for a level sees the case of a letter,
so the filter of a level does not depend on it (`directives_eq_of_lowerCase_eq`).
-/

namespace ScriptCompiler.Trace

open Text (Trimmed isBlank trim)

variable {s t : List Char}

/-! ## Case -/

theorem isAlpha_iff {c : Char} : c.isAlpha = true ↔
    (65 ≤ c.toNat ∧ c.toNat ≤ 90) ∨ (97 ≤ c.toNat ∧ c.toNat ≤ 122) := by
  have hupper : c.isUpper = true ↔ 65 ≤ c.toNat ∧ c.toNat ≤ 90 := decide_eq_true_iff
  have hlower : c.isLower = true ↔ 97 ≤ c.toNat ∧ c.toNat ≤ 122 := by
    show (decide (97 ≤ c.toNat) && decide (c.toNat ≤ 122)) = true ↔ _
    rw [Bool.and_eq_true, decide_eq_true_iff, decide_eq_true_iff]
  show (c.isUpper || c.isLower) = true ↔ _
  rw [Bool.or_eq_true, hupper, hlower]

theorem toNat_toLower (c : Char) : c.toLower.toNat =
    if 65 ≤ c.toNat ∧ c.toNat ≤ 90 then c.toNat + 32 else c.toNat := by
  unfold Char.toLower
  split
  · next h =>
    obtain ⟨hfirst, hlast⟩ : 65 ≤ c.toNat ∧ c.toNat ≤ 90 := h
    rw [if_pos ⟨hfirst, hlast⟩]
    show (c.toNat + 32) % 2 ^ 32 = c.toNat + 32
    omega
  · next h => exact (if_neg h).symm

theorem toNat_toUpper (c : Char) : c.toUpper.toNat =
    if 97 ≤ c.toNat ∧ c.toNat ≤ 122 then c.toNat - 32 else c.toNat := by
  unfold Char.toUpper
  split
  · next h =>
    obtain ⟨hfirst, hlast⟩ : 97 ≤ c.toNat ∧ c.toNat ≤ 122 := h
    rw [if_pos ⟨hfirst, hlast⟩]
    -- The difference of the two cases is added as a word.
    have hword : ('A'.val - 'a'.val).toNat = 2 ^ 32 - 32 := by decide
    show (c.val + ('A'.val - 'a'.val)).toNat = c.toNat - 32
    rw [UInt32.toNat_add, hword, Char.toNat_val]
    omega
  · next h => exact (if_neg h).symm

theorem toLower_toLower (c : Char) : c.toLower.toLower = c.toLower := by
  have hlower : ¬ (65 ≤ c.toLower.toNat ∧ c.toLower.toNat ≤ 90) := by
    rw [toNat_toLower]
    split <;> omega
  rw [← Char.toNat_inj, toNat_toLower c.toLower, if_neg hlower]

theorem toLower_toUpper (c : Char) : c.toUpper.toLower = c.toLower := by
  rw [← Char.toNat_inj, toNat_toLower, toNat_toLower, toNat_toUpper]
  split
  · rw [if_pos (by omega), if_neg (by omega)]
    omega
  · rfl

/-- The text `t` is `s` with some of its ASCII letters in the other case. -/
def Recased (s t : List Char) : Prop :=
  List.Forall₂ (fun c d => d = c ∨ d = c.toLower ∨ d = c.toUpper) s t

theorem Recased.lowerCase_eq (h : Recased s t) : lowerCase t = lowerCase s := by
  induction h with
  | nil => rfl
  | @cons c d s t hcd _ ih =>
    have hlower : d.toLower = c.toLower := by
      rcases hcd with rfl | rfl | rfl
      · rfl
      · exact toLower_toLower c
      · exact toLower_toUpper c
    simp only [lowerCase, List.map_cons] at ih ⊢
    rw [hlower, ih]

theorem recased_lowerCase (s : List Char) : Recased (lowerCase s) s := by
  induction s with
  | nil => exact .nil
  | cons c s ih =>
    refine .cons ?_ ih
    by_cases hupper : 65 ≤ c.toNat ∧ c.toNat ≤ 90
    · right; right
      rw [← Char.toNat_inj, toNat_toUpper, toNat_toLower, if_pos hupper, if_pos (by omega)]
      omega
    · left
      rw [← Char.toNat_inj, toNat_toLower, if_neg hupper]

theorem isBlank_of_isAlpha {c : Char} (h : c.isAlpha) : isBlank c = false := by
  rw [isAlpha_iff] at h
  rw [Bool.eq_false_iff]
  intro hblank
  simp only [isBlank, Text.blankRanges, List.any_cons, List.any_nil, Bool.or_eq_true,
    Bool.and_eq_true, decide_eq_true_eq, Bool.or_false] at hblank
  omega

theorem isAlpha_toLower (c : Char) : c.toLower.isAlpha = c.isAlpha := by
  rw [Bool.eq_iff_iff, isAlpha_iff, isAlpha_iff, toNat_toLower]
  split <;> omega

theorem toLower_eq_self {c : Char} (h : c.isAlpha = false) : c.toLower = c := by
  rw [Bool.eq_false_iff, ne_eq, isAlpha_iff] at h
  rw [← Char.toNat_inj, toNat_toLower, if_neg (by omega)]

theorem isBlank_toLower (c : Char) : isBlank c.toLower = isBlank c := by
  cases halpha : c.isAlpha with
  | true => rw [isBlank_of_isAlpha halpha, isBlank_of_isAlpha ((isAlpha_toLower c).trans halpha)]
  | false => rw [toLower_eq_self halpha]

theorem lowerCase_eq_self (h : ∀ c ∈ lowerCase s, c.isAlpha = false) : lowerCase s = s := by
  refine (List.map_congr_left fun c hc => ?_).trans (List.map_id s)
  exact toLower_eq_self ((isAlpha_toLower c).symm.trans (h _ (List.mem_map_of_mem hc)))

/-- Trimming does not see the case of letters. -/
theorem trim_lowerCase (s : List Char) : trim (lowerCase s) = lowerCase (trim s) := by
  have hblank : isBlank ∘ Char.toLower = isBlank := funext isBlank_toLower
  simp only [trim, Text.trimEnd, lowerCase, List.dropWhile_map, ← List.map_reverse, hblank]

theorem trimmed_lowerCase (h : Trimmed s) : Trimmed (lowerCase s) where
  head c hc := by
    rw [lowerCase, List.head?_map] at hc
    obtain ⟨d, hd, rfl⟩ := Option.map_eq_some_iff.mp hc
    exact (isBlank_toLower d).trans (h.head d hd)
  last c hc := by
    rw [lowerCase, List.getLast?_map] at hc
    obtain ⟨d, hd, rfl⟩ := Option.map_eq_some_iff.mp hc
    exact (isBlank_toLower d).trans (h.last d hd)

/-! ## Levels -/

/-- The texts that are a bare level. -/
inductive IsLevel : List Char → Prop
  | empty : IsLevel []
  | name {level : String} {s : List Char} :
      level ∈ ["off", "error", "warn", "info", "debug", "trace"] → Recased level.toList s →
      IsLevel s
  /-- A number up to five, with any number of zeros and at most one plus sign in front. -/
  | number {sign digits : List Char} : sign = [] ∨ sign = ['+'] → digits ≠ [] →
      (∀ c ∈ digits, c.isDigit) → Nat.ofDigitChars 10 digits 0 ≤ 5 → IsLevel (sign ++ digits)

theorem decimal_eq (digits : List Char) : decimal digits = Nat.ofDigitChars 10 digits 0 := by
  simp only [decimal, Nat.ofDigitChars, Nat.mul_comm 10]
  rfl

theorem isLevelNumber_iff {digits : List Char} : isLevelNumber digits = true ↔
    digits ≠ [] ∧ (∀ c ∈ digits, c.isDigit) ∧ Nat.ofDigitChars 10 digits 0 ≤ 5 := by
  simp [isLevelNumber, decimal_eq, and_assoc]

theorem mem_levelNames_iff : lowerCase s ∈ levelNames ↔
    ∃ level ∈ ["off", "error", "warn", "info", "debug", "trace"], Recased level.toList s := by
  have hlower : ∀ level ∈ ["off", "error", "warn", "info", "debug", "trace"],
      lowerCase level.toList = level.toList := by decide
  constructor
  · intro h
    obtain ⟨level, hlevel, heq⟩ := List.mem_map.mp h
    exact ⟨level, hlevel, heq ▸ recased_lowerCase s⟩
  · rintro ⟨level, hlevel, hcase⟩
    rw [hcase.lowerCase_eq, hlower level hlevel]
    exact List.mem_map_of_mem hlevel

theorem dropPlus_of_isDigit {digits : List Char} (h : ∀ c ∈ digits, c.isDigit) :
    dropPlus digits = digits := by
  unfold dropPlus
  split
  · exact absurd (h '+' List.mem_cons_self) (by decide)
  · rfl

theorem exists_sign (s : List Char) :
    ∃ sign, (sign = [] ∨ sign = ['+']) ∧ s = sign ++ dropPlus s := by
  unfold dropPlus
  split
  · exact ⟨['+'], .inr rfl, rfl⟩
  · exact ⟨[], .inl rfl, rfl⟩

theorem isLevel_iff : isLevel s = true ↔ IsLevel s := by
  simp only [isLevel, Bool.or_eq_true, List.isEmpty_iff, List.contains_iff_mem, mem_levelNames_iff,
    isLevelNumber_iff]
  constructor
  · rintro ((rfl | ⟨level, hlevel, hcase⟩) | ⟨hne, hdigits, hvalue⟩)
    · exact .empty
    · exact .name hlevel hcase
    · obtain ⟨sign, hsign, heq⟩ := exists_sign s
      rw [heq]
      exact .number hsign hne hdigits hvalue
  · intro h
    cases h with
    | empty => exact .inl (.inl rfl)
    | name hlevel hcase => exact .inl (.inr ⟨_, hlevel, hcase⟩)
    | number hsign hne hdigits hvalue =>
      right
      rcases hsign with rfl | rfl
      · rw [List.nil_append, dropPlus_of_isDigit hdigits]
        exact ⟨hne, hdigits, hvalue⟩
      · exact ⟨hne, hdigits, hvalue⟩

/-- A composed filter line has commas, so it is never read as a level. -/
theorem IsLevel.not_mem_comma (h : IsLevel s) : ',' ∉ s := by
  have hnames : ∀ name ∈ levelNames, ',' ∉ name := by decide
  intro hmem
  cases h with
  | empty => cases hmem
  | name hlevel hcase =>
    refine hnames _ (mem_levelNames_iff.mpr ⟨_, hlevel, hcase⟩) ?_
    exact List.mem_map_of_mem (f := Char.toLower) hmem
  | number hsign _ hdigits _ =>
    rcases List.mem_append.mp hmem with hmem | hmem
    · rcases hsign with rfl | rfl <;> simp at hmem
    · exact absurd (hdigits ',' hmem) (by decide)

theorem not_isAlpha_of_isDigit {c : Char} (h : c.isDigit) : c.isAlpha = false := by
  have hnine : '9'.toNat = 57 := rfl
  rw [Char.isDigit_iff_toNat, hnine] at h
  rw [Bool.eq_false_iff, ne_eq, isAlpha_iff]
  omega

theorem IsLevel.of_lowerCase_eq (h : IsLevel s) (hst : lowerCase t = lowerCase s) : IsLevel t := by
  cases h with
  | empty =>
    rw [lowerCase, lowerCase, List.map_nil, List.map_eq_nil_iff] at hst
    exact hst ▸ .empty
  | name hlevel hcase =>
    have hname : lowerCase t ∈ levelNames := hst ▸ mem_levelNames_iff.mpr ⟨_, hlevel, hcase⟩
    obtain ⟨level, hlevel, hcase⟩ := mem_levelNames_iff.mp hname
    exact .name hlevel hcase
  | @number sign digits hsign hne hdigits hvalue =>
    -- A number has no letters, so the two texts are the same.
    have halpha : ∀ c ∈ lowerCase (sign ++ digits), c.isAlpha = false := by
      intro c hc
      obtain ⟨d, hd, rfl⟩ := List.mem_map.mp hc
      rw [isAlpha_toLower]
      rcases List.mem_append.mp hd with hd | hd
      · rcases hsign with rfl | rfl <;> simp at hd
        exact hd ▸ by decide
      · exact not_isAlpha_of_isDigit (hdigits d hd)
    have heq : t = sign ++ digits := by
      rw [← lowerCase_eq_self halpha, ← hst, lowerCase_eq_self (hst ▸ halpha)]
    rw [heq]
    exact .number hsign hne hdigits hvalue

/-! ## Settled filters -/

/-- A filter that stands for itself: nothing to trim, and not a bare level. -/
structure Settled (filter : String) : Prop where
  trimmed : Trimmed filter.toList
  explicit : ¬ IsLevel filter.toList

theorem directives_of_isLevel {line : String} (h : IsLevel (trim line.toList)) :
    directives line = levelLine (String.ofList (lowerCase (trim line.toList))) :=
  if_pos (isLevel_iff.mpr h)

theorem directives_of_not_isLevel {line : String} (h : ¬ IsLevel (trim line.toList)) :
    directives line = String.ofList (trim line.toList) :=
  if_neg (mt isLevel_iff.mp h)

theorem Settled.directives_eq {filter : String} (h : Settled filter) :
    directives filter = filter := by
  have htrim := h.trimmed.trim_eq
  rw [directives_of_not_isLevel (htrim.symm ▸ h.explicit), htrim, String.ofList_toList]

theorem toList_levelLine (level : String) : (levelLine level).toList =
    "warn,ternc=".toList ++ level.toList ++ ",tern_codegen=".toList ++ level.toList := by
  simp [levelLine, parts]

theorem settled_levelLine {level : String} (h : Trimmed level.toList) :
    Settled (levelLine level) where
  trimmed := by
    rw [toList_levelLine]
    refine ⟨by simp [isBlank, Text.blankRanges], fun c hc => ?_⟩
    -- The line ends as the level does, or in the sign before it if the level is empty.
    rw [List.getLast?_append, List.getLast?_append] at hc
    cases hlast : level.toList.getLast? with
    | some d =>
      rw [hlast] at hc
      obtain rfl : d = c := Option.some.inj hc
      exact h.last d hlast
    | none =>
      rw [hlast] at hc
      cases hc
      decide
  explicit hlevel := by
    refine hlevel.not_mem_comma ?_
    simp [toList_levelLine]

theorem settled_directives (line : String) : Settled (directives line) := by
  have htrimmed := Text.trimmed_trim line.toList
  by_cases hlevel : IsLevel (trim line.toList)
  · rw [directives_of_isLevel hlevel]
    refine settled_levelLine ?_
    rw [String.toList_ofList]
    exact trimmed_lowerCase htrimmed
  · rw [directives_of_not_isLevel hlevel]
    exact ⟨by rwa [String.toList_ofList], by rwa [String.toList_ofList]⟩

theorem directives_eq_of_lowerCase_eq {line other : String} (hlevel : IsLevel (trim line.toList))
    (hcase : lowerCase other.toList = lowerCase line.toList) :
    directives other = directives line := by
  have htrim : lowerCase (trim other.toList) = lowerCase (trim line.toList) := by
    rw [← trim_lowerCase, hcase, trim_lowerCase]
  rw [directives_of_isLevel hlevel, directives_of_isLevel (hlevel.of_lowerCase_eq htrim), htrim]

theorem directives_blanks {u v : String} (line : String) (hu : ∀ c ∈ u.toList, isBlank c = true)
    (hv : ∀ c ∈ v.toList, isBlank c = true) : directives (u ++ line ++ v) = directives line := by
  have htrim : trim (u ++ line ++ v).toList = trim line.toList := by
    rw [String.toList_append, String.toList_append, Text.trim_blanks line.toList hu hv]
  unfold directives
  rw [htrim]

/-- A filter is its own filter; blanks around a line make no difference, and the case of letters
makes none to a level. -/
theorem directives_stable :
    (∀ line, directives (directives line) = directives line) ∧
    (∀ u line v : String, (∀ c ∈ u.toList, isBlank c = true) → (∀ c ∈ v.toList, isBlank c = true) →
      directives (u ++ line ++ v) = directives line) ∧
    ∀ line other : String, IsLevel (trim line.toList) → Recased line.toList other.toList →
      directives other = directives line := by
  refine ⟨fun line => ?_, fun u line v hu hv => directives_blanks line hu hv,
    fun line other hlevel hcase => ?_⟩
  · exact (settled_directives line).directives_eq
  · exact directives_eq_of_lowerCase_eq hlevel hcase.lowerCase_eq

/-- A level between blanks that are not ASCII, and in another case; and a number. -/
theorem directives_stable_levels :
    directives (directives "+005") = directives "+005" ∧
      directives ("\u3000\n" ++ " eRRor" ++ "\u00a0") = directives " eRRor" ∧
      IsLevel (trim " eRRor".toList) ∧ Recased " eRRor".toList " ErrOR".toList ∧
      directives " ErrOR" = directives " eRRor" ∧
      directives " eRRor" = "warn,ternc=error,tern_codegen=error" := by
  have hlevel : IsLevel (trim " eRRor".toList) := isLevel_iff.mp (by decide)
  have hcase : Recased " eRRor".toList " ErrOR".toList := by
    unfold Recased
    decide
  refine ⟨directives_stable.1 _, directives_stable.2.1 _ _ _ ?_ ?_, hlevel, hcase,
    directives_stable.2.2 _ _ hlevel hcase, by decide +kernel⟩
  · simp [isBlank, Text.blankRanges]
  · simp [isBlank, Text.blankRanges]

end ScriptCompiler.Trace
