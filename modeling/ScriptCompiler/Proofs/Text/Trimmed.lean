import Mathlib.Data.List.DropRight
import ScriptCompiler.Text.Blank

/-!
# Texts without blanks at their ends

`Trimmed` says that neither end of a text is a blank. Trimming makes such a text (`trimmed_trim`)
and leaves it as it is (`Trimmed.trim_eq`), and blanks put around a text are gone once it is trimmed
(`trim_blanks`).
-/

namespace ScriptCompiler.Text

variable {s u v : List Char}

/-- No blank stands at either end. -/
structure Trimmed (s : List Char) : Prop where
  head : ∀ c ∈ s.head?, isBlank c = false
  last : ∀ c ∈ s.getLast?, isBlank c = false

theorem trimEnd_eq_rdropWhile (s : List Char) : trimEnd s = s.rdropWhile isBlank := rfl

theorem head_dropWhile_isBlank (s : List Char) :
    ∀ c ∈ (s.dropWhile isBlank).head?, isBlank c = false := by
  intro c hc
  have hhead := List.head?_dropWhile_not isBlank s
  rw [Option.mem_def.mp hc] at hhead
  simpa using hhead

theorem last_trimEnd (s : List Char) : ∀ c ∈ (trimEnd s).getLast?, isBlank c = false := by
  intro c hc
  rw [trimEnd, List.getLast?_reverse] at hc
  exact head_dropWhile_isBlank s.reverse c hc

theorem trimmed_trim (s : List Char) : Trimmed (trim s) where
  head := by
    intro c hc
    -- What is left at the end is a start of the text, so it has the same head.
    obtain ⟨blanks, hstart⟩ : trim s <+: s.dropWhile isBlank := by
      rw [trim, trimEnd_eq_rdropWhile]
      exact List.rdropWhile_prefix _ _
    have hhead : c ∈ (s.dropWhile isBlank).head? := by
      rw [← hstart, List.head?_append, Option.mem_def.mp hc]
      rfl
    exact head_dropWhile_isBlank s c hhead
  last := last_trimEnd _

theorem Trimmed.trim_eq (h : Trimmed s) : trim s = s := by
  have hhead : s.dropWhile isBlank = s := by
    cases s with
    | nil => rfl
    | cons c s => rw [List.dropWhile_cons_of_neg (by simp [h.head c rfl])]
  rw [trim, hhead, trimEnd_eq_rdropWhile, List.rdropWhile_eq_self_iff]
  intro hne
  simp [h.last _ (List.getLast?_eq_some_getLast hne)]

theorem trimEnd_blanks (s : List Char) (hv : ∀ c ∈ v, isBlank c = true) :
    trimEnd (s ++ v) = trimEnd s := by
  have hreverse : ∀ c ∈ v.reverse, isBlank c = true := by simpa using hv
  rw [trimEnd, List.reverse_append, List.dropWhile_append_of_pos hreverse, trimEnd]

theorem trim_blanks (s : List Char) (hu : ∀ c ∈ u, isBlank c = true)
    (hv : ∀ c ∈ v, isBlank c = true) : trim (u ++ s ++ v) = trim s := by
  rw [trim, List.append_assoc, List.dropWhile_append_of_pos hu, List.dropWhile_append]
  split
  · -- All of `s` is blank, so nothing is left of either text.
    next hs =>
    have hnone : v.dropWhile isBlank = [] := List.dropWhile_eq_nil_iff.mpr hv
    rw [hnone, trim, List.isEmpty_iff.mp hs]
  · rw [trimEnd_blanks _ hv, trim]

end ScriptCompiler.Text
