import ScriptCompiler.Lowering.Import
import ScriptCompiler.Proofs.Files.Spelling

/-!
# Module paths

A path that is made of segments tells them: they are what stands between its slashes, and a slash at
its end adds nothing (`segmentsOf_modulePath`). The slash at the end of a path is there for its last
segment and for no other, and the dot at the head of a path is that of its first one
(`modulePath_faithful`). The prelude loads a path that starts with a dot relative to the unit.

The parts of a dotted text hold no dots, so the path of such a text is the text with slashes for
dots (`modulePath_ofText`).
-/

namespace ScriptCompiler.Lowering

open Text
open ScriptCompiler.Path (IsStep)
open Source (DottedImport)

/-! ## The two forms of a path -/

theorem modulePath_of_dot {segments : List String}
    (h : (joinedBy '/' segments).toList.getLast? = some '.') :
    modulePath segments = joinedBy '/' segments ++ "/" := if_pos h

theorem modulePath_of_not_dot {segments : List String}
    (h : (joinedBy '/' segments).toList.getLast? ≠ some '.') :
    modulePath segments = joinedBy '/' segments := if_neg h

theorem modulePath_ofText (text : String) (asName : Option String) :
    modulePath (DottedImport.ofText text asName).parts =
      text.map fun c => if c = '.' then '/' else c := by
  have hjoin : joinedBy '/' (DottedImport.ofText text asName).parts =
      text.map fun c => if c = '.' then '/' else c := joinedBy_piecesOf_map '.' '/' text
  rw [← hjoin]
  apply modulePath_of_not_dot
  rw [hjoin, String.toList_map]
  intro hlast
  obtain ⟨c, -, hc⟩ := List.mem_map.mp (List.mem_of_getLast? hlast)
  split at hc
  · cases hc
  · next hne => exact hne hc

/-! ## Segments of a path -/

/-- The segments of a path. -/
def segmentsOf (path : String) : List String := (piecesOf '/' path).filter (· ≠ "")

/-- A path is told by its segments. -/
theorem segmentsOf_modulePath {segments : List String} (h : ∀ s ∈ segments, IsStep s) :
    segmentsOf (modulePath segments) = segments := by
  have hkeep : segments.filter (· ≠ "") = segments :=
    List.filter_eq_self.mpr fun s hs => decide_eq_true (h s hs).ne_empty
  by_cases hnil : segments = []
  · rw [hnil]
    rfl
  have hpieces := piecesOf_joinedBy hnil fun s hs => (h s hs).not_slash
  by_cases hdot : (joinedBy '/' segments).toList.getLast? = some '.'
  · have hslash : modulePath segments = joinedBy '/' segments ++ String.singleton '/' ++ "" := by
      rw [modulePath_of_dot hdot, String.append_empty]
      rfl
    rw [segmentsOf, hslash, piecesOf_append, hpieces, List.filter_append, hkeep]
    exact List.append_nil segments
  · rw [segmentsOf, modulePath_of_not_dot hdot, hpieces, hkeep]

/-! ## Both ends of a path -/

/-- A segment that names the package of the unit or the one around it. -/
def IsDots (segment : String) : Prop := segment = "." ∨ segment = ".."

/-- A segment that a source can write: dots alone, or a name without dots. -/
def IsSegment (segment : String) : Prop :=
  IsDots segment ∨ IsStep segment ∧ '.' ∉ segment.toList

instance (segment : String) : Decidable (IsDots segment) := inferInstanceAs (Decidable (_ ∨ _))

instance (segment : String) : Decidable (IsSegment segment) := inferInstanceAs (Decidable (_ ∨ _))

namespace IsSegment

variable {segment : String}

theorem isStep (h : IsSegment segment) : IsStep segment := by
  rcases h with (rfl | rfl) | ⟨hstep, -⟩
  · exact ⟨by decide, by decide⟩
  · exact ⟨by decide, by decide⟩
  · exact hstep

theorem isDots_of_mem (h : IsSegment segment) (hdot : '.' ∈ segment.toList) : IsDots segment :=
  h.resolve_right fun hname => hname.2 hdot

theorem getLast?_eq_dot_iff (h : IsSegment segment) :
    segment.toList.getLast? = some '.' ↔ IsDots segment := by
  refine ⟨fun hlast => h.isDots_of_mem (List.mem_of_getLast? hlast), ?_⟩
  rintro (rfl | rfl) <;> rfl

theorem head?_eq_dot_iff (h : IsSegment segment) :
    segment.toList.head? = some '.' ↔ IsDots segment := by
  refine ⟨fun hhead => h.isDots_of_mem (List.mem_of_mem_head? hhead), ?_⟩
  rintro (rfl | rfl) <;> rfl

end IsSegment

section Ends

variable {segments : List String} (hne : segments ≠ []) (h : ∀ s ∈ segments, IsStep s)
include h

theorem getLast?_joinedBy :
    (joinedBy '/' segments).toList.getLast? = (segments.getLast hne).toList.getLast? := by
  obtain ⟨front, last, rfl⟩ : ∃ front last, segments = front ++ [last] :=
    ⟨_, _, (List.dropLast_concat_getLast hne).symm⟩
  have hlast := mt String.toList_eq_nil_iff.mp (h last (by simp)).ne_empty
  rw [List.getLast_concat]
  by_cases hfront : front = []
  · simp [hfront, joinedBy]
  · rw [joinedBy_concat '/' hfront, String.toList_append, List.getLast?_append,
      List.getLast?_eq_some_getLast hlast, Option.some_or]

theorem head?_joinedBy :
    (joinedBy '/' segments).toList.head? = (segments.head hne).toList.head? := by
  obtain ⟨first, rest, rfl⟩ := List.exists_cons_of_ne_nil hne
  obtain ⟨c, cs, hfirst⟩ := List.exists_cons_of_ne_nil
    (mt String.toList_eq_nil_iff.mp (h first List.mem_cons_self).ne_empty)
  rw [List.head_cons]
  by_cases hrest : rest = []
  · simp [hrest, joinedBy]
  · simp [joinedBy_cons '/' first hrest, hfirst]

/-- A path ends in a slash where its last segment ends in a dot. -/
theorem getLast?_modulePath : (modulePath segments).toList.getLast? = some '/' ↔
    (segments.getLast hne).toList.getLast? = some '.' := by
  rw [← getLast?_joinedBy hne h]
  by_cases hdot : (joinedBy '/' segments).toList.getLast? = some '.'
  · simp [modulePath_of_dot hdot, hdot]
  · rw [modulePath_of_not_dot hdot, getLast?_joinedBy hne h]
    refine iff_of_false (fun hslash => ?_) (getLast?_joinedBy hne h ▸ hdot)
    exact (h _ (List.getLast_mem hne)).not_slash (List.mem_of_getLast? hslash)

theorem head?_modulePath :
    (modulePath segments).toList.head? = (segments.head hne).toList.head? := by
  rw [← head?_joinedBy hne h]
  by_cases hdot : (joinedBy '/' segments).toList.getLast? = some '.'
  · obtain ⟨front, hfront⟩ := List.getLast?_eq_some_iff.mp hdot
    rw [modulePath_of_dot hdot, String.toList_append, hfront]
    cases front <;> rfl
  · rw [modulePath_of_not_dot hdot]

end Ends

/-- Different segments have different paths. A path of segments that a source can write ends in a
slash exactly if its last one is dots, and starts with a dot exactly if its first one is. -/
theorem modulePath_faithful :
    (∀ a b : List String, (∀ s ∈ a, IsStep s) → (∀ s ∈ b, IsStep s) →
      (modulePath a = modulePath b ↔ a = b)) ∧
    ∀ (segments : List String) (hne : segments ≠ []), (∀ s ∈ segments, IsSegment s) →
      ((modulePath segments).toList.getLast? = some '/' ↔ IsDots (segments.getLast hne)) ∧
      ((modulePath segments).toList.head? = some '.' ↔ IsDots (segments.head hne)) := by
  refine ⟨fun a b ha hb => ⟨fun hpath => ?_, congrArg modulePath⟩, fun segments hne h => ?_⟩
  · rw [← segmentsOf_modulePath ha, hpath, segmentsOf_modulePath hb]
  · have hstep : ∀ s ∈ segments, IsStep s := fun s hs => (h s hs).isStep
    rw [getLast?_modulePath hne hstep, head?_modulePath hne hstep]
    exact ⟨(h _ (List.getLast_mem hne)).getLast?_eq_dot_iff,
      (h _ (List.head_mem hne)).head?_eq_dot_iff⟩

/-- The package around the unit, and a module and a package in it. -/
theorem modulePath_faithful_packages :
    (∀ s ∈ ["..", "a.b"], IsStep s) ∧ (∀ s ∈ ["..", "a.b."], IsStep s) ∧
      modulePath ["..", "a.b"] ≠ modulePath ["..", "a.b."] ∧
      (∀ s ∈ ["a", "b", ".."], IsSegment s) ∧
      (modulePath ["a", "b", ".."]).toList.getLast? = some '/' ∧
      (modulePath ["a", "b", ".."]).toList.head? ≠ some '.' := by
  have ha : ∀ s ∈ ["..", "a.b"], IsStep s := by decide
  have hb : ∀ s ∈ ["..", "a.b."], IsStep s := by decide
  have hsegments : ∀ s ∈ ["a", "b", ".."], IsSegment s := by decide
  obtain ⟨hlast, hhead⟩ := modulePath_faithful.2 ["a", "b", ".."] (by decide) hsegments
  refine ⟨ha, hb, mt (modulePath_faithful.1 _ _ ha hb).mp (by decide), hsegments, ?_, ?_⟩
  · exact hlast.mpr (by decide)
  · exact mt hhead.mp (by decide)

end ScriptCompiler.Lowering
