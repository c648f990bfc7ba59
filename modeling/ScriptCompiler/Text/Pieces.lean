/-!
# Pieces between separators

`pieces sep s` cuts a text at every occurrence of `sep`: the pieces are the stretches between
the occurrences, one more than there are occurrences, empty ones included. Joining the pieces by
the separator gives the text back (`intercalate_pieces`), and a text with a separator in it has
the pieces of its two sides (`pieces_append`).
-/

namespace ScriptCompiler.Text

/-- The stretches of a text between the occurrences of `sep`. -/
def pieces (sep : Char) : List Char → List (List Char)
  | [] => [[]]
  | c :: cs =>
    if c = sep then [] :: pieces sep cs
    else
      match pieces sep cs with
      | [] => [[c]]
      | p :: ps => (c :: p) :: ps

theorem pieces_ne_nil (sep : Char) (s : List Char) : pieces sep s ≠ [] := by
  cases s with
  | nil => simp [pieces]
  | cons c cs =>
    simp only [pieces]
    split
    · simp
    · split <;> simp

theorem pieces_cons_sep (sep : Char) (s : List Char) :
    pieces sep (sep :: s) = [] :: pieces sep s := by
  simp [pieces]

theorem pieces_cons_of_ne {sep c : Char} (h : c ≠ sep) {s p : List Char} {ps : List (List Char)}
    (hs : pieces sep s = p :: ps) : pieces sep (c :: s) = (c :: p) :: ps := by
  simp [pieces, h, hs]

/-- A text without the separator is its own only piece. -/
theorem pieces_of_not_mem {sep : Char} {s : List Char} (h : sep ∉ s) : pieces sep s = [s] := by
  induction s with
  | nil => rfl
  | cons c cs ih =>
    rw [List.mem_cons, not_or] at h
    exact pieces_cons_of_ne (Ne.symm h.1) (ih h.2)

/-- Cutting at a separator in the text. -/
theorem pieces_append (sep : Char) (s t : List Char) :
    pieces sep (s ++ sep :: t) = pieces sep s ++ pieces sep t := by
  induction s with
  | nil => simp [pieces]
  | cons c cs ih =>
    by_cases h : c = sep
    · subst h
      simp [pieces_cons_sep, ih]
    · obtain ⟨p, ps, hp⟩ := List.exists_cons_of_ne_nil (pieces_ne_nil sep cs)
      rw [hp] at ih
      rw [pieces_cons_of_ne h hp, List.cons_append, pieces_cons_of_ne h ih]
      rfl

/-- The pieces, joined by another character, are the text with that one for the separator. -/
theorem intercalate_pieces_map (sep other : Char) (s : List Char) :
    [other].intercalate (pieces sep s) = s.map fun c => if c = sep then other else c := by
  induction s with
  | nil => rfl
  | cons c cs ih =>
    obtain ⟨p, ps, hp⟩ := List.exists_cons_of_ne_nil (pieces_ne_nil sep cs)
    rw [hp] at ih
    by_cases h : c = sep
    · subst h
      rw [pieces_cons_sep, hp, List.map_cons, if_pos rfl, ← ih]
      simp [List.intercalate]
    · rw [pieces_cons_of_ne h hp, List.map_cons, if_neg h, ← ih]
      cases ps <;> simp [List.intercalate]

/-- The pieces, joined by the separator, are the text. -/
theorem intercalate_pieces (sep : Char) (s : List Char) :
    [sep].intercalate (pieces sep s) = s := by
  have hsame : (fun c => if c = sep then sep else c) = id := by
    funext c
    split
    · next h => exact h.symm
    · rfl
  rw [intercalate_pieces_map, hsame, List.map_id]

/-- No piece holds the separator. -/
theorem not_mem_of_mem_pieces {sep : Char} {s p : List Char} (h : p ∈ pieces sep s) : sep ∉ p := by
  induction s generalizing p with
  | nil =>
    rw [pieces, List.mem_singleton] at h
    simp [h]
  | cons c cs ih =>
    obtain ⟨q, qs, hq⟩ := List.exists_cons_of_ne_nil (pieces_ne_nil sep cs)
    by_cases hc : c = sep
    · subst hc
      rw [pieces_cons_sep, List.mem_cons] at h
      rcases h with rfl | h
      · simp
      · exact ih h
    · rw [pieces_cons_of_ne hc hq, List.mem_cons] at h
      rcases h with rfl | h
      · have := ih (p := q) (by rw [hq]; exact List.mem_cons_self ..)
        simp [Ne.symm hc, this]
      · exact ih (by rw [hq]; exact List.mem_cons_of_mem _ h)

/-- The pieces of a string. -/
def piecesOf (sep : Char) (s : String) : List String :=
  (pieces sep s.toList).map String.ofList

/-- The texts, one after the other, with `sep` between two neighbours. -/
def joinedBy (sep : Char) (ps : List String) : String :=
  (String.singleton sep).intercalate ps

theorem toList_joinedBy (sep : Char) (ps : List String) :
    (joinedBy sep ps).toList = [sep].intercalate (ps.map String.toList) := by
  simp [joinedBy, String.toList_intercalate]

theorem map_toList_piecesOf (sep : Char) (s : String) :
    (piecesOf sep s).map String.toList = pieces sep s.toList := by
  rw [piecesOf, List.map_map,
    show String.toList ∘ String.ofList = id from funext fun _ => String.toList_ofList, List.map_id]

theorem joinedBy_piecesOf_map (sep other : Char) (s : String) :
    joinedBy other (piecesOf sep s) = s.map fun c => if c = sep then other else c := by
  apply String.toList_injective
  rw [toList_joinedBy, map_toList_piecesOf, intercalate_pieces_map, String.toList_map]

theorem joinedBy_piecesOf (sep : Char) (s : String) : joinedBy sep (piecesOf sep s) = s := by
  apply String.toList_injective
  rw [toList_joinedBy, map_toList_piecesOf, intercalate_pieces]

theorem joinedBy_cons (sep : Char) (first : String) {rest : List String} (hne : rest ≠ []) :
    joinedBy sep (first :: rest) = first ++ String.singleton sep ++ joinedBy sep rest := by
  obtain ⟨next, rest, rfl⟩ := List.exists_cons_of_ne_nil hne
  apply String.toList_injective
  simp [toList_joinedBy, List.intercalate]

theorem joinedBy_concat (sep : Char) {front : List String} (hne : front ≠ []) (last : String) :
    joinedBy sep (front ++ [last]) = joinedBy sep front ++ String.singleton sep ++ last := by
  induction front with
  | nil => exact absurd rfl hne
  | cons p front ih =>
    cases front with
    | nil =>
      rw [List.singleton_append, joinedBy_cons sep p (by simp)]
      simp [joinedBy]
    | cons q front =>
      rw [List.cons_append, joinedBy_cons sep p (by simp), ih (by simp),
        joinedBy_cons sep p (by simp)]
      simp only [String.append_assoc]

end ScriptCompiler.Text
