import ScriptCompiler.Proofs.Text.Quoted

/-!
# The literals of a text

`literals?` goes through a text from left to right and reads one literal at each quote that it
meets. A stretch without quotes is passed over (`literals?_append`), and what `encode` wrote is read
back whatever follows (`literals?_encode`). A quiet text has neither a quote nor a control
character. A literal starts and ends with a quote, but has no control character either
(`le_of_mem_encode`).
-/

namespace ScriptCompiler.Text

open Quoted

/-! ## Reading every literal -/

theorem exists_of_found {c : Char} {r : Option (List Char × List Char)} {s rest : List Char}
    (h : found c r = some (s, rest)) : ∃ s', r = some (s', rest) := by
  obtain ⟨⟨s', rest'⟩, rfl, heq⟩ := Option.map_eq_some_iff.mp h
  cases heq
  exact ⟨s', rfl⟩

theorem length_scanBody {text s rest : List Char} (h : scanBody text = some (s, rest)) :
    rest.length < text.length := by
  fun_induction scanBody text generalizing s
  case case2 => cases h; simp
  -- An escape or a character is read, and the body goes on behind it.
  case case5 ih | case9 ih | case11 ih | case13 ih =>
    obtain ⟨s', hs'⟩ := exists_of_found h
    have hrest := ih hs'
    simp only [List.length_cons]
    omega
  all_goals cases h

theorem length_scan {text s rest : List Char} (h : scan text = some (s, rest)) :
    rest.length < text.length := by
  unfold scan at h
  split at h
  · have := length_scanBody h
    simp only [List.length_cons]
    omega
  · cases h

/-- The contents of the literals of a text, in order. There is no answer if a quote opens something
that is no literal. -/
def literals? : List Char → Option (List (List Char))
  | [] => some []
  | c :: cs =>
    if c = '"' then
      match _h : scan (c :: cs) with
      | none => none
      | some (s, rest) => (literals? rest).map (s :: ·)
    else literals? cs
termination_by text => text.length
decreasing_by
  · exact length_scan ‹_›
  · simp

theorem literals?_nil : literals? [] = some [] := by
  rw [literals?]

/-- A stretch without quotes is passed over. -/
theorem literals?_append {w : List Char} (hw : ∀ c ∈ w, c ≠ '"') (rest : List Char) :
    literals? (w ++ rest) = literals? rest := by
  induction w with
  | nil => rfl
  | cons c w ih =>
    rw [List.forall_mem_cons] at hw
    rw [List.cons_append, literals?, if_neg hw.1, ih hw.2]

/-- A literal is read back, and the reader goes on behind it. -/
theorem literals?_encode (s rest : List Char) :
    literals? (encode s ++ rest) = (literals? rest).map (s :: ·) := by
  have hscan := scan_encode s rest
  rw [encode, List.cons_append] at hscan ⊢
  rw [literals?, if_pos rfl]
  split
  · next h => rw [hscan] at h; cases h
  · next s' rest' h =>
    rw [hscan] at h
    cases h
    rfl

/-! ## Quiet texts -/

/-- Neither a quote nor a control character. -/
def isQuietChar (c : Char) : Bool := c ≠ '"' && 0x20 ≤ c.toNat

def isQuiet (x : String) : Bool := x.toList.all isQuietChar

theorem isQuietChar_iff {c : Char} : isQuietChar c = true ↔ c ≠ '"' ∧ 0x20 ≤ c.toNat := by
  simp [isQuietChar]

theorem isQuietChar_of_isDigit {c : Char} (h : c.isDigit = true) : isQuietChar c = true := by
  rw [isQuietChar_iff]
  refine ⟨by rintro rfl; revert h; decide, ?_⟩
  simp only [Char.isDigit, Bool.and_eq_true, decide_eq_true_eq] at h
  have hzero : '0'.val ≤ c.val := h.1
  have : '0'.val.toNat ≤ c.val.toNat := hzero
  have : '0'.val.toNat = 48 := rfl
  show 32 ≤ c.val.toNat
  omega

theorem hexDigit_ge {d : Nat} (h : d < 16) : 0x20 ≤ (hexDigit d).toNat := by
  have : ∀ d : Fin 16, 0x20 ≤ (hexDigit d).toNat := by decide
  exact this ⟨d, h⟩

theorem shortForm_ge {c x : Char} (h : shortForm c = some x) : 0x20 ≤ x.toNat := by
  unfold shortForm at h
  repeat' split at h
  all_goals cases h
  all_goals decide

theorem escape_ge {c : Char} : ∀ d ∈ escape c, 0x20 ≤ d.toNat := by
  unfold escape
  split
  · next x hx => simpa using shortForm_ge hx
  · split
    · next hc =>
      simpa using ⟨hexDigit_ge (show c.toNat / 16 < 16 by omega),
        hexDigit_ge (show c.toNat % 16 < 16 by omega)⟩
    · next hc => simpa using hc

/-- No control character is left in a literal. -/
theorem le_of_mem_encode {s : List Char} : ∀ d ∈ encode s, 0x20 ≤ d.toNat := by
  intro d hd
  rw [encode, List.mem_cons, List.mem_append, List.mem_singleton, List.mem_flatMap] at hd
  rcases hd with rfl | ⟨c, -, hd⟩ | rfl
  · decide
  · exact escape_ge d hd
  · decide

end ScriptCompiler.Text
