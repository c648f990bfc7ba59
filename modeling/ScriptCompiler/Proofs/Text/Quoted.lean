import ScriptCompiler.Text.Quoted

/-!
# Reading back a string literal

`scan` returns what `encode` wrote and stops right after it, whatever follows (`scan_encode`). So
the literal at the head of a text is determined by the text.
-/

namespace ScriptCompiler.Text.Quoted

/-- A short form is read back, and is not taken for a `\u` escape. -/
theorem longForm_of_shortForm {c x : Char} (h : shortForm c = some x) :
    longForm x = some c ∧ x ≠ 'u' := by
  unfold shortForm at h
  repeat' split at h
  all_goals cases h
  all_goals subst_vars; decide

theorem scanBody_short {c x : Char} (hx : x ≠ 'u') (hl : longForm x = some c)
    (rest : List Char) : scanBody ('\\' :: x :: rest) = found c (scanBody rest) := by
  rw [scanBody, hl]
  intro _ _ _ _ _ e
  exact absurd e hx

theorem hexValue_hexDigit {d : Nat} (h : d < 16) : hexValue (hexDigit d) = some d := by
  have : ∀ d : Fin 16, hexValue (hexDigit d) = some d.val := by decide
  exact this ⟨d, h⟩

/-- The `\u` escape of a control character is read back. -/
theorem scanBody_control {c : Char} (hc : c.toNat < 0x20) (rest : List Char) :
    scanBody ('\\' :: 'u' :: '0' :: '0' :: hexDigit (c.toNat / 16) :: hexDigit (c.toNat % 16) ::
      rest) = found c (scanBody rest) := by
  have hunit : codeUnit '0' '0' (hexDigit (c.toNat / 16)) (hexDigit (c.toNat % 16)) =
      some c.toNat := by
    have h0 : hexValue '0' = some 0 := by decide
    simp only [codeUnit, h0, hexValue_hexDigit (show c.toNat / 16 < 16 by omega),
      hexValue_hexDigit (show c.toNat % 16 < 16 by omega), Option.bind_eq_bind, Option.bind_some,
      Option.pure_def, Option.some.injEq]
    omega
  have hl : isLeading c.toNat = false := by simp only [isLeading]; simp; omega
  have ht : isTrailing c.toNat = false := by simp only [isTrailing]; simp; omega
  rw [scanBody, hunit]
  simp only [hl, ht, Bool.false_eq_true, ↓reduceIte, Char.ofNat_toNat]

theorem scanBody_plain {c : Char} (hs : shortForm c = none) (hc : ¬ c.toNat < 0x20)
    (rest : List Char) : scanBody (c :: rest) = found c (scanBody rest) := by
  have hq : c ≠ '"' := by rintro rfl; cases hs
  have hb : c ≠ '\\' := by rintro rfl; cases hs
  rw [scanBody, if_neg]
  · rintro (e | e)
    · exact hb e
    · exact hc e
  · exact hq
  · exact fun _ _ _ _ _ e => absurd e hb
  · exact fun _ _ e => absurd e hb

theorem scanBody_escape (c : Char) (rest : List Char) :
    scanBody (escape c ++ rest) = found c (scanBody rest) := by
  unfold escape
  cases hs : shortForm c with
  | some x =>
    obtain ⟨hl, hx⟩ := longForm_of_shortForm hs
    exact scanBody_short hx hl rest
  | none =>
    by_cases hc : c.toNat < 0x20
    · simp only [hc, ↓reduceIte]
      exact scanBody_control hc rest
    · simp only [hc, ↓reduceIte]
      exact scanBody_plain hs hc rest

theorem scanBody_flatMap_escape (s rest : List Char) :
    scanBody (s.flatMap escape ++ '"' :: rest) = some (s, rest) := by
  induction s with
  | nil => rw [List.flatMap_nil, List.nil_append, scanBody]
  | cons c s ih =>
    rw [List.flatMap_cons, List.append_assoc, scanBody_escape, ih]
    rfl

/-- A literal is read back, and nothing after it is touched. -/
theorem scan_encode (s rest : List Char) : scan (encode s ++ rest) = some (s, rest) := by
  simp only [encode, List.cons_append, List.append_assoc, List.nil_append, scan,
    scanBody_flatMap_escape]

end ScriptCompiler.Text.Quoted
