import ScriptCompiler.Proofs.Text.Literals

/-!
# Literals end by themselves

`IsLiteral` is the grammar of strict JSON strings: between two quotes every character is spelled as
itself, by a short escape, or by the `\u` escapes of its code units (`Spells`). Nothing in it speaks
of what follows a literal. `scan` reads the literals of the grammar and no other text
(`scan_eq_some_iff`), so a text starts with at most one literal, and no literal starts with another
one. `quote` writes one literal for each text (`quote_selfDelimiting`).
-/

namespace ScriptCompiler.Text.Quoted

/-! ## The grammar -/

/-- The ways to spell one character of a literal. -/
inductive Spells : List Char → Char → Prop
  | plain {c : Char} : c ≠ '"' → c ≠ '\\' → 0x20 ≤ c.toNat → Spells [c] c
  | short {x c : Char} : longForm x = some c → Spells ['\\', x] c
  | unit {a b c d : Char} {n : Nat} : codeUnit a b c d = some n → isLeading n = false →
      isTrailing n = false → Spells ['\\', 'u', a, b, c, d] (Char.ofNat n)
  | pair {a b c d e f g h : Char} {n m : Nat} : codeUnit a b c d = some n → isLeading n = true →
      codeUnit e f g h = some m → isTrailing m = true →
      Spells ['\\', 'u', a, b, c, d, '\\', 'u', e, f, g, h] (paired n m)

/-- The spellings of a text, character by character. -/
inductive SpellsAll : List Char → List Char → Prop
  | nil : SpellsAll [] []
  | cons {piece body s : List Char} {c : Char} : Spells piece c → SpellsAll body s →
      SpellsAll (piece ++ body) (c :: s)

/-- The literals of a text. -/
def IsLiteral (lit s : List Char) : Prop := ∃ body, SpellsAll body s ∧ lit = '"' :: (body ++ ['"'])

/-! ## Reading what the grammar allows -/

theorem longForm_u : longForm 'u' = none := by decide

theorem scanBody_spelled {piece : List Char} {c : Char} (h : Spells piece c) (text : List Char) :
    scanBody (piece ++ text) = found c (scanBody text) := by
  cases h with
  | plain hquote hback hplain =>
    -- What else has a short form is a control character.
    have hcontrol : ∀ d : Char, d.toNat < 0x20 → c ≠ d := by
      rintro d hd rfl
      omega
    have hshort : shortForm c = none := by
      simp [shortForm, hquote, hback, hcontrol '\x08' (by decide), hcontrol '\t' (by decide),
        hcontrol '\n' (by decide), hcontrol '\x0c' (by decide), hcontrol '\r' (by decide)]
    exact scanBody_plain hshort (Nat.not_lt.mpr hplain) text
  | @short x c hlong =>
    have hx : x ≠ 'u' := by
      rintro rfl
      rw [longForm_u] at hlong
      cases hlong
    exact scanBody_short hx hlong text
  | unit hunit hlead htrail =>
    simp only [List.cons_append, List.nil_append, scanBody, hunit, hlead, htrail,
      Bool.false_eq_true, ↓reduceIte]
  | pair hunit hlead hunit' htrail =>
    simp only [List.cons_append, List.nil_append, scanBody, hunit, hlead, hunit', htrail,
      ↓reduceIte]

theorem scanBody_spelledAll {body s : List Char} (h : SpellsAll body s) (rest : List Char) :
    scanBody (body ++ '"' :: rest) = some (s, rest) := by
  induction h with
  | nil => rw [List.nil_append, scanBody]
  | cons hpiece _ ih =>
    rw [List.append_assoc, scanBody_spelled hpiece, ih]
    rfl

/-! ## Reading nothing else -/

/-- One more character in front of a body that the grammar allows. -/
theorem spelledAll_of_found {piece text s rest : List Char} {c : Char} (hpiece : Spells piece c)
    (h : found c (scanBody text) = some (s, rest))
    (ih : ∀ {s : List Char}, scanBody text = some (s, rest) →
      ∃ body, SpellsAll body s ∧ text = body ++ '"' :: rest) :
    ∃ body, SpellsAll body s ∧ piece ++ text = body ++ '"' :: rest := by
  obtain ⟨⟨s', rest'⟩, hscan, heq⟩ := Option.map_eq_some_iff.mp h
  cases heq
  obtain ⟨body, hbody, rfl⟩ := ih hscan
  exact ⟨piece ++ body, .cons hpiece hbody, (List.append_assoc ..).symm⟩

theorem spelledAll_of_scanBody {text s rest : List Char} (h : scanBody text = some (s, rest)) :
    ∃ body, SpellsAll body s ∧ text = body ++ '"' :: rest := by
  fun_induction scanBody text generalizing s
  case case2 =>
    cases h
    exact ⟨[], .nil, rfl⟩
  case case5 hunit hlead _ _ _ _ _ _ hunit' htrail ih =>
    exact spelledAll_of_found (.pair hunit hlead hunit' htrail) h ih
  case case9 hunit hlead htrail ih =>
    exact spelledAll_of_found (.unit hunit (by simpa using hlead) (by simpa using htrail)) h ih
  case case11 hlong ih => exact spelledAll_of_found (.short hlong) h ih
  case case13 hquote _ _ hplain ih =>
    rw [not_or, Nat.not_lt] at hplain
    exact spelledAll_of_found (.plain hquote hplain.1 hplain.2) h ih
  all_goals cases h

theorem IsLiteral.scan {lit s : List Char} (h : IsLiteral lit s) (rest : List Char) :
    scan (lit ++ rest) = some (s, rest) := by
  obtain ⟨body, hbody, rfl⟩ := h
  rw [List.cons_append, List.append_assoc, List.singleton_append, Quoted.scan]
  exact scanBody_spelledAll hbody rest

/-- The reader accepts the literals of the grammar, and what follows one is left. -/
theorem scan_eq_some_iff {text s rest : List Char} :
    scan text = some (s, rest) ↔ ∃ lit, IsLiteral lit s ∧ text = lit ++ rest := by
  constructor
  · intro h
    unfold scan at h
    split at h
    · obtain ⟨body, hbody, rfl⟩ := spelledAll_of_scanBody h
      exact ⟨_, ⟨body, hbody, rfl⟩, by simp⟩
    · cases h
  · rintro ⟨lit, hlit, rfl⟩
    exact hlit.scan rest

/-- A text starts with one literal at most. -/
theorem IsLiteral.unique {lit lit' s s' rest rest' : List Char} (h : IsLiteral lit s)
    (h' : IsLiteral lit' s') (htext : lit ++ rest = lit' ++ rest') :
    lit = lit' ∧ s = s' ∧ rest = rest' := by
  have hscan := h.scan rest
  rw [htext, h'.scan rest'] at hscan
  obtain ⟨rfl, rfl⟩ := Prod.mk.inj (Option.some.inj hscan)
  exact ⟨List.append_cancel_right htext, rfl, rfl⟩

/-! ## What is written -/

theorem isLiteral_quote (s : String) : IsLiteral (quote s).toList s.toList := by
  obtain ⟨lit, hlit, htext⟩ := scan_eq_some_iff.mp (scan_encode s.toList [])
  rw [List.append_nil, List.append_nil] at htext
  rwa [quote, String.toList_ofList, htext]

/-- The reader of strict JSON strings takes what was written off the head of a text, and nothing
more, whatever follows. No other literal is at the head of that text, texts are told apart by their
literals, and no literal that is written is the start of another one. -/
theorem quote_selfDelimiting (s : String) (rest : List Char) :
    (∀ text found more, scan text = some (found, more) ↔
        ∃ lit, IsLiteral lit found ∧ text = lit ++ more) ∧
      scan ((quote s).toList ++ rest) = some (s.toList, rest) ∧
      (∀ lit found more, IsLiteral lit found ∧ (quote s).toList ++ rest = lit ++ more ↔
        lit = (quote s).toList ∧ found = s.toList ∧ more = rest) ∧
      (∀ t, quote t = quote s ↔ t = s) ∧
      ∀ t, (quote t).toList <+: (quote s).toList ↔ t = s := by
  have hstart : ∀ t, (quote t).toList <+: (quote s).toList → t = s := by
    rintro t ⟨more, hmore⟩
    have htext : (quote t).toList ++ more = (quote s).toList ++ [] := by
      rw [hmore, List.append_nil]
    obtain ⟨-, htoList, -⟩ := (isLiteral_quote t).unique (isLiteral_quote s) htext
    exact String.toList_injective htoList
  refine ⟨fun _ _ _ => scan_eq_some_iff, ?_, fun lit found more => ⟨?_, ?_⟩, fun t => ⟨?_, ?_⟩,
    fun t => ⟨hstart t, ?_⟩⟩
  · exact (isLiteral_quote s).scan rest
  · rintro ⟨hlit, htext⟩
    exact hlit.unique (isLiteral_quote s) htext.symm
  · rintro ⟨rfl, rfl, rfl⟩
    exact ⟨isLiteral_quote s, rfl⟩
  · intro h
    exact hstart t (h ▸ List.prefix_rfl)
  · exact congrArg quote
  · rintro rfl
    exact List.prefix_rfl

end ScriptCompiler.Text.Quoted
