import ScriptCompiler.Proofs.Printing.Decompose

/-!
# Printing is unambiguous up to flattening

A statement shows its own end: an expression at its semicolon, any other by the keyword it starts
with. So the tokens of statements without runs determine them (`Stmt.tokensAll_unique`), and as
flattening does not change the tokens, two well-named statements print the same text exactly if
they flatten to the same statements.
-/

namespace ScriptCompiler.Script

open Token

/-! ## The tokens of a statement determine it -/

mutual

/-- No run is left at any depth. -/
def Stmt.isFlat : Stmt → Bool
  | .run _ => false
  | .expr _ | .ret _ | .var _ _ => true
  | .function _ _ body => isFlatAll body
  | .branch _ t e => isFlatAll t && isFlatAll e

def Stmt.isFlatAll : List Stmt → Bool
  | [] => true
  | s :: ss => s.isFlat && isFlatAll ss

end

/-- The words that statements start with. -/
inductive Keyword where
  | function | ret | var | branch

def Keyword.text : Keyword → String
  | .function => "function"
  | .ret => "return"
  | .var => "var"
  | .branch => "if"

theorem Keyword.text_injective {k k' : Keyword} (h : k.text = k'.text) : k = k' := by
  cases k <;> cases k' <;> first | rfl | simp [Keyword.text] at h

/-- The word that a statement starts with, if it is not an expression. -/
def Stmt.keyword? : Stmt → Option Keyword
  | .run _ | .expr _ => none
  | .function _ _ _ => some .function
  | .ret _ => some .ret
  | .var _ _ => some .var
  | .branch _ _ _ => some .branch

theorem Stmt.tokens_of_keyword? {s : Stmt} {k : Keyword} (h : s.keyword? = some k)
    (rest : List Token) :
    ∃ t ts, s.tokens rest = word k.text :: mark ' ' :: t :: ts ∧ t ≠ mark '=' := by
  match s, h with
  | .function _ _ _, rfl | .var _ none, rfl | .var _ (some _), rfl | .branch _ _ _, rfl =>
    exact ⟨_, _, rfl, by simp⟩
  | .ret e, rfl =>
    obtain ⟨t, ts, he, hopens⟩ := e.exists_tokens_eq_cons (mark ';' :: rest)
    refine ⟨t, ts, by rw [Stmt.tokens, he, Keyword.text], ?_⟩
    rintro rfl
    cases hopens

/-- A blank behind the first word of an expression belongs to an assignment. -/
theorem Expr.eq_of_tokens_eq_blank : ∀ {e : Expr} {w : String} {t : Token} {r ts : List Token},
    (∀ us, r ≠ mark ' ' :: us) → e.tokens r = word w :: mark ' ' :: t :: ts → t = mark '='
  | .name _, _, _, _, _, hr, h | .null, _, _, _, _, hr, h | .bool true, _, _, _, _, hr, h
  | .bool false, _, _, _, _, hr, h | .number _, _, _, _, _, hr, h =>
    absurd (List.cons.inj h).2 (hr _)
  | .str _, _, _, _, _, _, h | .array _, _, _, _, _, _, h | .property _ _, _, _, _, _, _, h
  | .assignProperty _ _ _, _, _, _, _, _, h => nomatch h
  | .call f es, _, _, _, _, _, h => f.eq_of_tokens_eq_blank (by simp) h
  | .assign x v, _, _, _, _, _, h => by
    simp only [Expr.tokens, List.cons.injEq] at h
    exact h.2.2.1.symm

theorem Stmt.eq_expr_of_keyword? {s : Stmt} (hs : s.isFlat = true) (h : s.keyword? = none) :
    ∃ e, s = .expr e := by
  match s, hs, h with
  | .expr e, _, _ => exact ⟨e, rfl⟩

theorem Stmt.keyword?_unique {s s' : Stmt} {r r' : List Token} (hs : s.isFlat = true)
    (hs' : s'.isFlat = true) (h : s.tokens r = s'.tokens r') : s.keyword? = s'.keyword? := by
  have hexpr : ∀ {e : Expr} {s : Stmt} {k : Keyword} {r r' : List Token}, s.keyword? = some k →
      (Stmt.expr e).tokens r ≠ s.tokens r' := by
    intro e s k r r' hk h
    obtain ⟨t, ts, htok, ht⟩ := Stmt.tokens_of_keyword? hk r'
    -- An expression has a blank behind its first word only in front of an equals sign.
    exact ht (Expr.eq_of_tokens_eq_blank (e := e) (r := mark ';' :: r) (by simp) (h.trans htok))
  cases hk : s.keyword? with
  | none =>
    obtain ⟨e, rfl⟩ := Stmt.eq_expr_of_keyword? hs hk
    cases hk' : s'.keyword? with
    | none => rfl
    | some k' => exact absurd h (hexpr hk')
  | some k =>
    cases hk' : s'.keyword? with
    | none =>
      obtain ⟨e, rfl⟩ := Stmt.eq_expr_of_keyword? hs' hk'
      exact absurd h.symm (hexpr hk)
    | some k' =>
      obtain ⟨t, ts, htok, -⟩ := Stmt.tokens_of_keyword? hk r
      obtain ⟨t', ts', htok', -⟩ := Stmt.tokens_of_keyword? hk' r'
      rw [htok, htok'] at h
      simp only [List.cons.injEq, word.injEq] at h
      rw [Keyword.text_injective h.1]

theorem Stmt.exists_tokens_eq_cons {s : Stmt} (hs : s.isFlat = true) (rest : List Token) :
    ∃ t ts, s.tokens rest = t :: ts ∧ t.opens = true := by
  cases hk : s.keyword? with
  | none =>
    obtain ⟨e, rfl⟩ := Stmt.eq_expr_of_keyword? hs hk
    exact e.exists_tokens_eq_cons _
  | some k =>
    obtain ⟨t, ts, htok, -⟩ := Stmt.tokens_of_keyword? hk rest
    exact ⟨_, _, htok, rfl⟩

/-- What follows the statements of a body. -/
def BodyEnds : List Token → Prop
  | [] => True
  | t :: _ => t.opens = false

theorem bodyEnds_nil : BodyEnds [] := trivial

theorem bodyEnds_blank {ts : List Token} : BodyEnds (mark ' ' :: ts) := rfl

theorem Stmt.not_bodyEnds_tokens {s : Stmt} (hs : s.isFlat = true) (rest : List Token) :
    ¬ BodyEnds (s.tokens rest) := by
  obtain ⟨t, ts, htok, ht⟩ := Stmt.exists_tokens_eq_cons hs rest
  simp [htok, BodyEnds, ht]

theorem ends_semicolon {ts : List Token} : Ends (mark ';' :: ts) := .inl rfl

theorem parameters_unique {ps ps' : List String} {r r' : List Token}
    (hps : ∀ p ∈ ps, isName p = true) (hps' : ∀ p ∈ ps', isName p = true)
    (h : Expr.tokensList (ps.map .name) (mark ')' :: r) =
      Expr.tokensList (ps'.map .name) (mark ')' :: r')) : ps = ps' ∧ r = r' := by
  obtain ⟨hmap, hrest⟩ := tokensList_unique (Expr.forall_whole (wellNamedAll_map_name hps))
    (wellNamedAll_map_name hps') closes_paren closes_paren h
  exact ⟨(List.map_inj_right fun _ _ => Expr.name.inj).mp hmap, (List.cons.inj hrest).2⟩

mutual

/-- The tokens of a statement without runs determine it. -/
theorem Stmt.tokens_unique : ∀ {s s' : Stmt} {r r' : List Token}, s.wellNamed = true →
    s.isFlat = true → s'.wellNamed = true → s'.isFlat = true → s.tokens r = s'.tokens r' →
    s = s' ∧ r = r'
  | .expr e, s', r, r', h, hf, h', hf', htok => by
    have hkey := Stmt.keyword?_unique hf hf' htok
    obtain ⟨e', rfl⟩ := Stmt.eq_expr_of_keyword? hf' hkey.symm
    rw [Stmt.wellNamed] at h h'
    obtain ⟨rfl, hrest⟩ := Expr.whole h h' ends_semicolon ends_semicolon htok
    exact ⟨rfl, (List.cons.inj hrest).2⟩
  | .ret e, s', r, r', h, hf, h', hf', htok => by
    have hkey := Stmt.keyword?_unique hf hf' htok
    match s', hkey with
    | .ret e', _ =>
      rw [Stmt.wellNamed] at h h'
      simp only [Stmt.tokens, List.cons.injEq, true_and] at htok
      obtain ⟨rfl, hrest⟩ := Expr.whole h h' ends_semicolon ends_semicolon htok
      exact ⟨rfl, (List.cons.inj hrest).2⟩
  | .var x none, s', r, r', h, hf, h', hf', htok => by
    have hkey := Stmt.keyword?_unique hf hf' htok
    match s', hkey with
    | .var x' none, _ =>
      simp only [Stmt.tokens, List.cons.injEq, word.injEq, true_and] at htok
      exact ⟨by rw [htok.1], htok.2⟩
    | .var x' (some e'), _ => simp [Stmt.tokens] at htok
  | .var x (some e), s', r, r', h, hf, h', hf', htok => by
    have hkey := Stmt.keyword?_unique hf hf' htok
    match s', hkey with
    | .var x' none, _ => simp [Stmt.tokens] at htok
    | .var x' (some e'), _ =>
      rw [Stmt.wellNamed, Bool.and_eq_true] at h h'
      simp only [Stmt.tokens, List.cons.injEq, word.injEq, true_and] at htok
      obtain ⟨rfl, hinit⟩ := htok
      obtain ⟨rfl, hrest⟩ := Expr.whole h.2 h'.2 ends_semicolon ends_semicolon hinit
      exact ⟨rfl, (List.cons.inj hrest).2⟩
  | .function f ps body, s', r, r', h, hf, h', hf', htok => by
    have hkey := Stmt.keyword?_unique hf hf' htok
    match s', hkey with
    | .function f' ps' body', _ =>
      simp only [Stmt.wellNamed, Bool.and_eq_true, List.all_eq_true] at h h'
      rw [Stmt.isFlat] at hf hf'
      simp only [Stmt.tokens, List.cons.injEq, word.injEq, true_and] at htok
      obtain ⟨rfl, hparams⟩ := htok
      obtain ⟨rfl, hbody⟩ := parameters_unique h.1.2 h'.1.2 hparams
      simp only [List.cons.injEq, true_and] at hbody
      obtain ⟨rfl, hrest⟩ := Stmt.tokensAll_unique h.2 hf h'.2 hf'
        bodyEnds_blank bodyEnds_blank hbody
      simp only [List.cons.injEq, true_and] at hrest
      exact ⟨rfl, hrest⟩
  | .branch c t e, s', r, r', h, hf, h', hf', htok => by
    have hkey := Stmt.keyword?_unique hf hf' htok
    match s', hkey with
    | .branch c' t' e', _ =>
      simp only [Stmt.wellNamed, Bool.and_eq_true] at h h'
      rw [Stmt.isFlat, Bool.and_eq_true] at hf hf'
      simp only [Stmt.tokens, List.cons.injEq, true_and] at htok
      obtain ⟨rfl, hthen⟩ := Expr.whole h.1.1 h'.1.1 ends_paren ends_paren htok
      simp only [List.cons.injEq, true_and] at hthen
      obtain ⟨rfl, helse⟩ := Stmt.tokensAll_unique h.1.2 hf.1 h'.1.2 hf'.1
        bodyEnds_blank bodyEnds_blank hthen
      simp only [List.cons.injEq, true_and] at helse
      obtain ⟨rfl, hrest⟩ := Stmt.tokensAll_unique h.2 hf.2 h'.2 hf'.2
        bodyEnds_blank bodyEnds_blank helse
      simp only [List.cons.injEq, true_and] at hrest
      exact ⟨rfl, hrest⟩

/-- The tokens of statements without runs determine the statements. -/
theorem Stmt.tokensAll_unique : ∀ {ss ss' : List Stmt} {r r' : List Token},
    Stmt.wellNamedAll ss = true → Stmt.isFlatAll ss = true → Stmt.wellNamedAll ss' = true →
    Stmt.isFlatAll ss' = true → BodyEnds r → BodyEnds r' →
    Stmt.tokensAll ss r = Stmt.tokensAll ss' r' → ss = ss' ∧ r = r'
  | [], [], _, _, _, _, _, _, _, _, htok => ⟨rfl, htok⟩
  | [], s' :: ss', r, r', _, _, _, hf', hr, _, htok => by
    rw [Stmt.isFlatAll, Bool.and_eq_true] at hf'
    rw [Stmt.tokensAll, Stmt.tokensAll] at htok
    exact absurd (htok ▸ hr) (Stmt.not_bodyEnds_tokens hf'.1 _)
  | s :: ss, [], r, r', _, hf, _, _, _, hr', htok => by
    rw [Stmt.isFlatAll, Bool.and_eq_true] at hf
    rw [Stmt.tokensAll, Stmt.tokensAll] at htok
    exact absurd (htok ▸ hr') (Stmt.not_bodyEnds_tokens hf.1 _)
  | s :: ss, s' :: ss', r, r', h, hf, h', hf', hr, hr', htok => by
    rw [Stmt.wellNamedAll, Bool.and_eq_true] at h h'
    rw [Stmt.isFlatAll, Bool.and_eq_true] at hf hf'
    rw [Stmt.tokensAll, Stmt.tokensAll] at htok
    obtain ⟨rfl, htail⟩ := Stmt.tokens_unique h.1 hf.1 h'.1 hf'.1 htok
    obtain ⟨rfl, rfl⟩ := Stmt.tokensAll_unique h.2 hf.2 h'.2 hf'.2 hr hr' htail
    exact ⟨rfl, rfl⟩

end

/-! ## Flattening -/

theorem Stmt.isFlatAll_append (ss us : List Stmt) :
    Stmt.isFlatAll (ss ++ us) = (Stmt.isFlatAll ss && Stmt.isFlatAll us) := by
  induction ss with
  | nil => rfl
  | cons s ss ih => simp only [List.cons_append, Stmt.isFlatAll, ih, Bool.and_assoc]

theorem Stmt.wellNamedAll_append (ss us : List Stmt) :
    Stmt.wellNamedAll (ss ++ us) = (Stmt.wellNamedAll ss && Stmt.wellNamedAll us) := by
  induction ss with
  | nil => rfl
  | cons s ss ih => simp only [List.cons_append, Stmt.wellNamedAll, ih, Bool.and_assoc]

theorem Stmt.tokensAll_append (ss us : List Stmt) (rest : List Token) :
    Stmt.tokensAll (ss ++ us) rest = Stmt.tokensAll ss (Stmt.tokensAll us rest) := by
  induction ss with
  | nil => rfl
  | cons s ss ih => simp only [List.cons_append, Stmt.tokensAll, ih]

mutual

theorem Stmt.isFlatAll_flatten : ∀ s : Stmt, Stmt.isFlatAll s.flatten = true
  | .run ss => isFlatAll_flattenAll ss
  | .expr _ | .ret _ | .var _ _ => rfl
  | .function f ps body => by
    simp [Stmt.flatten, Stmt.isFlatAll, Stmt.isFlat, isFlatAll_flattenAll body]
  | .branch c t e => by
    simp [Stmt.flatten, Stmt.isFlatAll, Stmt.isFlat, isFlatAll_flattenAll t,
      isFlatAll_flattenAll e]

theorem isFlatAll_flattenAll : ∀ ss : List Stmt, Stmt.isFlatAll (flattenAll ss) = true
  | [] => rfl
  | s :: ss => by
    rw [flattenAll, Stmt.isFlatAll_append, s.isFlatAll_flatten, isFlatAll_flattenAll ss]
    rfl

end

mutual

theorem Stmt.wellNamedAll_flatten : ∀ s : Stmt, Stmt.wellNamedAll s.flatten = s.wellNamed
  | .run ss => by rw [Stmt.flatten, wellNamedAll_flattenAll ss, Stmt.wellNamed]
  | .expr _ | .ret _ | .var _ _ => by simp [Stmt.flatten, Stmt.wellNamedAll]
  | .function f ps body => by
    simp [Stmt.flatten, Stmt.wellNamedAll, Stmt.wellNamed, wellNamedAll_flattenAll body]
  | .branch c t e => by
    simp [Stmt.flatten, Stmt.wellNamedAll, Stmt.wellNamed, wellNamedAll_flattenAll t,
      wellNamedAll_flattenAll e]

theorem wellNamedAll_flattenAll : ∀ ss : List Stmt,
    Stmt.wellNamedAll (flattenAll ss) = Stmt.wellNamedAll ss
  | [] => rfl
  | s :: ss => by
    rw [flattenAll, Stmt.wellNamedAll_append, s.wellNamedAll_flatten, wellNamedAll_flattenAll ss,
      Stmt.wellNamedAll]

end

mutual

theorem Stmt.tokensAll_flatten : ∀ (s : Stmt) (rest : List Token),
    Stmt.tokensAll s.flatten rest = s.tokens rest
  | .run ss, rest => by rw [Stmt.flatten, tokensAll_flattenAll ss, Stmt.tokens]
  | .expr _, _ | .ret _, _ | .var _ _, _ => by simp [Stmt.flatten, Stmt.tokensAll]
  | .function f ps body, rest => by
    simp [Stmt.flatten, Stmt.tokensAll, Stmt.tokens, tokensAll_flattenAll body]
  | .branch c t e, rest => by
    simp [Stmt.flatten, Stmt.tokensAll, Stmt.tokens, tokensAll_flattenAll t,
      tokensAll_flattenAll e]

theorem tokensAll_flattenAll : ∀ (ss : List Stmt) (rest : List Token),
    Stmt.tokensAll (flattenAll ss) rest = Stmt.tokensAll ss rest
  | [], _ => rfl
  | s :: ss, rest => by
    rw [flattenAll, Stmt.tokensAll_append, s.tokensAll_flatten, tokensAll_flattenAll ss,
      Stmt.tokensAll]

end

/-! ## Printed text -/

theorem Stmt.flatten_eq_of_tokens_eq {s t : Stmt} (hs : s.wellNamed = true)
    (ht : t.wellNamed = true) (h : s.tokens [] = t.tokens []) : s.flatten = t.flatten := by
  rw [← s.tokensAll_flatten, ← t.tokensAll_flatten] at h
  rw [← s.wellNamedAll_flatten] at hs
  rw [← t.wellNamedAll_flatten] at ht
  exact (Stmt.tokensAll_unique hs s.isFlatAll_flatten ht t.isFlatAll_flatten bodyEnds_nil
    bodyEnds_nil h).1

/-- Printing leaves the text that is there and writes one more, which stands for exactly the
statements that flatten to the same list. -/
theorem Stmt.print_unambiguous :
    (∀ (out : String) (s : Stmt), s.print out = out ++ s.render) ∧
      ∀ s t : Stmt, s.wellNamed = true → t.wellNamed = true →
        (s.render = t.render ↔ s.flatten = t.flatten) := by
  refine ⟨fun out s => s.print_eq out, fun s t hs ht => ⟨fun h => ?_, fun h => ?_⟩⟩
  · have htext : text (s.tokens []) = text (t.tokens []) := by
      rw [← s.toList_render, ← t.toList_render, h]
    exact Stmt.flatten_eq_of_tokens_eq hs ht
      (text_injective (Stmt.spaced_tokens hs trivial) (Stmt.spaced_tokens ht trivial) htext)
  · apply String.toList_injective
    rw [s.toList_render, t.toList_render, ← s.tokensAll_flatten, ← t.tokensAll_flatten, h]

/-- Runs at several depths around one function. -/
def nestedRuns : Stmt :=
  .run [.run [.var "a" none, .run []],
    .function "f" ["x", "y"]
      [.run [.expr (.assign "a" (.assignProperty (.name "x") "p" (.name "y")))],
      .ret (.call (.call (.name "$t.g") [.number (-1), .str "\")"]) [])]]

/-- The same statements with no run but the outer one. -/
def splicedRuns : Stmt :=
  .run [.var "a" none,
    .function "f" ["x", "y"] [.expr (.assign "a" (.assignProperty (.name "x") "p" (.name "y"))),
      .ret (.call (.call (.name "$t.g") [.number (-1), .str "\")"]) [])]]

/-- One argument more and one call less at the end. -/
def otherCall : Stmt :=
  .run [.var "a" none,
    .function "f" ["x", "y"] [.expr (.assign "a" (.assignProperty (.name "x") "p" (.name "y"))),
      .ret (.call (.name "$t.g") [.number (-1), .str "\")", .array []])]]

theorem Stmt.print_unambiguous_nestedRuns :
    nestedRuns.render = splicedRuns.render ∧ nestedRuns.render ≠ otherCall.render := by
  have hn : nestedRuns.wellNamed = true := by decide
  have hs : splicedRuns.wellNamed = true := by decide
  have ho : otherCall.wellNamed = true := by decide
  refine ⟨(Stmt.print_unambiguous.2 _ _ hn hs).mpr rfl, fun h => ?_⟩
  have hflat := (Stmt.print_unambiguous.2 _ _ hn ho).mp h
  simp [nestedRuns, otherCall, Stmt.flatten, flattenAll] at hflat

end ScriptCompiler.Script
