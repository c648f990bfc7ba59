import ScriptCompiler.Proofs.Printing.Token

/-!
# The tokens at the head determine the expression

Two expressions whose tokens, each with what follows it, are the same list are equal, if an end of
an expression follows both (`Expr.whole`). A callee is not followed by an end, and the tokens of
`f(a)(b)` start with those of `f` and of `f(a)`. So the induction carries more about what is not an
assignment (`Starts`): where its tokens stand at the head of those of another expression, that one
is a chain of calls of it, or an assignment to it.
-/

namespace ScriptCompiler.Script

open Token

/-! ## Chains of calls -/

/-- `f` called with the first arguments, the result with the next, and so on. -/
def Expr.applied (f : Expr) (ess : List (List Expr)) : Expr := ess.foldl .call f

/-- The tokens of the arguments of a chain of calls. -/
def argumentTokens : List (List Expr) → List Token → List Token
  | [], rest => rest
  | es :: ess, rest => mark '(' :: Expr.tokensList es (mark ')' :: argumentTokens ess rest)

theorem tokens_applied (f : Expr) (ess : List (List Expr)) (rest : List Token) :
    (f.applied ess).tokens rest = f.tokens (argumentTokens ess rest) := by
  induction ess generalizing f with
  | nil => rfl
  | cons es ess ih =>
    show ((Expr.call f es).applied ess).tokens rest = _
    rw [ih, Expr.tokens, argumentTokens]

theorem wellNamed_of_applied {f : Expr} {ess : List (List Expr)}
    (h : (f.applied ess).wellNamed = true) : f.wellNamed = true := by
  induction ess generalizing f with
  | nil => exact h
  | cons es ess ih =>
    have hc := ih (f := .call f es) h
    simp only [Expr.wellNamed, Bool.and_eq_true] at hc
    exact hc.1.1

/-- The token of an expression that has one. -/
def Expr.atom? : Expr → Option Token
  | .name x => some (word x)
  | .null => some (word "null")
  | .bool true => some (word "true")
  | .bool false => some (word "false")
  | .number n => some (word (numberWord n))
  | .str s => some (literal s)
  | _ => none

theorem tokens_of_atom? {e : Expr} {t : Token} (h : e.atom? = some t) (rest : List Token) :
    e.tokens rest = t :: rest := by
  unfold Expr.atom? at h
  split at h <;> cases h <;> rfl

/-- The forms of an expression, a chain of calls seen from its first callee. -/
inductive View : Expr → Prop
  | atom {a : Expr} {t : Token} (ess : List (List Expr)) : a.atom? = some t → View (a.applied ess)
  | array (es : List Expr) (ess : List (List Expr)) : View ((Expr.array es).applied ess)
  | property (o : Expr) (p : String) (ess : List (List Expr)) :
      View ((Expr.property o p).applied ess)
  | assign (x : String) (v : Expr) : View (.assign x v)
  | assignProperty (o : Expr) (p : String) (v : Expr) : View (.assignProperty o p v)

theorem applied_concat (f : Expr) (ess : List (List Expr)) (es : List Expr) :
    Expr.call (f.applied ess) es = f.applied (ess ++ [es]) := by
  simp [Expr.applied]

theorem view : ∀ {e : Expr}, e.wellNamed = true → View e
  | .name _, _ | .null, _ | .bool true, _ | .bool false, _ | .number _, _ | .str _, _ =>
    .atom [] rfl
  | .array es, _ => .array es []
  | .property o p, _ => .property o p []
  | .assign x v, _ => .assign x v
  | .assignProperty o p v, _ => .assignProperty o p v
  | .call f es, h => by
    simp only [Expr.wellNamed, Bool.and_eq_true, Bool.not_eq_true'] at h
    have hf := h.1.2
    cases view h.1.1 with
    | atom ess ha => rw [applied_concat]; exact .atom _ ha
    | array es' ess => rw [applied_concat]; exact .array es' _
    | property o p ess => rw [applied_concat]; exact .property o p _
    | assign x v => cases hf
    | assignProperty o p v => cases hf

/-! ## Ends -/

/-- What follows an expression that is not called. -/
def Ends : List Token → Prop
  | [] => True
  | mark c :: _ => c = ';' ∨ c = ',' ∨ c = ')' ∨ c = ']'
  | _ => False

/-- What follows a list of expressions. -/
def Closes : List Token → Prop
  | mark c :: _ => c = ')' ∨ c = ']'
  | _ => False

theorem not_ends_blank {ts : List Token} : ¬ Ends (mark ' ' :: ts) := by
  simp [Ends]

theorem not_ends_paren {ts : List Token} : ¬ Ends (mark '(' :: ts) := by
  simp [Ends]

theorem argumentTokens_ne_blank {ess : List (List Expr)} {rest ts : List Token} (h : Ends rest) :
    argumentTokens ess rest ≠ mark ' ' :: ts := by
  cases ess with
  | nil => rintro rfl; exact not_ends_blank h
  | cons es ess => simp [argumentTokens]

theorem ends_tokensTail {es : List Expr} {rest : List Token} (h : Closes rest) :
    Ends (Expr.tokensTail es rest) := by
  cases es with
  | nil =>
    cases rest with
    | nil => trivial
    | cons t rest =>
      cases t with
      | mark c => rcases h with rfl | rfl <;> simp [Expr.tokensTail, Ends]
      | word x => exact h
      | literal s => exact h
  | cons e es => simp [Expr.tokensTail, Ends]

/-! ## What the head determines -/

/-- The tokens of `e` with an end behind them are those of no other expression. -/
def Whole (e : Expr) : Prop :=
  ∀ ⦃e' : Expr⦄ ⦃r r' : List Token⦄, e'.wellNamed = true → Ends r → Ends r' →
    e.tokens r = e'.tokens r' → e = e' ∧ r = r'

/-- Where the tokens of `e` stand at the head of another expression, that one calls `e`, or a blank
follows them. -/
def Starts (e : Expr) : Prop :=
  ∀ ⦃e' : Expr⦄ ⦃r r' : List Token⦄, e'.wellNamed = true → Ends r' → e.tokens r = e'.tokens r' →
    (∃ ess, e' = e.applied ess ∧ r = argumentTokens ess r') ∨ ∃ ts, r = mark ' ' :: ts

theorem Starts.whole {e : Expr} (h : Starts e) : Whole e := by
  intro e' r r' he' hr hr' htok
  rcases h he' hr' htok with ⟨ess, rfl, rfl⟩ | ⟨ts, rfl⟩
  · cases ess with
    | nil => exact ⟨rfl, rfl⟩
    | cons es ess => exact absurd hr not_ends_paren
  · exact absurd hr not_ends_blank

/-! ### Atoms -/

theorem numberWord_ne_of_isPath {n : Int64} {x : String} (hx : isPath x = true) :
    numberWord n ≠ x := by
  rintro rfl
  obtain ⟨c, cs, hcs, hid, hdig⟩ := head_of_isPath hx
  obtain ⟨d, ds, hds, hd, -⟩ := toList_numberWord n
  rw [hcs, List.cons.injEq] at hds
  obtain ⟨rfl, -⟩ := hds
  rcases hd with hd | rfl
  · rw [hd] at hdig; cases hdig
  · exact absurd hid (by decide)

theorem numberWord_injective {n m : Int64} (h : numberWord n = numberWord m) : n = m :=
  Int64.toInt_inj.mp (Int.repr_injective h)

theorem numberWord_not_mem_literalWords (n : Int64) : numberWord n ∉ literalWords := by
  intro hm
  obtain ⟨d, ds, hds, hd, -⟩ := toList_numberWord n
  have hall : ∀ w ∈ literalWords, w.toList.head?.any (fun c => c.isDigit || c = '-') = false := by
    decide
  have hnone := hall _ hm
  rw [hds] at hnone
  rcases hd with hd | rfl
  · simp [hd] at hnone
  · simp at hnone

/-- The literal that a word of `literalWords` prints. -/
def literalOf (w : String) : Expr := if w = "null" then .null else .bool (w = "true")

/-- The atom that a token stands for. -/
inductive Reads : Token → Expr → Prop
  | literal {w : String} : w ∈ literalWords → Reads (word w) (literalOf w)
  | path {x : String} : isPath x = true → Reads (word x) (.name x)
  | number (n : Int64) : Reads (word (numberWord n)) (.number n)
  | str (s : String) : Reads (Token.literal s) (.str s)

theorem reads_of_atom? {e : Expr} {t : Token} (he : e.wellNamed = true) (h : e.atom? = some t) :
    Reads t e := by
  unfold Expr.atom? at h
  split at h <;> cases h
  · exact .path (by simpa [Expr.wellNamed] using he)
  · exact .literal (w := "null") (by decide)
  · exact .literal (w := "true") (by decide)
  · exact .literal (w := "false") (by decide)
  · exact .number _
  · exact .str _

theorem Reads.unique {t : Token} {e a : Expr} (h : Reads t e) (h' : Reads t a) : e = a := by
  have hpath : ∀ {x : String}, isPath x = true → x ∉ literalWords := by
    intro x hx
    simp only [isPath, Bool.and_eq_true, decide_eq_true_eq] at hx
    exact hx.2
  cases h with
  | literal hw =>
    cases h' with
    | literal _ => rfl
    | path hx => exact absurd hw (hpath hx)
    | number n => exact absurd hw (numberWord_not_mem_literalWords n)
  | path hx =>
    cases h' with
    | literal hw => exact absurd hw (hpath hx)
    | path _ => rfl
    | number n => exact absurd rfl (numberWord_ne_of_isPath hx)
  | number n =>
    generalize ht : word (numberWord n) = t at h'
    cases h' with
    | literal hw => cases ht; exact absurd hw (numberWord_not_mem_literalWords n)
    | path hx => cases ht; exact absurd rfl (numberWord_ne_of_isPath hx)
    | number m =>
      rw [Token.word.injEq] at ht
      rw [numberWord_injective ht]
    | str s => cases ht
  | str s => cases h'; rfl

theorem atom?_ne_mark {e : Expr} {c : Char} : e.atom? ≠ some (mark c) := by
  unfold Expr.atom?
  split <;> simp

theorem applied_atom_ne_mark {a : Expr} {t : Token} {c : Char} {ess : List (List Expr)}
    {r ts : List Token} (ha : a.atom? = some t) : (a.applied ess).tokens r ≠ mark c :: ts := by
  rw [tokens_applied, tokens_of_atom? ha]
  rintro h
  obtain ⟨rfl, -⟩ := List.cons.inj h
  exact atom?_ne_mark ha

theorem Expr.starts_atom {e : Expr} {t : Token} (he : e.wellNamed = true) (h : e.atom? = some t) :
    Starts e := by
  intro e' r r' he' hr' htok
  rw [tokens_of_atom? h] at htok
  cases view he' with
  | atom ess ha =>
    rw [tokens_applied, tokens_of_atom? ha, List.cons.injEq] at htok
    obtain ⟨rfl, rfl⟩ := htok
    rw [(reads_of_atom? he h).unique (reads_of_atom? (wellNamed_of_applied he') ha)]
    exact .inl ⟨ess, rfl, rfl⟩
  | array es ess =>
    rw [tokens_applied, Expr.tokens, List.cons.injEq] at htok
    exact absurd (htok.1 ▸ h) atom?_ne_mark
  | property o p ess =>
    rw [tokens_applied, Expr.tokens, List.cons.injEq] at htok
    exact absurd (htok.1 ▸ h) atom?_ne_mark
  | assign x v =>
    rw [Expr.tokens, List.cons.injEq] at htok
    exact .inr ⟨_, htok.2⟩
  | assignProperty o p v =>
    rw [Expr.tokens, List.cons.injEq] at htok
    exact absurd (htok.1 ▸ h) atom?_ne_mark

/-! ### Lists -/

/-- A token that an expression can start with. -/
def Token.opens : Token → Bool
  | .word _ | .literal _ => true
  | .mark c => c = '(' || c = '['

theorem Expr.exists_tokens_eq_cons : ∀ (e : Expr) (rest : List Token),
    ∃ t ts, e.tokens rest = t :: ts ∧ t.opens = true
  | .name _, _ | .null, _ | .bool true, _ | .bool false, _ | .number _, _ | .str _, _
  | .array _, _ | .property _ _, _ | .assign _ _, _ | .assignProperty _ _ _, _ => ⟨_, _, rfl, rfl⟩
  | .call f _, _ => f.exists_tokens_eq_cons _

theorem Expr.tokens_ne_mark {c : Char} (hc : (mark c).opens = false) (e : Expr)
    {rest ts : List Token} : e.tokens rest ≠ mark c :: ts := by
  intro h
  obtain ⟨t, us, ht, hopens⟩ := e.exists_tokens_eq_cons rest
  rw [h, List.cons.injEq] at ht
  rw [← ht.1, hc] at hopens
  cases hopens

theorem Closes.exists_eq_cons {r : List Token} (h : Closes r) :
    ∃ c ts, r = mark c :: ts ∧ (mark c).opens = false ∧ c ≠ ',' := by
  match r, h with
  | mark c :: ts, h => rcases h with rfl | rfl <;> exact ⟨_, ts, rfl, rfl, by decide⟩

theorem tokensTail_unique : ∀ {es es' : List Expr} {r r' : List Token}, (∀ e ∈ es, Whole e) →
    Expr.wellNamedAll es' = true → Closes r → Closes r' →
    Expr.tokensTail es r = Expr.tokensTail es' r' → es = es' ∧ r = r'
  | [], [], _, _, _, _, _, _, h => ⟨rfl, h⟩
  | [], e' :: es', r, r', _, _, hr, _, h => by
    obtain ⟨c, ts, rfl, -, hc⟩ := hr.exists_eq_cons
    simp only [Expr.tokensTail, List.cons.injEq, mark.injEq] at h
    exact absurd h.1 hc
  | e :: es, [], r, r', _, _, _, hr', h => by
    obtain ⟨c, ts, rfl, -, hc⟩ := hr'.exists_eq_cons
    simp only [Expr.tokensTail, List.cons.injEq, mark.injEq] at h
    exact absurd h.1.symm hc
  | e :: es, e' :: es', r, r', hes, hes', hr, hr', h => by
    rw [List.forall_mem_cons] at hes
    simp only [Expr.wellNamedAll, Bool.and_eq_true] at hes'
    simp only [Expr.tokensTail, List.cons.injEq, true_and] at h
    obtain ⟨rfl, htail⟩ := hes.1 hes'.1 (ends_tokensTail hr) (ends_tokensTail hr') h
    obtain ⟨rfl, rfl⟩ := tokensTail_unique hes.2 hes'.2 hr hr' htail
    exact ⟨rfl, rfl⟩

theorem tokensList_unique {es es' : List Expr} {r r' : List Token} (hes : ∀ e ∈ es, Whole e)
    (hes' : Expr.wellNamedAll es' = true) (hr : Closes r) (hr' : Closes r')
    (h : Expr.tokensList es r = Expr.tokensList es' r') : es = es' ∧ r = r' := by
  match es, es' with
  | [], [] => exact ⟨rfl, h⟩
  | [], e' :: es' =>
    obtain ⟨c, ts, rfl, hc, -⟩ := hr.exists_eq_cons
    exact absurd h.symm (e'.tokens_ne_mark hc)
  | e :: es, [] =>
    obtain ⟨c, ts, rfl, hc, -⟩ := hr'.exists_eq_cons
    exact absurd h (e.tokens_ne_mark hc)
  | e :: es, e' :: es' =>
    exact tokensTail_unique hes hes' hr hr' (congrArg (fun ts => mark ',' :: mark ' ' :: ts) h)

/-! ### Compound expressions -/

theorem closes_paren {ts : List Token} : Closes (mark ')' :: ts) := .inl rfl

theorem closes_bracket {ts : List Token} : Closes (mark ']' :: ts) := .inr rfl

theorem ends_paren {ts : List Token} : Ends (mark ')' :: ts) := .inr (.inr (.inl rfl))

theorem append_dot_inj {p q : String} (h : "." ++ p = "." ++ q) : p = q := by
  simpa using h

/-- The head of a property, whether it is read or assigned. -/
theorem Whole.property_head {o o' : Expr} {p p' : String} {r r' : List Token} (ho : Whole o)
    (ho' : o'.wellNamed = true)
    (h : mark '(' :: o.tokens (mark ')' :: word ("." ++ p) :: r) =
      mark '(' :: o'.tokens (mark ')' :: word ("." ++ p') :: r')) : o = o' ∧ p = p' ∧ r = r' := by
  rw [List.cons.injEq] at h
  obtain ⟨rfl, hrest⟩ := ho ho' ends_paren ends_paren h.2
  simp only [List.cons.injEq, word.injEq, true_and] at hrest
  exact ⟨rfl, append_dot_inj hrest.1, hrest.2⟩

theorem Expr.starts_array {es : List Expr} (hes : ∀ e ∈ es, Whole e) : Starts (.array es) := by
  intro e' r r' he' hr' htok
  rw [Expr.tokens] at htok
  cases view he' with
  | atom ess ha => exact absurd htok.symm (applied_atom_ne_mark ha)
  | array es' ess =>
    have hwell := wellNamed_of_applied he'
    rw [Expr.wellNamed] at hwell
    rw [tokens_applied, Expr.tokens, List.cons.injEq] at htok
    obtain ⟨rfl, hrest⟩ := tokensList_unique hes hwell closes_bracket closes_bracket htok.2
    exact .inl ⟨ess, rfl, (List.cons.inj hrest).2⟩
  | property o p ess => rw [tokens_applied] at htok; cases htok
  | assign x v => cases htok
  | assignProperty o p v => cases htok

theorem Expr.starts_property {o : Expr} {p : String} (ho : Whole o) : Starts (.property o p) := by
  intro e' r r' he' hr' htok
  rw [Expr.tokens] at htok
  cases view he' with
  | atom ess ha => exact absurd htok.symm (applied_atom_ne_mark ha)
  | array es' ess => rw [tokens_applied] at htok; cases htok
  | property o' p' ess =>
    have hwell := wellNamed_of_applied he'
    rw [Expr.wellNamed, Bool.and_eq_true] at hwell
    rw [tokens_applied, Expr.tokens] at htok
    obtain ⟨rfl, rfl, rfl⟩ := ho.property_head hwell.1 htok
    exact .inl ⟨ess, rfl, rfl⟩
  | assign x v => cases htok
  | assignProperty o' p' v =>
    simp only [Expr.wellNamed, Bool.and_eq_true] at he'
    obtain ⟨-, -, rfl⟩ := ho.property_head he'.1.1 htok
    exact .inr ⟨_, rfl⟩

theorem Expr.starts_call {f : Expr} {es : List Expr} (hf : Starts f) (hes : ∀ e ∈ es, Whole e) :
    Starts (.call f es) := by
  intro e' r r' he' hr' htok
  rw [Expr.tokens] at htok
  rcases hf he' hr' htok with ⟨ess, rfl, hargs⟩ | ⟨ts, hts⟩
  · cases ess with
    | nil =>
      -- The other expression would end where the arguments of this one start.
      rw [argumentTokens] at hargs
      exact absurd (hargs ▸ hr') not_ends_paren
    | cons es' ess =>
      have hwell := wellNamed_of_applied (f := .call f es') he'
      rw [Expr.wellNamed, Bool.and_eq_true] at hwell
      rw [argumentTokens, List.cons.injEq] at hargs
      obtain ⟨rfl, hrest⟩ := tokensList_unique hes hwell.2 closes_paren closes_paren hargs.2
      exact .inl ⟨ess, rfl, (List.cons.inj hrest).2⟩
  · cases hts

theorem Expr.whole_assign {x : String} {v : Expr} (hv : Whole v) : Whole (.assign x v) := by
  intro e' r r' he' hr hr' htok
  rw [Expr.tokens] at htok
  cases view he' with
  | atom ess ha =>
    -- Arguments or an end follow an atom that is not assigned, never a blank.
    rw [tokens_applied, tokens_of_atom? ha, List.cons.injEq] at htok
    exact absurd htok.2.symm (argumentTokens_ne_blank hr')
  | array es' ess => rw [tokens_applied] at htok; cases htok
  | property o p ess => rw [tokens_applied] at htok; cases htok
  | assign x' v' =>
    simp only [Expr.wellNamed, Bool.and_eq_true] at he'
    simp only [Expr.tokens, List.cons.injEq, word.injEq, true_and] at htok
    obtain ⟨rfl, htok⟩ := htok
    obtain ⟨rfl, rfl⟩ := hv he'.2 hr hr' htok
    exact ⟨rfl, rfl⟩
  | assignProperty o p v' => cases htok

theorem Expr.whole_assignProperty {o v : Expr} {p : String} (ho : Whole o) (hv : Whole v) :
    Whole (.assignProperty o p v) := by
  intro e' r r' he' hr hr' htok
  rw [Expr.tokens] at htok
  cases view he' with
  | atom ess ha => exact absurd htok.symm (applied_atom_ne_mark ha)
  | array es' ess => rw [tokens_applied] at htok; cases htok
  | property o' p' ess =>
    have hwell := wellNamed_of_applied he'
    rw [Expr.wellNamed, Bool.and_eq_true] at hwell
    rw [tokens_applied, Expr.tokens] at htok
    obtain ⟨-, -, hrest⟩ := ho.property_head hwell.1 htok
    exact absurd hrest.symm (argumentTokens_ne_blank hr')
  | assign x v' => cases htok
  | assignProperty o' p' v' =>
    simp only [Expr.wellNamed, Bool.and_eq_true] at he'
    obtain ⟨rfl, rfl, hrest⟩ := ho.property_head he'.1.1 htok
    simp only [List.cons.injEq, true_and] at hrest
    obtain ⟨rfl, rfl⟩ := hv he'.2 hr hr' hrest
    exact ⟨rfl, rfl⟩

structure Determined (e : Expr) : Prop where
  whole : Whole e
  starts : e.isAssignment = false → Starts e

theorem Starts.determined {e : Expr} (h : Starts e) : Determined e := ⟨h.whole, fun _ => h⟩

mutual

theorem Expr.determined : ∀ {e : Expr}, e.wellNamed = true → Determined e
  | .name _, h | .null, h | .bool true, h | .bool false, h | .number _, h | .str _, h =>
    (Expr.starts_atom h rfl).determined
  | .array es, h => by
    rw [Expr.wellNamed] at h
    exact (Expr.starts_array (Expr.forall_whole h)).determined
  | .property o p, h => by
    rw [Expr.wellNamed, Bool.and_eq_true] at h
    exact (Expr.starts_property (Expr.determined h.1).whole).determined
  | .call f es, h => by
    simp only [Expr.wellNamed, Bool.and_eq_true, Bool.not_eq_true'] at h
    have hf := (Expr.determined h.1.1).starts h.1.2
    exact (Expr.starts_call hf (Expr.forall_whole h.2)).determined
  | .assign x v, h => by
    rw [Expr.wellNamed, Bool.and_eq_true] at h
    exact ⟨Expr.whole_assign (Expr.determined h.2).whole, nofun⟩
  | .assignProperty o p v, h => by
    simp only [Expr.wellNamed, Bool.and_eq_true] at h
    exact ⟨Expr.whole_assignProperty (Expr.determined h.1.1).whole (Expr.determined h.2).whole,
      nofun⟩

theorem Expr.forall_whole : ∀ {es : List Expr}, Expr.wellNamedAll es = true → ∀ e ∈ es, Whole e
  | [], _ => nofun
  | e :: es, h => by
    rw [Expr.wellNamedAll, Bool.and_eq_true] at h
    exact List.forall_mem_cons.mpr ⟨(Expr.determined h.1).whole, Expr.forall_whole h.2⟩

end

/-- The tokens of an expression in front of an end determine it and the end. -/
theorem Expr.whole {e : Expr} (h : e.wellNamed = true) : Whole e := (Expr.determined h).whole

end ScriptCompiler.Script
