import ScriptCompiler.Proofs.Printing.Unambiguous
import ScriptCompiler.Proofs.Text.Literals

/-!
# The literals of printed trees

`Shows ts strings` says that the literals among the tokens `ts` are `strings`, in order, and that
every other token is quiet. The text of such tokens has these literals and no control character
(`Shows.literals?_text`, `Shows.le_toNat`). An expression or a statement shows strings if it puts
their literals in front of those of the tokens that follow it; there is one rule for each form.
-/

namespace ScriptCompiler.Script

open Token Text

/-- The literals of the tokens are those of `strings`, and the other tokens are quiet. -/
inductive Shows : List Token → List String → Prop
  | nil : Shows [] []
  | word {x ts strings} : isQuiet x = true → Shows ts strings → Shows (word x :: ts) strings
  | literal (s) {ts strings} : Shows ts strings → Shows (literal s :: ts) (s :: strings)
  | mark {c ts strings} : isQuietChar c = true → Shows ts strings → Shows (mark c :: ts) strings

namespace Shows

variable {ts : List Token} {strings : List String}

theorem literals?_text (h : Shows ts strings) :
    literals? (text ts) = some (strings.map String.toList) := by
  induction h with
  | nil => exact literals?_nil
  | @word x ts strings hx _ ih =>
    rw [text_cons, chars, literals?_append, ih]
    intro c hc
    exact (isQuietChar_iff.mp (List.all_eq_true.mp hx c hc)).1
  | @literal s ts strings _ ih =>
    rw [text_cons, chars, literals?_encode, ih]
    rfl
  | @mark c ts strings hc _ ih =>
    rw [text_cons, chars, literals?_append, ih]
    exact List.forall_mem_singleton.mpr (isQuietChar_iff.mp hc).1

theorem le_toNat (h : Shows ts strings) : ∀ c ∈ text ts, 0x20 ≤ c.toNat := by
  induction h with
  | nil => nofun
  | @word x ts strings hx _ ih =>
    rw [text_cons, List.forall_mem_append]
    exact ⟨fun c hc => (isQuietChar_iff.mp (List.all_eq_true.mp hx c hc)).2, ih⟩
  | @literal s ts strings _ ih =>
    rw [text_cons, List.forall_mem_append]
    exact ⟨le_of_mem_encode, ih⟩
  | @mark c ts strings hc _ ih =>
    rw [text_cons, List.forall_mem_append]
    exact ⟨List.forall_mem_singleton.mpr (isQuietChar_iff.mp hc).2, ih⟩

theorem marks (h : Shows ts strings) (cs : List Char)
    (hcs : cs.all isQuietChar = true) : Shows (cs.map .mark ++ ts) strings := by
  induction cs with
  | nil => exact h
  | cons c cs ih =>
    rw [List.all_cons, Bool.and_eq_true] at hcs
    exact .mark hcs.1 (ih hcs.2)

end Shows

/-! ## Expressions -/

/-- The expression puts literals in front of those that follow it. -/
def Expr.Shows (e : Expr) (strings : List String) : Prop :=
  ∀ ⦃ts later⦄, Script.Shows ts later → Script.Shows (e.tokens ts) (strings ++ later)

/-- The expressions, with commas between them or in front of each, put literals in front of those
that follow. -/
def Expr.ShowsAll (es : List Expr) (strings : List String) : Prop :=
  ∀ ⦃ts later⦄, Script.Shows ts later →
    Script.Shows (Expr.tokensList es ts) (strings ++ later) ∧
      Script.Shows (Expr.tokensTail es ts) (strings ++ later)

namespace Expr

variable {e f o v : Expr} {es : List Expr} {x p : String} {ps : List String}
  {strings others : List String}

theorem Shows.name (hx : isQuiet x = true) : (Expr.name x).Shows [] :=
  fun _ _ h => .word hx h

theorem Shows.null : Expr.null.Shows [] := fun _ _ h => .word (by decide) h

theorem Shows.bool (b : Bool) : (Expr.bool b).Shows [] := by
  intro ts later h
  cases b with
  | true => exact .word (by decide) h
  | false => exact .word (by decide) h

theorem isQuiet_numberWord (n : Int64) : isQuiet (numberWord n) = true := by
  obtain ⟨c, cs, hn, hc, hcs⟩ := toList_numberWord n
  rw [isQuiet, hn, List.all_eq_true, List.forall_mem_cons]
  refine ⟨?_, fun d hd => isQuietChar_of_isDigit (hcs d hd)⟩
  rcases hc with hc | rfl
  · exact isQuietChar_of_isDigit hc
  · decide

theorem Shows.number (n : Int64) : (Expr.number n).Shows [] :=
  fun _ _ h => .word (isQuiet_numberWord n) h

theorem Shows.str (s : String) : (Expr.str s).Shows [s] := fun _ _ h => .literal s h

theorem ShowsAll.nil : Expr.ShowsAll [] [] := fun _ _ h => ⟨h, h⟩

theorem ShowsAll.cons (he : e.Shows strings) (hes : Expr.ShowsAll es others) :
    Expr.ShowsAll (e :: es) (strings ++ others) := by
  intro ts later h
  have htail := he (hes h).2
  rw [← List.append_assoc] at htail
  exact ⟨htail, htail.marks [',', ' '] rfl⟩

theorem ShowsAll.names (h : ∀ x ∈ ps, isQuiet x = true) : Expr.ShowsAll (ps.map .name) [] := by
  induction ps with
  | nil => exact ShowsAll.nil
  | cons p ps ih =>
    rw [List.forall_mem_cons] at h
    exact ShowsAll.cons (Shows.name h.1) (ih h.2)

theorem Shows.array (hes : Expr.ShowsAll es strings) : (Expr.array es).Shows strings := by
  intro ts later h
  exact (hes (h.marks [']'] rfl)).1.marks ['['] rfl

theorem isQuiet_dot (hp : isQuiet p = true) : isQuiet ("." ++ p) = true := by
  rw [isQuiet, String.toList_append, List.all_append, Bool.and_eq_true]
  exact ⟨by decide, hp⟩

theorem Shows.property (ho : o.Shows strings) (hp : isQuiet p = true) :
    (Expr.property o p).Shows strings := by
  intro ts later h
  have hname := Script.Shows.word (isQuiet_dot hp) h
  exact (ho (hname.marks [')'] rfl)).marks ['('] rfl

theorem Shows.call (hf : f.Shows strings) (hes : Expr.ShowsAll es others) :
    (Expr.call f es).Shows (strings ++ others) := by
  intro ts later h
  rw [List.append_assoc]
  exact hf ((hes (h.marks [')'] rfl)).1.marks ['('] rfl)

theorem Shows.assign (hx : isQuiet x = true) (hv : v.Shows strings) :
    (Expr.assign x v).Shows strings := by
  intro ts later h
  exact .word hx ((hv h).marks [' ', '=', ' '] rfl)

theorem Shows.assignProperty (ho : o.Shows strings) (hp : isQuiet p = true)
    (hv : v.Shows others) : (Expr.assignProperty o p v).Shows (strings ++ others) := by
  intro ts later h
  rw [List.append_assoc]
  have hname := Script.Shows.word (isQuiet_dot hp) ((hv h).marks [' ', '=', ' '] rfl)
  exact (ho (hname.marks [')'] rfl)).marks ['('] rfl

end Expr

/-! ## Statements -/

/-- The statement puts literals in front of those that follow it. -/
def Stmt.Shows (s : Stmt) (strings : List String) : Prop :=
  ∀ ⦃ts later⦄, Script.Shows ts later → Script.Shows (s.tokens ts) (strings ++ later)

/-- The statements put literals in front of those that follow them. -/
def Stmt.ShowsAll (ss : List Stmt) (strings : List String) : Prop :=
  ∀ ⦃ts later⦄, Script.Shows ts later → Script.Shows (Stmt.tokensAll ss ts) (strings ++ later)

namespace Stmt

variable {c e : Expr} {s : Stmt} {ss us : List Stmt} {x f : String} {ps : List String}
  {strings others more : List String}

theorem ShowsAll.nil : Stmt.ShowsAll [] [] := fun _ _ h => h

theorem ShowsAll.cons (hs : s.Shows strings) (hss : Stmt.ShowsAll ss others) :
    Stmt.ShowsAll (s :: ss) (strings ++ others) := by
  intro ts later h
  rw [List.append_assoc]
  exact hs (hss h)

theorem ShowsAll.append (hss : Stmt.ShowsAll ss strings) (hus : Stmt.ShowsAll us others) :
    Stmt.ShowsAll (ss ++ us) (strings ++ others) := by
  intro ts later h
  rw [List.append_assoc, Stmt.tokensAll_append]
  exact hss (hus h)

theorem Shows.run (hss : Stmt.ShowsAll ss strings) : (Stmt.run ss).Shows strings := hss

theorem Shows.expr (he : e.Shows strings) : (Stmt.expr e).Shows strings :=
  fun _ _ h => he (h.marks [';'] rfl)

theorem Shows.ret (he : e.Shows strings) : (Stmt.ret e).Shows strings := by
  intro ts later h
  exact .word (by decide) ((he (h.marks [';'] rfl)).marks [' '] rfl)

theorem Shows.var (hx : isQuiet x = true) : (Stmt.var x none).Shows [] := by
  intro ts later h
  have hname := Script.Shows.word hx (h.marks [';'] rfl)
  exact .word (by decide) (hname.marks [' '] rfl)

theorem Shows.init (hx : isQuiet x = true) (he : e.Shows strings) :
    (Stmt.var x (some e)).Shows strings := by
  intro ts later h
  have hname := Script.Shows.word hx ((he (h.marks [';'] rfl)).marks [' ', '=', ' '] rfl)
  exact .word (by decide) (hname.marks [' '] rfl)

theorem Shows.function (hf : isQuiet f = true) (hps : ∀ x ∈ ps, isQuiet x = true)
    (hss : Stmt.ShowsAll ss strings) : (Stmt.function f ps ss).Shows strings := by
  intro ts later h
  have hbody := hss (h.marks [' ', '\x7d'] rfl)
  have hparams := (Expr.ShowsAll.names hps (hbody.marks [')', ' ', '\x7b', ' '] rfl)).1
  have hname := Script.Shows.word hf (hparams.marks ['('] rfl)
  exact .word (by decide) (hname.marks [' '] rfl)

theorem Shows.branch (hc : c.Shows strings) (hss : Stmt.ShowsAll ss others)
    (hus : Stmt.ShowsAll us more) : (Stmt.branch c ss us).Shows (strings ++ (others ++ more)) := by
  intro ts later h
  rw [List.append_assoc, List.append_assoc]
  have helse : Script.Shows (word "else" :: _) _ :=
    .word (by decide) ((hus (h.marks [' ', '\x7d'] rfl)).marks [' ', '\x7b', ' '] rfl)
  have hthen := hss (helse.marks [' ', '\x7d', ' '] rfl)
  have hcondition := hc (hthen.marks [')', ' ', '\x7b', ' '] rfl)
  exact .word (by decide) (hcondition.marks [' ', '('] rfl)

end Stmt

/-- The text of a statement has the literals that the statement shows, and no control character. -/
theorem Stmt.Shows.render {s : Stmt} {strings : List String} (h : s.Shows strings) :
    literals? s.render.toList = some (strings.map String.toList) ∧
      ∀ c ∈ s.render.toList, 0x20 ≤ c.toNat := by
  have hshows := h .nil
  rw [List.append_nil] at hshows
  rw [s.toList_render]
  exact ⟨hshows.literals?_text, hshows.le_toNat⟩

end ScriptCompiler.Script
