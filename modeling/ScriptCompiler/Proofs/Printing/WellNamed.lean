import ScriptCompiler.Script.Tree
import ScriptCompiler.Text.Pieces

/-!
# Trees whose names are names

`Expr.wellNamed` and `Stmt.wellNamed` ask that every name of a tree is an identifier, or a path of
identifiers where an expression stands, and none of the words `null`, `true` and `false`. Other
reserved words of the script language need not be left out. They also ask that no assignment is
called: it would print as the assignment of a call.
-/

namespace ScriptCompiler.Script

def isIdentChar (c : Char) : Bool := c.isAlphanum || c = '_' || c = '$'

/-- A character of a name, a path or a number. -/
def isWordChar (c : Char) : Bool := isIdentChar c || c = '.' || c = '-'

def isIdentifier : List Char → Bool
  | [] => false
  | c :: cs => isIdentChar c && !c.isDigit && cs.all isIdentChar

/-- The words that print a literal. -/
def literalWords : List String := ["null", "true", "false"]

/-- A name of a variable, a parameter, a function or a property. -/
def isName (x : String) : Bool := isIdentifier x.toList && x ∉ literalWords

/-- A name, or names with dots between them. -/
def isPath (x : String) : Bool := (Text.pieces '.' x.toList).all isIdentifier && x ∉ literalWords

def Expr.isAssignment : Expr → Bool
  | .assign _ _ | .assignProperty _ _ _ => true
  | _ => false

mutual

def Expr.wellNamed : Expr → Bool
  | .name x => isPath x
  | .null | .bool _ | .number _ | .str _ => true
  | .array es => wellNamedAll es
  | .property o p => o.wellNamed && isName p
  | .call f es => f.wellNamed && !f.isAssignment && wellNamedAll es
  | .assign x v => isName x && v.wellNamed
  | .assignProperty o p v => o.wellNamed && isName p && v.wellNamed

def Expr.wellNamedAll : List Expr → Bool
  | [] => true
  | e :: es => e.wellNamed && wellNamedAll es

end

mutual

def Stmt.wellNamed : Stmt → Bool
  | .run ss => wellNamedAll ss
  | .expr e | .ret e => e.wellNamed
  | .function f ps body => isName f && ps.all isName && wellNamedAll body
  | .var x none => isName x
  | .var x (some e) => isName x && e.wellNamed
  | .branch c t e => c.wellNamed && wellNamedAll t && wellNamedAll e

def Stmt.wellNamedAll : List Stmt → Bool
  | [] => true
  | s :: ss => s.wellNamed && wellNamedAll ss

end

/-! ## The characters of names -/

theorem isIdentChar_ne_dot {c : Char} (h : isIdentChar c = true) : c ≠ '.' := by
  rintro rfl
  revert h
  decide

theorem isWordChar_of_isIdentChar {c : Char} (h : isIdentChar c = true) : isWordChar c = true := by
  simp [isWordChar, h]

theorem isIdentChar_of_isIdentifier {s : List Char} (h : isIdentifier s = true) :
    ∀ c ∈ s, isIdentChar c = true := by
  cases s with
  | nil => exact fun _ h => nomatch h
  | cons c s =>
    simp only [isIdentifier, Bool.and_eq_true, List.all_eq_true] at h
    intro d hd
    rcases List.mem_cons.mp hd with rfl | hd
    · exact h.1.1
    · exact h.2 d hd

theorem isPath_of_isName {x : String} (h : isName x = true) : isPath x = true := by
  simp only [isName, Bool.and_eq_true] at h
  have hdot : '.' ∉ x.toList := fun hm =>
    isIdentChar_ne_dot (isIdentChar_of_isIdentifier h.1 _ hm) rfl
  simp only [isPath, Text.pieces_of_not_mem hdot, List.all_cons, List.all_nil, Bool.and_true,
    Bool.and_eq_true]
  exact h

theorem isWordChar_of_pieces : ∀ {s : List Char},
    (∀ p ∈ Text.pieces '.' s, ∀ c ∈ p, isIdentChar c = true) → ∀ c ∈ s, isWordChar c = true
  | [], _, c, hc => nomatch hc
  | d :: s, h, c, hc => by
    obtain ⟨p, ps, hp⟩ := List.exists_cons_of_ne_nil (Text.pieces_ne_nil '.' s)
    by_cases hd : d = '.'
    · subst hd
      rw [Text.pieces_cons_sep] at h
      rcases List.mem_cons.mp hc with rfl | hc
      · decide
      · exact isWordChar_of_pieces (fun q hq => h q (List.mem_cons_of_mem _ hq)) c hc
    · rw [Text.pieces_cons_of_ne hd hp] at h
      rw [List.forall_mem_cons] at h
      rcases List.mem_cons.mp hc with rfl | hc
      · exact isWordChar_of_isIdentChar (h.1 _ List.mem_cons_self)
      · refine isWordChar_of_pieces (s := s) (fun q hq => ?_) c hc
        rw [hp] at hq
        rcases List.mem_cons.mp hq with rfl | hq
        · exact fun c hc => h.1 c (List.mem_cons_of_mem _ hc)
        · exact h.2 q hq

theorem isWordChar_of_isPath {x : String} (h : isPath x = true) :
    ∀ c ∈ x.toList, isWordChar c = true := by
  simp only [isPath, Bool.and_eq_true, List.all_eq_true] at h
  exact isWordChar_of_pieces fun p hp => isIdentChar_of_isIdentifier (h.1 p hp)

/-- A path starts with a character that no number starts with. -/
theorem head_of_isPath {x : String} (h : isPath x = true) :
    ∃ c cs, x.toList = c :: cs ∧ isIdentChar c = true ∧ c.isDigit = false := by
  simp only [isPath, Bool.and_eq_true] at h
  obtain ⟨h, -⟩ := h
  cases hx : x.toList with
  | nil => rw [hx] at h; simp [Text.pieces, isIdentifier] at h
  | cons c cs =>
    rw [hx] at h
    obtain ⟨p, ps, hp⟩ := List.exists_cons_of_ne_nil (Text.pieces_ne_nil '.' cs)
    by_cases hc : c = '.'
    · subst hc
      simp [Text.pieces_cons_sep, isIdentifier] at h
    · rw [Text.pieces_cons_of_ne hc hp] at h
      simp only [List.all_cons, isIdentifier, Bool.and_eq_true, Bool.not_eq_true'] at h
      exact ⟨c, cs, rfl, h.1.1.1, h.1.1.2⟩

end ScriptCompiler.Script
