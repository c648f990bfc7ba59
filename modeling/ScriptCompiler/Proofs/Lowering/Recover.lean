import ScriptCompiler.Proofs.Meaning.Simulation
import ScriptCompiler.Proofs.Printing.Decompose

/-!
# The text of a lowered expression determines its source

`recover` reads a source expression back from a script expression: a call of a function of the
prelude is the attribute or the operator that the function stands for, and any other call is a call.
It undoes lowering where no variable is taken for such a function (`recover_lowerExpr`). Lowered
expressions are well named, so their text determines them (`Expr.render_injective`), and with them
their sources.
-/

namespace ScriptCompiler

namespace Script

open Token

/-- The text of a well-named expression determines it. -/
theorem Expr.render_injective {e e' : Expr} (he : e.wellNamed = true) (he' : e'.wellNamed = true)
    (h : e.render = e'.render) : e = e' := by
  have htext : text (e.tokens []) = text (e'.tokens []) := by
    rw [← e.toList_render, ← e'.toList_render, h]
  have hspaced : ∀ {e : Expr}, e.wellNamed = true → Spaced (e.tokens []) :=
    fun h => Expr.spaced_tokens h (show NoWord [] from trivial) trivial
  have hend : Ends [] := trivial
  exact (Expr.whole he he' hend hend (text_injective (hspaced he) (hspaced he') htext)).1

end Script

namespace Lowering

open Prelude (Function)
open Script (isIdentChar isPath literalWords)

/-! ## Variables -/

def isVariableChar (c : Char) : Bool := c.isAlphanum || c = '_'

/-- A name of a variable: letters, digits and underscores, of which the first is no digit, and none
of the words that print a literal. -/
def isVariable (x : String) : Bool :=
  match x.toList with
  | [] => false
  | c :: cs => isVariableChar c && !c.isDigit && cs.all isVariableChar && x ∉ literalWords

theorem isIdentChar_of_isVariableChar {c : Char} (h : isVariableChar c = true) :
    isIdentChar c = true := by
  simp only [isIdentChar, isVariableChar, Bool.or_eq_true] at h ⊢
  exact .inl h

theorem isPlain_of_isVariable {x : String} (h : isVariable x = true) : IsPlain x := by
  intro hdollar
  unfold isVariable at h
  split at h
  · cases h
  · next c cs hx =>
    rw [hx, List.head?_cons, Option.some.injEq] at hdollar
    subst hdollar
    simp [isVariableChar] at h

theorem isPath_of_isVariable {x : String} (h : isVariable x = true) : isPath x = true := by
  refine Script.isPath_of_isName ?_
  unfold isVariable at h
  split at h
  · cases h
  · next c cs hx =>
    simp only [Bool.and_eq_true, List.all_eq_true] at h
    obtain ⟨⟨⟨hc, hdigit⟩, hcs⟩, hword⟩ := h
    simp only [Script.isName, hx, Script.isIdentifier, Bool.and_eq_true, List.all_eq_true]
    exact ⟨⟨⟨isIdentChar_of_isVariableChar hc, hdigit⟩,
      fun d hd => isIdentChar_of_isVariableChar (hcs d hd)⟩, hword⟩

/-! ## Lowered expressions are well named -/

theorem isPath_function (f : Function) : isPath f.name = true := by
  rcases f with _ | _ | op | _
  · decide
  · decide
  · cases op <;> decide
  · decide

theorem isAssignment_lowerExpr (e : Source.Expr) : (lowerExpr e).isAssignment = false := by
  cases e <;> rfl

mutual

theorem wellNamed_lowerExpr : ∀ {e : Source.Expr}, (∀ x ∈ e.names, isVariable x = true) →
    (lowerExpr e).wellNamed = true
  | .name x, h => isPath_of_isVariable (h x List.mem_cons_self)
  | .nothing, _ | .bool _, _ | .int _, _ | .str _, _ => rfl
  | .list es, h => wellNamedAll_lowerExprs h
  | .attr e a, h => by
    have hcallee : isPath Prelude.attributeName = true := isPath_function .getAttr
    simp [lowerExpr, Prelude.readAttribute, Script.Expr.wellNamed, Script.Expr.wellNamedAll,
      Script.Expr.isAssignment, hcallee, wellNamed_lowerExpr (e := e) h]
  | .binary op l r, h => by
    rw [Source.Expr.names, List.forall_mem_append] at h
    have hcallee : isPath (Prelude.operatorName op) = true := isPath_function (.operator op)
    simp [lowerExpr, Prelude.operation, Script.Expr.wellNamed, Script.Expr.wellNamedAll,
      Script.Expr.isAssignment, hcallee, wellNamed_lowerExpr h.1, wellNamed_lowerExpr h.2]
  | .call f es, h => by
    rw [Source.Expr.names, List.forall_mem_append] at h
    simp [lowerExpr, Script.Expr.wellNamed, isAssignment_lowerExpr, wellNamed_lowerExpr h.1,
      wellNamedAll_lowerExprs h.2]

theorem wellNamedAll_lowerExprs : ∀ {es : List Source.Expr},
    (∀ x ∈ Source.Expr.namesAll es, isVariable x = true) →
    Script.Expr.wellNamedAll (lowerExprs es) = true
  | [], _ => rfl
  | e :: es, h => by
    rw [Source.Expr.namesAll, List.forall_mem_append] at h
    simp [lowerExprs, Script.Expr.wellNamedAll, wellNamed_lowerExpr h.1,
      wellNamedAll_lowerExprs h.2]

end

/-! ## Reading back -/

/-- The source of a call, given what is called and the sources of the callee and the arguments. -/
def recoverCall : Option Function → Source.Expr → List Source.Expr → Source.Expr
  | some .getAttr, _, [e, .str a] => .attr e a
  | some (.operator op), _, [l, r] => .binary op l r
  | _, f, es => .call f es

mutual

/-- The source of a script expression. A form that lowering does not make is read as nothing. -/
def recover : Script.Expr → Source.Expr
  | .name x => .name x
  | .bool b => .bool b
  | .number n => .int n
  | .str s => .str s
  | .array es => .list (recoverAll es)
  | .call f es => recoverCall (Prelude.called? f) (recover f) (recoverAll es)
  | .null | .property _ _ | .assign _ _ | .assignProperty _ _ _ => .nothing

def recoverAll : List Script.Expr → List Source.Expr
  | [] => []
  | e :: es => recover e :: recoverAll es

end

theorem called?_function (f : Function) : Prelude.called? (.name f.name) = some f :=
  f.ofName?_name

mutual

/-- Reading back undoes lowering. -/
theorem recover_lowerExpr : ∀ {e : Source.Expr}, (∀ x ∈ e.names, IsPlain x) →
    recover (lowerExpr e) = e
  | .name _, _ | .nothing, _ | .bool _, _ | .int _, _ | .str _, _ => rfl
  | .list es, h => by rw [lowerExpr, recover, recoverAll_lowerExprs h]
  | .attr e a, h => by
    have hcallee := called?_function .getAttr
    rw [Function.name] at hcallee
    simp only [lowerExpr, Prelude.readAttribute, recover, hcallee, recoverAll, recoverCall,
      recover_lowerExpr (e := e) h]
  | .binary op l r, h => by
    rw [Source.Expr.names, List.forall_mem_append] at h
    have hcallee := called?_function (.operator op)
    rw [Function.name] at hcallee
    simp only [lowerExpr, Prelude.operation, recover, hcallee, recoverAll, recoverCall,
      recover_lowerExpr h.1, recover_lowerExpr h.2]
  | .call f es, h => by
    rw [Source.Expr.names, List.forall_mem_append] at h
    -- A callee of the source is a plain name or no name, so it is no function of the prelude.
    simp only [lowerExpr, recover, called?_lowerExpr h.1, recoverCall, recover_lowerExpr h.1,
      recoverAll_lowerExprs h.2]

theorem recoverAll_lowerExprs : ∀ {es : List Source.Expr},
    (∀ x ∈ Source.Expr.namesAll es, IsPlain x) → recoverAll (lowerExprs es) = es
  | [], _ => rfl
  | e :: es, h => by
    rw [Source.Expr.namesAll, List.forall_mem_append] at h
    rw [lowerExprs, recoverAll, recover_lowerExpr h.1, recoverAll_lowerExprs h.2]

end

/-- Two expressions with the same lowered text are the same expression. -/
theorem render_lowerExpr_determines {e e' : Source.Expr}
    (he : ∀ x ∈ e.names, isVariable x = true) (he' : ∀ x ∈ e'.names, isVariable x = true)
    (h : (lowerExpr e).render = (lowerExpr e').render) : e = e' := by
  have hlowered : lowerExpr e = lowerExpr e' :=
    Script.Expr.render_injective (wellNamed_lowerExpr he) (wellNamed_lowerExpr he') h
  calc e = recover (lowerExpr e) :=
        (recover_lowerExpr fun x hx => isPlain_of_isVariable (he x hx)).symm
    _ = recover (lowerExpr e') := by rw [hlowered]
    _ = e' := recover_lowerExpr fun x hx => isPlain_of_isVariable (he' x hx)

/-- An attribute of a call, whose name and argument look like code. -/
def attributeOfCall : Source.Expr :=
  .attr (.call (.name "f") [.str "\"), \"", .list []]) "g\")(\""

/-- A call of an attribute, with the same names and strings. -/
def callOfAttribute : Source.Expr :=
  .call (.attr (.name "f") "g\")(\"") [.str "\"), \"", .list []]

theorem render_lowerExpr_determines_calls :
    (∀ x ∈ attributeOfCall.names, isVariable x = true) ∧
      (∀ x ∈ callOfAttribute.names, isVariable x = true) ∧
      recover (lowerExpr attributeOfCall) = attributeOfCall ∧
      (lowerExpr attributeOfCall).render ≠ (lowerExpr callOfAttribute).render := by
  have ha : ∀ x ∈ attributeOfCall.names, isVariable x = true := by decide
  have hc : ∀ x ∈ callOfAttribute.names, isVariable x = true := by decide
  have hback : recover (lowerExpr attributeOfCall) = attributeOfCall :=
    render_lowerExpr_determines (by decide) ha rfl
  refine ⟨ha, hc, hback, fun h => ?_⟩
  cases render_lowerExpr_determines ha hc h

end Lowering

end ScriptCompiler
