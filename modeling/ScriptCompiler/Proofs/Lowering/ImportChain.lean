import Mathlib.Data.List.Forall2
import ScriptCompiler.Proofs.Lowering.ModulePath

/-!
# Chains of imported modules

An import without another name stores a module for each of its parts: the first one in a variable,
every other one in a property of what is read from the target before it (`IsChain`). `Binds` says
which assignments an entry stands for, target by target and with the path that each one loads. The
assignments of an import are those of its entries, in their order (`import_binds_chains`).
-/

namespace ScriptCompiler.Lowering

open Source (DottedImport)
open Script (Expr Stmt)

/-! ## Targets -/

/-- What an assignment stores in. -/
inductive Target where
  | name (text : String)
  | property (object : Expr) (name : String)

namespace Target

/-- The expression that reads the target. -/
def read : Target → Expr
  | name x => .name x
  | property object p => .property object p

/-- The statement that stores a value in the target. -/
def store (value : Expr) : Target → Stmt
  | name x => .expr (.assign x value)
  | property object p => .expr (.assignProperty object p value)

/-- The target for a part of the module that is in the target. -/
def below (target : Target) (part : String) : Target := .property target.read part

end Target

/-- The targets of the modules on the way of a dotted import. -/
structure IsChain (parts : List String) (targets : List Target) : Prop where
  length_eq : targets.length = parts.length
  first : targets[0]? = parts[0]?.map .name
  next {i : Nat} {target : Target} {part : String} (htarget : targets[i]? = some target)
    (hpart : parts[i + 1]? = some part) : targets[i + 1]? = some (.property target.read part)

/-- The assignments that an entry stands for. -/
inductive Binds : DottedImport → List Stmt → Prop where
  | renamed (parts : List String) (x : String) :
      Binds ⟨parts, some x⟩ [(Target.name x).store (Prelude.load (modulePath parts))]
  | chained {parts : List String} {targets : List Target} (h : IsChain parts targets) :
      Binds ⟨parts, none⟩ (targets.mapIdx fun i target =>
        target.store (Prelude.load (modulePath (parts.take (i + 1)))))

/-! ## Lowered entries -/

theorem isChain_nil : IsChain [] [] := ⟨rfl, rfl, fun _ h => by cases h⟩

theorem isChain_scanl (part : String) (parts : List String) :
    IsChain (part :: parts) (parts.scanl Target.below (.name part)) where
  length_eq := by simp
  first := by simp
  next {i target part'} htarget hpart := by
    rw [List.getElem?_cons_succ] at hpart
    rw [List.getElem?_succ_scanl, htarget, hpart]
    rfl

/-- What is loaded from a target on. The loop carries the expression that reads the target; its own
assignment is put in front, so that the induction sees every target with the path that it holds. -/
theorem store_loadBelow (target : Target) (loaded parts : List String) :
    target.store (Prelude.load (modulePath loaded)) :: loadBelow target.read loaded parts =
      (parts.scanl Target.below target).mapIdx fun i target =>
        target.store (Prelude.load (modulePath (loaded ++ parts.take i))) := by
  induction parts generalizing target loaded with
  | nil => simp [loadBelow]
  | cons part parts ih =>
    have hbelow := ih (target.below part) (loaded ++ [part])
    simp only [List.append_assoc, List.singleton_append] at hbelow
    rw [List.scanl_cons, List.mapIdx_cons, List.take_zero, List.append_nil]
    simp only [List.take_succ_cons]
    rw [← hbelow]
    rfl

theorem binds_lowerEntry (entry : DottedImport) : Binds entry (lowerEntry entry) := by
  obtain ⟨parts, asName⟩ := entry
  cases asName with
  | some x => exact .renamed parts x
  | none =>
    cases parts with
    | nil => exact .chained isChain_nil
    | cons part parts =>
      have hloads := store_loadBelow (.name part) [part] parts
      have hentry : lowerEntry ⟨part :: parts, none⟩ = _ := hloads
      rw [hentry]
      exact .chained (isChain_scanl part parts)

/-- An import makes the assignments of its entries, one entry after the other. The path of an entry
that is written as a dotted text is that text with slashes for its dots. -/
theorem import_binds_chains (entries : List DottedImport) (text : String)
    (asName : Option String) :
    (∃ blocks, List.Forall₂ Binds entries blocks ∧ lowerImport entries = .run blocks.flatten) ∧
      modulePath (DottedImport.ofText text asName).parts =
        text.map fun c => if c = '.' then '/' else c := by
  refine ⟨⟨entries.map lowerEntry, ?_, ?_⟩, modulePath_ofText text asName⟩
  · rw [List.forall₂_map_right_iff, List.forall₂_same]
    exact fun entry _ => binds_lowerEntry entry
  · rw [lowerImport, List.flatMap_def]

end ScriptCompiler.Lowering
