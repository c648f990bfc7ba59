import Mathlib.Algebra.Group.Nat.Defs
import ScriptCompiler.Proofs.Lowering.Renaming

/-!
# The temporaries of imports

Every import of names takes the next number for its temporary, and nothing else reads or changes the
counter. `Numbers x paths` says this of a step of lowering that imports names from the modules
`paths`: from any state it declares one temporary for each of them, numbered on from the counter,
leaves the counter behind the last one, binds no other name that is not plain, and from another
counter makes the same statements under other numbers. Steps in a row keep it (`Numbers.append`), so
it holds of every body (`numbers_lowerBody`). Counters are words, and wrap around; as long as the
numbers fit, the temporaries are distinct (`lowering_numbers_temporaries`).
-/

namespace ScriptCompiler

namespace Source

mutual

/-- The modules that a statement imports names from, in order and in its functions too. -/
def Stmt.nameImports : Stmt → List (List String)
  | .importNames path _ => [path]
  | .importModules _ | .expr _ | .ret _ | .assign _ _ => []
  | .define _ _ body => nameImportsOf body
  | .branch _ t e => nameImportsOf t ++ nameImportsOf e

def nameImportsOf : List Stmt → List (List String)
  | [] => []
  | s :: ss => s.nameImports ++ nameImportsOf ss

end

end Source

namespace Lowering

open Source (NamedImport namesOf nameImportsOf)
open Script (initialisedOf boundOf)
open Script.Stmt (renameAll)

/-! ## Steps that number temporaries -/

/-- The temporaries numbered on from `n`, each with the module that it holds. -/
def loads (n : UInt32) (paths : List (List String)) : List (String × Script.Expr) :=
  paths.mapIdx fun i path => (temporaryName (n + .ofNat i), Prelude.load (modulePath path))

theorem loads_append (n : UInt32) (paths others : List (List String)) :
    loads n (paths ++ others) = loads n paths ++ loads (n + .ofNat paths.length) others := by
  simp only [loads, List.mapIdx_append]
  congr 2
  funext i path
  rw [UInt32.ofNat_add, UInt32.add_comm (.ofNat i), UInt32.add_assoc]

/-- A renaming that takes the `count` temporaries from `n` on to those from `m` on, and changes no
name of another kind. -/
structure Renumbers (f : String → String) (n m : UInt32) (count : Nat) : Prop extends Spares f where
  temporary {i : Nat} : i < count → f (temporaryName (n + .ofNat i)) = temporaryName (m + .ofNat i)

section

variable {f : String → String} {n m : UInt32} {k l : Nat}

theorem Renumbers.left (h : Renumbers f n m (k + l)) : Renumbers f n m k where
  toSpares := h.toSpares
  temporary hi := h.temporary (Nat.lt_add_right l hi)

theorem Renumbers.right (h : Renumbers f n m (k + l)) :
    Renumbers f (n + .ofNat k) (m + .ofNat k) l where
  toSpares := h.toSpares
  temporary {i} hi := by
    have htemporary := h.temporary (Nat.add_lt_add_left hi k)
    rwa [UInt32.ofNat_add, ← UInt32.add_assoc, ← UInt32.add_assoc] at htemporary

end

/-- Whatever the state, the step makes statements with one temporary for each module of `paths`,
numbered on from the counter, and moves the counter behind them. -/
structure Numbers (step : State → List Script.Stmt × State) (paths : List (List String)) :
    Prop where
  next (σ : State) : (step σ).2.nextImport = σ.nextImport + .ofNat paths.length
  initialised (σ : State) : initialisedOf (step σ).1 = loads σ.nextImport paths
  bound (σ : State) : ∀ x ∈ boundOf (step σ).1, IsPlain x
  renamed {f : String → String} {σ τ : State} :
    Renumbers f σ.nextImport τ.nextImport paths.length → renameAll f (step σ).1 = (step τ).1

section

variable {step after : State → List Script.Stmt × State} {paths others : List (List String)}

/-- Statements without temporaries, made in passing: only the events may change. -/
theorem SteadyAll.numbers {ss : List Script.Stmt} (h : SteadyAll ss) {pass : State → State}
    (hpass : ∀ σ, (pass σ).nextImport = σ.nextImport) : Numbers (fun σ => (ss, pass σ)) [] where
  next σ := (hpass σ).trans (UInt32.add_zero _).symm
  initialised _ := h.initialised
  bound _ := h.bound
  renamed hf := h.renamed hf.toSpares

theorem Numbers.renumbers_after {f : String → String} {σ τ : State} {k : Nat}
    (h : Numbers step paths)
    (hf : Renumbers f σ.nextImport τ.nextImport (paths.length + k)) :
    Renumbers f (step σ).2.nextImport (step τ).2.nextImport k := by
  rw [h.next, h.next]
  exact hf.right

theorem Numbers.append (hstep : Numbers step paths) (hafter : Numbers after others) :
    Numbers (fun σ => ((step σ).1 ++ (after (step σ).2).1, (after (step σ).2).2))
      (paths ++ others) where
  next σ := by
    rw [hafter.next, hstep.next, List.length_append, UInt32.ofNat_add, UInt32.add_assoc]
  initialised σ := by
    rw [Script.initialisedOf_append, hstep.initialised, hafter.initialised, hstep.next,
      loads_append]
  bound σ := by
    rw [Script.boundOf_append, List.forall_mem_append]
    exact ⟨hstep.bound σ, hafter.bound _⟩
  renamed {f σ τ} hf := by
    rw [List.length_append] at hf
    rw [Script.Stmt.renameAll_append, hstep.renamed hf.left,
      hafter.renamed (hstep.renumbers_after hf)]

theorem Numbers.single {s : State → Script.Stmt} {next : State → State}
    (hnext : ∀ σ, (next σ).nextImport = σ.nextImport + .ofNat paths.length)
    (hinitialised : ∀ σ, (s σ).initialised = loads σ.nextImport paths)
    (hbound : ∀ σ, ∀ x ∈ (s σ).bound, IsPlain x)
    (hrenamed : ∀ {f : String → String} {σ τ : State},
      Renumbers f σ.nextImport τ.nextImport paths.length → (s σ).rename f = s τ) :
    Numbers (fun σ => ([s σ], next σ)) paths where
  next := hnext
  initialised σ := by rw [Script.initialisedOf_singleton, hinitialised]
  bound σ := by
    rw [Script.boundOf_singleton]
    exact hbound σ
  renamed hf := by rw [renameAll, renameAll, hrenamed hf]

theorem Numbers.run (h : Numbers step paths) :
    Numbers (fun σ => ([.run (step σ).1], (step σ).2)) paths :=
  .single h.next h.initialised h.bound fun hf => by rw [Script.Stmt.rename, h.renamed hf]

theorem Numbers.function {g : String} {ps : List String} (h : Numbers step paths)
    (hg : IsPlain g) (hps : ∀ x ∈ ps, IsPlain x) :
    Numbers (fun σ => ([.function g ps (step σ).1], (step σ).2)) paths := by
  refine .single h.next h.initialised (fun σ => ?_) fun {f σ τ} hf => ?_
  · rw [Script.Stmt.bound, List.forall_mem_cons, List.forall_mem_append]
    exact ⟨hg, hps, h.bound σ⟩
  · have hparameters : ps.map f = ps :=
      (List.map_congr_left fun x hx => hf.plain (hps x hx)).trans (List.map_id ps)
    rw [Script.Stmt.rename, hf.plain hg, hparameters, h.renamed hf]

theorem Numbers.branch {c : Script.Expr} (hc : Steady c) (hstep : Numbers step paths)
    (hafter : Numbers after others) :
    Numbers (fun σ => ([.branch c (step σ).1 (after (step σ).2).1], (after (step σ).2).2))
      (paths ++ others) := by
  -- The two sides are numbered as if the second stood behind the first.
  have hboth := hstep.append hafter
  refine .single hboth.next (fun σ => ?_) (fun σ => ?_) fun {f σ τ} hf => ?_
  · rw [← hboth.initialised σ, Script.initialisedOf_append, Script.Stmt.initialised]
  · rw [Script.Stmt.bound, List.forall_mem_append, ← Script.boundOf_append]
    exact ⟨hc.assigned, hboth.bound σ⟩
  · rw [List.length_append] at hf
    rw [Script.Stmt.rename, hc.renamed hf.toSpares, hstep.renamed hf.left,
      hafter.renamed (hstep.renumbers_after hf)]

end

section Names

variable (t : String)

theorem initialisedOf_map_lowerNamed : ∀ names : List NamedImport,
    initialisedOf (names.map (lowerNamed t)) = []
  | [] => rfl
  | _ :: names => initialisedOf_map_lowerNamed names

theorem boundOf_map_lowerNamed : ∀ names : List NamedImport,
    boundOf (names.map (lowerNamed t)) = names.map NamedImport.bound
  | [] => rfl
  | entry :: names => congrArg (entry.bound :: ·) (boundOf_map_lowerNamed names)

theorem renameAll_map_lowerNamed {f : String → String} (hf : Spares f) :
    ∀ {names : List NamedImport}, (∀ x ∈ names.map NamedImport.bound, IsPlain x) →
    renameAll f (names.map (lowerNamed t)) = names.map (lowerNamed (f t))
  | [], _ => rfl
  | entry :: names, h => by
    rw [List.map_cons, List.forall_mem_cons] at h
    have hentry : (lowerNamed t entry).rename f = lowerNamed (f t) entry := by
      simp only [lowerNamed, Script.Stmt.rename, Script.Expr.rename, hf.plain h.1]
    rw [List.map_cons, List.map_cons, renameAll, hentry, renameAll_map_lowerNamed hf h.2]

end Names

theorem numbers_lowerImportNames (path : List String) {names : List NamedImport}
    (h : ∀ x ∈ names.map NamedImport.bound, IsPlain x) :
    Numbers (fun σ => ([((lowerImportNames path names).run σ).1],
      ((lowerImportNames path names).run σ).2)) [path] := by
  refine .single (fun _ => rfl) (fun σ => ?_) (fun σ => ?_) fun {f σ τ} hf => ?_
  · simp [initialisedOf, Script.Stmt.initialised, initialisedOf_map_lowerNamed, loads]
  · have hload : (Prelude.load (modulePath path)).assigned = [] := rfl
    simpa [boundOf, Script.Stmt.bound, boundOf_map_lowerNamed, hload] using h
  · have htemporary : f (temporaryName σ.nextImport) = temporaryName τ.nextImport := by
      simpa using hf.temporary Nat.one_pos
    simp only [run_lowerImportNames, renameAll, Script.Stmt.rename, htemporary,
      (steady_load _).renamed hf.toSpares, renameAll_map_lowerNamed _ hf.toSpares h]

mutual

theorem numbers_lowerStmt : ∀ {s : Source.Stmt}, (∀ x ∈ s.names, IsPlain x) →
    Numbers (fun σ => ([((lowerStmt s).run σ).1], ((lowerStmt s).run σ).2)) s.nameImports
  | .importModules entries, h => by
    simp only [run_lowerStmt_importModules]
    exact (steadyAll_entries h).run.numbers fun _ => rfl
  | .importNames path names, h => by
    simp only [run_lowerStmt_importNames]
    exact numbers_lowerImportNames path h
  | .expr e, h => by
    simp only [run_lowerStmt_expr]
    exact (SteadyAll.expr (steady_lowerExpr h)).numbers fun _ => rfl
  | .ret e, h => by
    simp only [run_lowerStmt_ret]
    exact (SteadyAll.ret (steady_lowerExpr h)).numbers fun _ => rfl
  | .assign targets value, h => by
    rw [Source.Stmt.names, List.forall_mem_append] at h
    simp only [run_lowerStmt_assign]
    exact (SteadyAll.expr (steady_chain (steady_lowerExpr h.2) h.1)).numbers fun _ => rfl
  | .define f parameters body, h => by
    rw [Source.Stmt.names, List.cons_append, List.forall_mem_cons, List.forall_mem_append] at h
    obtain ⟨hf, hparameters, hbody⟩ := h
    have hhead : Numbers (fun σ => (declarations body, σ.enter body)) [] :=
      (steadyAll_declarations hbody).numbers fun _ => rfl
    simp only [run_lowerStmt_define]
    exact (hhead.append (numbers_lowerBody hbody)).function hf hparameters
  | .branch c t e, h => by
    rw [Source.Stmt.names, List.forall_mem_append, List.forall_mem_append] at h
    obtain ⟨⟨hc, ht⟩, he⟩ := h
    simp only [run_lowerStmt_branch]
    exact .branch (steady_truth (steady_lowerExpr hc)) (numbers_lowerBody ht) (numbers_lowerBody he)

theorem numbers_lowerBody : ∀ {ss : List Source.Stmt}, (∀ x ∈ namesOf ss, IsPlain x) →
    Numbers (lowerBody ss).run (nameImportsOf ss)
  | [], _ => SteadyAll.nil.numbers fun _ => rfl
  | s :: ss, h => by
    rw [namesOf, List.forall_mem_append] at h
    have hrun := funext fun σ => run_lowerBody_cons σ s ss
    rw [hrun]
    exact (numbers_lowerStmt h.1).append (numbers_lowerBody h.2)

end

/-! ## Modules in a row -/

/-- The scripts of modules that are lowered one after the other, with one counter. -/
def lowerModules (exports : List String) (ms : List Source.Module) : LowerM (List Script.Stmt) :=
  ms.mapM (lowerModule exports)

theorem numbers_lowerModule {exports : List String} {m : Source.Module}
    (h : (m.scope exports).Plain) :
    Numbers (fun σ => ([((lowerModule exports m).run σ).1], ((lowerModule exports m).run σ).2))
      (nameImportsOf m.body) := by
  unfold Source.Scope.Plain at h
  rw [List.forall_mem_append, List.forall_mem_append] at h
  obtain ⟨⟨-, hbody⟩, hexports⟩ := h
  have hhead : Numbers (fun σ => (declarations m.body, σ.enter m.body)) [] :=
    (steadyAll_declarations hbody).numbers fun _ => rfl
  have hend : Numbers (fun σ => (exports.map exportName, σ)) [] :=
    (steadyAll_exports hexports).numbers fun _ => rfl
  have hall := ((hhead.append (numbers_lowerBody hbody)).append hend).run
  rw [List.nil_append, List.append_nil] at hall
  exact hall

theorem numbers_lowerModules {exports : List String} : ∀ {ms : List Source.Module},
    (∀ m ∈ ms, (m.scope exports).Plain) →
    Numbers (lowerModules exports ms).run (ms.flatMap (nameImportsOf ·.body))
  | [], _ => SteadyAll.nil.numbers fun _ => rfl
  | m :: ms, h => by
    rw [List.forall_mem_cons] at h
    rw [lowerModules, List.mapM_cons]
    exact (numbers_lowerModule h.1).append (numbers_lowerModules h.2)

/-! ## Numbers that fit -/

/-- The temporary with a number, in decimal digits. -/
def numbered (n : Nat) : String := "$import" ++ toString n

theorem numbered_injective : Function.Injective numbered := by
  intro i j h
  have hlist := congrArg String.toList h
  simp only [numbered, String.toList_append] at hlist
  have hdigits := congrArg (fun digits => Nat.ofDigitChars 10 digits 0)
    (List.append_cancel_left hlist)
  simpa [Nat.toString_eq_repr] using hdigits

theorem toNat_add_ofNat {c : UInt32} {i : Nat} (h : c.toNat + i < 2 ^ 32) :
    (c + .ofNat i).toNat = c.toNat + i := by
  rw [UInt32.toNat_add, UInt32.toNat_ofNat', Nat.add_mod_mod, Nat.mod_eq_of_lt h]

theorem temporaryName_add {c : UInt32} {i : Nat} (h : c.toNat + i < 2 ^ 32) :
    temporaryName (c + .ofNat i) = numbered (c.toNat + i) := by
  rw [temporaryName, toNat_add_ofNat h]
  rfl

/-- Takes the `count` temporaries from number `c` on to those from zero on. -/
def renumber (c count : Nat) (x : String) : String :=
  match (List.range count).find? fun i => numbered (c + i) = x with
  | some i => numbered i
  | none => x

theorem renumber_numbered {c count i : Nat} (h : i < count) :
    renumber c count (numbered (c + i)) = numbered i := by
  have hfind : (List.range count).find? (fun j => numbered (c + j) = numbered (c + i)) =
      some i := by
    rw [List.find?_range_eq_some]
    refine ⟨by simp, List.mem_range.mpr h, fun j hj => ?_⟩
    have hne : numbered (c + j) ≠ numbered (c + i) := fun heq => by
      have := numbered_injective heq
      omega
    simpa using hne
  rw [renumber, hfind]

theorem renumber_of_ne {c count : Nat} {x : String} (h : ∀ i < count, numbered (c + i) ≠ x) :
    renumber c count x = x := by
  have hfind : (List.range count).find? (fun i => numbered (c + i) = x) = none := by
    simpa using h
  rw [renumber, hfind]

theorem renumbers_renumber {c : UInt32} {count : Nat} (h : c.toNat + count < 2 ^ 32) :
    Renumbers (renumber c.toNat count) c 0 count := by
  have hname {i : Nat} (hi : i < count) :
      temporaryName (c + .ofNat i) = numbered (c.toNat + i) := temporaryName_add (by omega)
  have hother {x : String} (hx : ∀ n, x ≠ temporaryName n) : renumber c.toNat count x = x :=
    renumber_of_ne fun i hi heq => hx (c + .ofNat i) (by rw [hname hi, heq])
  refine ⟨⟨fun hx => hother fun n heq => not_isPlain_temporaryName n (heq ▸ hx),
    fun g => hother (name_ne_temporaryName g), hother exportsName_ne_temporaryName⟩, ?_⟩
  intro i hi
  have hzero : temporaryName (0 + .ofNat i) = numbered (0 + i) :=
    temporaryName_add (by rw [UInt32.toNat_zero]; omega)
  rw [hname hi, renumber_numbered hi, hzero, Nat.zero_add]

/-- Lowering from `σ` numbers one temporary for each module of `paths`, in their order, and the
number of the first makes no other difference. -/
structure Numbered (lowering : LowerM (List Script.Stmt)) (σ : State)
    (paths : List (List String)) : Prop where
  /-- The declarations with a value are those of the temporaries, under consecutive numbers. -/
  initialised : initialisedOf (lowering.run σ).1 = paths.mapIdx fun i path =>
    (numbered (σ.nextImport.toNat + i), Prelude.load (modulePath path))
  distinct : ((initialisedOf (lowering.run σ).1).map Prod.fst).Nodup
  /-- No temporary is declared without a value, assigned, a function or a parameter. -/
  fresh : ∀ x ∈ (initialisedOf (lowering.run σ).1).map Prod.fst, x ∉ boundOf (lowering.run σ).1
  next : (lowering.run σ).2.nextImport.toNat = σ.nextImport.toNat + paths.length
  /-- With its temporaries renumbered from zero, the result is the one from counter zero. -/
  renamed : ∀ τ : State, τ.nextImport = 0 →
    renameAll (renumber σ.nextImport.toNat paths.length) (lowering.run σ).1 = (lowering.run τ).1

theorem Numbers.numbered {lowering : LowerM (List Script.Stmt)} {paths : List (List String)}
    (h : Numbers lowering.run paths) {σ : State}
    (hfits : σ.nextImport.toNat + paths.length < 2 ^ 32) : Numbered lowering σ paths := by
  have hloads : loads σ.nextImport paths = paths.mapIdx fun i path =>
      (Lowering.numbered (σ.nextImport.toNat + i), Prelude.load (modulePath path)) := by
    refine List.mapIdx_eq_mapIdx_iff.mpr fun i hi => ?_
    rw [temporaryName_add (by omega)]
  have hnames : (initialisedOf (lowering.run σ).1).map Prod.fst =
      (List.range paths.length).map fun i => Lowering.numbered (σ.nextImport.toNat + i) := by
    rw [h.initialised, hloads]
    refine List.ext_getElem (by simp) fun i _ _ => ?_
    simp
  refine ⟨(h.initialised σ).trans hloads, ?_, ?_, ?_, fun τ hτ => ?_⟩
  · rw [hnames]
    refine List.nodup_range.map fun i j hij => ?_
    exact Nat.add_left_cancel (numbered_injective hij)
  · rw [hnames]
    intro x hx hbound
    obtain ⟨i, hi, rfl⟩ := List.mem_map.mp hx
    have hi := List.mem_range.mp hi
    have hplain := h.bound σ _ hbound
    rw [← temporaryName_add (by omega)] at hplain
    exact not_isPlain_temporaryName _ hplain
  · rw [h.next, toNat_add_ofNat hfits]
  · refine h.renamed ?_
    rw [hτ]
    exact renumbers_renumber hfits

/-- As long as its number fits in a word, every import of names gets a temporary of its own: in
modules that are lowered in a row, and in one body. -/
theorem lowering_numbers_temporaries (σ : State) :
    (∀ (exports : List String) (ms : List Source.Module),
      (∀ m ∈ ms, (m.scope exports).Plain) →
      σ.nextImport.toNat + (ms.flatMap (nameImportsOf ·.body)).length < 2 ^ 32 →
      Numbered (lowerModules exports ms) σ (ms.flatMap (nameImportsOf ·.body))) ∧
    ∀ body : List Source.Stmt, (∀ x ∈ namesOf body, IsPlain x) →
      σ.nextImport.toNat + (nameImportsOf body).length < 2 ^ 32 →
      Numbered (lowerBody body) σ (nameImportsOf body) :=
  ⟨fun _ _ hms hfits => (numbers_lowerModules hms).numbered hfits,
    fun _ hbody hfits => (numbers_lowerBody hbody).numbered hfits⟩

/-- Two modules that import names in both sides of a branch, in a function and at their top. -/
def temporariesSample : List Source.Module :=
  [⟨[.define "f" ["x"]
      [.branch (.name "x") [.importNames ["m"] [⟨"a", none⟩]] [.importNames ["m", "n"] []]]]⟩,
    ⟨[.importNames ["p"] [⟨"q", some "f"⟩], .assign ["a"] (.name "f")]⟩]

theorem lowering_numbers_temporaries_sample :
    (∀ m ∈ temporariesSample, (m.scope ["f"]).Plain) ∧
      Numbered (lowerModules ["f"] temporariesSample) { nextImport := 9 }
        [["m"], ["m", "n"], ["p"]] ∧
      (initialisedOf ((lowerModules ["f"] temporariesSample).run { nextImport := 9 }).1).map
        Prod.fst = ["$import9", "$import10", "$import11"] ∧
      Numbered (lowerBody [.importNames ["m"] []]) { nextImport := 4294967294 } [["m"]] := by
  have hms : ∀ m ∈ temporariesSample, (m.scope ["f"]).Plain := by
    unfold Source.Scope.Plain
    decide
  have hsample := (lowering_numbers_temporaries { nextImport := 9 }).1 ["f"] temporariesSample hms
    (by decide)
  refine ⟨hms, hsample, ?_, ?_⟩
  · rw [hsample.initialised]
    decide +kernel
  · exact (lowering_numbers_temporaries { nextImport := 4294967294 }).2 [.importNames ["m"] []]
      nofun (by decide)

end Lowering

end ScriptCompiler
