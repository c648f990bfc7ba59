import ScriptCompiler.Proofs.Lowering.Run
import ScriptCompiler.Proofs.Meaning.Evaluate

/-!
# Lowering keeps the meaning of a body

`Alike x y` says that two steps end alike from environments that agree: with the same value or for
the same reason, never stuck, with the machine in the same state and again in environments that
agree. Two environments agree if they differ in the temporaries of imports at most. Every form of
statement without functions is alike to its lowered form (`alike_lowerStmt`), whatever the number
of the next temporary.
-/

namespace ScriptCompiler

variable {M : Machine} {α β : Type}

open Eval Lowering

/-- The same state, and the same variables but for temporaries. -/
structure Env.Agree (env env' : Env M) : Prop where
  state : env.state = env'.state
  vars : ∀ x, ¬ IsTemporary x → env.vars x = env'.vars x

/-- Two runs that end alike and in environments that agree. -/
inductive SameEnd : EStateM.Result (Stop M) (Env M) α → EStateM.Result (Stop M) (Env M) α → Prop
  | ok {a : α} {env env' : Env M} : env.Agree env' → SameEnd (.ok a env) (.ok a env')
  | failed {e : M.Error} {env env' : Env M} : env.Agree env' →
      SameEnd (.error (.failed e) env) (.error (.failed e) env')
  | returned {v : M.Value} {env env' : Env M} : env.Agree env' →
      SameEnd (.error (.returned v) env) (.error (.returned v) env')

/-- Two steps that end alike wherever they start. -/
def Alike (x y : Eval M α) : Prop :=
  ∀ env env', env.Agree env' → SameEnd (x.run env) (y.run env')

theorem Env.Agree.refl (env : Env M) : env.Agree env := ⟨rfl, fun _ _ => rfl⟩

theorem Env.Agree.set {env env' : Env M} (h : env.Agree env') (x : String) (v : M.Value) :
    (env.set x v).Agree (env'.set x v) := by
  refine ⟨h.state, fun y hy => ?_⟩
  simp only [Env.set, h.vars y hy]

/-- A temporary may be stored on one side only. -/
theorem Env.Agree.set_temporary {env env' : Env M} (h : env.Agree env') (n : UInt32)
    (v : M.Value) : env.Agree (env'.set (temporaryName n) v) := by
  refine ⟨h.state, fun y hy => ?_⟩
  have hne : y ≠ temporaryName n := fun e => hy ⟨n, e⟩
  simp only [Env.set, hne, ↓reduceIte, h.vars y hy]

/-! ## Steps that are alike -/

theorem Alike.pure (a : α) : Alike (M := M) (pure a) (pure a) := fun _ _ h => .ok h

theorem Alike.bind {x y : Eval M α} {f g : α → Eval M β} (hxy : Alike x y)
    (hfg : ∀ a, Alike (f a) (g a)) : Alike (x >>= f) (y >>= g) := by
  intro env env' h
  have hs := hxy env env' h
  rw [EStateM.run_bind, EStateM.run_bind]
  generalize x.run env = r at hs
  generalize y.run env' = r' at hs
  cases hs with
  | ok h1 => exact hfg _ _ _ h1
  | failed h1 => exact .failed h1
  | returned h1 => exact .returned h1

theorem Alike.ret (v : M.Value) : Alike (α := α) (throw (Stop.returned v)) (throw (.returned v)) :=
  fun _ _ h => .returned h

theorem Alike.lift (x : EStateM M.Error M.State α) : Alike (lift x) (lift x) := by
  intro env env' h
  rw [run_lift, run_lift, ← h.state]
  cases x.run env.state with
  | ok a s => exact .ok ⟨rfl, h.vars⟩
  | error e s => exact .failed ⟨rfl, h.vars⟩

theorem Alike.read {x : String} (hx : IsPlain x) : Alike (M := M) (read x) (read x) := by
  intro env env' h
  rw [run_read, run_read, ← h.vars x (not_isTemporary_of_isPlain hx)]
  cases env.vars x with
  | some v => exact .ok h
  | none => exact Alike.lift _ env env' h

/-! ## Expressions -/

theorem eval_call_function (function : Prelude.Function) (es : List Script.Expr) :
    (Script.Expr.call (.name function.name) es).eval M =
      (do function.apply (← Script.Expr.evalAll M es)) := by
  simp only [Script.Expr.eval, Prelude.called?, Prelude.Function.ofName?_name]

theorem eval_truth (e : Script.Expr) :
    (Prelude.truth e).eval M = (do
      let v ← e.eval M
      return M.bool (← lift (M.truthy v))) := by
  refine (eval_call_function .truth [e]).trans ?_
  simp [Script.Expr.evalAll, Prelude.Function.apply]

theorem eval_readAttribute (e : Script.Expr) (a : String) :
    (Prelude.readAttribute e a).eval M = (do lift (M.getAttr (← e.eval M) (M.str a))) := by
  refine (eval_call_function .getAttr [e, .str a]).trans ?_
  simp [Script.Expr.evalAll, Script.Expr.eval, Prelude.Function.apply]

theorem eval_operation (op : BinaryOp) (l r : Script.Expr) :
    (Prelude.operation op l r).eval M = (do
      let left ← l.eval M
      let right ← r.eval M
      lift (M.binOp op left right)) := by
  refine (eval_call_function (.operator op) [l, r]).trans ?_
  simp [Script.Expr.evalAll, Prelude.Function.apply]

theorem eval_load (path : String) :
    (Prelude.load path).eval M = lift (M.load (M.str path)) := by
  refine (eval_call_function .load [.str path]).trans ?_
  simp [Script.Expr.evalAll, Script.Expr.eval, Prelude.Function.apply]

/-- A plain callee is no function of the prelude. -/
theorem called?_lowerExpr {e : Source.Expr} (he : ∀ x ∈ e.names, IsPlain x) :
    Prelude.called? (lowerExpr e) = none := by
  cases e with
  | name x =>
    have hx : IsPlain x := he x (by simp [Source.Expr.names])
    simp only [lowerExpr, Prelude.called?, Prelude.Function.ofName?_eq_none hx]
  | _ => rfl

mutual

theorem alike_lowerExpr : ∀ {e : Source.Expr}, (∀ x ∈ e.names, IsPlain x) →
    Alike (e.eval M) ((lowerExpr e).eval M)
  | .name x, h => by
    simp only [lowerExpr, Source.Expr.eval, Script.Expr.eval]
    exact .read (h x (by simp [Source.Expr.names]))
  | .nothing, _ | .bool _, _ | .int _, _ | .str _, _ => by
    simp only [lowerExpr, Source.Expr.eval, Script.Expr.eval]
    exact .pure _
  | .list es, h => by
    simp only [Source.Expr.names] at h
    simp only [lowerExpr, Source.Expr.eval, Script.Expr.eval]
    exact .bind (alike_lowerExprs h) fun vs => .lift _
  | .attr e a, h => by
    simp only [Source.Expr.names] at h
    simp only [lowerExpr, Source.Expr.eval, eval_readAttribute]
    exact .bind (alike_lowerExpr h) fun v => .lift _
  | .binary op l r, h => by
    simp only [Source.Expr.names, List.forall_mem_append] at h
    simp only [lowerExpr, Source.Expr.eval, eval_operation]
    exact .bind (alike_lowerExpr h.1) fun v => .bind (alike_lowerExpr h.2) fun w => .lift _
  | .call f es, h => by
    simp only [Source.Expr.names, List.forall_mem_append] at h
    simp only [lowerExpr, Source.Expr.eval, Script.Expr.eval, called?_lowerExpr h.1]
    exact .bind (alike_lowerExpr h.1) fun v => .bind (alike_lowerExprs h.2) fun vs => .lift _

theorem alike_lowerExprs : ∀ {es : List Source.Expr}, (∀ x ∈ Source.Expr.namesAll es, IsPlain x) →
    Alike (Source.Expr.evalAll M es) (Script.Expr.evalAll M (lowerExprs es))
  | [], _ => by
    simp only [lowerExprs, Source.Expr.evalAll, Script.Expr.evalAll]
    exact .pure []
  | e :: es, h => by
    simp only [Source.Expr.namesAll, List.forall_mem_append] at h
    simp only [lowerExprs, Source.Expr.evalAll, Script.Expr.evalAll]
    exact .bind (alike_lowerExpr h.1) fun v => .bind (alike_lowerExprs h.2) fun vs => .pure _

end

/-! ## Assignments and imports -/

/-- The environment with `v` stored in every name of `xs`. -/
def Env.setAll (env : Env M) (xs : List String) (v : M.Value) : Env M :=
  { env with vars := fun y => if y ∈ xs then some v else env.vars y }

theorem Env.setAll_set (env : Env M) (x : String) (xs : List String) (v : M.Value) :
    (env.set x v).setAll xs v = env.setAll (x :: xs) v := by
  simp only [Env.setAll, Env.set, List.mem_cons, Env.mk.injEq, and_true]
  funext y
  by_cases hx : y = x <;> by_cases hxs : y ∈ xs <;> simp [hx, hxs]

theorem Env.set_setAll (env : Env M) (x : String) (xs : List String) (v : M.Value) :
    (env.setAll xs v).set x v = env.setAll (x :: xs) v := by
  simp only [Env.setAll, Env.set, List.mem_cons, Env.mk.injEq, and_true]
  funext y
  by_cases hx : y = x <;> by_cases hxs : y ∈ xs <;> simp [hx, hxs]

theorem run_storeAll (v : M.Value) : ∀ (xs : List String) (env : Env M),
    (Source.storeAll v xs).run env = .ok () (env.setAll xs v)
  | [], env => by simp [Source.storeAll, Env.setAll]
  | x :: xs, env => by
    rw [Source.storeAll, EStateM.run_bind, run_store]
    simp only [run_storeAll v xs, Env.setAll_set]

theorem Alike.storeAll (v : M.Value) (xs : List String) :
    Alike (Source.storeAll v xs) (Source.storeAll v xs) := by
  intro env env' h
  rw [run_storeAll, run_storeAll]
  refine .ok ⟨h.state, fun y hy => ?_⟩
  simp only [Env.setAll, h.vars y hy]

/-- A chain stores from the inside out, which leaves what storing from left to right leaves. -/
theorem eval_chain (value : Script.Expr) : ∀ xs : List String,
    (chain xs value).eval M = (do
      let v ← value.eval M
      Source.storeAll v xs
      return v)
  | [] => by simp [chain, Source.storeAll]
  | x :: xs => by
    have ih := eval_chain value xs
    simp only [chain] at ih
    simp only [chain, List.foldr_cons, Script.Expr.eval, ih, bind_assoc, pure_bind]
    -- What is left is the order of the stores, which does not show as they store one value.
    congr 1
    funext v
    funext env
    show EStateM.run _ env = EStateM.run _ env
    simp only [EStateM.run_bind, run_storeAll, run_store, EStateM.run_pure, Env.set_setAll]

/-- Binding a name from a temporary that holds the module. -/
theorem run_lowerNamed {n : UInt32} {module : M.Value} {env : Env M} (entry : Source.NamedImport)
    (h : env.vars (temporaryName n) = some module) :
    ((lowerNamed (temporaryName n) entry).exec M).run env =
      ((lift (M.getProp module entry.name) >>= store entry.bound : Eval M Unit)).run env := by
  have hread : (read (temporaryName n)).run env = .ok module env := by rw [run_read, h]
  simp only [lowerNamed, Script.Stmt.exec, Script.Expr.eval, bind_assoc, pure_bind,
    EStateM.run_bind, hread]
  rfl

theorem alike_bindNames {n : UInt32} {module : M.Value} : ∀ {names : List Source.NamedImport},
    (∀ entry ∈ names, IsPlain entry.bound) → ∀ {env env' : Env M}, env.Agree env' →
    env'.vars (temporaryName n) = some module →
    SameEnd ((Source.bindNames module names).run env)
      ((Script.execAll M (names.map (lowerNamed (temporaryName n)))).run env')
  | [], _, env, env', h, _ => by
    simp only [Source.bindNames, List.map_nil, Script.execAll]
    exact .ok h
  | entry :: names, hp, env, env', h, ht => by
    simp only [List.forall_mem_cons] at hp
    have hne : temporaryName n ≠ entry.bound := fun e => not_isPlain_temporaryName n (e ▸ hp.1)
    simp only [Source.bindNames, List.map_cons, Script.execAll]
    rw [EStateM.run_bind, EStateM.run_bind, run_lowerNamed entry ht, EStateM.run_bind, run_lift,
      run_lift, ← h.state]
    cases (M.getProp module entry.name).run env.state with
    | ok v s =>
      have h' : Env.Agree { env with state := s } { env' with state := s } := ⟨rfl, h.vars⟩
      refine alike_bindNames hp.2 (h'.set entry.bound v) ?_
      simp only [Env.set, hne, ↓reduceIte, ht]
    | error e s => exact .failed ⟨rfl, h.vars⟩

theorem alike_lowerImportNames {parts : List String} {names : List Source.NamedImport}
    (hp : ∀ entry ∈ names, IsPlain entry.bound) (σ : Lowering.State) :
    Alike ((Source.Stmt.importNames parts names).exec M)
      (((lowerImportNames parts names).run σ).1.exec M) := by
  intro env env' h
  simp only [run_lowerImportNames, Source.Stmt.exec, Script.Stmt.exec, Script.execAll, eval_load,
    bind_assoc]
  rw [EStateM.run_bind, EStateM.run_bind, run_lift, run_lift, ← h.state]
  cases (M.load (M.str (modulePath parts))).run env.state with
  | ok module s =>
    have h' : Env.Agree { env with state := s } { env' with state := s } := ⟨rfl, h.vars⟩
    simp only [EStateM.run_bind, run_store]
    refine alike_bindNames hp (h'.set_temporary σ.nextImport module) ?_
    simp only [Env.set, ↓reduceIte]
  | error e s => exact .failed ⟨rfl, h.vars⟩

/-! ## Statements -/

mutual

/-- A statement that has a meaning: neither a function nor an import of dotted parts is in it. -/
def Source.Stmt.isSimple : Source.Stmt → Bool
  | .importModules _ | .define _ _ _ => false
  | .importNames _ _ | .expr _ | .assign _ _ | .ret _ => true
  | .branch _ t e => Source.isSimpleBody t && Source.isSimpleBody e

/-- A body of statements that have a meaning. -/
def Source.isSimpleBody : List Source.Stmt → Bool
  | [] => true
  | s :: ss => s.isSimple && Source.isSimpleBody ss

end

mutual

theorem alike_lowerStmt : ∀ {s : Source.Stmt}, s.isSimple → (∀ x ∈ s.names, IsPlain x) →
    ∀ σ : Lowering.State, Alike (s.exec M) (((lowerStmt s).run σ).1.exec M)
  | .importModules _, hs, _, _ | .define _ _ _, hs, _, _ => by simp [Source.Stmt.isSimple] at hs
  | .importNames parts names, _, h, σ => by
    rw [run_lowerStmt_importNames]
    refine alike_lowerImportNames (fun entry he => h _ ?_) σ
    simp only [Source.Stmt.names]
    exact List.mem_map_of_mem he
  | .expr e, _, h, σ => by
    simp only [Source.Stmt.names] at h
    simp only [run_lowerStmt_expr, Source.Stmt.exec, Script.Stmt.exec]
    exact .bind (alike_lowerExpr h) fun _ => .pure _
  | .assign targets value, _, h, σ => by
    simp only [Source.Stmt.names, List.forall_mem_append] at h
    simp only [run_lowerStmt_assign, Source.Stmt.exec, Script.Stmt.exec, eval_chain, bind_assoc,
      pure_bind, bind_pure_unit]
    exact .bind (alike_lowerExpr h.2) fun v => .storeAll v targets
  | .ret e, _, h, σ => by
    simp only [Source.Stmt.names] at h
    simp only [run_lowerStmt_ret, Source.Stmt.exec, Script.Stmt.exec]
    exact .bind (alike_lowerExpr h) fun v => .ret v
  | .branch c t e, hs, h, σ => by
    simp only [Source.Stmt.isSimple, Bool.and_eq_true] at hs
    simp only [Source.Stmt.names, List.forall_mem_append] at h
    simp only [run_lowerStmt_branch, Source.Stmt.exec, Script.Stmt.exec, eval_truth, bind_assoc,
      pure_bind, M.test_bool]
    refine .bind (alike_lowerExpr h.1.1) fun v => .bind (.lift _) fun b => ?_
    cases b with
    | true => exact alike_lowerBody hs.1 h.1.2 σ
    | false => exact alike_lowerBody hs.2 h.2 _

theorem alike_lowerBody : ∀ {body : List Source.Stmt}, Source.isSimpleBody body →
    (∀ x ∈ Source.namesOf body, IsPlain x) →
    ∀ σ : Lowering.State,
    Alike (Source.execAll M body) (Script.execAll M ((lowerBody body).run σ).1)
  | [], _, _, σ => by
    simp only [run_lowerBody_nil, Source.execAll, Script.execAll]
    exact .pure ()
  | s :: ss, hs, h, σ => by
    simp only [Source.isSimpleBody, Bool.and_eq_true] at hs
    simp only [Source.namesOf, List.forall_mem_append] at h
    simp only [run_lowerBody_cons, Source.execAll, Script.execAll]
    exact .bind (alike_lowerStmt hs.1 h.1 σ) fun _ => alike_lowerBody hs.2 h.2 _

end

/-- Declarations without a value store nothing. -/
theorem execAll_map_var (ss : List Script.Stmt) : ∀ xs : List String,
    Script.execAll M (xs.map (.var · none) ++ ss) = Script.execAll M ss
  | [] => rfl
  | x :: xs => by
    simp only [List.map_cons, List.cons_append, Script.execAll, Script.Stmt.exec, pure_bind,
      execAll_map_var ss xs]

/-- Lowering keeps the meaning of a body, on every machine and whatever the number of the next
temporary: of the body alone, of the body of a scope with its declarations, and of a module. -/
theorem lowering_keeps_meaning (M : Machine) {body : List Source.Stmt}
    (hs : Source.isSimpleBody body) (h : ∀ x ∈ Source.namesOf body, IsPlain x)
    (σ : Lowering.State) :
    Alike (Source.execAll M body) (Script.execAll M ((lowerBody body).run σ).1) ∧
      Alike (Source.execAll M body)
        (Script.execAll M (((hoist body).run σ).1 ++ ((lowerBody body).run σ).1)) ∧
      Alike (Source.execAll M body) ((lower ⟨body⟩ []).tree.exec M) := by
  refine ⟨alike_lowerBody hs h σ, ?_, ?_⟩
  · rw [run_hoist, declarations, execAll_map_var]
    exact alike_lowerBody hs h σ
  · rw [lower_tree, Script.Stmt.exec, List.map_nil, List.append_nil, declarations, execAll_map_var]
    exact alike_lowerBody hs h _

/-- A machine on texts that logs its operations. A module has every property but `missing`. -/
def logMachine : Machine where
  Value := String
  State := List String
  Error := String
  null := "null"
  bool b := toString b
  int n := toString n
  str s := s
  list vs := do
    modify (vs ++ ·)
    return "list"
  call f vs := do
    modify (f :: vs ++ ·)
    return f ++ "()"
  getAttr v a := return v ++ "." ++ a
  binOp op l r := return l ++ op.symbol ++ r
  truthy v := do
    modify (v :: ·)
    return v ≠ ""
  load path := do
    modify (path :: ·)
    return path
  getProp v p := if p = "missing" then throw p else return v ++ ":" ++ p
  unbound x := throw x
  test v := v = "true"
  test_bool b := by cases b <;> decide

/-- An import, a chain of targets, a branch and a `return` in it. -/
def sampleBody : List Source.Stmt :=
  [.importNames [".", "m"] [⟨"f", none⟩, ⟨"g", some "h"⟩],
    .assign ["x", "y"] (.call (.name "f") [.attr (.name "h") "$a", .int 1]),
    .branch (.binary .add (.name "x") (.name "y")) [.ret (.name "y"), .expr (.name "z")] [],
    .importNames ["n"] [⟨"missing", none⟩]]

theorem lowering_keeps_meaning_sample :
    ∃ env, ((lower ⟨sampleBody⟩ []).tree.exec logMachine).run ⟨fun _ => none, []⟩ =
      .error (.returned "./m:f()") env := by
  have hs : Source.isSimpleBody sampleBody := by decide
  have hplain : ∀ x ∈ Source.namesOf sampleBody, IsPlain x := by decide
  have hsource : ∃ env, (Source.execAll logMachine sampleBody).run ⟨fun _ => none, []⟩ =
      .error (.returned "./m:f()") env := ⟨_, rfl⟩
  obtain ⟨env, hsource⟩ := hsource
  have hsame := (lowering_keeps_meaning logMachine hs hplain {}).2.2 _ _ (.refl ⟨fun _ => none, []⟩)
  rw [hsource] at hsame
  generalize ((lower ⟨sampleBody⟩ []).tree.exec logMachine).run _ = ended at hsame
  cases hsame with
  | returned _ => exact ⟨_, rfl⟩

end ScriptCompiler
