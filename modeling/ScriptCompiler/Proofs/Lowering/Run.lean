import ScriptCompiler.Lowering.Stmt

/-!
# Runs of lowering

What `lowerStmt` and `lowerBody` return, and the state they leave, from any state: one equation for
each form of statement. A property of lowered code that holds whatever the number of the next
temporary is proved from these by recursion on the source, with the state arbitrary.
-/

namespace ScriptCompiler.Lowering

open Source (DottedImport NamedImport declaredNames)

variable (σ : State)

/-- The declarations at the head of the scope of `body`. -/
def declarations (body : List Source.Stmt) : List Script.Stmt :=
  (declaredNames body).map (.var · none)

/-- The state in which the body of a scope is lowered: the declarations are reported. -/
def State.enter (body : List Source.Stmt) : State :=
  { σ with events := σ.events.push (.hoisted (declaredNames body).length) }

/-- The state after an import of names from the module at `path`. -/
def State.imported (path : String) : State where
  nextImport := σ.nextImport + 1
  events := σ.events.push (.bound (temporaryName σ.nextImport) path)

@[simp]
theorem run_hoist (body : List Source.Stmt) :
    (hoist body).run σ = (declarations body, σ.enter body) := rfl

@[simp]
theorem run_lowerImportNames (parts : List String) (names : List NamedImport) :
    (lowerImportNames parts names).run σ =
      (.run (.var (temporaryName σ.nextImport) (some (Prelude.load (modulePath parts))) ::
        names.map (lowerNamed (temporaryName σ.nextImport))), σ.imported (modulePath parts)) := rfl

@[simp]
theorem run_lowerStmt_importModules (entries : List DottedImport) :
    (lowerStmt (.importModules entries)).run σ = (lowerImport entries, σ) := rfl

@[simp]
theorem run_lowerStmt_importNames (parts : List String) (names : List NamedImport) :
    (lowerStmt (.importNames parts names)).run σ = (lowerImportNames parts names).run σ := rfl

@[simp]
theorem run_lowerStmt_expr (e : Source.Expr) :
    (lowerStmt (.expr e)).run σ = (.expr (lowerExpr e), σ) := rfl

@[simp]
theorem run_lowerStmt_assign (targets : List String) (value : Source.Expr) :
    (lowerStmt (.assign targets value)).run σ = (.expr (chain targets (lowerExpr value)), σ) := rfl

@[simp]
theorem run_lowerStmt_define (f : String) (parameters : List String) (body : List Source.Stmt) :
    (lowerStmt (.define f parameters body)).run σ =
      (.function f parameters (declarations body ++ ((lowerBody body).run (σ.enter body)).1),
        ((lowerBody body).run (σ.enter body)).2) := rfl

@[simp]
theorem run_lowerStmt_ret (e : Source.Expr) :
    (lowerStmt (.ret e)).run σ = (.ret (lowerExpr e), σ) := rfl

@[simp]
theorem run_lowerStmt_branch (c : Source.Expr) (t e : List Source.Stmt) :
    (lowerStmt (.branch c t e)).run σ =
      (.branch (Prelude.truth (lowerExpr c)) ((lowerBody t).run σ).1
        ((lowerBody e).run ((lowerBody t).run σ).2).1,
        ((lowerBody e).run ((lowerBody t).run σ).2).2) := rfl

@[simp]
theorem run_lowerBody_nil : (lowerBody []).run σ = ([], σ) := rfl

@[simp]
theorem run_lowerBody_cons (s : Source.Stmt) (ss : List Source.Stmt) :
    (lowerBody (s :: ss)).run σ =
      (((lowerStmt s).run σ).1 :: ((lowerBody ss).run ((lowerStmt s).run σ).2).1,
        ((lowerBody ss).run ((lowerStmt s).run σ).2).2) := rfl

/-- The tree of a lowered module: its declarations, its body and its exports, in one run. -/
theorem lower_tree (m : Source.Module) (exports : List String) :
    (lower m exports).tree =
      .run (declarations m.body ++ ((lowerBody m.body).run (State.enter {} m.body)).1 ++
        exports.map exportName) := rfl

end ScriptCompiler.Lowering
