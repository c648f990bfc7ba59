import ScriptCompiler.Proofs.Scopes.Hoisting

/-!
# What lowering reports

Lowering reports the size of a scope before it lowers the body, and a temporary before it makes the
declaration of it. `recordsOf?` reads the same records off statements alone, from the first to the
last: a function tells how many declarations stand at its head, and a declaration with a value tells
which module it loads. `Reported σ ss τ` says that lowering which makes `ss` on its way from `σ` to
`τ` reports just that. Steps in a row keep it (`Reported.append`), and a scope adds the record of
its declarations in front (`Reported.scope`), so it holds of every body (`reported_lowerBody`) and
of every module (`lowering_reports_tree`). Runs make no difference: the records of the flattened
statements, which are what printing shows, are the same.
-/

namespace ScriptCompiler

namespace Script

/-! ## Reading records off statements -/

/-- A declaration without a value. -/
def Stmt.isBare : Stmt → Bool
  | .var _ none => true
  | _ => false

/-- How many declarations without a value stand at the head of a scope. -/
def leadingBare (body : List Stmt) : Nat := (body.takeWhile Stmt.isBare).length

/-- The path that an expression passes to the prelude to load a module. -/
def Expr.loadedPath? : Expr → Option String
  | .call (.name f) [.str path] => if f = Prelude.loadName then some path else none
  | _ => none

/-- The record of a scope with `count` declarations at its head. -/
def scopeRecord (count : Nat) : Trace.Record where
  level := .trace
  target := "tern_codegen::hoist"
  message := "hoisted scope declarations"
  fields := [("count", toString count)]

/-- The record of a variable that is declared to hold the module at `path`. -/
def loadRecord (name path : String) : Trace.Record where
  level := .trace
  target := "tern_codegen::transform::imports"
  message := "binding import temporary"
  fields := [("temp", name), ("path", path)]

mutual

/-- The records of a statement, in the order it is printed. There are none to read if a declaration
has a value other than a module that is loaded. -/
def Stmt.records? : Stmt → Option (List Trace.Record)
  | .run ss => recordsOf? ss
  | .expr _ | .ret _ | .var _ none => some []
  | .var x (some e) => do
    let path ← e.loadedPath?
    return [loadRecord x path]
  | .function _ _ body => do
    let inner ← recordsOf? body
    return scopeRecord (leadingBare body) :: inner
  | .branch _ t e => do
    let whenTrue ← recordsOf? t
    let whenFalse ← recordsOf? e
    return whenTrue ++ whenFalse

/-- The records of statements in a row. -/
def recordsOf? : List Stmt → Option (List Trace.Record)
  | [] => some []
  | s :: ss => do
    let first ← s.records?
    let rest ← recordsOf? ss
    return first ++ rest

end

/-- The records of a whole scope: that of its declarations comes first. -/
def scopeRecords? (body : List Stmt) : Option (List Trace.Record) := do
  let inner ← recordsOf? body
  return scopeRecord (leadingBare body) :: inner

theorem recordsOf?_append (ss us : List Stmt) :
    recordsOf? (ss ++ us) = do
      let first ← recordsOf? ss
      let rest ← recordsOf? us
      return first ++ rest := by
  induction ss with
  | nil => simp [recordsOf?]
  | cons s ss ih => simp [recordsOf?, ih, Option.bind_assoc]

theorem recordsOf?_singleton (s : Stmt) : recordsOf? [s] = s.records? := by
  simp [recordsOf?]

/-- A branch has the records of its sides in a row. -/
theorem Stmt.records?_branch (c : Expr) (t e : List Stmt) :
    (Stmt.branch c t e).records? = recordsOf? (t ++ e) :=
  (recordsOf?_append t e).symm

theorem flattenAll_append (ss us : List Stmt) :
    flattenAll (ss ++ us) = flattenAll ss ++ flattenAll us := by
  induction ss with
  | nil => rfl
  | cons s ss ih => rw [List.cons_append, flattenAll, flattenAll, ih, List.append_assoc]

/-! ## Declarations at the head -/

mutual

theorem Stmt.bareNames_flatten : ∀ s : Stmt, bareNames s.flatten = bareNames [s]
  | .run ss => by
    rw [Stmt.flatten, bareNames_flattenAll ss]
    simp [bareNames, items, Stmt.items]
  | .expr _ | .ret _ | .var _ _ => rfl
  | .function _ _ _ => by simp [Stmt.flatten, bareNames, items, Stmt.items, Item.bare]
  | .branch c t e => by
    have ht := bareNames_flattenAll t
    have he := bareNames_flattenAll e
    unfold bareNames at ht he
    simp [Stmt.flatten, bareNames, items, Stmt.items, ht, he]

theorem bareNames_flattenAll : ∀ ss : List Stmt, bareNames (flattenAll ss) = bareNames ss
  | [] => rfl
  | s :: ss => by
    rw [flattenAll, Lowering.bareNames_append, s.bareNames_flatten, bareNames_flattenAll ss,
      ← Lowering.bareNames_append, List.singleton_append]

end

theorem leadingBare_of_bareNames {ss : List Stmt} (h : bareNames ss = []) : leadingBare ss = 0 := by
  match ss with
  | [] => rfl
  | .var x none :: ss => simp [bareNames, items, Stmt.items, Item.bare] at h
  | .var _ (some _) :: _ | .run _ :: _ | .expr _ :: _ | .ret _ :: _ | .function _ _ _ :: _
  | .branch _ _ _ :: _ => rfl

theorem flattenAll_map_var (xs : List String) :
    flattenAll (xs.map (.var · none)) = xs.map (.var · none) := by
  induction xs with
  | nil => rfl
  | cons x xs ih => rw [List.map_cons, flattenAll, ih, Stmt.flatten, List.singleton_append]

theorem leadingBare_map_var_append (xs : List String) {ss : List Stmt} (h : bareNames ss = []) :
    leadingBare (xs.map (.var · none) ++ ss) = xs.length := by
  have hbare : ∀ s ∈ xs.map (Stmt.var · none), s.isBare = true := by simp [Stmt.isBare]
  have hrest : (ss.takeWhile Stmt.isBare).length = 0 := leadingBare_of_bareNames h
  rw [leadingBare, List.takeWhile_append_of_pos hbare, List.length_append, hrest]
  simp

end Script

namespace Lowering

open Source (DottedImport NamedImport declaredNames)
open Script (recordsOf? scopeRecords? flattenAll bareNames)

/-! ## Statements that tell records -/

/-- The records are those of the statements, with runs or without. -/
structure Tells (ss : List Script.Stmt) (records : List Trace.Record) : Prop where
  tree : recordsOf? ss = some records
  flat : recordsOf? (flattenAll ss) = some records

/-- The records are those of a scope with this body, with runs or without. -/
structure TellsScope (body : List Script.Stmt) (records : List Trace.Record) : Prop where
  tree : scopeRecords? body = some records
  flat : scopeRecords? (flattenAll body) = some records

section

variable {ss us : List Script.Stmt} {first rest : List Trace.Record}

theorem Tells.nil : Tells [] [] := ⟨rfl, rfl⟩

theorem Tells.append (hss : Tells ss first) (hus : Tells us rest) :
    Tells (ss ++ us) (first ++ rest) where
  tree := by simp [Script.recordsOf?_append, hss.tree, hus.tree]
  flat := by simp [Script.flattenAll_append, Script.recordsOf?_append, hss.flat, hus.flat]

theorem Tells.cons {s : Script.Stmt} (hs : Tells [s] first) (hus : Tells us rest) :
    Tells (s :: us) (first ++ rest) :=
  hs.append hus

theorem Tells.expr (e : Script.Expr) : Tells [.expr e] [] := ⟨rfl, rfl⟩

theorem Tells.ret (e : Script.Expr) : Tells [.ret e] [] := ⟨rfl, rfl⟩

theorem Tells.var (x : String) : Tells [.var x none] [] := ⟨rfl, rfl⟩

theorem Tells.load (x path : String) :
    Tells [.var x (some (Prelude.load path))] [Script.loadRecord x path] := ⟨rfl, rfl⟩

theorem Tells.run (h : Tells ss first) : Tells [.run ss] first where
  tree := (Script.recordsOf?_singleton _).trans h.tree
  flat := by
    rw [flattenAll, Script.Stmt.flatten, flattenAll, List.append_nil]
    exact h.flat

/-- The side for true is printed first, so a branch tells what its two sides tell in a row. -/
theorem Tells.branch (c : Script.Expr) (h : Tells (ss ++ us) first) :
    Tells [.branch c ss us] first where
  tree := by
    rw [Script.recordsOf?_singleton, Script.Stmt.records?_branch]
    exact h.tree
  flat := by
    rw [flattenAll, Script.Stmt.flatten, flattenAll, List.append_nil, Script.recordsOf?_singleton,
      Script.Stmt.records?_branch, ← Script.flattenAll_append]
    exact h.flat

theorem TellsScope.function (f : String) (ps : List String) (h : TellsScope ss first) :
    Tells [.function f ps ss] first where
  tree := (Script.recordsOf?_singleton _).trans h.tree
  flat := by
    rw [flattenAll, Script.Stmt.flatten, flattenAll, List.append_nil, Script.recordsOf?_singleton]
    exact h.flat

theorem tells_map {f : α → Script.Stmt} (hf : ∀ a, Tells [f a] []) : ∀ as : List α,
    Tells (as.map f) []
  | [] => .nil
  | a :: as => (hf a).cons (tells_map hf as)

/-- Declarations in front of statements that declare nothing without a value. -/
theorem Tells.scope (body : List Source.Stmt) (h : Tells ss first) (hbare : bareNames ss = []) :
    TellsScope (declarations body ++ ss)
      (Script.scopeRecord (declaredNames body).length :: first) := by
  have hall : Tells (declarations body ++ ss) first :=
    (tells_map Tells.var (declaredNames body)).append h
  have hflat : flattenAll (declarations body ++ ss) = declarations body ++ flattenAll ss := by
    rw [Script.flattenAll_append, declarations, Script.flattenAll_map_var]
  have hcount : Script.leadingBare (declarations body ++ ss) = (declaredNames body).length :=
    Script.leadingBare_map_var_append _ hbare
  have hcountFlat : Script.leadingBare (declarations body ++ flattenAll ss) =
      (declaredNames body).length :=
    Script.leadingBare_map_var_append _ ((Script.bareNames_flattenAll ss).trans hbare)
  constructor
  · simp [scopeRecords?, hall.tree, hcount]
  · have htail := hall.flat
    rw [hflat] at htail ⊢
    simp [scopeRecords?, htail, hcountFlat]

end

/-! ## Lowering that reports what its statements tell -/

/-- On the way from `σ` to `τ` lowering reports the records of `ss`, and nothing else. -/
def Reported (σ : State) (ss : List Script.Stmt) (τ : State) : Prop :=
  ∃ events : List Event, τ.events.toList = σ.events.toList ++ events ∧
    Tells ss (events.map Event.record)

section

variable {σ τ υ : State} {ss us : List Script.Stmt}

theorem Tells.reported (h : Tells ss []) (σ : State) : Reported σ ss σ :=
  ⟨[], (List.append_nil _).symm, h⟩

theorem Reported.append (hss : Reported σ ss τ) (hus : Reported τ us υ) :
    Reported σ (ss ++ us) υ := by
  obtain ⟨events, hτ, htells⟩ := hss
  obtain ⟨more, hυ, hmore⟩ := hus
  refine ⟨events ++ more, ?_, ?_⟩
  · rw [hυ, hτ, List.append_assoc]
  · rw [List.map_append]
    exact htells.append hmore

theorem Reported.branch (c : Script.Expr) (h : Reported σ (ss ++ us) τ) :
    Reported σ [.branch c ss us] τ := by
  obtain ⟨events, hτ, htells⟩ := h
  exact ⟨events, hτ, htells.branch c⟩

/-- The size of the scope is reported on entry, before what its body reports. -/
theorem Reported.scope {body : List Source.Stmt} (h : Reported (σ.enter body) ss τ)
    (hbare : bareNames ss = []) :
    ∃ events : List Event, τ.events.toList = σ.events.toList ++ events ∧
      TellsScope (declarations body ++ ss) (events.map Event.record) := by
  obtain ⟨events, hτ, htells⟩ := h
  refine ⟨.hoisted (declaredNames body).length :: events, ?_, htells.scope body hbare⟩
  rw [hτ, State.enter, Array.toList_push, List.append_assoc, List.singleton_append]

theorem Reported.function {body : List Source.Stmt} (f : String) (ps : List String)
    (h : Reported (σ.enter body) ss τ) (hbare : bareNames ss = []) :
    Reported σ [.function f ps (declarations body ++ ss)] τ := by
  obtain ⟨events, hτ, htells⟩ := h.scope hbare
  exact ⟨events, hτ, htells.function f ps⟩

end

/-! ## Bodies -/

theorem tells_loadBelow : ∀ (parts loaded : List String) (parent : Script.Expr),
    Tells (loadBelow parent loaded parts) []
  | [], _, _ => .nil
  | _ :: parts, _, _ => (Tells.expr _).cons (tells_loadBelow parts _ _)

theorem tells_lowerEntry (entry : DottedImport) : Tells (lowerEntry entry) [] := by
  unfold lowerEntry
  split
  · exact .expr _
  · exact .nil
  · exact (Tells.expr _).cons (tells_loadBelow _ _ _)

theorem tells_entries : ∀ entries : List DottedImport, Tells (entries.flatMap lowerEntry) []
  | [] => .nil
  | entry :: entries => (tells_lowerEntry entry).append (tells_entries entries)

/-- The one event of an import of names is the record of its temporary's declaration. -/
theorem reported_lowerImportNames (parts : List String) (names : List NamedImport) (σ : State) :
    Reported σ [((lowerImportNames parts names).run σ).1]
      ((lowerImportNames parts names).run σ).2 := by
  rw [run_lowerImportNames]
  refine ⟨[.bound (temporaryName σ.nextImport) (modulePath parts)], ?_, ?_⟩
  · rw [State.imported, Array.toList_push]
  · exact ((Tells.load _ _).cons (tells_map (fun _ => Tells.expr _) names)).run

mutual

theorem reported_lowerStmt : ∀ (s : Source.Stmt) (σ : State),
    Reported σ [((lowerStmt s).run σ).1] ((lowerStmt s).run σ).2
  | .importModules entries, σ => (tells_entries entries).run.reported σ
  | .importNames parts names, σ => reported_lowerImportNames parts names σ
  | .expr _, σ | .assign _ _, σ => (Tells.expr _).reported σ
  | .ret _, σ => (Tells.ret _).reported σ
  -- The body is lowered after the entry to the scope is reported.
  | .define f parameters body, σ =>
    (reported_lowerBody body (σ.enter body)).function f parameters (bareNames_lowerBody body _)
  | .branch _ t e, σ => ((reported_lowerBody t σ).append (reported_lowerBody e _)).branch _

theorem reported_lowerBody : ∀ (ss : List Source.Stmt) (σ : State),
    Reported σ ((lowerBody ss).run σ).1 ((lowerBody ss).run σ).2
  | [], σ => Tells.nil.reported σ
  | s :: ss, σ => (reported_lowerStmt s σ).append (reported_lowerBody ss _)

end

theorem reported_lowerModule (exports : List String) (m : Source.Module) (σ : State) :
    ∃ ss events, ((lowerModule exports m).run σ).1 = .run ss ∧
      ((lowerModule exports m).run σ).2.events.toList = σ.events.toList ++ events ∧
      TellsScope ss (events.map Event.record) := by
  have hexports : Tells (exports.map exportName) [] := tells_map (fun _ => Tells.expr _) exports
  have hbody : Reported (σ.enter m.body)
      (((lowerBody m.body).run (σ.enter m.body)).1 ++ exports.map exportName)
      ((lowerBody m.body).run (σ.enter m.body)).2 :=
    (reported_lowerBody m.body (σ.enter m.body)).append (hexports.reported _)
  have hbare : bareNames (((lowerBody m.body).run (σ.enter m.body)).1 ++
      exports.map exportName) = [] := by
    rw [bareNames_append, bareNames_lowerBody, List.nil_append, bareNames, items_map_exportName]
    simp [List.flatMap_map, Script.Item.bare]
  obtain ⟨events, hevents, htells⟩ := hbody.scope hbare
  rw [← List.append_assoc] at htells
  exact ⟨_, events, rfl, hevents, htells⟩

/-- What lowering a module reports are the records of the tree that it returns, in the order the
tree is printed; from a later state they come after what was reported before. -/
theorem lowering_reports_tree (m : Source.Module) (exports : List String) :
    (∃ ss, (lower m exports).tree = .run ss ∧
      TellsScope ss ((lower m exports).events.map Event.record)) ∧
    ∀ σ : State, ∃ ss events, ((lowerModule exports m).run σ).1 = .run ss ∧
      ((lowerModule exports m).run σ).2.events.toList = σ.events.toList ++ events ∧
      TellsScope ss (events.map Event.record) := by
  refine ⟨?_, reported_lowerModule exports m⟩
  obtain ⟨ss, events, htree, hevents, htells⟩ := reported_lowerModule exports m {}
  have hlower : (lower m exports).events = events := hevents
  exact ⟨ss, htree, hlower ▸ htells⟩

example : (lower ⟨[.define "f" [] [.importNames ["m"] [⟨"a", none⟩]], .assign ["b"] .nothing]⟩
    ["f"]).events = [.hoisted 1, .hoisted 1, .bound "$import0" "m"] := by decide +kernel

end Lowering

end ScriptCompiler
