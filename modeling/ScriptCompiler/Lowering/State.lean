import ScriptCompiler.Trace.Record

/-!
# The state of lowering

Lowering numbers the temporaries of its imports and reports what it does. Both are kept in `State`:
the number of the next temporary, a 32-bit word, and the events so far.
-/

namespace ScriptCompiler

/-! ## Running a step, whatever its state -/

section Running

variable {α β σ : Type} (s : σ)

@[simp high]
theorem run_pure (a : α) : (pure a : StateM σ α).run s = (a, s) := rfl

@[simp high]
theorem run_map (f : α → β) (x : StateM σ α) :
    (f <$> x).run s = (f (x.run s).1, (x.run s).2) := rfl

@[simp high]
theorem run_bind (x : StateM σ α) (f : α → StateM σ β) :
    (x >>= f).run s = (f (x.run s).1).run (x.run s).2 := rfl

end Running

namespace Lowering

/-- What lowering reports. -/
inductive Event where
  /-- A scope declares this many names. -/
  | hoisted (count : Nat)
  /-- A temporary holds the module of a path. -/
  | bound (temporary path : String)
  deriving DecidableEq, Repr

/-- The event in the form that is written out. -/
def Event.record : Event → Trace.Record
  | .hoisted count =>
    ⟨.trace, "tern_codegen::hoist", "hoisted scope declarations", [("count", toString count)]⟩
  | .bound temporary path =>
    ⟨.trace, "tern_codegen::transform::imports", "binding import temporary",
      [("temp", temporary), ("path", path)]⟩

/-- The number of the next temporary, and the events in the order they were reported. -/
structure State where
  nextImport : UInt32 := 0
  events : Array Event := #[]

/-- A step of lowering. -/
abbrev LowerM := StateM State

/-! ## Events and temporaries -/

/-- Reports an event. -/
def report (event : Event) : LowerM Unit :=
  modify fun s => { s with events := s.events.push event }

@[simp]
theorem run_report (event : Event) (s : State) :
    (report event).run s = ((), { s with events := s.events.push event }) := rfl

/-- What the name of every temporary starts with. -/
def temporaryStem : String := "$import"

/-- The name of the temporary with a number. -/
def temporaryName (n : UInt32) : String := temporaryStem ++ toString n.toNat

/-- A temporary that was not handed out before. -/
def freshTemporary : LowerM String :=
  modifyGet fun s => (temporaryName s.nextImport, { s with nextImport := s.nextImport + 1 })

@[simp]
theorem run_freshTemporary (s : State) :
    freshTemporary.run s =
      (temporaryName s.nextImport, { s with nextImport := s.nextImport + 1 }) := rfl

end Lowering

end ScriptCompiler
