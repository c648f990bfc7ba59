/-!
# Trace records

What the stages of the compiler report, in the form that is written out: a level, the part of the
program that speaks, a message, and named values as text.
-/

namespace ScriptCompiler.Trace

/-- How much a record matters, the most important first. -/
inductive Level where
  | error
  | warn
  | info
  | debug
  | trace
  deriving DecidableEq, Repr

def Level.name : Level → String
  | error => "ERROR"
  | warn => "WARN"
  | info => "INFO"
  | debug => "DEBUG"
  | trace => "TRACE"

structure Record where
  level : Level
  target : String
  message : String
  fields : List (String × String)
  deriving DecidableEq, Repr

end ScriptCompiler.Trace
