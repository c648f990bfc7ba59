import ScriptCompiler.Text.Pieces
import ScriptCompiler.Text.Quoted
import ScriptCompiler.Text.Blank
import ScriptCompiler.Operator
import ScriptCompiler.Source.Tree
import ScriptCompiler.Source.Scope
import ScriptCompiler.Script.Tree
import ScriptCompiler.Script.Printer
import ScriptCompiler.Prelude.Names
import ScriptCompiler.Prelude.Code
import ScriptCompiler.Prelude.Text
import ScriptCompiler.Trace.Record
import ScriptCompiler.Trace.Filter
import ScriptCompiler.Lowering.State
import ScriptCompiler.Lowering.Expr
import ScriptCompiler.Lowering.Import
import ScriptCompiler.Lowering.Stmt
import ScriptCompiler.ScriptUnit
import ScriptCompiler.Files.Path
import ScriptCompiler.Files.Error
import ScriptCompiler.Files.Device
import ScriptCompiler.Files.System
import ScriptCompiler.Files.Resolve
import ScriptCompiler.Files.Action
import ScriptCompiler.Build.OutputName
import ScriptCompiler.Build.Error
import ScriptCompiler.Build.Event
import ScriptCompiler.Build.Walk
import ScriptCompiler.Build.UnitSource
import ScriptCompiler.Build.Compile
import ScriptCompiler.Build.Listing
import ScriptCompiler.Proofs.Lowering.Plain
import ScriptCompiler.Proofs.Lowering.Run
import ScriptCompiler.Proofs.Meaning.Evaluate
import ScriptCompiler.Proofs.Meaning.Simulation
import ScriptCompiler.Proofs.Printing.WellNamed
import ScriptCompiler.Proofs.Text.Quoted
import ScriptCompiler.Proofs.Printing.Token
import ScriptCompiler.Proofs.Printing.Decompose
import ScriptCompiler.Proofs.Printing.Unambiguous
import ScriptCompiler.Proofs.Scopes.Items
import ScriptCompiler.Proofs.Scopes.Lowered
import ScriptCompiler.Proofs.Scopes.Hoisting
import ScriptCompiler.Proofs.Scopes.Resolution
import ScriptCompiler.Proofs.Prelude.Operators
import ScriptCompiler.Proofs.Lowering.Grammar
import ScriptCompiler.Proofs.Lowering.PreludeUse
import ScriptCompiler.Proofs.Files.Route
import ScriptCompiler.Proofs.Files.Spelling
import ScriptCompiler.Proofs.Files.Extension
import ScriptCompiler.Proofs.Files.Components
import ScriptCompiler.Proofs.Files.Replace
import ScriptCompiler.Proofs.Files.Making
import ScriptCompiler.Proofs.Files.Place
import ScriptCompiler.Proofs.Build.Atomic
import ScriptCompiler.Proofs.Build.Outputs
import ScriptCompiler.Proofs.Build.Visits
import ScriptCompiler.Proofs.Build.Plans
import ScriptCompiler.Proofs.Build.Orders
import ScriptCompiler.Proofs.Build.Directories
import ScriptCompiler.Proofs.Build.Units
import ScriptCompiler.Proofs.Build.Mirror
import ScriptCompiler.Proofs.Build.Distinct
import ScriptCompiler.Proofs.Lowering.Recover
import ScriptCompiler.Proofs.Text.Literals
import ScriptCompiler.Proofs.Printing.Shown
import ScriptCompiler.Proofs.Lowering.Strings
import ScriptCompiler.Proofs.Lowering.Renaming
import ScriptCompiler.Proofs.Lowering.Temporaries
import ScriptCompiler.Proofs.Text.Bytes
import ScriptCompiler.Proofs.Build.Descent
import ScriptCompiler.Proofs.Build.Tour
import ScriptCompiler.Proofs.Text.SelfDelimiting
import ScriptCompiler.Proofs.Scopes.Exports
import ScriptCompiler.Proofs.Build.Accounts
import ScriptCompiler.Proofs.Build.Refusal
import ScriptCompiler.Proofs.Build.Recompile
import ScriptCompiler.Proofs.Lowering.ModulePath
import ScriptCompiler.Proofs.Lowering.ImportChain
import ScriptCompiler.Proofs.Build.OutputNames
import ScriptCompiler.Proofs.Lowering.Reports
import ScriptCompiler.Proofs.Text.Trimmed
import ScriptCompiler.Proofs.Trace.Filter
