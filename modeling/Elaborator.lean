import Elaborator.Action
import Elaborator.Check
import Elaborator.Config
import Elaborator.Config.Args
import Elaborator.Config.Json
import Elaborator.Decimal
import Elaborator.Doc
import Elaborator.Elaborate
import Elaborator.Erased
import Elaborator.Error
import Elaborator.Event
import Elaborator.Fault
import Elaborator.Globals
import Elaborator.IdMap
import Elaborator.Instance
import Elaborator.Json
import Elaborator.Local
import Elaborator.Meta.Store
import Elaborator.Name
import Elaborator.NameMap
import Elaborator.Primitive
import Elaborator.Proofs.Acyclicity
import Elaborator.Proofs.Allocation.Basic
import Elaborator.Proofs.Allocation.Check
import Elaborator.Proofs.Allocation.Elaborate
import Elaborator.Proofs.Allocation.Unify
import Elaborator.Proofs.BinderNames.Basic
import Elaborator.Proofs.BinderNames.Check
import Elaborator.Proofs.BinderNames.Elaborate
import Elaborator.Proofs.BinderNames.Surface
import Elaborator.Proofs.BinderNames.Unify
import Elaborator.Proofs.Comparison
import Elaborator.Proofs.Conversion.Basic
import Elaborator.Proofs.Conversion.Computes
import Elaborator.Proofs.Conversion.Eval
import Elaborator.Proofs.Conversion.Solution
import Elaborator.Proofs.Conversion.Subst
import Elaborator.Proofs.Conversion.Unify
import Elaborator.Proofs.Discipline.Basic
import Elaborator.Proofs.Discipline.Check
import Elaborator.Proofs.Discipline.Unify
import Elaborator.Proofs.Erasure
import Elaborator.Proofs.Fuel.Eval
import Elaborator.Proofs.Fuel.Unify
import Elaborator.Proofs.InstanceSearch
import Elaborator.Proofs.Invariant
import Elaborator.Proofs.Isolation
import Elaborator.Proofs.Mentions
import Elaborator.Proofs.Modes.Convertible
import Elaborator.Proofs.Modes.Ground
import Elaborator.Proofs.Modes.Looking
import Elaborator.Proofs.Modes.Superset
import Elaborator.Proofs.Modes.Unsolving
import Elaborator.Proofs.NormalForm.Idempotence
import Elaborator.Proofs.NormalForm.Rereading
import Elaborator.Proofs.NormalForm.Settled
import Elaborator.Proofs.NormalForm.Unfolding
import Elaborator.Proofs.Numerals
import Elaborator.Proofs.Pattern.Argument
import Elaborator.Proofs.Pattern.Complete
import Elaborator.Proofs.Pattern.Hole
import Elaborator.Proofs.Pattern.Moved
import Elaborator.Proofs.Pattern.Obstacle
import Elaborator.Proofs.Pattern.Solve
import Elaborator.Proofs.PrimitiveTypes
import Elaborator.Proofs.Printing.Document
import Elaborator.Proofs.Printing.ErasedNames
import Elaborator.Proofs.Printing.FreshNames
import Elaborator.Proofs.Printing.Resolution
import Elaborator.Proofs.Renaming
import Elaborator.Proofs.Renumber.Basic
import Elaborator.Proofs.Renumber.Check
import Elaborator.Proofs.Renumber.Elaborate
import Elaborator.Proofs.Renumber.Eval
import Elaborator.Proofs.Renumber.Session
import Elaborator.Proofs.Renumber.State
import Elaborator.Proofs.Renumber.Text
import Elaborator.Proofs.Renumber.Unify
import Elaborator.Proofs.Renumber.Verify
import Elaborator.Proofs.Replay.Check
import Elaborator.Proofs.Replay.Eval
import Elaborator.Proofs.Replay.ReadBack
import Elaborator.Proofs.Replay.Session
import Elaborator.Proofs.Replay.Snapshots
import Elaborator.Proofs.Replay.Unify
import Elaborator.Proofs.Replay.Verify
import Elaborator.Proofs.Retrying
import Elaborator.Proofs.Run
import Elaborator.Proofs.Scope.Basic
import Elaborator.Proofs.Scope.Check
import Elaborator.Proofs.Scope.Elaborate
import Elaborator.Proofs.Scope.Eval
import Elaborator.Proofs.Scope.Local
import Elaborator.Proofs.Scope.Shown
import Elaborator.Proofs.Scope.State
import Elaborator.Proofs.Scope.Unify
import Elaborator.Proofs.Session.Dependencies
import Elaborator.Proofs.Session.History
import Elaborator.Proofs.Session.StoredValues
import Elaborator.Proofs.Spans.Basic
import Elaborator.Proofs.Spans.Check
import Elaborator.Proofs.Spines
import Elaborator.Proofs.StoreGrowth
import Elaborator.Proofs.Telescopes
import Elaborator.Proofs.Transactions
import Elaborator.Proofs.TypePosition
import Elaborator.Proofs.Unwinding
import Elaborator.Proofs.Upholds
import Elaborator.Proofs.ValueMaps
import Elaborator.Proofs.Waiting
import Elaborator.Proofs.Weakening
import Elaborator.Proofs.Zonk.Complete
import Elaborator.Proofs.Zonk.Meaning
import Elaborator.Report
import Elaborator.Scope
import Elaborator.Session
import Elaborator.Surface
import Elaborator.Term
import Elaborator.Term.Named
import Elaborator.Term.Printer
import Elaborator.Text.Marked
import Elaborator.Text.Quoted
import Elaborator.Text.Unprintable
import Elaborator.Unify
import Elaborator.Unify.Comparison
import Elaborator.Unify.Solution
import Elaborator.Value
import Elaborator.Value.Eval
import Elaborator.Value.Quote
import Elaborator.Verify
import Elaborator.Zonk
