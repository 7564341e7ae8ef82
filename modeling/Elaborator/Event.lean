import Elaborator.Local

/-!
# Events

The steps of an elaboration, for those who want to watch it. An event keeps the values it is about
and the metavariable store of its time, and `Event.line` puts it into words only when it is asked
for. So watching never changes what an elaboration does.
-/

namespace Elaborator

/-- A step of an elaboration. -/
inductive Event
  | check (ms : MetaStore) (scope : Local) (ty : Val)
  | checkScope (ms : MetaStore) (scope : Local)
  | synthScope (ms : MetaStore) (scope : Local)
  | synth (ms : MetaStore) (scope : Local) (term : Term) (ty : Val)
  | apply (ms : MetaStore) (scope : Local) (ty : Val) (icit : Icit)
  /-- A term does not have the expected type, but may have it with implicit arguments. -/
  | insertImplicits (ms : MetaStore) (scope : Local) (ty : Val)
  | hole (ms : MetaStore) (scope : Local) (x : Name) (search : Bool) (ty : Val)
  | unify (ms : MetaStore) (size : Nat) (lhs rhs : Val)
  | solve (ms : MetaStore) (m : MetaId) (size : Nat) (rhs : Val)
  | solved (m : MetaId)
  | postpone (m : MetaId) (size : Nat)
  | retry (m : MetaId) (count : Nat)
  | chooseBranch (m : MetaId) (branch : Prim)
  | rejectBranch (m : MetaId) (branch : Prim) (e : Error)
  | tryInstance (names : List Name) (candidate : Term) (depth : Nat)
  | foundInstance (names : List Name) (hole : Name) (witness : Term)
  | define (x : Name) (term : Term)

inductive Detail
  | debug
  | trace
deriving DecidableEq, Repr

def Detail.name : Detail → String
  | .debug => "DEBUG"
  | .trace => "TRACE"

def Icit.name : Icit → String
  | .impl => "Impl"
  | .expl => "Expl"

namespace Event

/-- The parts of an event's line: how detailed it is, what happened, and the data with their
names. -/
def describe (fuel : Nat) : Event → Except Fault (Detail × String × List (String × MarkedText))
  | .check ms scope ty => return (.debug, "check", [("ty", ← scope.text fuel ms ty)])
  | .checkScope ms scope => return (.trace, "check", [("cxt", ← scope.describe fuel ms)])
  | .synthScope ms scope => return (.trace, "synth", [("cxt", ← scope.describe fuel ms)])
  | .synth ms scope term ty => do
    let text ← term.text scope.names
    return (.debug, "synth", [("term", text), ("ty", ← scope.text fuel ms ty)])
  | .apply ms scope ty icit =>
    return (.debug, "synthapp", [("fty", ← scope.text fuel ms ty), ("icit", icit.name)])
  | .insertImplicits ms scope ty =>
    return (.debug, "retrying with implicit arguments", [("ty", ← scope.text fuel ms ty)])
  | .hole ms scope x search ty =>
    return (.debug, "hole",
      [("hole", x.text), ("instance", toString search), ("ty", ← scope.text fuel ms ty)])
  | .unify ms size lhs rhs => do
    let names := levelNames size
    return (.trace, "unify", [("lhs", ← lhs.text fuel ms names), ("rhs", ← rhs.text fuel ms names)])
  | .solve ms m size rhs =>
    return (.debug, "solve", [("meta", toString m), ("rhs", ← rhs.text fuel ms (levelNames size))])
  | .solved m => return (.debug, "solved", [("meta", toString m)])
  | .postpone m size => return (.debug, "postpone", [("meta", toString m), ("size", toString size)])
  | .retry m count => return (.debug, "retry", [("meta", toString m), ("count", toString count)])
  | .chooseBranch m branch =>
    return (.debug, "inverted boolean elimination", [("meta", toString m), ("branch", branch.name)])
  | .rejectBranch m branch e =>
    return (.trace, "branch failed",
      [("meta", toString m), ("branch", branch.name), ("error", ← e.message)])
  | .tryInstance names candidate depth =>
    return (.trace, "trying instance",
      [("candidate", ← candidate.text names), ("depth", toString depth)])
  | .foundInstance names x witness =>
    return (.debug, "instance", [("hole", x.text), ("witness", ← witness.text names)])
  | .define x term => return (.debug, "define", [("name", x.text), ("term", ← term.text [])])

def line (fuel : Nat) (e : Event) : Except Fault String := do
  let (detail, title, fields) ← e.describe fuel
  return String.intercalate " "
    (detail.name :: title :: fields.map fun (k, v) => k ++ "=" ++ toString v)

end Event

end Elaborator
