import Elaborator.Globals
import Elaborator.Value.Quote

/-!
# Local contexts

The variables in scope while a term is checked, with their types and values. A bound variable stands
for itself, a defined one for the value of its definition. Growing a context gives a new one.
-/

namespace Elaborator

structure Entry where
  name : Name
  ty : Val
  /-- Whether it stands for itself. Metavariables range over these variables only. -/
  bound : Bool
  /-- Whether it may only be used where it leaves no trace at run time. -/
  erased : Bool
  /-- Whether the elaborator put it in. Such a variable cannot be referred to by name. -/
  inserted : Bool

/-- The variables in scope. -/
structure Local where
  entries : List Entry
  env : Env
  /-- Whether the term at hand leaves no trace at run time, so that it may use erased variables. -/
  inType : Bool

namespace Local

def empty (g : Globals) : Local := ⟨[], g.env, false⟩

def size (l : Local) : Nat := l.env.size

def bind (l : Local) (x : Name) (ty : Val) (erased inserted : Bool) : Local :=
  { l with
    entries := { name := x, ty, bound := true, erased, inserted } :: l.entries
    env := l.env.push (.fresh l.size) }

def define (l : Local) (x : Name) (ty : Val) (erased : Bool) (v : Val) : Local :=
  { l with
    entries := { name := x, ty, bound := false, erased, inserted := false } :: l.entries
    env := l.env.push v }

def enterType (l : Local) : Local := { l with inType := true }

/-- The context for a part that leaves no trace if `erased` is set, and else is used like the
whole. -/
def enterIf (l : Local) (erased : Bool) : Local := if erased then l.enterType else l

def names (l : Local) : List Name := l.entries.map (·.name)

/-- The innermost variable of this name, inserted ones left out, with its index. -/
def lookup (l : Local) (x : Name) : Option (Index × Entry) :=
  (l.entries.zipIdx.find? fun (e, _) => !e.inserted && e.name == x).map fun (e, i) => (⟨i⟩, e)

/-- The variables that stand for themselves, outermost first. -/
def boundIndices (l : Local) : List Index :=
  (l.entries.zipIdx.filterMap fun (e, i) => if e.bound then some ⟨i⟩ else none).reverse

def applyMeta (l : Local) (m : MetaId) : Term :=
  l.boundIndices.foldl (fun t i => .app t .expl (.var i)) (.metavar m)

def quote (fuel : Nat) (ms : MetaStore) (l : Local) (v : Val) : Except Fault Term :=
  v.quote fuel ms false l.size

def text (fuel : Nat) (ms : MetaStore) (l : Local) (v : Val) : Except Fault MarkedText :=
  v.text fuel ms l.names

def describeEntries (fuel : Nat) (ms : MetaStore) : List Entry → Except Fault (List String)
  | [] => .ok []
  | e :: es => do
    let outer ← describeEntries fuel ms es
    let ty ← e.ty.text fuel ms (es.map (·.name))
    let marks := (if e.bound then "" else "d ") ++ (if e.erased then "0 " else "")
      ++ (if e.inserted then "i " else "")
    return (marks ++ e.name.text ++ " : " ++ toString ty) :: outer

def describe (fuel : Nat) (ms : MetaStore) (l : Local) : Except Fault String := do
  let entries ← describeEntries fuel ms l.entries
  return "[" ++ String.intercalate ", " entries.reverse ++ "]" ++
    (if l.inType then " in type" else "")

end Local

structure Hole where
  name : Name
  /-- The metavariable that stands for it, applied to the variables of `scope`. -/
  term : Term
  ty : Val
  scope : Local
  search : Bool

end Elaborator
