import Elaborator.Event

/-!
# Actions

An action works on the state of an elaboration (`State`) and ends with an answer or a `Failure`. The
state is kept in both cases: only `Action.transaction` and `Action.attempt` take solutions back, by
the transactions of the metavariable store.
-/

namespace Elaborator

/-- What changes while a term is elaborated. -/
structure State where
  metas : MetaStore
  /-- The named holes met so far, oldest first. -/
  holes : List Hole
  /-- What happened so far, newest first. -/
  log : List Event

def State.empty : State := ⟨.empty, [], []⟩

instance : Inhabited State := ⟨.empty⟩

/-- Why an action has no answer. -/
inductive Failure
  | error (e : Error)
  | fault (f : Fault)

/-- A computation on the state of an elaboration. -/
abbrev Action := EStateM Failure State

namespace Action

variable {α : Type}

def refuse (e : Error) : Action α := throw (.error e)

def ofExcept : Except Fault α → Action α
  | .ok a => pure a
  | .error f => throw (.fault f)

instance : MonadLift (Except Fault) Action := ⟨ofExcept⟩

def mapError (f : Error → Error) (x : Action α) : Action α := fun s =>
  match x s with
  | .ok a s => .ok a s
  | .error (.error e) s => .error (.error (f e)) s
  | .error (.fault e) s => .error (.fault e) s

/-- Gives the error of an action as an answer. Faults are not caught. -/
def catchError (x : Action α) : Action (Except Error α) := fun s =>
  match x s with
  | .ok a s => .ok (.ok a) s
  | .error (.error e) s => .ok (.error e) s
  | .error (.fault e) s => .error (.fault e) s

/-! ## Access to the state -/

def metas : Action MetaStore := return (← get).metas

def setMetas (ms : MetaStore) : Action Unit := modify fun s => { s with metas := ms }

def emit (e : Event) : Action Unit := modify fun s => { s with log := e :: s.log }

/-- Notes an event that shows the metavariables as they are now. -/
def emitWith (e : MetaStore → Event) : Action Unit := do
  let ms ← metas
  emit (e ms)

def freshMeta : Action MetaId := do
  let (m, ms) := (← metas).fresh
  setMetas ms
  return m

def setMeta (m : MetaId) (v : Val) : Action Unit := do
  match (← metas).set m v with
  | .ok ms => setMetas ms
  | .error e => refuse e

def postpone (m : MetaId) (p : Problem) : Action Unit := do
  emit (.postpone m p.size)
  setMetas ((← metas).postpone m p)

/-- The problems that wait for a metavariable, which no longer do so. -/
def takePostponed (m : MetaId) : Action (List Problem) := do
  let (ps, ms) := (← metas).takePostponed m
  setMetas ms
  return ps

/-! ## Transactions -/

def push : Action Unit := do setMetas (← metas).push

def pop : Action Unit := do setMetas (← (← metas).pop)

def discard : Action Unit := do setMetas (← (← metas).discard)

/-- Runs an action in a transaction that is kept exactly if the action has an answer. -/
def transaction (x : Action α) : Action (Except Error α) := do
  push
  match ← catchError x with
  | .ok a =>
    discard
    return .ok a
  | .error e =>
    pop
    return .error e

/-- Runs an action in a transaction that is kept exactly if the action finds something. Finding
nothing and soft errors are the same. -/
def attempt (x : Action (Option α)) : Action (Option α) := do
  push
  match ← catchError x with
  | .ok (some a) =>
    discard
    return some a
  | .ok none =>
    pop
    return none
  | .error e =>
    pop
    if e.isSoft then return none else refuse e

/-- Runs an action on metavariables of its own, which are gone afterwards. -/
def isolated (x : Action α) : Action α := fun s =>
  match x { s with metas := .empty } with
  | .ok a s' => .ok a { s' with metas := s.metas }
  | .error e s' => .error e { s' with metas := s.metas }

/-! ## Values under the current solutions -/

def forceMeta (fuel : Nat) (v : Val) : Action Val := do v.forceMeta fuel (← metas)

/-- Replaces solved metavariables and globals at the head of a value. -/
def force (fuel : Nat) (v : Val) : Action Val := do v.force fuel (← metas)

def quote (fuel : Nat) (size : Nat) (v : Val) : Action Term := do v.quote fuel (← metas) false size

def text (fuel : Nat) (scope : Local) (v : Val) : Action MarkedText :=
  do scope.text fuel (← metas) v

def newMeta (scope : Local) : Action Term := return scope.applyMeta (← freshMeta)

end Action

end Elaborator
