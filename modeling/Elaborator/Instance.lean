import Elaborator.Check

/-!
# Instance search

A hole may ask for an instance: a variable or a global whose name begins with a given text and that
has the type of the hole. Newer candidates come first, and variables before globals. A candidate is
used as it is, with its implicit arguments filled in, or as a function whose argument is again an
instance (`search`). Each try is a transaction, so a candidate that does not fit leaves nothing
behind.
-/

namespace Elaborator

open Elaborator.Action

structure Candidate where
  term : Term
  ty : Val

/-- The variables of a local context that may be instances, innermost first. Erased ones can only be
used where they leave no trace. -/
def Local.candidates (config : Config) (scope : Local) : List Candidate :=
  scope.entries.zipIdx.filterMap fun (e, i) =>
    if !e.inserted && (scope.inType || !e.erased) && e.name.text.startsWith config.instancePrefix
      then
      some ⟨.var ⟨i⟩, e.ty⟩
    else
      none

def Globals.candidates (config : Config) (inType : Bool) (g : Globals) : List Candidate :=
  g.definitions.reverse.filterMap fun (x, d) =>
    if (inType || !d.erased) && x.text.startsWith config.instancePrefix then
      some ⟨.global x, d.ty⟩
    else
      none

def candidates (su : Setup) (scope : Local) : List Candidate :=
  scope.candidates su.config ++ su.globals.candidates su.config scope.inType

def tryDirect (fuel : Nat) (su : Setup) (scope : Local) (goal : Val) (c : Candidate) :
    Action (Option Term) :=
  attempt do
    unify fuel .solving su.globals scope.size c.ty goal
    return some c.term

def tryApplied (fuel : Nat) (su : Setup) (scope : Local) (goal : Val) (c : Candidate) :
    Action (Option Term) :=
  attempt do
    let (ty, args) ← instantiate fuel scope c.ty
    if args.isEmpty then
      return none
    else
      unify fuel .solving su.globals scope.size ty goal
      return some (c.term.applyImplicits args)

/-- Tries a candidate as a function of another instance, which `search` has to find. -/
def tryFunction (fuel : Nat) (su : Setup) (search : Val → Action (Option Term)) (scope : Local)
    (goal : Val) (c : Candidate) : Action (Option Term) :=
  attempt do
    let (ty, args) ← instantiate fuel scope c.ty
    match ← force fuel ty with
    | .closure pi =>
      if pi.binder.kind = .pi .expl then
        let arg ← newMetaVal fuel scope
        unify fuel .solving su.globals scope.size (← pi.apply fuel arg) goal
        match ← search pi.dom with
        | some w =>
          unify fuel .solving su.globals scope.size arg (← w.eval fuel scope.env)
          return some (.app (c.term.applyImplicits args) .expl w)
        | none => return none
      else
        return none
    | _ => return none

def tryCandidate (fuel : Nat) (su : Setup) (search : Val → Action (Option Term)) (scope : Local)
    (goal : Val) (c : Candidate) : Action (Option Term) := do
  match ← tryDirect fuel su scope goal c with
  | some t => return some t
  | none =>
    match ← tryApplied fuel su scope goal c with
    | some t => return some t
    | none => tryFunction fuel su search scope goal c

def tryCandidates (attempt : Candidate → Action (Option Term)) (scope : Local) (depth : Nat) :
    List Candidate → Action (Option Term)
  | [] => return none
  | c :: cs => do
    emit (.tryInstance scope.names c.term depth)
    match ← attempt c with
    | some t => return some t
    | none => tryCandidates attempt scope depth cs

/-- Looks for a term of type `goal` that nests at most `depth` instances. -/
def search (fuel : Nat) (su : Setup) (scope : Local) : (depth : Nat) → Val → Action (Option Term)
  | 0, _ => return none
  | depth + 1, goal =>
    tryCandidates (tryCandidate fuel su (search fuel su scope depth) scope goal) scope (depth + 1)
      (candidates su scope)

/-- Fills one hole that asks for an instance, unless unification already did. -/
def fillHole (fuel : Nat) (su : Setup) (hole : Hole) : Action Unit := do
  let v ← hole.term.eval fuel hole.scope.env
  if (← force fuel v).isMeta then
    match ← search fuel su hole.scope su.config.instanceDepth hole.ty with
    | some witness =>
      emit (.foundInstance hole.scope.names hole.name witness)
      let w ← witness.eval fuel hole.scope.env
      unifyIn fuel su hole.scope v w
    | none => refuse (.noInstance hole.name (← text fuel hole.scope hole.ty))

def searchInstances (fuel : Nat) (su : Setup) : Action Unit := do
  let holes := (← get).holes.filter (·.search)
  holes.forM (fillHole fuel su)

end Elaborator
