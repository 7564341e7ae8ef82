import Elaborator.Unify.Comparison
import Elaborator.Unify.Solution

/-!
# Unification

`unify` makes two values equal, solving metavariables on the way (`Mode.solving`), or checks that
they are equal as they stand (`Mode.rigid`). Globals are compared folded at first and unfolded only
if that fails.

A metavariable applied to distinct variables is solved at once (`solve`). A metavariable under a
stuck boolean case analysis is solved if one of the two branches fits. Every other problem about a
metavariable waits until the metavariable is solved, and is then tried again (`retryFor`).

The functions take fuel, which bounds the depth of the recursion.
-/

namespace Elaborator

open Elaborator.Action

/-- Refuses two values of a scope because they are not equal. -/
def mismatch (fuel : Nat) (size : Nat) (a b : Val) : Action Unit := do
  let lhs ← quote fuel size a
  let rhs ← quote fuel size b
  refuse (.conversion size lhs rhs none)

def unifyAll (unify : Val → Val → Action Unit) : List Val → List Val → Action Unit
  | x :: xs, y :: ys => do
    unify x y
    unifyAll unify xs ys
  | _, _ => pure ()

/-- Compares two eliminations, given how to compare values and what to do if the eliminations
differ. -/
def unifyElim (unify : Val → Val → Action Unit) (differ : Action Unit) : Elim → Elim → Action Unit
  | .app i x, .app j y => if i = j then unify x y else differ
  | .proj p, .proj q => if p = q then pure () else differ
  | .cases e m cs, .cases f n ds => do
    if e = f ∧ cs.length = ds.length then
      unify m n
      unifyAll unify cs ds
    else
      differ
  | _, _ => differ

def unifyElims (unify : Val → Val → Action Unit) (differ : Action Unit) :
    Spine → Spine → Action Unit
  | e :: sa, f :: sb => do
    unifyElim unify differ e f
    unifyElims unify differ sa sb
  | _, _ => pure ()

/-- Compares two spines, given how to compare values and what to do if the spines differ. -/
def unifySpines (unify : Val → Val → Action Unit) (differ : Action Unit) (sa sb : Spine) :
    Action Unit :=
  if sa.length = sb.length then unifyElims unify differ sa sb else differ

def postponeProblem (size : Nat) (m : MetaId) (sp : Spine) (rhs : Val) : Action Unit :=
  postpone m ⟨size, .neutral (.metavar m) sp, rhs⟩

/-- Tries the branches of a stuck case analysis on `?m` in turn, each in a transaction, and says
whether one of them fits. Errors that are not soft end the search. -/
def chooseBranch (fuel : Nat) (m : MetaId) (split : BoolSplit) (fit : Val → Prim → Action Unit) :
    List (Val × Prim) → Action Bool
  | [] => pure false
  | (case, constant) :: rest => do
    let branch ← split.branch fuel case
    match ← transaction (fit branch constant) with
    | .ok () =>
      emit (.chooseBranch m constant)
      return true
    | .error e =>
      if e.isSoft then
        emit (.rejectBranch m constant e)
        chooseBranch fuel m split fit rest
      else
        refuse e

/-- The solution of `?m` applied to these parameters, for this right-hand side. -/
def solution (fuel : Nat) (g : Globals) (size : Nat) (m : MetaId)
    (params : List Param) (rhs : Val) : Action Val := do
  let body ← quote fuel size rhs
  match body.rename m (params.map (·.level)).reverse size 0 with
  | .error e => throw e
  | .ok body =>
    emit (.solved m)
    (Term.abstract params body).eval fuel g.env

mutual

/-- Makes two values of a scope of this size equal. -/
def unify : (fuel : Nat) → Mode → Globals → (size : Nat) → Val → Val → Action Unit
  | 0, _, _, _, _, _ => throw (.fault .outOfFuel)
  | fuel + 1, mode, g, size, a, b => do
    let a ← forceMeta fuel a
    let b ← forceMeta fuel b
    emitWith fun ms => .unify ms size a b
    match Comparison.of mode a b with
    | .equal => pure ()
    | .mismatch => mismatch fuel size a b
    | .binders c d => do
      -- The bodies are compared at the same variable, so the annotations of functions do not
      -- matter.
      (if c.binder.kind.isLam then pure () else unify fuel mode g size c.dom d.dom)
      let x ← c.enter fuel size
      let y ← d.enter fuel size
      unify fuel mode g (size + 1) x y
    | .pairs x y z w => do
      unify fuel mode g size x z
      unify fuel mode g size y w
    | .numeral n pred => unify fuel mode g size (.nat n) pred
    | .spines sa sb => unifySpines (unify fuel mode g size) (mismatch fuel size a b) sa sb
    | .solve m sp rhs => solve fuel g size m sp rhs
    | .expandFun c v => do
      let x ← c.enter fuel size
      let y ← v.eliminate fuel (.app c.binder.kind.icit (.fresh size))
      unify fuel mode g (size + 1) x y
    | .expandPair x y v => do
      let fst ← v.eliminate fuel (.proj .fst)
      unify fuel mode g size x fst
      let snd ← v.eliminate fuel (.proj .snd)
      unify fuel mode g size y snd
    | .sameGlobal sa sb => do
      match ← transaction (unifySpines (unify fuel mode g size) (mismatch fuel size a b) sa sb) with
      | .ok () => pure ()
      | .error e =>
        if e.isSoft then
          let a ← force fuel a
          let b ← force fuel b
          unify fuel mode g size a b
        else
          refuse e
    | .unfoldLeft => do
      let a ← force fuel a
      unify fuel mode g size a b
    | .unfoldRight => do
      let b ← force fuel b
      unify fuel mode g size a b
termination_by structural fuel => fuel

/-- Solves `?m sp = rhs`, or lets it wait if the spine is not made of variables. -/
def solve : (fuel : Nat) → Globals → (size : Nat) → MetaId → Spine → Val → Action Unit
  | 0, _, _, _, _, _ => throw (.fault .outOfFuel)
  | fuel + 1, g, size, m, sp, rhs => do
    emitWith fun ms => .solve ms m size rhs
    match BoolSplit.of? sp with
    | some split => do
      let fit := fun branch constant => do
        unify fuel .solving g size branch rhs
        solve fuel g size m split.init (.prim constant)
      let chosen ← chooseBranch fuel m split fit (split.cases.zip [.true, .false])
      unless chosen do
        postponeProblem size m sp rhs
    | none => do
      match ← Spine.params? fuel (← metas) sp with
      | none => postponeProblem size m sp rhs
      | some params =>
        if distinctLevels (params.map (·.level)) then
          let v ← solution fuel g size m params rhs
          setMeta m v
          retryFor fuel g m
        else
          refuse (.nonLinearSpine m)
termination_by structural fuel => fuel

def retryFor : (fuel : Nat) → Globals → MetaId → Action Unit
  | 0, _, _ => throw (.fault .outOfFuel)
  | fuel + 1, g, m => do
    let problems ← takePostponed m
    (if problems.isEmpty then pure () else emit (.retry m problems.length))
    problems.forM fun p => unify fuel .solving g p.size p.lhs p.rhs
termination_by structural fuel => fuel

end

/-- Tries all waiting problems again, as long as a round solves something, for at most this many
rounds. -/
def retryRounds (fuel : Nat) (g : Globals) : (rounds : Nat) → Action Unit
  | 0 => throw (.fault .outOfFuel)
  | rounds + 1 => do
    let before ← metas
    if before.hasPostponed then
      before.postponedMetas.forM (retryFor fuel g)
      if (← metas).unsolved.length ≠ before.unsolved.length then
        retryRounds fuel g rounds

/-- Tries all waiting problems again until nothing more gets solved. Every round but the last solves
a metavariable, which bounds the number of rounds. -/
def retryAll (fuel : Nat) (g : Globals) : Action Unit := do
  let ms ← metas
  retryRounds fuel g (ms.unsolved.length + 1)

end Elaborator
