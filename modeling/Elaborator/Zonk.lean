import Elaborator.Value.Quote

/-!
# Zonking

`Term.zonk` replaces the solved metavariables of a term by their solutions. A solved metavariable at
the head of an application is applied to its arguments as a value and read back, so that the
parameters of the solution do not show up in the result.
-/

namespace Elaborator

inductive Zonked
  /-- The head was a solved metavariable. This is its solution, applied to everything so far. -/
  | solved (v : Val)
  | term (t : Term)

def Zonked.toTerm (fuel : Nat) (ms : MetaStore) (size : Nat) : Zonked → Except Fault Term
  | .solved v => v.quote fuel ms false size
  | .term t => .ok t

namespace Term

mutual

/-- Replaces the solved metavariables of a term, but leaves an application of a solved metavariable
as a value. -/
def zonkHead (fuel : Nat) (ms : MetaStore) (env : Env) : Term → Except Fault Zonked
  | .metavar m =>
    match ms.lookup m with
    | some v => .ok (.solved v)
    | none => .ok (.term (.metavar m))
  | .app f icit x => do
    match ← f.zonkHead fuel ms env with
    | .solved v =>
      let vx ← x.eval fuel env
      return .solved (← v.eliminate fuel (.app icit vx))
    | .term f =>
      let zx ← x.zonkHead fuel ms env
      return .term (.app f icit (← zx.toTerm fuel ms env.size))
  | .proj x p => do
    match ← x.zonkHead fuel ms env with
    | .solved v => return .solved (← v.eliminate fuel (.proj p))
    | .term x => return .term (.proj x p)
  | .type => .ok (.term .type)
  | .var i => .ok (.term (.var i))
  | .global x => .ok (.term (.global x))
  | .prim p => .ok (.term (.prim p))
  | .nat n => .ok (.term (.nat n))
  | .bind b dom body => do
    let inner := env.push (.fresh env.size)
    let zdom ← dom.zonkHead fuel ms env
    let dom ← zdom.toTerm fuel ms env.size
    let zbody ← body.zonkHead fuel ms inner
    return .term (.bind b dom (← zbody.toTerm fuel ms inner.size))
  | .pair a b s => do
    let za ← a.zonkHead fuel ms env
    let a ← za.toTerm fuel ms env.size
    let zb ← b.zonkHead fuel ms env
    let b ← zb.toTerm fuel ms env.size
    let zs ← s.zonkHead fuel ms env
    return .term (.pair a b (← zs.toTerm fuel ms env.size))
  | .letIn x erased ty val body => do
    let inner := env.push (.fresh env.size)
    let zty ← ty.zonkHead fuel ms env
    let ty ← zty.toTerm fuel ms env.size
    let zval ← val.zonkHead fuel ms env
    let val ← zval.toTerm fuel ms env.size
    let zbody ← body.zonkHead fuel ms inner
    return .term (.letIn x erased ty val (← zbody.toTerm fuel ms inner.size))
  | .elim e motive scrut cases => do
    let zmotive ← motive.zonkHead fuel ms env
    let motive ← zmotive.toTerm fuel ms env.size
    let cases ← zonkAll fuel ms env cases
    match ← scrut.zonkHead fuel ms env with
    | .solved v => do
      let vmotive ← motive.eval fuel env
      let vcases ← cases.mapM (Term.eval fuel env)
      let w ← v.eliminate fuel (.cases e vmotive vcases)
      return .term (← w.quote fuel ms false env.size)
    | .term scrut => return .term (.elim e motive scrut cases)

def zonkAll (fuel : Nat) (ms : MetaStore) (env : Env) : List Term → Except Fault (List Term)
  | [] => .ok []
  | t :: ts => do
    let zt ← t.zonkHead fuel ms env
    let t ← zt.toTerm fuel ms env.size
    return t :: (← zonkAll fuel ms env ts)

end

/-- Replaces the solved metavariables of a term that lives in `env`. -/
def zonk (fuel : Nat) (ms : MetaStore) (env : Env) (t : Term) : Except Fault Term := do
  let z ← t.zonkHead fuel ms env
  z.toTerm fuel ms env.size

end Term

end Elaborator
