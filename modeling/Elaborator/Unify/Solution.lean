import Elaborator.Action

/-!
# Solutions of pattern problems

A problem `?m x₁ ... xₙ = t` with distinct variables `xᵢ` has the solution `?m := \x₁ ... xₙ. t`,
provided that `t` mentions neither other variables nor `?m` itself. `Term.rename` moves `t` into the
scope of the parameters and makes both checks, and `Term.abstract` puts the parameters around it.
-/

namespace Elaborator

structure Param where
  level : Level
  icit : Icit

/-- The parameters that a spine applies a metavariable to, outermost argument last; `none` if the
spine is not made of arguments that are variables. Arguments are looked at from the innermost one
on. -/
def Spine.params? (fuel : Nat) (ms : MetaStore) : Spine → Except Fault (Option (List Param))
  | [] => .ok (some [])
  | e :: sp => do
    match ← Spine.params? fuel ms sp with
    | none => return none
    | some ps =>
      match e with
      | .app icit x =>
        match ← x.force fuel ms with
        | .neutral (.var l) [] => return some (ps ++ [⟨l, icit⟩])
        | _ => return none
      | _ => return none

def distinctLevels : List Level → Bool
  | [] => true
  | l :: ls => !ls.contains l && distinctLevels ls

namespace Term

mutual

/-- Moves a term from a scope of this size, under `depth` further binders, into the scope of the
parameters (innermost first) of the metavariable `m`. Refuses terms that need another variable or
`m` itself. -/
def rename (m : MetaId) (params : List Level) (size : Nat) (depth : Nat) :
    Term → Except Failure Term
  | .var i =>
    if i.toNat < depth then .ok (.var i)
    else
      match Index.toLevel ⟨i.toNat - depth⟩ size with
      | .error f => .error (.fault f)
      | .ok l =>
        match params.idxOf? l with
        | some k => .ok (.var ⟨k + depth⟩)
        | none => .error (.error (.scope m ("$" ++ toString l.toNat)))
  | .metavar n => if n = m then .error (.error (.occurs m)) else .ok (.metavar n)
  | .type => .ok .type
  | .global x => .ok (.global x)
  | .prim p => .ok (.prim p)
  | .nat n => .ok (.nat n)
  | .app f icit x => do
    let f ← f.rename m params size depth
    return .app f icit (← x.rename m params size depth)
  | .bind b dom body => do
    let dom ← dom.rename m params size depth
    return .bind b dom (← body.rename m params size (depth + 1))
  | .pair a b s => do
    let a ← a.rename m params size depth
    let b ← b.rename m params size depth
    return .pair a b (← s.rename m params size depth)
  | .proj x p => return .proj (← x.rename m params size depth) p
  | .letIn x erased ty val body => do
    let ty ← ty.rename m params size depth
    let val ← val.rename m params size depth
    return .letIn x erased ty val (← body.rename m params size (depth + 1))
  | .elim e motive scrut cases => do
    let motive ← motive.rename m params size depth
    let scrut ← scrut.rename m params size depth
    return .elim e motive scrut (← renameAll m params size depth cases)

def renameAll (m : MetaId) (params : List Level) (size : Nat) (depth : Nat) :
    List Term → Except Failure (List Term)
  | [] => .ok []
  | t :: ts => do
    let t ← t.rename m params size depth
    return t :: (← renameAll m params size depth ts)

end

def abstract (params : List Param) (body : Term) : Term :=
  params.foldr (fun p t => .lam p.icit ⟨"$" ++ toString p.level.toNat⟩ .type t) body

end Term

/-! ## Stuck case analyses -/

/-- A spine that ends in a boolean case analysis, possibly with one more argument. -/
structure BoolSplit where
  init : Spine
  cases : List Val
  trailing : Option Elim

def BoolSplit.of? : Spine → Option BoolSplit
  | .cases .bool _ cases :: sp => some ⟨sp, cases, none⟩
  | .app icit x :: .cases .bool _ cases :: sp => some ⟨sp, cases, some (.app icit x)⟩
  | _ => none

/-- The value of a case behind which the trailing argument stands. -/
def BoolSplit.branch (fuel : Nat) (s : BoolSplit) (case : Val) : Except Fault Val :=
  match s.trailing with
  | some e => case.eliminate fuel e
  | none => .ok case

end Elaborator
