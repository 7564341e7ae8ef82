import Elaborator.Primitive
import Elaborator.Unify

/-!
# Verification

An independent type checker for core terms without metavariables, which erases them at the same
time. It finds the type of each part and only ever compares types, it never solves anything. What it
gives is the type of the term and what is left of the term at run time.
-/

namespace Elaborator

open Elaborator.Action

def convertible (fuel : Nat) (g : Globals) (scope : Local) (a b : Val) : Action Unit :=
  mapError (·.withNames scope.names) (unify fuel .rigid g scope.size a b)

namespace Verify

/-- The index of a variable once the erased variables further inside are gone. -/
def runtimeIndex (scope : Local) (i : Index) : Nat :=
  ((scope.entries.take i.toNat).filter fun e => !e.erased).length

def inferVar (scope : Local) (i : Index) : Action (Val × Erased) := do
  let bound ← i.inScope scope.size
  match bound, scope.entries[i.toNat]? with
  | true, some entry =>
    if entry.erased && !scope.inType then
      refuse (.erasedUsage entry.name)
    else if entry.erased then
      return (entry.ty, .type)
    else
      return (entry.ty, .var (runtimeIndex scope i))
  | _, _ => refuse (.internal ("variable Idx(" ++ toString i.toNat ++ ") out of scope"))

def inferGlobal (g : Globals) (scope : Local) (x : Name) : Action (Val × Erased) := do
  match g.find? x with
  | some d =>
    if d.erased && !scope.inType then refuse (.erasedUsage x) else return (d.ty, .global x)
  | none => refuse (.unboundVariable x)

/-- What is left of a primitive: types leave nothing. -/
def erasePrim (p : Prim) : Erased :=
  match p.type with
  | .type => .type
  | _ => .prim p

def eraseElim (e : Eliminator) (scrut : Erased) (cases : List Erased) : Erased :=
  let case (k : Nat) := (cases[k]?).getD .type
  match e with
  | .void => scrut
  | .bool => .cond scrut (case 0) (case 1)
  | .nat => .elimNat scrut (case 0) (case 1)
  | .heq => case 0

mutual

/-- The type of a term in a local context, and what is left of the term at run time. -/
def infer (fuel : Nat) (g : Globals) (scope : Local) : Term → Action (Val × Erased)
  | .type => return (.type, .type)
  | .var i => inferVar scope i
  | .global x => inferGlobal g scope x
  | .metavar m => refuse (.internal ("meta " ++ .metavar m ++ " left in elaborated term"))
  | .prim p => return (p.type, erasePrim p)
  | .nat n => return (.prim .nat, .nat n)
  | .app f icit x => do
    let (fty, ef) ← infer fuel g scope f
    match ← force fuel fty with
    | .closure c =>
      if c.binder.kind = .pi icit then
        let runtime := !c.binder.erased && icit == .expl
        let inner := scope.enterIf !runtime
        let (xty, ex) ← infer fuel g inner x
        convertible fuel g inner xty c.dom
        let v ← x.eval fuel scope.env
        let ty ← c.apply fuel v
        return (ty, if runtime then .app ef ex else ef)
      else if c.binder.kind.isPi then
        refuse (.plicityMismatch (← text fuel scope fty))
      else
        refuse (.notAFunction (← text fuel scope (.closure c)))
    | v => refuse (.notAFunction (← text fuel scope v))
  | .bind b dom body => do
    let (domTy, _) ← infer fuel g scope.enterType dom
    convertible fuel g scope.enterType domTy .type
    let vdom ← dom.eval fuel scope.env
    match b.kind with
    | .lam icit =>
      let erased := b.erased || icit == .impl
      let inner := scope.bind b.name vdom erased false
      let (bodyTy, eb) ← infer fuel g inner body
      let bodyTy ← quote fuel inner.size bodyTy
      let pi ← (Term.bind { b with kind := .pi icit } dom bodyTy).eval fuel scope.env
      return (pi, if erased then eb else .abs b.name eb)
    | _ =>
      let inner := scope.enterType.bind b.name vdom false false
      let (bodyTy, _) ← infer fuel g inner body
      convertible fuel g inner bodyTy .type
      return (.type, .type)
  | .pair a b s => do
    let (sigmaTy, _) ← infer fuel g scope.enterType s
    convertible fuel g scope.enterType sigmaTy .type
    let vs ← s.eval fuel scope.env
    match ← force fuel vs with
    | .closure c =>
      if c.binder.kind = .sigma then
        let inner := scope.enterIf c.binder.erased
        let (aty, ea) ← infer fuel g inner a
        convertible fuel g inner aty c.dom
        let va ← a.eval fuel scope.env
        let expected ← c.apply fuel va
        let (bty, eb) ← infer fuel g scope b
        convertible fuel g scope bty expected
        return (vs, .pair (if c.binder.erased then .type else ea) eb)
      else
        refuse (.notASigma (← text fuel scope (.closure c)))
    | v => refuse (.notASigma (← text fuel scope v))
  | .proj x p => do
    let (xty, ex) ← infer fuel g scope x
    match ← force fuel xty with
    | .closure c =>
      if c.binder.kind = .sigma then
        match p with
        | .fst =>
          if c.binder.erased && !scope.inType then refuse (.erasedUsage c.binder.name)
          else return (c.dom, .fst ex)
        | .snd =>
          let fst ← (Term.proj x .fst).eval fuel scope.env
          return (← c.apply fuel fst, .snd ex)
      else
        refuse (.notASigma (← text fuel scope (.closure c)))
    | v => refuse (.notASigma (← text fuel scope v))
  | .letIn x erased ty val body => do
    let (tyTy, _) ← infer fuel g scope.enterType ty
    convertible fuel g scope.enterType tyTy .type
    let vty ← ty.eval fuel scope.env
    let inner := scope.enterIf erased
    let (found, ev) ← infer fuel g inner val
    convertible fuel g inner found vty
    let v ← val.eval fuel scope.env
    let (bodyTy, eb) ← infer fuel g (scope.define x vty erased v) body
    return (bodyTy, if erased then eb else .letIn x ev eb)
  | .elim e motive scrut cases => do
    if cases.length ≠ e.numCases then
      refuse (.wrongCaseCount e.name e.numCases cases.length)
    else
      let (scrutTy, es) ← infer fuel g scope scrut
      let q ← match e.scrutTy? with
        | some ty => do
          convertible fuel g scope scrutTy ty
          pure none
        | none => do
          match Equation.ofType? (← force fuel scrutTy) with
          | some q =>
            convertible fuel g scope q.lhsTy q.rhsTy
            pure (some q)
          | none => refuse (.notAnEquality (← text fuel scope scrutTy))
      let (found, _) ← infer fuel g scope.enterType motive
      convertible fuel g scope.enterType found (← e.motiveTy q)
      let vmotive ← motive.eval fuel scope.env
      let vscrut ← scrut.eval fuel scope.env
      let sig ← e.signature fuel vmotive vscrut q
      let ecs ← inferCases fuel g scope cases sig.caseTys
      return (sig.result, eraseElim e es ecs)

def inferCases (fuel : Nat) (g : Globals) (scope : Local) :
    List Term → List Val → Action (List Erased)
  | t :: ts, ty :: tys => do
    let (found, e) ← infer fuel g scope t
    convertible fuel g scope found ty
    return e :: (← inferCases fuel g scope ts tys)
  | _, _ => return []

end

end Verify

/-- The type of a closed term and what is left of it at run time. If `erased` is set, it may use
erased globals. -/
def verify (fuel : Nat) (g : Globals) (erased : Bool) (t : Term) : Action (Val × Erased) :=
  Verify.infer fuel g ((Local.empty g).enterIf erased) t

def sameType (fuel : Nat) (g : Globals) (a b : Val) : Action Unit :=
  convertible fuel g (Local.empty g) a b

end Elaborator
