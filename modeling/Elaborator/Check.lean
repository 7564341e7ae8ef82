import Elaborator.Config
import Elaborator.Primitive
import Elaborator.Unify

/-!
# Checking and synthesis

Elaboration goes in two directions: `check` elaborates a surface term that is expected to have a
known type, and `synth` finds the type along with the term. Implicit arguments and implicit
functions are put in on the way.

Each rule is a definition of its own that gets the two directions as a `Checker` for the parts of
the term, and `check` and `synth` tie the knot at the end.
-/

namespace Elaborator

open Elaborator.Action

/-- What does not change while a term is elaborated. -/
structure Setup where
  config : Config
  globals : Globals

/-- The two directions of elaboration. -/
structure Checker where
  check : Local → Surface → Val → Action Term
  synth : Local → Surface → Action (Term × Val)

/-! ## Metavariables for what is left out -/

/-- Makes two values of a local context equal. Errors use the names of the context. -/
def unifyIn (fuel : Nat) (su : Setup) (scope : Local) (a b : Val) : Action Unit :=
  mapError (·.withNames scope.names) (unify fuel .solving su.globals scope.size a b)

def newMetaVal (fuel : Nat) (scope : Local) : Action Val := do
  let m ← newMeta scope
  m.eval fuel scope.env

/-- Fills all leading implicit arguments of a function type with new metavariables. Gives the type
that is left and the arguments. -/
def instantiate : (fuel : Nat) → Local → Val → Action (Val × List Term)
  | 0, _, _ => throw (.fault .outOfFuel)
  | fuel + 1, scope, ty => do
    match ← force fuel ty with
    | .closure c =>
      if c.binder.kind = .pi .impl then
        let m ← newMeta scope
        let v ← m.eval fuel scope.env
        let rest ← c.apply fuel v
        let (ty, args) ← instantiate fuel scope rest
        return (ty, m :: args)
      else
        return (ty, [])
    | _ => return (ty, [])

def freshPi (fuel : Nat) (scope : Local) (x : Name) (icit : Icit) (erased : Bool) : Action Val := do
  let dom ← newMeta scope
  let vdom ← dom.eval fuel scope.env
  let body ← newMeta (scope.bind x vdom (erased || icit == .impl) false)
  (Term.bind ⟨.pi icit, x, erased⟩ dom body).eval fuel scope.env

/-- Elaborates a hole. The names of holes are not repeated. -/
def elaborateHole (scope : Local) (name : Option Name) (search : Bool) (ty : Val) : Action Term :=
  do
  let term ← newMeta scope
  match name with
  | none => return term
  | some x =>
    if (← get).holes.any (·.name == x) then
      refuse (.duplicateHole x)
    else
      emitWith fun ms => .hole ms scope x search ty
      modify fun s => { s with holes := s.holes ++ [{ name := x, term, ty, scope, search }] }
      return term

/-- Uses a term of type `found` where the type `expected` is wanted, with implicit arguments if it
does not fit without. -/
def subsume (fuel : Nat) (su : Setup) (scope : Local) (term : Term) (found expected : Val) :
    Action Term := do
  match ← transaction (unify fuel .solving su.globals scope.size found expected) with
  | .ok () => return term
  | .error e =>
    if e.isSoft then
      emitWith fun ms => .insertImplicits ms scope found
      let args ← attempt do
        let (ty, args) ← instantiate fuel scope found
        unify fuel .solving su.globals scope.size ty expected
        return some args
      match args with
      | some args => return term.applyImplicits args
      | none => refuse (e.withNames scope.names)
    else
      refuse e

/-! ## Rules for both directions -/

def letBinding (fuel : Nat) (k : Checker) (scope : Local) (erased : Bool) (ty : Option Surface)
    (val : Surface) : Action (Term × Val × Term) := do
  match ty with
  | some ty =>
    let ty ← k.check scope.enterType ty .type
    let vty ← ty.eval fuel scope.env
    let val ← k.check (scope.enterIf erased) val vty
    return (ty, vty, val)
  | none =>
    let (val, vty) ← k.synth (scope.enterIf erased) val
    return (← quote fuel scope.size vty, vty, val)

/-! ## Checking -/

/-- How a term is checked against a type whose head is forced. -/
inductive CheckRule
  | typeInType
  | hole (name : Option Name) (search : Bool)
  | pair (a b : Surface) (sigma : Closure)
  /-- A function without annotation, at a function type with the same icit. -/
  | lam (icit : Icit) (x : Name) (body : Surface) (pi : Closure)
  | insertLam (pi : Closure)
  | letIn (erased : Bool) (x : Name) (ty : Option Surface) (val body : Surface)
  /-- The type of the term is found first and then compared. -/
  | switch

/-- An implicit function type calls for an implicit function, unless the term is one or is a
hole. -/
def CheckRule.insertOr (tm : Surface) (ty : Val) (other : CheckRule) : CheckRule :=
  match ty with
  | .closure c => if c.binder.kind = .pi .impl ∧ ¬ tm.bindsImplicit then .insertLam c else other
  | _ => other

def CheckRule.of (tm : Surface) (ty : Val) : CheckRule :=
  match tm, ty with
  | .type, .type => .typeInType
  | .hole name search, _ => .hole name search
  | .pair a b, .closure c =>
    if c.binder.kind = .sigma then .pair a b c else insertOr tm ty .switch
  | .abs icit erased x none body, .closure c =>
    if c.binder.kind = .pi icit ∧ (c.binder.erased || !erased) then .lam icit x body c
    else insertOr tm ty .switch
  | .letIn erased x lty val body, _ => insertOr tm ty (.letIn erased x lty val body)
  | _, _ => insertOr tm ty .switch

def checkPair (fuel : Nat) (k : Checker) (scope : Local) (a b : Surface)
    (sigma : Closure) (ty : Val) : Action Term := do
  let a ← k.check (scope.enterIf sigma.binder.erased) a sigma.dom
  let va ← a.eval fuel scope.env
  let bty ← sigma.apply fuel va
  let b ← k.check scope b bty
  return .pair a b (← quote fuel scope.size ty)

/-- Checks a function without annotation at a function type. An underscore takes the name of the
type's binder. -/
def checkLam (fuel : Nat) (k : Checker) (scope : Local) (icit : Icit) (x : Name) (body : Surface)
    (pi : Closure) : Action Term := do
  let x := if x.isUnderscore then pi.binder.name else x
  let inner := scope.bind x pi.dom (pi.binder.erased || icit == .impl) false
  let bty ← pi.enter fuel scope.size
  let body ← k.check inner body bty
  return .bind ⟨.lam icit, x, pi.binder.erased⟩ (← quote fuel scope.size pi.dom) body

def insertLam (fuel : Nat) (k : Checker) (scope : Local) (tm : Surface) (pi : Closure) :
    Action Term := do
  let inner := scope.bind pi.binder.name pi.dom true true
  let bty ← pi.enter fuel scope.size
  let body ← k.check inner tm bty
  return .bind ⟨.lam .impl, pi.binder.name, pi.binder.erased⟩ (← quote fuel scope.size pi.dom) body

def checkLet (fuel : Nat) (k : Checker) (scope : Local) (erased : Bool) (x : Name)
    (ty : Option Surface) (val body : Surface) (expected : Val) : Action Term := do
  let (ty, vty, val) ← letBinding fuel k scope erased ty val
  let v ← val.eval fuel scope.env
  let body ← k.check (scope.define x vty erased v) body expected
  return .letIn x erased ty val body

def checkBy (fuel : Nat) (su : Setup) (k : Checker) (scope : Local) (tm : Surface) (ty : Val) :
    CheckRule → Action Term
  | .typeInType => return .type
  | .hole name search => elaborateHole scope name search ty
  | .pair a b sigma => checkPair fuel k scope a b sigma ty
  | .lam icit x body pi => checkLam fuel k scope icit x body pi
  | .insertLam pi => insertLam fuel k scope tm pi
  | .letIn erased x lty val body => checkLet fuel k scope erased x lty val body ty
  | .switch => do
    let (term, found) ← k.synth scope tm
    subsume fuel su scope term found ty

def checkStep (fuel : Nat) (su : Setup) (k : Checker) (scope : Local) (tm : Surface) (ty : Val) :
    Action Term := do
  match tm with
  | .spanned span t => mapError (·.locate span) (k.check scope t ty)
  | tm =>
    emitWith fun ms => .check ms scope ty
    (if su.config.showEnvs then emitWith fun ms => .checkScope ms scope else pure ())
    checkBy fuel su k scope tm ty (CheckRule.of tm (← force fuel ty))

/-! ## Synthesis -/

/-- A name means the innermost variable, else the global, else the primitive of that name. -/
def synthVar (su : Setup) (scope : Local) (x : Name) : Action (Term × Val) := do
  match scope.lookup x with
  | some (i, entry) =>
    if entry.erased && !scope.inType then refuse (.erasedUsage x) else return (.var i, entry.ty)
  | none =>
    match su.globals.find? x with
    | some d =>
      if d.erased && !scope.inType then refuse (.erasedUsage x) else return (.global x, d.ty)
    | none =>
      match Prim.ofName? x.text with
      | some p => return (.prim p, p.type)
      | none => refuse (.unboundVariable x)

def synthBinderType (fuel : Nat) (k : Checker) (scope : Local) (kind : BinderKind) (erased : Bool)
    (x : Name) (dom body : Surface) : Action (Term × Val) := do
  let scope := scope.enterType
  let dom ← k.check scope dom .type
  let vdom ← dom.eval fuel scope.env
  let body ← k.check (scope.bind x vdom false false) body .type
  return (.bind ⟨kind, x, erased⟩ dom body, .type)

def synthLam (fuel : Nat) (k : Checker) (scope : Local) (icit : Icit) (erased : Bool) (x : Name)
    (dom body : Surface) : Action (Term × Val) := do
  let dom ← k.check scope.enterType dom .type
  let vdom ← dom.eval fuel scope.env
  let inner := scope.bind x vdom (erased || icit == .impl) false
  let (body, bty) ← k.synth inner body
  let bty ← quote fuel inner.size bty
  let pi ← (Term.bind ⟨.pi icit, x, erased⟩ dom bty).eval fuel scope.env
  return (.bind ⟨.lam icit, x, erased⟩ dom body, pi)

def synthLet (fuel : Nat) (k : Checker) (scope : Local) (erased : Bool) (x : Name)
    (ty : Option Surface) (val body : Surface) : Action (Term × Val) := do
  let (ty, vty, val) ← letBinding fuel k scope erased ty val
  let v ← val.eval fuel scope.env
  let (body, bty) ← k.synth (scope.define x vty erased v) body
  return (.letIn x erased ty val body, bty)

/-- A pair without a type gets one in which the second component does not depend on the first.
Reading its type back one level deeper makes room for the binder. -/
def synthPair (fuel : Nat) (k : Checker) (scope : Local) (a b : Surface) : Action (Term × Val) := do
  let (a, aty) ← k.synth scope a
  let (b, bty) ← k.synth scope b
  let dom ← quote fuel scope.size aty
  let sigma := Term.bind ⟨.sigma, .underscore, false⟩ dom (← quote fuel (scope.size + 1) bty)
  return (.pair a b sigma, ← sigma.eval fuel scope.env)

/-- Applies a function of type `fty`. Implicit arguments before an explicit one are filled in. -/
def synthApp :
    (fuel : Nat) → Setup → Checker → Local → Term → Val → Icit → Surface → Action (Term × Val)
  | 0, _, _, _, _, _, _, _ => throw (.fault .outOfFuel)
  | fuel + 1, su, k, scope, f, fty, icit, x => do
    emitWith fun ms => .apply ms scope fty icit
    match ← force fuel fty with
    | .closure c =>
      if c.binder.kind = .pi .impl ∧ icit = .expl then
        let m ← newMeta scope
        let v ← m.eval fuel scope.env
        let rest ← c.apply fuel v
        synthApp fuel su k scope (.app f .impl m) rest icit x
      else if c.binder.kind = .pi icit then
        let x ← k.check (scope.enterIf (c.binder.erased || icit == .impl)) x c.dom
        let v ← x.eval fuel scope.env
        return (.app f icit x, ← c.apply fuel v)
      else if c.binder.kind.isPi then
        refuse (.plicityMismatch (← text fuel scope fty))
      else
        refuse (.notAFunction (← text fuel scope (.closure c)))
    | .neutral (.metavar m) sp =>
      let pi ← freshPi fuel scope .underscore icit false
      unifyIn fuel su scope (.neutral (.metavar m) sp) pi
      synthApp fuel su k scope f pi icit x
    | v => refuse (.notAFunction (← text fuel scope v))

def Field.text : Field → String
  | .fst => Proj.fst.name
  | .snd => Proj.snd.name
  | .named x => x.text
  | .at k => toString k

/-- Whether a field means the first component of a pair type, `i` components further inside. -/
def Field.isHere (i : Nat) (sigma : Binder) : Field → Bool
  | .fst => true
  | .snd => false
  | .named x => sigma.name == x
  | .at k => k == i

def sndType (fuel : Nat) (scope : Local) (term : Term) (sigma : Closure) : Action Val := do
  let fst ← (Term.proj term .fst).eval fuel scope.env
  sigma.apply fuel fst

/-- Ends the way to a field at a term whose type is no pair type: it is the last component of a
nested pair, or the field is not there. `v` is the type with its head forced. -/
def projectLast (fuel : Nat) (scope : Local) (field : Field) (i : Nat) (term : Term) (ty v : Val) :
    Action (Term × Val) := do
  if i = 0 then
    refuse (.notASigma (← text fuel scope v))
  else if field = .at i then
    return (term, ty)
  else
    refuse (.fieldNotFound field.text (← text fuel scope ty))

/-- Follows a nested pair to a field. `term` of type `ty` is what is left after `i` components. The
last component has no pair type of its own. -/
def project : (fuel : Nat) → Local → Field → (i : Nat) → Term → Val → Action (Term × Val)
  | 0, _, _, _, _, _ => throw (.fault .outOfFuel)
  | fuel + 1, scope, field, i, term, ty => do
    match ← force fuel ty with
    | .closure c =>
      if c.binder.kind ≠ .sigma then
        projectLast fuel scope field i term ty (.closure c)
      else if field = .snd then
        return (.proj term .snd, ← sndType fuel scope term c)
      else if field.isHere i c.binder then
        if c.binder.erased && !scope.inType then refuse (.erasedUsage c.binder.name)
        else return (.proj term .fst, c.dom)
      else
        project fuel scope field (i + 1) (.proj term .snd) (← sndType fuel scope term c)
    | v => projectLast fuel scope field i term ty v

/-! ## Eliminators -/

/-- The motive to use when none is given: it ignores its arguments and gives a new metavariable. -/
def defaultMotive : (fuel : Nat) → Local → Val → Action Term
  | 0, _, _ => throw (.fault .outOfFuel)
  | fuel + 1, scope, ty => do
    match ← force fuel ty with
    | .closure c =>
      let dom ← quote fuel scope.size c.dom
      let rest ← c.enter fuel scope.size
      let inner := scope.define c.binder.name c.dom false (.fresh scope.size)
      return .lam .expl c.binder.name dom (← defaultMotive fuel inner rest)
    | _ => newMeta scope

/-- The equation that the type of a scrutinee states. If it is not known to be one, it is made an
equation between two values of the same type. -/
def scrutEquation (fuel : Nat) (su : Setup) (scope : Local) (ty : Val) : Action Equation := do
  match Equation.ofType? (← force fuel ty) with
  | some q =>
    unifyIn fuel su scope q.lhsTy q.rhsTy
    return q
  | none =>
    let side ← newMeta scope
    let lhs ← newMeta scope
    let rhs ← newMeta scope
    let sideTy ← side.eval fuel scope.env
    let q : Equation :=
      { lhsTy := sideTy, rhsTy := sideTy, lhs := ← lhs.eval fuel scope.env,
        rhs := ← rhs.eval fuel scope.env }
    unifyIn fuel su scope ty q.type
    return q

/-- Elaborates a scrutinee. Gives the equation it proves if it is one for the eliminator of
equality. -/
def elaborateScrut (fuel : Nat) (su : Setup) (k : Checker) (scope : Local) (e : Eliminator)
    (scrut : Surface) : Action (Term × Option Equation) := do
  match e.scrutTy? with
  | some ty => return (← k.check scope scrut ty, none)
  | none =>
    let (scrut, ty) ← k.synth scope scrut
    return (scrut, some (← scrutEquation fuel su scope ty))

def elaborateMotive (fuel : Nat) (k : Checker) (scope : Local) (motive : Option Surface)
    (motiveTy : Val) : Action Term :=
  match motive with
  | some m => k.check scope.enterType m motiveTy
  | none => defaultMotive fuel scope.enterType motiveTy

def checkAll (check : Surface → Val → Action Term) : List Surface → List Val → Action (List Term)
  | tm :: tms, ty :: tys => do
    let t ← check tm ty
    return t :: (← checkAll check tms tys)
  | _, _ => return []

def synthElim (fuel : Nat) (su : Setup) (k : Checker) (scope : Local) (e : Eliminator)
    (motive : Option Surface) (scrut : Surface) (cases : List Surface) : Action (Term × Val) := do
  if cases.length ≠ e.numCases then
    refuse (.wrongCaseCount e.name e.numCases cases.length)
  else
    let (scrut, q) ← elaborateScrut fuel su k scope e scrut
    let vscrut ← scrut.eval fuel scope.env
    let motiveTy ← e.motiveTy q
    let motive ← elaborateMotive fuel k scope motive motiveTy
    let vmotive ← motive.eval fuel scope.env
    let sig ← e.signature fuel vmotive vscrut q
    let cases ← checkAll (k.check scope) cases sig.caseTys
    return (.elim e motive scrut cases, sig.result)

/-! ## The two directions -/

def synthForm (fuel : Nat) (su : Setup) (k : Checker) (scope : Local) (tm : Surface) :
    Action (Term × Val) := do
  match tm with
  | .spanned span t => mapError (·.locate span) (k.synth scope t)
  | .type => return (.type, .type)
  | .nat n => return (.nat n, .prim .nat)
  | .prim p => return (.prim p, p.type)
  | .var x => synthVar su scope x
  | .hole name search =>
    let ty ← newMetaVal fuel scope
    return (← elaborateHole scope name search ty, ty)
  | .app f icit x =>
    let (f, fty) ← k.synth scope f
    synthApp fuel su k scope f fty icit x
  | .abs icit erased x (some dom) body => synthLam fuel k scope icit erased x dom body
  | .abs icit erased x none _ =>
    let pi ← freshPi fuel scope x icit erased
    return (← k.check scope tm pi, pi)
  | .letIn erased x ty val body => synthLet fuel k scope erased x ty val body
  | .pi icit erased x dom body => synthBinderType fuel k scope (.pi icit) erased x dom body
  | .sigma erased x dom body => synthBinderType fuel k scope .sigma erased x dom body
  | .pair a b => synthPair fuel k scope a b
  | .proj x field =>
    let (term, ty) ← k.synth scope x
    project fuel scope field 0 term ty
  | .ann x ty =>
    let ty ← k.check scope.enterType ty .type
    let vty ← ty.eval fuel scope.env
    return (← k.check scope x vty, vty)
  | .elim e motive scrut cases => synthElim fuel su k scope e motive scrut cases

def synthStep (fuel : Nat) (su : Setup) (k : Checker) (scope : Local) (tm : Surface) :
    Action (Term × Val) := do
  match tm with
  | .spanned span t => mapError (·.locate span) (k.synth scope t)
  | tm =>
    (if su.config.showEnvs then emitWith fun ms => .synthScope ms scope else pure ())
    let (term, ty) ← synthForm fuel su k scope tm
    emitWith fun ms => .synth ms scope term ty
    return (term, ty)

mutual

/-- Elaborates a term that is expected to have this type. -/
def check : (fuel : Nat) → Setup → Local → Surface → Val → Action Term
  | 0, _, _, _, _ => throw (.fault .outOfFuel)
  | fuel + 1, su, scope, tm, ty => checkStep fuel su ⟨check fuel su, synth fuel su⟩ scope tm ty
termination_by structural fuel => fuel

/-- Elaborates a term and finds its type. -/
def synth : (fuel : Nat) → Setup → Local → Surface → Action (Term × Val)
  | 0, _, _, _ => throw (.fault .outOfFuel)
  | fuel + 1, su, scope, tm => synthStep fuel su ⟨check fuel su, synth fuel su⟩ scope tm
termination_by structural fuel => fuel

end

end Elaborator
