import Elaborator.Value.Eval

/-!
# Types of the primitives

The types of the primitive constants, and for each eliminator the types of its motive, its cases and
its result (`Signature`). Types are given as values: a binder is a closure whose environment holds
the values that its body mentions.

The eliminator of equality needs to know the indices of the equation that it takes apart
(`Equation`). It works on equations between two values of the same type.
-/

namespace Elaborator

def heqTerm (a b x y : Term) : Term :=
  .app (.app (.app (.app (.prim .heq) .impl a) .impl b) .expl x) .expl y

/-- The type of functions from `dom`, as a value. The local variables of `body` are its argument and
then `locals`. -/
def piVal (icit : Icit) (x : Name) (dom : Val) (locals : List Val) (body : Term) : Val :=
  .closure ⟨⟨.pi icit, x, false⟩, dom, ⟨[], locals⟩, body⟩

def Prim.type : Prim → Val
  | .void | .unitType | .bool | .nat => .type
  | .unit => .prim .unitType
  | .true | .false => .prim .bool
  | .succ => piVal .expl .underscore (.prim .nat) [] (.prim .nat)
  -- {A : Type} -> {B : Type} -> A -> B -> Type
  | .heq =>
    piVal .impl "A" .type []
      (.pi .impl "B" .type (.arrow (.var ⟨1⟩) (.arrow (.var ⟨1⟩) .type)))
  -- {A : Type} -> {a : A} -> HEq {A} {A} a a
  | .refl =>
    piVal .impl "A" .type []
      (.pi .impl "a" (.var ⟨0⟩) (heqTerm (.var ⟨1⟩) (.var ⟨1⟩) (.var ⟨0⟩) (.var ⟨0⟩)))

structure Equation where
  lhsTy : Val
  rhsTy : Val
  lhs : Val
  rhs : Val

namespace Equation

def ofType? : Val → Option Equation
  | .neutral (.prim .heq) [.app _ rhs, .app _ lhs, .app _ rhsTy, .app _ lhsTy] =>
    some ⟨lhsTy, rhsTy, lhs, rhs⟩
  | _ => none

def type (q : Equation) : Val :=
  .neutral (.prim .heq) [.app .expl q.rhs, .app .expl q.lhs, .app .impl q.rhsTy, .app .impl q.lhsTy]

end Equation

/-- The types around one use of an eliminator. -/
structure Signature where
  motiveTy : Val
  caseTys : List Val
  result : Val

namespace Eliminator

def scrutTy? : Eliminator → Option Val
  | .void => some (.prim .void)
  | .bool => some (.prim .bool)
  | .nat => some (.prim .nat)
  | .heq => none

def motiveTy (e : Eliminator) (q : Option Equation) : Except Fault Val :=
  match e, q with
  -- (b : A) -> HEq {A} {A} a b -> Type
  | .heq, some q =>
    .ok (piVal .expl "b" q.lhsTy [q.lhs, q.lhsTy]
      (.arrow (heqTerm (.var ⟨2⟩) (.var ⟨2⟩) (.var ⟨1⟩) (.var ⟨0⟩)) .type))
  | e, _ =>
    match e.scrutTy? with
    | some ty => .ok (piVal .expl .underscore ty [ty] .type)
    | none => .error .missingIndices

def caseTys (fuel : Nat) (e : Eliminator) (motive : Val) (q : Option Equation) :
    Except Fault (List Val) :=
  match e, q with
  | .void, _ => .ok []
  | .bool, _ => do
    let t ← motive.apply fuel (.prim .true)
    let f ← motive.apply fuel (.prim .false)
    return [t, f]
  | .nat, _ => do
    let z ← motive.apply fuel (.nat 0)
    -- (m : Nat) -> P m -> P (S m)
    let s := piVal .expl "m" (.prim .nat) [motive]
      (.arrow (.app (.var ⟨1⟩) .expl (.var ⟨0⟩))
        (.app (.var ⟨2⟩) .expl (.app (.prim .succ) .expl (.var ⟨1⟩))))
    return [z, s]
  | .heq, some q => do
    let p ← motive.apply fuel q.lhs
    return [← p.apply fuel (.neutral (.prim .refl) [.app .impl q.lhs, .app .impl q.lhsTy])]
  | .heq, none => .error .missingIndices

def resultTy (fuel : Nat) (e : Eliminator) (motive scrut : Val) (q : Option Equation) :
    Except Fault Val :=
  match e, q with
  | .heq, some q => do
    let p ← motive.apply fuel q.rhs
    p.apply fuel scrut
  | _, _ => motive.apply fuel scrut

def signature (fuel : Nat) (e : Eliminator) (motive scrut : Val) (q : Option Equation) :
    Except Fault Signature := do
  let caseTys ← e.caseTys fuel motive q
  let result ← e.resultTy fuel motive scrut q
  let motiveTy ← e.motiveTy q
  return { motiveTy, caseTys, result }

end Eliminator

end Elaborator
