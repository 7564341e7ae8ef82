import Elaborator.Term

/-!
# Surface terms

The terms that a parser hands over: variables are names, types may be left out, and holes stand for
parts that the elaborator is to find. A `spanned` node says which part of the source text its
subterm was read from.
-/

namespace Elaborator

structure Span where
  start : Nat
  stop : Nat
deriving DecidableEq, Repr, Inhabited

inductive Field
  | fst
  | snd
  /-- The first component whose binder has this name. -/
  | named (x : Name)
  /-- The component at this position, from zero on. -/
  | at (k : Nat)
deriving DecidableEq, Repr

inductive Surface
  | var (x : Name)
  | app (f : Surface) (icit : Icit) (x : Surface)
  | abs (icit : Icit) (erased : Bool) (x : Name) (ty : Option Surface) (body : Surface)
  | pi (icit : Icit) (erased : Bool) (x : Name) (ty body : Surface)
  | sigma (erased : Bool) (x : Name) (ty body : Surface)
  | letIn (erased : Bool) (x : Name) (ty : Option Surface) (val body : Surface)
  | pair (fst snd : Surface)
  | proj (x : Surface) (field : Field)
  | ann (x ty : Surface)
  /-- A part to be found. If `search` is set, instance search fills what unification leaves open. -/
  | hole (name : Option Name) (search : Bool)
  | prim (p : Prim)
  | elim (e : Eliminator) (motive : Option Surface) (scrut : Surface) (cases : List Surface)
  | type
  | nat (n : Nat)
  | spanned (span : Span) (x : Surface)
deriving Inhabited

namespace Surface

/-- A term without the spans around it. Spans further inside stay. -/
def peel : Surface → Surface
  | .spanned _ t => t.peel
  | t => t

/-- Whether a term stands for itself where an implicit function is expected: it is an implicit
function or a hole, so no implicit binder is put around it. -/
def bindsImplicit (t : Surface) : Bool :=
  match t.peel with
  | .abs .impl _ _ _ _ => true
  | .hole _ _ => true
  | _ => false

end Surface

end Elaborator
