import Elaborator.Name
import Elaborator.Scope

/-!
# Core terms

The fully explicit terms that elaboration produces. Variables are de Bruijn indices, every binder
carries its type, and metavariables stand for the parts that are not known yet. Functions, function
types and pair types share one constructor, `Term.bind`, whose `Binder` says which of them it is.

The last section lists what occurs in a term: variables, globals and metavariables.
-/

namespace Elaborator

/-- Whether an argument is left to the elaborator (`impl`) or written by the user (`expl`). -/
inductive Icit
  | impl
  | expl
deriving DecidableEq, Repr, Inhabited

inductive BinderKind
  | sigma
  | lam (icit : Icit)
  | pi (icit : Icit)
deriving DecidableEq, Repr, Inhabited

/-- Pair types bind explicitly; functions and function types say how. -/
def BinderKind.icit : BinderKind → Icit
  | .sigma => .expl
  | .lam i => i
  | .pi i => i

def BinderKind.isLam : BinderKind → Bool
  | .lam _ => true
  | _ => false

def BinderKind.isPi : BinderKind → Bool
  | .pi _ => true
  | _ => false

/-- Everything a binder says besides its type and its body. -/
structure Binder where
  kind : BinderKind
  name : Name
  /-- Whether the variable is marked as one that leaves no trace at run time. -/
  erased : Bool
deriving DecidableEq, Repr, Inhabited

inductive Prim
  | void
  | unitType
  | unit
  | bool
  | true
  | false
  | nat
  | succ
  | heq
  | refl
deriving DecidableEq, Repr, Inhabited

namespace Prim

def all : List Prim :=
  [.void, .unitType, .unit, .bool, .true, .false, .nat, .succ, .heq, .refl]

def name : Prim → String
  | .void => "Void"
  | .unitType => "UnitType"
  | .unit => "Unit"
  | .bool => "Bool"
  | .true => "True"
  | .false => "False"
  | .nat => "Nat"
  | .succ => "S"
  | .heq => "HEq"
  | .refl => "ReflHEq"

def ofName? (s : String) : Option Prim := all.find? (·.name == s)

end Prim

inductive Eliminator
  | void
  | bool
  | nat
  | heq
deriving DecidableEq, Repr, Inhabited

namespace Eliminator

def name : Eliminator → String
  | .void => "elimVoid"
  | .bool => "elimBool"
  | .nat => "elimNat"
  | .heq => "elimHEq"

def numCases : Eliminator → Nat
  | .void => 0
  | .bool => 2
  | .nat => 2
  | .heq => 1

end Eliminator

inductive Proj
  | fst
  | snd
deriving DecidableEq, Repr, Inhabited

def Proj.name : Proj → String
  | .fst => "fst"
  | .snd => "snd"

/-- A metavariable: a part of a term that unification has to find. -/
structure MetaId where
  /-- Metavariables are numbered in the order they are made. -/
  toNat : Nat
deriving DecidableEq, Repr, Inhabited

instance : ToString MetaId := ⟨fun m => "?" ++ toString m.toNat⟩

inductive Term
  | type
  | var (i : Index)
  | global (x : Name)
  | metavar (m : MetaId)
  | prim (p : Prim)
  | nat (n : Nat)
  | app (f : Term) (icit : Icit) (x : Term)
  | bind (b : Binder) (dom body : Term)
  /-- Two components and the pair type they are used at. -/
  | pair (fst snd sigma : Term)
  | proj (x : Term) (p : Proj)
  | letIn (x : Name) (erased : Bool) (ty val body : Term)
  | elim (e : Eliminator) (motive scrut : Term) (cases : List Term)
deriving Inhabited

namespace Term

def lam (icit : Icit) (x : Name) (dom body : Term) : Term := .bind ⟨.lam icit, x, false⟩ dom body

def pi (icit : Icit) (x : Name) (dom body : Term) : Term := .bind ⟨.pi icit, x, false⟩ dom body

/-- The type of functions whose result type ignores the argument. -/
def arrow (dom body : Term) : Term := pi .expl .underscore dom body

def applyImplicits (t : Term) (args : List Term) : Term :=
  args.foldl (fun f x => .app f .impl x) t

/-! ## Occurrences -/

mutual

def usesIndex (i : Nat) : Term → Bool
  | .var j => j.toNat == i
  | .type | .global _ | .metavar _ | .prim _ | .nat _ => false
  | .app f _ x => f.usesIndex i || x.usesIndex i
  | .bind _ dom body => dom.usesIndex i || body.usesIndex (i + 1)
  | .pair a b s => a.usesIndex i || b.usesIndex i || s.usesIndex i
  | .proj x _ => x.usesIndex i
  | .letIn _ _ ty val body => ty.usesIndex i || val.usesIndex i || body.usesIndex (i + 1)
  | .elim _ motive scrut cases =>
    motive.usesIndex i || scrut.usesIndex i || usesIndexAny i cases

def usesIndexAny (i : Nat) : List Term → Bool
  | [] => false
  | t :: ts => t.usesIndex i || usesIndexAny i ts

end

mutual

/-- The globals that occur, from left to right and with repetitions. -/
def globals : Term → List Name
  | .global x => [x]
  | .type | .var _ | .metavar _ | .prim _ | .nat _ => []
  | .app f _ x => f.globals ++ x.globals
  | .bind _ dom body => dom.globals ++ body.globals
  | .pair a b s => a.globals ++ b.globals ++ s.globals
  | .proj x _ => x.globals
  | .letIn _ _ ty val body => ty.globals ++ val.globals ++ body.globals
  | .elim _ motive scrut cases => motive.globals ++ scrut.globals ++ globalsAll cases

def globalsAll : List Term → List Name
  | [] => []
  | t :: ts => t.globals ++ globalsAll ts

end

def usesGlobal (x : Name) (t : Term) : Bool := t.globals.contains x

mutual

/-- The metavariables that occur, from left to right and with repetitions. -/
def metaOccurrences : Term → List MetaId
  | .metavar m => [m]
  | .type | .var _ | .global _ | .prim _ | .nat _ => []
  | .app f _ x => f.metaOccurrences ++ x.metaOccurrences
  | .bind _ dom body => dom.metaOccurrences ++ body.metaOccurrences
  | .pair a b s => a.metaOccurrences ++ b.metaOccurrences ++ s.metaOccurrences
  | .proj x _ => x.metaOccurrences
  | .letIn _ _ ty val body => ty.metaOccurrences ++ val.metaOccurrences ++ body.metaOccurrences
  | .elim _ motive scrut cases =>
    motive.metaOccurrences ++ scrut.metaOccurrences ++ metaOccurrencesAll cases

def metaOccurrencesAll : List Term → List MetaId
  | [] => []
  | t :: ts => t.metaOccurrences ++ metaOccurrencesAll ts

end

def addNew (seen : List MetaId) : List MetaId → List MetaId
  | [] => seen
  | m :: ms => addNew (if seen.contains m then seen else seen ++ [m]) ms

def metas (t : Term) : List MetaId := addNew [] t.metaOccurrences

end Term

end Elaborator
