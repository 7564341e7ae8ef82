import Elaborator.Term

/-!
# Values

The results of evaluating core terms. A value is in weak head normal form up to metavariables: it is
the universe, a numeral, a pair, a binder with its environment (`Closure`), or something stuck with
a list of eliminations applied to it (`Spine`). What is stuck is a variable, a primitive or a
metavariable (`neutral`), or a global that is kept folded beside the value it unfolds to (`glued`).
The unfolding of a global under its spine is computed anew each time it is asked for. It depends on
the global and the spine only, so remembering it would change nothing but the time it takes.

Variables of values are de Bruijn levels, so a value keeps its meaning when the scope grows.
-/

namespace Elaborator

inductive Head
  | var (l : Level)
  | prim (p : Prim)
  | metavar (m : MetaId)
deriving DecidableEq, Repr

mutual

inductive Val
  | type
  | neutral (head : Head) (spine : List Elim)
  /-- A global under a spine. `base` is the value of the global itself, without the spine. -/
  | glued (x : Name) (spine : List Elim) (base : Val)
  | closure (c : Closure)
  /-- Two components and the pair type they are used at. -/
  | pair (fst snd sigma : Val)
  | nat (n : Nat)

inductive Elim
  | app (icit : Icit) (arg : Val)
  | proj (p : Proj)
  | cases (e : Eliminator) (motive : Val) (cases : List Val)

/-- A binder whose body waits for the value of its variable. -/
structure Closure where
  binder : Binder
  dom : Val
  env : Env
  /-- The body, whose innermost variable is the bound one. -/
  body : Term

structure Env where
  /-- The globals that were there when the environment was made. -/
  globals : List (Name × Val)
  /-- The local variables, innermost first. -/
  locals : List Val

end

instance : Inhabited Val := ⟨.type⟩

/-- Eliminations applied to a head, the outermost (last applied) one first. -/
abbrev Spine := List Elim

namespace Val

def var (l : Level) : Val := .neutral (.var l) []

def fresh (size : Nat) : Val := var ⟨size⟩

def prim (p : Prim) : Val := .neutral (.prim p) []

def metavar (m : MetaId) : Val := .neutral (.metavar m) []

def isMeta : Val → Bool
  | .neutral (.metavar _) _ => true
  | _ => false

end Val

namespace Env

def empty : Env := ⟨[], []⟩

instance : Inhabited Env := ⟨empty⟩

def size (env : Env) : Nat := env.locals.length

def push (env : Env) (v : Val) : Env := { env with locals := v :: env.locals }

def local? (env : Env) (i : Index) : Option Val := env.locals[i.toNat]?

def global? (env : Env) (x : Name) : Option Val := env.globals.lookup x

end Env

end Elaborator
