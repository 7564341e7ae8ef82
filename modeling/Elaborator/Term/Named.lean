import Elaborator.Term

/-!
# The named view of a core term

Before a term is printed, each of its binders gets the name that is printed for it and each variable
the name of its binder. `Term.named` makes these choices and `Named` is the result: exactly the
parts of a term that are printed. The annotation of a function and the type stored with a pair are
not among them.

A binder keeps its name unless a variable or a global of that name occurs in its body and would be
captured. Then the next variant of the name is tried (`Term.freshBinder`).
-/

namespace Elaborator

/-- Core terms with the names they are printed with. -/
inductive Named
  | type
  | var (x : Name)
  /-- A variable that the given names do not cover. -/
  | unbound (i : Index)
  | global (x : Name)
  | metavar (m : MetaId)
  | prim (p : Prim)
  | nat (n : Nat)
  | app (f : Named) (icit : Icit) (x : Named)
  | lam (icit : Icit) (x : Name) (erased : Bool) (body : Named)
  /-- A function type, or a pair type if `icit` is `none`. -/
  | binderType (icit : Option Icit) (x : Name) (erased : Bool) (dom body : Named)
  | pair (fst snd : Named)
  | proj (x : Named) (p : Proj)
  | letIn (x : Name) (erased : Bool) (ty val body : Named)
  | elim (e : Eliminator) (motive scrut : Named) (cases : List Named)

namespace Term

/-- Whether a binder named `x` around `body` would capture one of the `names` in scope (innermost
first) or a global. -/
def captures (names : List Name) (x : Name) (body : Term) : Bool :=
  body.usesGlobal x || (names.zipIdx 1).any fun (y, i) => y == x && body.usesIndex i

/-- The first variant of `x`, among the next `tries`, that captures nothing. The underscore is taken
as it is. -/
def freshBinderIn (names : List Name) (body : Term) : (tries : Nat) → Name → Except Fault Name
  | 0, _ => .error .outOfFuel
  | n + 1, x =>
    if captures names x body && !x.isUnderscore then do
      let y ← x.next
      freshBinderIn names body n y
    else
      .ok x

/-- The name to print for a binder named `x` around `body`. Each clash uses up a name in scope or a
global of the body, which bounds the number of tries. -/
def freshBinder (names : List Name) (x : Name) (body : Term) : Except Fault Name :=
  freshBinderIn names body (names.length + body.globals.length + 1) x

mutual

/-- The named view of a term in a scope with these `names`, innermost first. -/
def named (names : List Name) : Term → Except Fault Named
  | .type => .ok .type
  | .var i => do
    if ← i.inScope names.length then
      match names[i.toNat]? with
      | some x => return .var x
      | none => return .unbound i
    else
      return .unbound i
  | .global x => .ok (.global x)
  | .metavar m => .ok (.metavar m)
  | .prim p => .ok (.prim p)
  | .nat n => .ok (.nat n)
  | .app f icit x => return .app (← f.named names) icit (← x.named names)
  | .bind b dom body => do
    let x ← freshBinder names b.name body
    let inner ← body.named (x :: names)
    match b.kind with
    | .lam icit => return .lam icit x b.erased inner
    | .pi icit => return .binderType (some icit) x b.erased (← dom.named names) inner
    | .sigma => return .binderType none x b.erased (← dom.named names) inner
  | .pair a b _ => return .pair (← a.named names) (← b.named names)
  | .proj x p => return .proj (← x.named names) p
  | .letIn x erased ty val body => do
    let y ← freshBinder names x body
    return .letIn y erased (← ty.named names) (← val.named names) (← body.named (y :: names))
  | .elim e motive scrut cases =>
    return .elim e (← motive.named names) (← scrut.named names) (← namedAll names cases)

def namedAll (names : List Name) : List Term → Except Fault (List Named)
  | [] => .ok []
  | t :: ts => return (← t.named names) :: (← namedAll names ts)

end

end Term

end Elaborator
