import Elaborator.Value

/-!
# Evaluation

`Term.eval` gives the value of a core term and `Val.eliminate` uses a value, computing as far as it
can: functions are applied, pairs are projected, and an eliminator chooses the case of a
constructor. A global stays folded; the elimination is only added to its spine.

The language has `Type : Type`, so evaluation need not end. All functions take fuel, which bounds
the depth of the recursion, and more fuel never changes an answer.
-/

namespace Elaborator

def succNat (n : Nat) : Except Fault Val :=
  if n + 1 < numeralLimit then .ok (.nat (n + 1)) else .error .overflow

def caseAt (cases : List Val) (k : Nat) : Except Fault Val :=
  match cases[k]? with
  | some v => .ok v
  | none => .error .missingCase

/-- What an eliminator does with a scrutinee. -/
inductive Reduction
  | select (k : Nat)
  /-- It gives the second case, applied to the predecessor and to the result for the predecessor. -/
  | step (pred : Val)
  | stuck

def Reduction.of (e : Eliminator) (scrut : Val) : Reduction :=
  match e, scrut with
  | .bool, .neutral (.prim .true) [] => .select 0
  | .bool, .neutral (.prim .false) [] => .select 1
  | .nat, .nat 0 => .select 0
  | .nat, .nat (n + 1) => .step (.nat n)
  | .nat, .neutral (.prim .succ) [.app _ m] => .step m
  | .heq, .neutral (.prim .refl) [_, _] => .select 0
  | _, _ => .stuck

mutual

def Term.eval : (fuel : Nat) → Env → Term → Except Fault Val
  | 0, _, _ => .error .outOfFuel
  | fuel + 1, env, t =>
    match t with
    | .type => .ok .type
    | .var i =>
      match env.local? i with
      | some v => .ok v
      | none => .error (.unboundIndex i.toNat env.size)
    | .global x =>
      match env.global? x with
      | some v => .ok (.glued x [] v)
      | none => .error (.unboundGlobal x.text)
    | .metavar m => .ok (.metavar m)
    | .prim p => .ok (.prim p)
    | .nat n => .ok (.nat n)
    | .app f icit x => do
      let vf ← Term.eval fuel env f
      let vx ← Term.eval fuel env x
      Val.eliminate fuel vf (.app icit vx)
    | .bind b dom body => do
      let vdom ← Term.eval fuel env dom
      return .closure ⟨b, vdom, env, body⟩
    | .pair a b s => do
      let va ← Term.eval fuel env a
      let vb ← Term.eval fuel env b
      let vs ← Term.eval fuel env s
      return .pair va vb vs
    | .proj x p => do
      let vx ← Term.eval fuel env x
      Val.eliminate fuel vx (.proj p)
    | .letIn _ _ _ val body => do
      let v ← Term.eval fuel env val
      Term.eval fuel (env.push v) body
    | .elim e motive scrut cases => do
      let vscrut ← Term.eval fuel env scrut
      let vmotive ← Term.eval fuel env motive
      let vcases ← cases.mapM (Term.eval fuel env)
      Val.eliminate fuel vscrut (.cases e vmotive vcases)
termination_by structural fuel => fuel

/-- Uses a value, computing if it is canonical. -/
def Val.eliminate : (fuel : Nat) → Val → Elim → Except Fault Val
  | 0, _, _ => .error .outOfFuel
  | fuel + 1, v, e =>
    match v, e with
    | .closure c, .app _ x => Term.eval fuel (c.env.push x) c.body
    | .pair a _ _, .proj .fst => .ok a
    | .pair _ b _, .proj .snd => .ok b
    | .glued x sp base, e => .ok (.glued x (e :: sp) base)
    | .neutral (.prim .succ) [], .app .expl (.nat n) => succNat n
    | scrut, .cases e motive cases => do
      match ← Val.reduce fuel e scrut motive cases with
      | some w => return w
      | none =>
        match scrut with
        | .neutral h sp => return .neutral h (.cases e motive cases :: sp)
        | _ => throw .illTyped
    | .neutral h sp, e => .ok (.neutral h (e :: sp))
    | _, _ => .error .illTyped
termination_by structural fuel => fuel

/-- What an eliminator gives for a canonical scrutinee; `none` if it is stuck. -/
def Val.reduce : (fuel : Nat) → Eliminator → Val → Val → List Val → Except Fault (Option Val)
  | 0, _, _, _, _ => .error .outOfFuel
  | fuel + 1, e, scrut, motive, cases =>
    match Reduction.of e scrut with
    | .select k => some <$> caseAt cases k
    | .step pred => do
      let previous ← Val.eliminate fuel pred (.cases .nat motive cases)
      let step ← caseAt cases 1
      let stepped ← Val.eliminate fuel step (.app .expl pred)
      some <$> Val.eliminate fuel stepped (.app .expl previous)
    | .stuck => .ok none
termination_by structural fuel => fuel

end

def Val.apply (fuel : Nat) (f x : Val) : Except Fault Val := f.eliminate fuel (.app .expl x)

/-- Applies all eliminations of a spine, the innermost (last in the list) first. -/
def Val.applySpine (fuel : Nat) (v : Val) : Spine → Except Fault Val
  | [] => .ok v
  | e :: sp => do
    let w ← v.applySpine fuel sp
    w.eliminate fuel e

def Closure.apply (fuel : Nat) (c : Closure) (x : Val) : Except Fault Val :=
  c.body.eval fuel (c.env.push x)

def Closure.enter (fuel : Nat) (c : Closure) (size : Nat) : Except Fault Val :=
  c.apply fuel (.fresh size)

end Elaborator
