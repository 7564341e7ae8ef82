import Elaborator.Value

/-!
# Comparing heads

`Comparison.of` looks at two values whose heads are forced and says what has to be done to make them
equal. It is the only place that knows the order of the rules: structure first, then metavariables,
then extensionality of functions and pairs, and unfolding of globals last.
-/

namespace Elaborator

/-- Whether metavariables may be solved, or are treated like constants. -/
inductive Mode
  | solving
  | rigid
deriving DecidableEq, Repr

/-- What is left to do for two values to be equal. -/
inductive Comparison
  | equal
  | mismatch
  | binders (c d : Closure)
  | pairs (a b c d : Val)
  /-- A positive literal, whose predecessor is `n`, and a successor. -/
  | numeral (n : Nat) (pred : Val)
  | spines (sa sb : Spine)
  | solve (m : MetaId) (sp : Spine) (rhs : Val)
  | expandFun (c : Closure) (v : Val)
  | expandPair (a b : Val) (v : Val)
  | sameGlobal (sa sb : Spine)
  | unfoldLeft
  | unfoldRight

namespace Comparison

/-- Two neutral values. If both heads are metavariables, the one under the longer spine is
solved. -/
def ofNeutrals (mode : Mode) (h : Head) (sa : Spine) (k : Head) (sb : Spine) : Comparison :=
  if h = k then .spines sa sb
  else
    match mode, h, k with
    | .solving, .metavar m, .metavar n =>
      if sa.length < sb.length then .solve n sb (.neutral h sa) else .solve m sa (.neutral k sb)
    | .solving, .metavar m, _ => .solve m sa (.neutral k sb)
    | .solving, _, .metavar n => .solve n sb (.neutral h sa)
    | _, _, _ => .mismatch

def ofLiteral (n : Nat) (h : Head) (sp : Spine) : Comparison :=
  match n, h, sp with
  | n + 1, .prim .succ, [.app .expl pred] => .numeral n pred
  | _, _, _ => .mismatch

/-- A neutral value and one that is not; `unfold` is the rule for a global. -/
def ofNeutral (mode : Mode) (h : Head) (sp : Spine) (v : Val) (unfold : Comparison) : Comparison :=
  match mode, h with
  | .solving, .metavar m => .solve m sp v
  | _, _ =>
    match v with
    | .nat n => ofLiteral n h sp
    | .closure c => if c.binder.kind.isLam then .expandFun c (.neutral h sp) else .mismatch
    | .pair a b _ => .expandPair a b (.neutral h sp)
    | .glued .. => unfold
    | _ => .mismatch

/-- A global and a value that is neither a global nor neutral; `unfold` is the rule for the
global. -/
def ofGlued (g v : Val) (unfold : Comparison) : Comparison :=
  match v with
  | .closure c => if c.binder.kind.isLam then .expandFun c g else unfold
  | .pair a b _ => .expandPair a b g
  | _ => unfold

def of (mode : Mode) : Val → Val → Comparison
  | .type, .type => .equal
  | .nat m, .nat n => if m = n then .equal else .mismatch
  | .closure c, .closure d =>
    if c.binder.kind = d.binder.kind ∧ c.binder.erased = d.binder.erased then .binders c d
    else .mismatch
  | .pair a b _, .pair c d _ => .pairs a b c d
  | .neutral h sa, .neutral k sb => ofNeutrals mode h sa k sb
  | .glued x sa _, .glued y sb _ => if x = y then .sameGlobal sa sb else .unfoldLeft
  | .neutral h sp, v => ofNeutral mode h sp v .unfoldRight
  | v, .neutral h sp => ofNeutral mode h sp v .unfoldLeft
  | .glued x sp u, v => ofGlued (.glued x sp u) v .unfoldLeft
  | v, .glued x sp u => ofGlued (.glued x sp u) v .unfoldRight
  | _, _ => .mismatch

end Comparison

end Elaborator
