import Elaborator.Meta.Store
import Elaborator.Value.Eval

/-!
# Forcing and reading back

Solutions that are found after a value was made are not visible in it. `Val.forceMeta` looks a
value's metavariable up as often as needed, and `Val.force` unfolds globals on the way as well.
`Val.quote` reads a value back as a core term, either with globals folded or (`full`) with all of
them unfolded.
-/

namespace Elaborator

namespace Val

/-- Replaces a solved metavariable at the head, again and again. Globals stay folded. -/
def forceMeta : (fuel : Nat) → MetaStore → Val → Except Fault Val
  | 0, _, _ => .error .outOfFuel
  | fuel + 1, ms, v =>
    match v with
    | .neutral (.metavar m) sp =>
      match ms.lookup m with
      | some solution => do
        let w ← solution.applySpine fuel sp
        forceMeta fuel ms w
      | none => .ok v
    | _ => .ok v

/-- Replaces a solved metavariable or a global at the head, until it is neither. -/
def force : (fuel : Nat) → MetaStore → Val → Except Fault Val
  | 0, _, _ => .error .outOfFuel
  | fuel + 1, ms, v =>
    match v with
    | .glued _ sp base => do
      let w ← base.applySpine fuel sp
      force fuel ms w
    | v => do
      match ← v.forceMeta fuel ms with
      | .glued x sp base => force fuel ms (.glued x sp base)
      | w => return w

end Val

def Head.quote (size : Nat) : Head → Except Fault Term
  | .var l => .var <$> l.toIndex size
  | .prim p => .ok (.prim p)
  | .metavar m => .ok (.metavar m)

def Spine.quote (quote : Val → Except Fault Term) (head : Term) : Spine → Except Fault Term
  | [] => .ok head
  | .app icit x :: sp => do
    let t ← Spine.quote quote head sp
    return .app t icit (← quote x)
  | .proj p :: sp => do
    let t ← Spine.quote quote head sp
    return .proj t p
  | .cases e motive cases :: sp => do
    let t ← Spine.quote quote head sp
    return .elim e (← quote motive) t (← cases.mapM quote)

/-- Reads a value in a scope of this size back as a term. With `full`, globals are unfolded. -/
def Val.quote : (fuel : Nat) → MetaStore → (full : Bool) → (size : Nat) → Val → Except Fault Term
  | 0, _, _, _, _ => .error .outOfFuel
  | fuel + 1, ms, full, size, v => do
    match ← v.forceMeta fuel ms with
    | .type => return .type
    | .nat n => return .nat n
    | .neutral h sp => do
      let head ← h.quote size
      Spine.quote (Val.quote fuel ms full size) head sp
    | .glued x sp base =>
      if full then do
        let w ← Val.force fuel ms (.glued x sp base)
        Val.quote fuel ms full size w
      else
        Spine.quote (Val.quote fuel ms full size) (.global x) sp
    | .closure c => do
      let dom ← Val.quote fuel ms full size c.dom
      let body ← c.enter fuel size
      return .bind c.binder dom (← Val.quote fuel ms full (size + 1) body)
    | .pair a b s => do
      let ta ← Val.quote fuel ms full size a
      let tb ← Val.quote fuel ms full size b
      return .pair ta tb (← Val.quote fuel ms full size s)

def Val.text (fuel : Nat) (ms : MetaStore) (names : List Name) (v : Val) :
    Except Fault MarkedText := do
  let t ← v.quote fuel ms false names.length
  t.text names

def Term.normalize (fuel : Nat) (ms : MetaStore) (full : Bool) (env : Env) (t : Term) :
    Except Fault Term := do
  let v ← t.eval fuel env
  v.quote fuel ms full env.size

/-- What an observer sees of a store: each metavariable with its solution read back, and how many
problems wait for each metavariable. -/
def MetaStore.observe (fuel : Nat) (s : MetaStore) :
    Except Fault (List (MetaId × Option Term) × List (MetaId × Nat)) := do
  let cells ← s.now.cells.entries.mapM fun (m, cell) => do
    match cell with
    | some v => return ((⟨m⟩ : MetaId), some (← v.quote fuel s false 0))
    | none => return ((⟨m⟩ : MetaId), none)
  return (cells, s.now.postponed.entries.map fun (m, ps) => (⟨m⟩, ps.length))

end Elaborator
