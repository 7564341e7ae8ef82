import Elaborator.Instance
import Elaborator.Zonk

/-!
# Elaborating closed terms

`elaborate` elaborates a whole term: it finds the type, solves what can be solved, fills the holes
that ask for instances, and makes sure that nothing is left open. The term and the type that it
gives mention no metavariables.
-/

namespace Elaborator

open Elaborator.Action

def openHolesIn (fuel : Nat) (ms : MetaStore) : List Hole → Except Fault (List MarkedText)
  | [] => .ok []
  | hole :: holes => do
    let t ← hole.term.zonk fuel ms hole.scope.env
    if t.metas.isEmpty then
      openHolesIn fuel ms holes
    else
      let ty ← hole.scope.text fuel ms hole.ty
      return ("?" ++ hole.name.text ++ " : " ++ ty) :: (← openHolesIn fuel ms holes)

def openHoles (fuel : Nat) : Action (List MarkedText) := do
  let s ← get
  openHolesIn fuel s.metas s.holes

/-- Replaces the solved metavariables in a term and its type, and makes sure that no others are
there. -/
def finish (fuel : Nat) (scope : Local) (term : Term) (ty : Val) : Action (Term × Val) := do
  let ms ← metas
  if ms.hasPostponed then
    refuse (.unsolvedConstraints ms.postponedMetas)
  else
    let term ← term.zonk fuel ms scope.env
    let ty ← quote fuel scope.size ty
    let holes ← openHoles fuel
    let unknown := Term.addNew term.metas ty.metas
    if !holes.isEmpty then
      refuse (.unsolvedHoles holes)
    else if !unknown.isEmpty then
      refuse (.unsolvedMetas unknown)
    else
      return (term, ← ty.eval fuel scope.env)

/-- Elaborates a closed term. If `erased` is set, it may use erased globals. -/
def elaborate (fuel : Nat) (su : Setup) (erased : Bool) (tm : Surface) : Action (Term × Val) := do
  modify fun s => { s with metas := s.metas.reset, holes := [] }
  let scope := (Local.empty su.globals).enterIf erased
  let (term, ty) ← synth fuel su scope tm
  retryAll fuel su.globals
  searchInstances fuel su
  retryAll fuel su.globals
  finish fuel scope term ty

end Elaborator
