import Elaborator.Proofs.NormalForm.Rereading
import Elaborator.Proofs.Replay.Unify
import Elaborator.Proofs.Zonk.Complete

/-! # Reading back and evaluating again

An elaboration ends with reading the type back as a term and evaluating that term. What comes out is
not the same value: its closures hold bodies that are read back, and its globals are looked up
again. But nothing was computed on the way, so the two values have the same form throughout
(`Val.Resembles`), and comparing them succeeds (`Val.Echoes.accepts`). -/

namespace Elaborator

open Elaborator.Action

/-! ## Echoes -/

/-- Reading `v` back in a scope of size `n` and evaluating the result gives `w`. -/
structure Val.Echoes (g : Globals) (fuel : Nat) (L : Nat → Prop) (n : Nat) (v w : Val) : Prop where
  within : v.Within .normal L
  echo : ∃ ms t fuel', v.quote fuel ms false n = .ok t ∧ t.eval fuel' (g.scopeEnv n) = .ok w

/-- Where no metavariables occur, it does not matter what is known about them. -/
theorem Val.Within.quote_metas {L : Nat → Prop} {v : Val} (hv : v.Within .normal L)
    (ms ms' : MetaStore) (fuel n : Nat) : v.quote fuel ms false n = v.quote fuel ms' false n :=
  Val.Settled.quote_metas (M := fun _ => False) (fun _ => False.elim) (fun _ => False.elim)
    hv.settled fuel n

/-- A value and its echo are equal, whenever they are compared. -/
theorem Val.Echoes.accepts {g : Globals} {fuel : Nat} {L : Nat → Prop} {n : Nat} {v w : Val}
    (h : v.Echoes g fuel L n w) (fuel' : Nat) : Accepts (unify fuel' .rigid g n v w) anything := by
  obtain ⟨hv, ms, t, f, ht, hw⟩ := h
  have hlooks (s : State) : Looks s.metas.lookup (unify fuel' .rigid g n v w) anything
      noErrors := by
    have hrereads : v.Rereads g (fun _ => False) s.metas.lookup fuel n w :=
      ⟨hv.settled, s.metas, t, f, rfl, (hv.quote_metas s.metas ms fuel n).trans ht, hw⟩
    exact hrereads.accepts (fun _ _ h => h.elim) fuel'
  constructor
  · exact fun _ => trivial
  · exact fun {s _ _} hst => ((hlooks s).error rfl hst).2

/-- Where no metavariables occur, zonking has nothing to replace. -/
theorem Term.zonk_settled {t : Term} {fuel n : Nat} {ms : MetaStore}
    (ht : t.Within .normal n) (env : Env) : t.zonk fuel ms env = .ok t :=
  Term.zonk_of_among fun m hm => (ht.2 m hm).elim

end Elaborator
