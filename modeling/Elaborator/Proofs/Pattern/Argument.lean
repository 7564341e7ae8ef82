import Elaborator.Proofs.NormalForm.Idempotence
import Elaborator.Proofs.Unwinding

/-! # Values that stand for a variable

A metavariable may be applied to something that only unfolds to a variable: a global, or a
metavariable that was solved by now. Wherever a solution puts such an argument in place of the
variable, it meets the eliminations that the variable had, and it waits for them like the variable:
each step from the argument to the variable is also a step with the eliminations behind it
(`Val.Unwinds.eliminate`).

The steps are those of forcing, one by one (`Val.Unwinds`). -/

namespace Elaborator

/-- A variable blocks every elimination. -/
theorem Elim.blocked_var {l : Level} {sp : Spine} (e : Elim) : e.Blocked (.var l) sp := by
  cases e with
  | app =>
    rintro ⟨h, -⟩
    cases h
  | proj => trivial
  | cases e => cases e <;> rfl

/-- An unsolved metavariable blocks every elimination. -/
theorem Elim.blocked_metavar {m : MetaId} {sp : Spine} (e : Elim) : e.Blocked (.metavar m) sp := by
  have h : Spine.Blocked (.metavar m) (e :: sp) := Spine.blocked_metavar
  exact h.1

/-! ## Arguments in place of a variable -/

namespace Val.Unwinds

variable {σ : MetaId → Option Val} {v w : Val} {l : Level} {sp : Spine}

/-- Forcing ends at the variable. -/
theorem unfoldsTo_eq (h : v.Unwinds σ (.neutral (.var l) sp)) (hw : v.UnfoldsTo σ w) :
    w = .neutral (.var l) sp := by
  obtain ⟨ms, fuel, rfl, hw⟩ := hw
  have hv : v.UnfoldsUnder ms [] w := ⟨fuel, v, rfl, hw⟩
  obtain ⟨_, u, hu, hw⟩ := h.unfoldsUnder_iff.1 hv
  cases hu
  exact Val.force_settled rfl (by simp) hw

/-- Looking up metavariables only leads to the variable, or to a global on the way to it. -/
theorem forcesTo (h : v.Unwinds σ (.neutral (.var l) sp)) (hw : v.ForcesTo σ w) :
    w = .neutral (.var l) sp ∨ (∃ x s base, w = .glued x s base) ∧
      w.Unwinds σ (.neutral (.var l) sp) := by
  obtain ⟨ms, fuel, rfl, hw⟩ := hw
  generalize hx : Val.neutral (.var l) sp = x at h
  induction h generalizing fuel with
  | done v =>
    subst hx
    exact .inl (Val.forceMeta_settled rfl hw)
  | @solution m s v u w f solved applied _ ih =>
    cases fuel with
    | zero => cases hw
    | succ fuel =>
      simp only [Val.forceMeta, solved] at hw
      obtain ⟨u', hu', hw⟩ := bind_ok hw
      obtain rfl := Val.applySpine_twice _ _ v s u u' applied hu'
      exact ih fuel hw hx
  | @global y s base u w f applied rest _ =>
    obtain rfl := Val.forceMeta_settled rfl hw
    exact .inr ⟨⟨y, s, base, rfl⟩, .global applied rest⟩

/-- **What stands for a variable waits for eliminations like the variable.** -/
theorem eliminate (h : v.Unwinds σ (.neutral (.var l) sp)) (e : Elim) :
    ∃ w, (∀ fuel, v.eliminate (fuel + 2) e = .ok w) ∧
      w.Unwinds σ (.neutral (.var l) (e :: sp)) := by
  have grow : ∀ {v w : Val}, v.Grows false e w → ∀ fuel, v.eliminate (fuel + 2) e = .ok w :=
    fun hgrows fuel => hgrows.eliminate fuel
  have applied_cons : ∀ {b u u' : Val} {s : Spine} {f : Nat}, b.applySpine f s = .ok u →
      (∀ fuel, u.eliminate (fuel + 2) e = .ok u') → b.applySpine (f + 2) (e :: s) = .ok u' := by
    intro b u u' s f hu hu'
    rw [Val.applySpine, (Val.applySpine_prolongs (Nat.le_add_right f 2) b s).ok hu, ok_bind, hu']
  generalize hx : Val.neutral (.var l) sp = x at h
  -- Along the way to the variable: the elimination is added at every step.
  induction h with
  | done v =>
    subst hx
    exact ⟨_, grow (.neutral e.blocked_var), .done _⟩
  | solution solved applied _ ih =>
    obtain ⟨u', hu', hrest⟩ := ih hx
    exact ⟨_, grow (.neutral e.blocked_metavar), .solution solved (applied_cons applied hu') hrest⟩
  | global applied _ ih =>
    obtain ⟨u', hu', hrest⟩ := ih hx
    exact ⟨_, grow (.glued rfl), .global (applied_cons applied hu') hrest⟩

/-- The same for an elimination that has given something. -/
theorem eliminate_eq (h : v.Unwinds σ (.neutral (.var l) sp)) {e : Elim} {fuel : Nat}
    (hw : v.eliminate fuel e = .ok w) : w.Unwinds σ (.neutral (.var l) (e :: sp)) := by
  obtain ⟨u, hu, hrest⟩ := h.eliminate e
  obtain rfl := Val.eliminate_twice _ _ v e u w (hu fuel) hw
  exact hrest

end Val.Unwinds

end Elaborator
