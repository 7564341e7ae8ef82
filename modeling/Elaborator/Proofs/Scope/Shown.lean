import Elaborator.Proofs.Scope.Basic

/-! # What a value shows

What a folded global stands for takes no part in evaluation, and a value that is read back without
unfolding does not show it. `Val.Shows` is `Val.Within` without it: the levels and metavariables
that can come up as long as no global is unfolded. It asks nothing of the globals. -/

namespace Elaborator

/-- Every level that the value shows satisfies `L`, every metavariable that it shows is in bounds,
and the bodies of closures are scoped. What a folded global stands for is not shown. -/
inductive Val.Shows (B : Bounds) (L : Nat → Prop) : Val → Prop
  | type : Shows B L .type
  | nat {n : Nat} : Shows B L (.nat n)
  | neutral {h : Head} {sp : Spine} (head : h.Within B L)
      (spine : ∀ v ∈ Spine.vals sp, Shows B L v) : Shows B L (.neutral h sp)
  | glued {x : Name} {sp : Spine} {base : Val} (spine : ∀ v ∈ Spine.vals sp, Shows B L v) :
      Shows B L (.glued x sp base)
  | closure {c : Closure} (dom : Shows B L c.dom) (locals : ∀ v ∈ c.env.locals, Shows B L v)
      (body : c.body.Within B (c.env.size + 1)) : Shows B L (.closure c)
  | pair {a b s : Val} (fst : Shows B L a) (snd : Shows B L b) (sigma : Shows B L s) :
      Shows B L (.pair a b s)

namespace Val

variable {B : Bounds} {L K : Nat → Prop} {v : Val}

/-- What is within bounds shows only what the bounds allow. -/
theorem Within.shows (h : v.Within B L) : v.Shows B L := by
  induction h with
  | type => exact .type
  | nat => exact .nat
  | neutral hh _ _ ih => exact .neutral hh ih
  | glued _ _ _ _ ih => exact .glued ih
  | closure _ _ _ _ hbody ihd ihl _ => exact .closure ihd ihl hbody
  | pair _ _ _ iha ihb ihs => exact .pair iha ihb ihs

theorem shows_neutral {h : Head} {sp : Spine} :
    (Val.neutral h sp).Shows B L ↔ h.Within B L ∧ ∀ v ∈ Spine.vals sp, v.Shows B L := by
  constructor
  · rintro ⟨⟩
    exact ⟨‹_›, ‹_›⟩
  · rintro ⟨hh, hsp⟩
    exact .neutral hh hsp

/-- A definition shows what its spine shows. -/
theorem shows_glued {x : Name} {sp : Spine} {base : Val} :
    (Val.glued x sp base).Shows B L ↔ ∀ v ∈ Spine.vals sp, v.Shows B L := by
  constructor
  · rintro ⟨⟩
    assumption
  · exact .glued

theorem shows_closure {c : Closure} :
    (Val.closure c).Shows B L ↔
      c.dom.Shows B L ∧ (∀ v ∈ c.env.locals, v.Shows B L) ∧ c.body.Within B (c.env.size + 1) := by
  constructor
  · rintro ⟨⟩
    exact ⟨‹_›, ‹_›, ‹_›⟩
  · rintro ⟨hdom, hlocals, hbody⟩
    exact .closure hdom hlocals hbody

theorem shows_pair {a b s : Val} :
    (Val.pair a b s).Shows B L ↔ a.Shows B L ∧ b.Shows B L ∧ s.Shows B L := by
  constructor
  · rintro ⟨⟩
    exact ⟨‹_›, ‹_›, ‹_›⟩
  · rintro ⟨ha, hb, hs⟩
    exact .pair ha hb hs

/-- More levels may be shown. -/
theorem Shows.mono (h : v.Shows B L) (hLK : ∀ l, L l → K l) : v.Shows B K := by
  induction h with
  | type => exact .type
  | nat => exact .nat
  | @neutral h sp hh _ ih =>
    refine .neutral ?_ ih
    cases h with
    | var l => exact hLK _ hh
    | prim p => trivial
    | metavar m => exact hh
  | glued _ ih => exact .glued ih
  | closure _ _ hbody ihd ihl => exact .closure ihd ihl hbody
  | pair _ _ _ iha ihb ihs => exact .pair iha ihb ihs

end Val

end Elaborator
