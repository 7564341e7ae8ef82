import Elaborator.Proofs.Allocation.Basic
import Elaborator.Proofs.Discipline.Unify
import Elaborator.Proofs.Modes.Looking

/-! # Unification solves what was made

Unification makes no metavariables, so all it has to do is not to lose sight of those that are
there. The metavariable that it solves comes from a value, so it was made, and forcing has stopped
at it, so it has no solution. There is one place where time passes between the two: a boolean case
analysis that is stuck on `?m` is solved by first making a branch equal to the other side, and then
solving `?m` by the constant of that branch. By then, `?m` may have a solution.

So this is a discipline (`Discipline.allocation`), whose worlds are states. -/

namespace Elaborator

open Elaborator.Action

/-! ## Solutions -/

theorem Term.Among.abstract {A : MetaId → Prop} {params : List Param} {body : Term}
    (h : body.Among A) : (Term.abstract params body).Among A := by
  induction params with
  | nil => exact h
  | cons p ps ih => exact Term.among_bind.2 ⟨Term.among_type, ih⟩

def Val.IsBool (v : Val) : Prop := ∃ p : Prim, v = .prim p ∧ (p = .true ∨ p = .false)

namespace Action

variable {β : Type} {old : List Event} {quiet : Prop} {s : State} {R : State → β → Prop}
  {g : Globals} {fuel size : Nat}

namespace Allocates

/-- Looking for a solution changes nothing but the log. -/
theorem bindSolution (hg : g.env.Among fun _ => False) {m : MetaId}
    {params : List Param} {rhs : Val} {f : Val → Action β} (hrhs : rhs.Among s.metas.Made)
    (hf : ∀ v, v.Among s.metas.Made →
      Allocates old quiet { s with log := .solved m :: s.log } (f v) R) :
    Allocates old quiet s (solution fuel g size m params rhs >>= f) R := by
  unfold solution
  rw [bind_assoc]
  refine bindQuote hrhs fun body hbody => ?_
  have hmoving := Term.rename_moving m (params.map (·.level)).reverse size 0 body
  cases hmoved : body.rename m (params.map (·.level)).reverse size 0 with
  | error e =>
    refine bind (Q := fun _ _ => False) ?_ fun _ _ _ h => h.elim
    cases e with
    | fault e => exact fault e
    | error e => exact refuse (.of_refuses (hmoving.error e hmoved))
  | ok moved =>
    show Allocates old quiet s ((Action.emit (.solved m) >>= fun _ => _) >>= f) R
    rw [bind_assoc]
    refine bindEmit (bindLift fun v hv => hf v ?_)
    obtain ⟨hsame, -⟩ := hmoving.answer moved hmoved
    have hmade : moved.Among s.metas.Made := fun q hq => hbody q (hsame ▸ hq)
    exact Term.eval_among (hg.mono fun _ => False.elim) hmade.abstract hv

/-- Between the two steps, only the log has grown. -/
theorem assign (hg : g.env.Among fun _ => False) {m : MetaId} {params : List Param} {rhs : Val}
    (hm : s.metas.Made m) (hrhs : rhs.Among s.metas.Made)
    (hopen : s.metas.lookup m = none ∨ s.Resolves old m) :
    Allocates old quiet s (solution fuel g size m params rhs >>= Action.setMeta m) whatever :=
  bindSolution hg hrhs fun _ hv =>
    setMeta hm hv (hopen.imp_right fun h => h.of_log (List.suffix_cons ..))

/-- It is noted that a metavariable is to be solved. If it has a solution, this note is the excuse
for solving it again. -/
theorem noteSolve {m : MetaId} {rhs : Val} (hopen : s.metas.lookup m = none ∨ rhs.IsBool) :
    Allocates old quiet s (Action.emitWith fun ms => .solve ms m size rhs)
      fun t _ => t.metas.lookup m = none ∨ t.Resolves old m := by
  refine emitWith fun hs => ?_
  cases hlookup : s.metas.lookup m with
  | none => exact .inl hlookup
  | some v =>
    obtain ⟨p, rfl, hp⟩ := hopen.resolve_left (by simp [hlookup])
    obtain ⟨events, hevents⟩ := hs.log
    refine .inr ⟨.solve s.metas m size (.prim p) :: events, s.metas, size, p, ?_, by simp, hp, ?_⟩
    · rw [← hevents, List.cons_append]
    · rw [MetaStore.isSolved, hlookup]
      rfl

end Allocates

end Action

/-! ## The discipline -/

/-- Values and terms mention metavariables that were made. A metavariable is solved only if it has
no solution, or by a boolean constant. -/
abbrev Discipline.allocation (old : List Event) : Discipline where
  World := State
  Later s t := s.metas.Made ≤ t.metas.Made
  Runs quiet w x Q := ∀ s : State, s.current = w → Allocates old quiet s x Q
  Reads w x P := ∀ s : State, s.current = w → Inspects old s x P
  NameOk _ := True
  ValOk w _ := Val.Among w.metas.Made
  TermOk w _ := Term.Among w.metas.Made
  ScopeOk w _ := Local.Among w.metas.Made
  Solvable w m rhs := w.metas.lookup m = none ∨ rhs.IsBool
  Ready w m := w.metas.lookup m = none ∨ w.Resolves old m

section

variable {old : List Event}

theorem Discipline.allocation_worlds : (allocation old).WorldLaws where
  refl _ := le_rfl
  trans h h' := le_trans h h'
  val_later h hv := hv.mono h
  term_later h ht := ht.mono h
  scope_later h hs := hs.mono h

theorem Discipline.allocation_actions : (allocation old).ActionLaws where
  pure h := by
    rintro s rfl
    exact .pure h
  bind hx hf := by
    rintro s rfl
    exact .bind (hx s rfl) fun t a hst ha => hf t.current a hst ha t rfl
  read hx hf := by
    rintro s rfl
    exact .bindRead (hx s rfl) fun a ha => hf a ha s rfl
  outOfFuel _ _ := .fault _
  refuse h _ _ := .reject _ h
  mapError hg hx s hs := .mapError (fun e _ he text ht => he text (hg e text ht)) (hx s hs)
  transaction hx hok hsoft hhard := by
    rintro s rfl
    refine .bindTransaction (hx s.opened rfl) (fun t a hst ha => hok t.current a hst ha t rfl)
      fun t e hst he => ?_
    cases hsoft' : e.isSoft with
    | true => exact hsoft t.current e hst hsoft' t rfl
    | false =>
      rw [hhard e hsoft']
      exact .refuse he
  attempt hx := by
    rintro s rfl
    exact .attempt (hx s.opened rfl)

theorem Discipline.allocation_forces : (allocation old).ForceLaws where
  val_prim := Val.among_prim
  val_closure hc := ⟨trivial, (Val.among_closure.1 hc).1⟩
  enter hc _ _ := .lift fun _ hv => Closure.enter_among hc hv
  force hv := by
    rintro s rfl
    exact .force hv

variable {g : Globals} (hg : g.env.Among fun _ => False)

include hg

/-- The unifier allocates: it solves with values over made metavariables and postpones such
problems. -/
theorem Discipline.allocation_unify : (allocation old).UnifyLaws g where
  toWorldLaws := allocation_worlds
  toActionLaws := allocation_actions
  toForceLaws := allocation_forces
  val_nat := Val.among_nat
  val_fresh _ := Val.among_var
  val_weaken _ hv := hv
  val_pair h := ⟨(Val.among_pair.1 h).1, (Val.among_pair.1 h).2.1⟩
  val_spine h := (Val.among_neutral.1 h).2
  val_gluedSpine h := (Val.among_glued.1 h).2
  val_metavar h hsp := Val.among_neutral.2 ⟨(Val.among_neutral.1 h).1, hsp⟩
  forceMeta hv := by
    rintro s rfl
    refine (Inspects.forceMeta (s := s) hv).imp fun u hu => ⟨hu.1, ?_⟩
    rintro m sp rfl rhs
    exact .inl (Val.ForcesTo.unsolved ⟨s.metas, _, rfl, hu.2⟩)
  solvable_bool hp := .inr ⟨_, rfl, hp⟩
  eliminate hv he _ _ := .lift fun _ hu => Val.eliminate_among hv he hu
  readBack hv := by
    rintro s rfl
    exact (Inspects.quote (s := s) hv).imp fun _ _ => trivial
  params _ _ _ := .look fun _ _ _ => trivial
  metas _ _ := .look (r := fun ms => .ok ms) fun _ _ _ => trivial
  noteUnify _ _ := by
    rintro s rfl
    exact .emitWith fun _ _ _ h => h
  noteSolve _ h := by
    rintro s rfl
    exact .noteSolve h
  noteRoutine _ _ _ := .emit fun _ => trivial
  postpone hlhs hrhs := by
    rintro s rfl
    exact .postpone (s := s) ⟨hlhs, hrhs⟩ _
  takePostponed s _ := (Allocates.takePostponed _).imp fun _ _ h p hp =>
    ⟨(h p hp).lhs, (h p hp).rhs⟩
  assign hlhs hready hrhs := by
    rintro s rfl
    exact .assign hg ((Val.among_neutral.1 hlhs).1 _ rfl) hrhs hready

variable {quiet : Prop} {s : State} {fuel : Nat}

/-- **Unification of values whose metavariables were made.** -/
theorem unify_allocates {size : Nat} {a b : Val} (ha : a.Among s.metas.Made)
    (hb : b.Among s.metas.Made) :
    Allocates old quiet s (unify fuel .solving g size a b) whatever := by
  have hunify : (Discipline.allocation old).Runs quiet s.current (unify fuel .solving g size a b)
      whatever := ((Discipline.allocation_unify hg).unifier_runs fuel).unify ha hb
  exact hunify s rfl

/-- Retrying every postponed problem allocates. -/
theorem retryAll_allocates : Allocates old quiet s (retryAll fuel g) whatever := by
  have hretry : (Discipline.allocation old).Runs quiet s.current (retryAll fuel g) whatever :=
    (Discipline.allocation_unify hg).retryAll_runs
  exact hretry s rfl

end

end Elaborator
