import Elaborator.Proofs.Discipline.Unify
import Elaborator.Proofs.Scope.State

/-! # Unification stays in scope

Two values whose levels are below a size are unified at that size (`unify_safe`), because scopes are
a discipline of unification (`Discipline.scopes`). Its laws also say that no step fails because of a
variable out of scope, and that the events on the way can be shown.

A solution is moved from the scope of the problem into the scope of the metavariable's parameters,
which is what `Term.rename` checks. -/

namespace Elaborator

/-! ## Solutions -/

section

variable {B : Bounds} {L : Nat → Prop}

theorem Index.toLevel_safely {i : Index} {n : Nat} (hi : i.toNat < n) :
    Safely (i.toLevel n) anything := by
  refine (inScope_safely i.toNat n).bind ?_
  rintro b rfl
  rw [if_pos (decide_eq_true (Nat.succ_le_of_lt hi))]
  exact .pure trivial

/-- Renaming a list of terms is safe when renaming each one is. -/
theorem Term.renameAll_safely {m : MetaId} {params : List Level} {size depth n : Nat}
    {ts : List Term} (h : ∀ t ∈ ts, Safely (t.rename m params size depth) (Term.Within B n)) :
    Safely (renameAll m params size depth ts) (fun us => ∀ u ∈ us, u.Within B n) := by
  induction ts with
  | nil => exact .ok (List.forall_mem_nil _)
  | cons t ts ih =>
    obtain ⟨ht, hts⟩ := List.forall_mem_cons.1 h
    exact ht.bind fun u hu => (ih hts).bind fun us hus => .pure (List.forall_mem_cons.2 ⟨hu, hus⟩)

/-- A term that can be moved into the scope of the parameters is in that scope afterwards, and does
not mention the metavariable whose parameters they are. -/
theorem Term.rename_safely (m : MetaId) (params : List Level) {size : Nat} (depth : Nat) {t : Term}
    (ht : t.Within B (size + depth)) :
    Safely (t.rename m params size depth) (Term.Within (B.without m) (params.length + depth)) := by
  induction t generalizing depth with
  | type => exact .ok within_type
  | global x => exact .ok within_global
  | prim p => exact .ok within_prim
  | nat n => exact .ok within_nat
  | metavar n =>
    exact .ite (fun _ => .error id) fun hne => .ok (within_metavar.2 ⟨within_metavar.1 ht, hne⟩)
  | var i =>
    have hi : i.toNat < size + depth := within_var.1 ht
    -- Variables bound inside the term stay, and those of the scope are looked up among the
    -- parameters.
    refine .ite (fun hlt => .ok (within_var.2 (by omega))) fun hge => ?_
    have hlevel : Safely (Index.toLevel ⟨i.toNat - depth⟩ size) anything :=
      Index.toLevel_safely (show i.toNat - depth < size by omega)
    split
    · next f hf => exact .error (hlevel.fault f hf)
    · next l _ =>
      split
      · next k hk =>
        have hklt : k < params.length := (List.idxOf?_eq_some_iff.1 hk).1
        exact .ok (within_var.2 (by show k + depth < _; omega))
      · exact .error id
  | app f icit x hf hx =>
    obtain ⟨htf, htx⟩ := within_app.1 ht
    exact (hf depth htf).bind fun u hu => (hx depth htx).bind fun w hw =>
      .pure (within_app.2 ⟨hu, hw⟩)
  | bind b dom body hdom hbody =>
    obtain ⟨htdom, htbody⟩ := within_bind.1 ht
    exact (hdom depth htdom).bind fun u hu => (hbody (depth + 1) htbody).bind fun w hw =>
      .pure (within_bind.2 ⟨hu, hw⟩)
  | pair a b s ha hb hs =>
    obtain ⟨hta, htb, hts⟩ := within_pair.1 ht
    exact (ha depth hta).bind fun u hu => (hb depth htb).bind fun v hv =>
        (hs depth hts).bind fun w hw =>
      .pure (within_pair.2 ⟨hu, hv, hw⟩)
  | proj x p hx => exact (hx depth (within_proj.1 ht)).bind fun u hu => .pure (within_proj.2 hu)
  | letIn x erased ty val body hty hval hbody =>
    obtain ⟨htty, htval, htbody⟩ := within_letIn.1 ht
    exact (hty depth htty).bind fun u hu => (hval depth htval).bind fun v hv =>
      (hbody (depth + 1) htbody).bind fun w hw => .pure (within_letIn.2 ⟨hu, hv, hw⟩)
  | elim e c s cs hc hs hcs =>
    obtain ⟨htc, hts, htcs⟩ := within_elim.1 ht
    exact (hc depth htc).bind fun u hu => (hs depth hts).bind fun v hv =>
      (renameAll_safely fun t ht => hcs t ht depth (htcs t ht)).bind fun ws hws =>
        .pure (within_elim.2 ⟨hu, hv, hws⟩)

/-- Putting the parameters around a term in their scope gives a closed term. -/
theorem Term.abstract_within {params : List Param} {body : Term} {n : Nat}
    (hbody : body.Within B (params.length + n)) : (Term.abstract params body).Within B n := by
  induction params generalizing n with
  | nil => simpa [Term.abstract] using hbody
  | cons p ps ih =>
    refine within_bind.2 ⟨within_type, ih ?_⟩
    rw [List.length_cons] at hbody
    rwa [Nat.add_right_comm] at hbody

/-- A term that was moved into the scope of the parameters is closed once they stand around it. -/
theorem Term.abstract_rename_within {m : MetaId} {params : List Param} {size : Nat} {t u : Term}
    (ht : t.Within B size) (hu : t.rename m (params.map (·.level)).reverse size 0 = .ok u) :
    (Term.abstract params u).Within (B.without m) 0 := by
  refine Term.abstract_within ?_
  simpa using (Term.rename_safely m (params.map (·.level)).reverse 0 ht).answer u hu

/-- Looking for the parameters of a spine in bounds is safe. -/
theorem Spine.params?_safely {ms : MetaStore} (hms : ms.SolvedWithin B) {sp : Spine}
    (hsp : Spine.Within B L sp) (fuel : Nat) : Safely (Spine.params? fuel ms sp) anything := by
  induction sp with
  | nil => exact .ok trivial
  | cons e sp ih =>
    obtain ⟨he, htail⟩ := Spine.within_cons.1 hsp
    refine (ih htail).bind fun ps _ => ?_
    cases ps with
    | none => exact .pure trivial
    | some ps =>
      cases e with
      | app icit x =>
        refine (Val.force_safely hms (Elim.within_app.1 he) fuel).bind fun v _ => ?_
        split <;> exact .pure trivial
      | proj | cases => exact .pure trivial

theorem BoolSplit.branch_safely {s : BoolSplit} (hs : ∀ v ∈ s.vals, v.Within B L) {case : Val}
    (hc : case.Within B L) (fuel : Nat) : Safely (s.branch fuel case) (Val.Within B L) := by
  obtain ⟨-, -, htrailing⟩ := BoolSplit.forall_vals.1 hs
  unfold BoolSplit.branch
  split
  · next e he => exact Val.eliminate_safely hc (htrailing e he) fuel
  · exact .ok hc

end

/-! ## Unification -/

open Elaborator.Action

section

variable {B : Bounds} {H : Hole → Prop} {old : List Event}

/-- A solution is closed and in bounds when the right-hand side is in bounds. -/
theorem solution_safe {g : Globals} (hg : g.env.Within B noLevels anything) {size : Nat} {rhs : Val}
    (hrhs : rhs.Within B (· < size)) (fuel : Nat) (m : MetaId) (params : List Param) :
    Safe B H old (solution fuel g size m params rhs) (Val.Within B noLevels) := by
  refine .bind (.quote hrhs (fun _ hl => hl) fuel) fun body hbody => ?_
  have hrename := Term.rename_safely m (params.map (·.level)).reverse 0 hbody
  split
  · next e he => exact .throw (hrename.fault e he)
  · next u hu =>
    have hclosed : (Term.abstract params u).Within B 0 :=
      (Term.abstract_rename_within hbody hu).widen (B.without_le m)
    refine .bind (.emit (.of_describe fun _ => .pure trivial)) fun _ _ => ?_
    exact .lift (Term.eval_safely hg hclosed fuel)

end

/-! ## The discipline -/

abbrev Discipline.scopes (B : Bounds) (old : List Event) : Discipline where
  World := Unit
  Later _ _ := True
  Runs _ _ x Q := Safe B (Hole.Within B) old x (Q ())
  Reads _ x Q := Safe B (Hole.Within B) old x Q
  NameOk _ := True
  ValOk _ := Val.Within B
  TermOk _ := Term.Within B
  ScopeOk _ := Local.Within B

section

variable {B : Bounds} {old : List Event}

theorem Discipline.scopes_worlds : (scopes B old).WorldLaws where
  refl _ := trivial
  trans _ _ := trivial
  val_later _ hv := hv
  term_later _ ht := ht
  scope_later _ hs := hs

theorem Discipline.scopes_actions : (scopes B old).ActionLaws where
  pure := Safe.pure
  bind hx hf := Safe.bind hx fun a ha => hf () a trivial ha
  read hx hf := Safe.bind hx hf
  outOfFuel := Safe.throw id
  refuse _ := Safe.refuse _
  mapError _ hx := Safe.mapError _ hx
  transaction hx hok hsoft hhard := by
    refine Safe.bind (Safe.transaction hx) fun r hr => ?_
    cases r with
    | ok a => exact hok () a trivial (hr a rfl)
    | error e =>
      cases he : e.isSoft with
      | true => exact hsoft () e trivial he
      | false =>
        rw [hhard e he]
        exact Safe.refuse e
  attempt hx := Safe.attempt hx

theorem Discipline.scopes_forces : (scopes B old).ForceLaws where
  val_prim := Val.within_prim
  val_closure hc := ⟨trivial, (Val.within_closure.1 hc).1⟩
  enter hc := Safe.lift (Closure.enter_safely hc (fun _ hl => .inl hl) (.inr rfl) _)
  force hv := Safe.force hv _

/-- Routine events can be shown. -/
theorem Event.Routine.shown {e : Event} (h : e.Routine) : e.Shown := by
  refine .of_describe fun _ => ?_
  cases h with
  | chooseBranch | retry => exact .pure trivial
  | rejectBranch m constant e => exact (Error.message_safely e).bind fun _ _ => .pure trivial

/-- The unifier keeps values in the scope they are for. -/
theorem Discipline.scopes_unify {g : Globals} (hg : g.env.Within B noLevels anything) :
    (scopes B old).UnifyLaws g where
  toWorldLaws := scopes_worlds
  toActionLaws := scopes_actions
  toForceLaws := scopes_forces
  val_nat := .nat
  val_fresh hn := Val.within_var.2 hn
  val_weaken hL hv := hv.mono hL
  val_pair h := ⟨(Val.within_pair.1 h).1, (Val.within_pair.1 h).2.1⟩
  val_spine h := (Val.within_neutral.1 h).2.2
  val_gluedSpine h := (Val.within_glued.1 h).2.2
  val_metavar h hsp := Val.within_neutral.2
    ⟨(Val.within_neutral.1 h).1, fun _ => Spine.blocked_metavar, hsp⟩
  forceMeta hv := (Safe.forceMeta hv _).imp fun _ h => ⟨h, fun _ _ _ _ => trivial⟩
  solvable_bool _ := trivial
  eliminate hv he := Safe.lift (Val.eliminate_safely hv he _)
  readBack hv := (Safe.quote hv (fun _ hl => hl) _).imp fun _ _ => trivial
  params hsp := Safe.bind .metas fun _ hms =>
    .lift (Spine.params?_safely hms.solvedWithin hsp _)
  metas := Safe.metas.imp fun _ _ => trivial
  noteUnify ha hb := by
    refine (Safe.emitWith fun ms hms => .of_describe fun fuel => ?_).imp fun _ _ _ _ h => h
    exact (Event.Shown.levelText hms ha fuel).bind fun _ _ =>
      (Event.Shown.levelText hms hb fuel).bind fun _ _ => .pure trivial
  noteSolve hrhs _ := Safe.emitWith fun ms hms => .of_describe fun fuel =>
    (Event.Shown.levelText hms hrhs fuel).bind fun _ _ => .pure trivial
  noteRoutine he := Safe.emit he.shown
  postpone hlhs hrhs := Safe.postpone ⟨hlhs, hrhs⟩
  takePostponed := (Safe.takePostponed _).imp fun _ hps p hp => ⟨(hps p hp).lhs, (hps p hp).rhs⟩
  assign _ _ hrhs := Safe.bind (solution_safe hg hrhs _ _ _) fun _ hv => .setMeta hv

variable {g : Globals}

/-- Two values in scope are unified without leaving it. -/
theorem unify_safe (hg : g.env.Within B noLevels anything) {size : Nat} {a b : Val}
    (ha : a.Within B (· < size)) (hb : b.Within B (· < size)) (fuel : Nat) (mode : Mode) :
    Safe B (Hole.Within B) old (unify fuel mode g size a b) anything := by
  have hunify : (Discipline.scopes B old).Runs True () (unify fuel mode g size a b)
      fun _ _ => True :=
    ((Discipline.scopes_unify hg).unifier_runs fuel).unify ha hb
  exact hunify

theorem retryAll_safe (hg : g.env.Within B noLevels anything) (fuel : Nat) :
    Safe B (Hole.Within B) old (retryAll fuel g) anything := by
  have hretry : (Discipline.scopes B old).Runs True () (retryAll fuel g) fun _ _ => True :=
    (Discipline.scopes_unify hg).retryAll_runs
  exact hretry

end

end Elaborator
