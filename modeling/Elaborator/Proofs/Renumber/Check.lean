import Elaborator.Elaborate
import Elaborator.Proofs.Renumber.Unify

/-! # Elaboration at different numbers

Elaboration makes metavariables in the same order whatever their numbers are, so two elaborations of
the same surface term take the same steps: in contexts that are renumbered and against renumbered
types, they find renumbered terms and types (`Checker.Renumbered`). One lemma per rule; the knot is
tied by induction on the fuel (`checker_renumbered`).

The definitions that a term may use are not renumbered, so they must not mention metavariables. -/

namespace Elaborator

open Elaborator.Action

abbrev renumberTyped (d : Nat) : Term × Val → Term × Val :=
  Prod.map (Term.renumber d) (Val.renumber d)

section

variable {d : Nat} {su : Setup} (hg : su.globals.MetaFree)

/-! ## Metavariables for what is left out -/

/-- Unification takes the same course on renumbered values in a renumbered state. -/
theorem unify_tracks {k : Nat} {g : Globals} (hg : g.MetaFree) (fuel : Nat) (mode : Mode) (n : Nat)
    (a b : Val) :
    Tracks d k id (unify fuel mode g n a b) (unify fuel mode g n (a.renumber d) (b.renumber d)) :=
  (unifiesRenumbered (hg.env_renumber d) fuel).unify mode n a b

include hg in
theorem unifyIn_tracks (fuel : Nat) (scope : Local) (a b : Val) :
    Tracks d d id (unifyIn fuel su scope a b)
      (unifyIn fuel su (scope.renumber d) (a.renumber d) (b.renumber d)) := by
  rw [unifyIn, unifyIn, Local.names_renumber, Local.size_renumber]
  exact .mapError (Error.withNames_renumber scope.names)
    (unify_tracks hg fuel .solving scope.size a b)

/-- Evaluating a term of a context. -/
theorem Action.Tracks.evalIn {k : Nat} (fuel : Nat) (scope : Local) (t : Term) :
    Tracks d k (Val.renumber d) (t.eval fuel scope.env)
      ((t.renumber d).eval fuel (scope.renumber d).env) :=
  .lift (Term.eval_renumber scope.env t)

/-- Applying a closure. -/
theorem Action.Tracks.apply {k : Nat} (fuel : Nat) (c : Closure) (x : Val) :
    Tracks d k (Val.renumber d) (c.apply fuel x) ((c.renumber d).apply fuel (x.renumber d)) :=
  .lift (c.apply_renumber x)

/-- Going under the binder of a closure. -/
theorem Action.Tracks.enter {k : Nat} (fuel : Nat) (c : Closure) (n : Nat) :
    Tracks d k (Val.renumber d) (c.enter fuel n) ((c.renumber d).enter fuel n) :=
  .lift (c.enter_renumber n)

theorem newMetaVal_tracks (fuel : Nat) (scope : Local) :
    Tracks d d (Val.renumber d) (newMetaVal fuel scope) (newMetaVal fuel (scope.renumber d)) :=
  (Tracks.newMeta scope).bind fun t => Tracks.evalIn fuel scope t

theorem instantiate_tracks (fuel : Nat) (scope : Local) (ty : Val) :
    Tracks d d (Prod.map (Val.renumber d) (List.map (Term.renumber d))) (instantiate fuel scope ty)
      (instantiate fuel (scope.renumber d) (ty.renumber d)) := by
  induction fuel generalizing ty with
  | zero => exact .fault _
  | succ fuel ih =>
    refine (Tracks.force fuel ty).bind fun v => ?_
    cases v with
    | closure c =>
      rw [Val.renumber_closure]
      refine .ite ?_ (.pure rfl)
      refine (Tracks.newMeta scope).bind fun m => (Tracks.evalIn fuel scope m).bind fun v => ?_
      refine (Tracks.apply fuel c v).bind fun rest => (ih rest).bind fun r => ?_
      exact .pure rfl
    | type | neutral | glued | pair | nat => exact .pure rfl

theorem freshPi_tracks (fuel : Nat) (scope : Local) (x : Name) (icit : Icit) (erased : Bool) :
    Tracks d d (Val.renumber d) (freshPi fuel scope x icit erased)
      (freshPi fuel (scope.renumber d) x icit erased) := by
  refine (Tracks.newMeta scope).bind fun dom => (Tracks.evalIn fuel scope dom).bind fun vdom => ?_
  rw [← Local.bind_renumber]
  exact (Tracks.newMeta _).bind fun body =>
    Tracks.evalIn fuel scope (.bind ⟨.pi icit, x, erased⟩ dom body)

theorem elaborateHole_tracks (scope : Local) (name : Option Name) (search : Bool) (ty : Val) :
    Tracks d d (Term.renumber d) (elaborateHole scope name search ty)
      (elaborateHole (scope.renumber d) name search (ty.renumber d)) := by
  refine (Tracks.newMeta scope).bind fun term => ?_
  cases name with
  | none => exact .pure rfl
  | some x =>
    refine InStep.get.bind fun s s' hs => ?_
    have hnames : s'.holes.any (·.name == x) = s.holes.any (·.name == x) := by
      rw [hs.holes, List.any_map]
      rfl
    rw [hnames]
    refine .ite (.refuse rfl) ?_
    refine (Tracks.emitWith _ _).bind fun _ => (Tracks.modify fun s s' hs => ?_).bind
      fun _ => .pure rfl
    exact ⟨hs.metas, by rw [hs.holes, List.map_append, List.map_singleton]; rfl⟩

include hg in
theorem subsume_tracks (fuel : Nat) (scope : Local) (term : Term) (found expected : Val) :
    Tracks d d (Term.renumber d) (subsume fuel su scope term found expected)
      (subsume fuel su (scope.renumber d) (term.renumber d) (found.renumber d)
        (expected.renumber d)) := by
  simp only [subsume, Local.size_renumber, Local.names_renumber]
  refine (unify_tracks hg fuel .solving scope.size found expected).transaction.bind
    fun r q hrq => ?_
  cases hrq with
  | ok h => exact .pure rfl
  | error h =>
    dsimp only
    rw [Error.isSoft_renumber]
    refine .ite ?_ (.refuse rfl)
    refine (Tracks.emitWith _ _).bind fun _ => ?_
    refine Tracks.bind (f := Option.map (List.map (Term.renumber d))) (Tracks.attempt ?_)
      fun args => ?_
    · refine (instantiate_tracks fuel scope found).bind fun r => ?_
      exact (unify_tracks hg fuel .solving scope.size r.1 expected).bind fun _ => .pure rfl
    · cases args with
      | some args => exact .pure (term.renumber_applyImplicits args).symm
      | none => exact .refuse (Error.withNames_renumber scope.names _)

/-! ## Checking -/

structure Checker.Renumbered (d : Nat) (k : Checker) : Prop where
  check : ∀ (scope : Local) (tm : Surface) (ty : Val),
    Tracks d d (Term.renumber d) (k.check scope tm ty)
      (k.check (scope.renumber d) tm (ty.renumber d))
  synth : ∀ (scope : Local) (tm : Surface),
    Tracks d d (renumberTyped d) (k.synth scope tm) (k.synth (scope.renumber d) tm)

def CheckRule.renumber (d : Nat) : CheckRule → CheckRule
  | .typeInType => .typeInType
  | .hole name search => .hole name search
  | .pair a b sigma => .pair a b (sigma.renumber d)
  | .lam icit x body pi => .lam icit x body (pi.renumber d)
  | .insertLam pi => .insertLam (pi.renumber d)
  | .letIn erased x ty val body => .letIn erased x ty val body
  | .switch => .switch

/-- Whether an implicit function is put around a term does not depend on the numbers of
metavariables. -/
theorem CheckRule.insertOr_renumber (tm : Surface) (ty : Val) (other : CheckRule)
    (hother : other.renumber d = other) :
    CheckRule.insertOr tm (ty.renumber d) other = (CheckRule.insertOr tm ty other).renumber d := by
  cases ty with
  | closure c =>
    by_cases hc : c.binder.kind = .pi .impl ∧ ¬ tm.bindsImplicit
    · simp [CheckRule.insertOr, hc, CheckRule.renumber]
    · rw [Val.renumber_closure, CheckRule.insertOr, CheckRule.insertOr, if_neg hc, hother]
      exact if_neg hc
  | type | neutral | glued | pair | nat => exact hother.symm

/-- The same rule fits. -/
theorem CheckRule.of_renumber (tm : Surface) (ty : Val) :
    CheckRule.of tm (ty.renumber d) = (CheckRule.of tm ty).renumber d := by
  have hswitch := CheckRule.insertOr_renumber (d := d) tm ty .switch rfl
  cases tm with
  | hole name search => rfl
  | letIn erased x lty val body => exact CheckRule.insertOr_renumber _ ty _ rfl
  | type =>
    cases ty with
    | type => rfl
    | closure c => simpa [CheckRule.of] using hswitch
    | neutral | glued | pair | nat => exact hswitch
  | pair a b =>
    cases ty with
    | closure c =>
      by_cases hc : c.binder.kind = .sigma
      · simp [CheckRule.of, hc, CheckRule.renumber]
      · simpa [CheckRule.of, hc] using hswitch
    | type | neutral | glued | pair | nat => exact hswitch
  | abs icit erased x dom body =>
    cases dom with
    | some dom =>
      cases ty with
      | closure c => simpa [CheckRule.of] using hswitch
      | type | neutral | glued | pair | nat => exact hswitch
    | none =>
      cases ty with
      | closure c =>
        by_cases hc : c.binder.kind = .pi icit ∧ (c.binder.erased || !erased)
        · simp [CheckRule.of, hc, CheckRule.renumber]
        · simpa only [CheckRule.of, Val.renumber_closure, Closure.binder_renumber, if_neg hc]
            using hswitch
      | type | neutral | glued | pair | nat => exact hswitch
  | _ =>
    cases ty with
    | closure c => simpa [CheckRule.of] using hswitch
    | type | neutral | glued | pair | nat => exact hswitch

section

variable {k : Checker} (hk : k.Renumbered d)

include hk

theorem letBinding_tracks (fuel : Nat) (scope : Local) (erased : Bool) (ty : Option Surface)
    (val : Surface) :
    Tracks d d (Prod.map (Term.renumber d) (Prod.map (Val.renumber d) (Term.renumber d)))
      (letBinding fuel k scope erased ty val)
        (letBinding fuel k (scope.renumber d) erased ty val) := by
  cases ty with
  | some ty =>
    refine (hk.check scope.enterType ty .type).bind fun ty =>
      (Tracks.evalIn fuel scope ty).bind fun vty => ?_
    rw [← Local.enterIf_renumber]
    exact (hk.check (scope.enterIf erased) val vty).bind fun val => .pure rfl
  | none =>
    simp only [letBinding, Local.size_renumber]
    rw [← Local.enterIf_renumber]
    refine (hk.synth (scope.enterIf erased) val).bind fun r => ?_
    exact (Tracks.quote fuel scope.size r.2).bind fun ty => .pure rfl

theorem checkPair_tracks (fuel : Nat) (scope : Local) (a b : Surface) (sigma : Closure) (ty : Val) :
    Tracks d d (Term.renumber d) (checkPair fuel k scope a b sigma ty)
      (checkPair fuel k (scope.renumber d) a b (sigma.renumber d) (ty.renumber d)) := by
  simp only [checkPair, Local.size_renumber, Closure.binder_renumber, ← Local.enterIf_renumber]
  refine (hk.check (scope.enterIf sigma.binder.erased) a sigma.dom).bind fun a => ?_
  refine (Tracks.evalIn fuel scope a).bind fun va => (Tracks.apply fuel sigma va).bind fun bty => ?_
  exact (hk.check scope b bty).bind fun b => (Tracks.quote fuel scope.size ty).bind
    fun s => .pure rfl

theorem checkLam_tracks (fuel : Nat) (scope : Local) (icit : Icit) (x : Name) (body : Surface)
    (pi : Closure) : Tracks d d (Term.renumber d) (checkLam fuel k scope icit x body pi)
      (checkLam fuel k (scope.renumber d) icit x body (pi.renumber d)) := by
  simp only [checkLam, Local.size_renumber, Closure.binder_renumber,
    Closure.dom_renumber, ← Local.bind_renumber]
  refine (Tracks.enter fuel pi scope.size).bind fun bty => (hk.check _ body bty).bind fun body => ?_
  exact (Tracks.quote fuel scope.size pi.dom).bind fun dom => .pure rfl

theorem insertLam_tracks (fuel : Nat) (scope : Local) (tm : Surface) (pi : Closure) :
    Tracks d d (Term.renumber d) (insertLam fuel k scope tm pi)
      (insertLam fuel k (scope.renumber d) tm (pi.renumber d)) := by
  simp only [insertLam, Local.size_renumber, Closure.binder_renumber,
    Closure.dom_renumber, ← Local.bind_renumber]
  refine (Tracks.enter fuel pi scope.size).bind fun bty => (hk.check _ tm bty).bind fun body => ?_
  exact (Tracks.quote fuel scope.size pi.dom).bind fun dom => .pure rfl

theorem checkLet_tracks (fuel : Nat) (scope : Local) (erased : Bool) (x : Name)
    (ty : Option Surface) (val body : Surface) (expected : Val) :
    Tracks d d (Term.renumber d) (checkLet fuel k scope erased x ty val body expected)
      (checkLet fuel k (scope.renumber d) erased x ty val body (expected.renumber d)) := by
  refine (letBinding_tracks hk fuel scope erased ty val).bind fun r => ?_
  refine (Tracks.evalIn fuel scope r.2.2).bind fun v => ?_
  exact (hk.check (scope.define x r.2.1 erased v) body expected).bind fun body => .pure rfl

include hg in
theorem checkBy_tracks (fuel : Nat) (scope : Local) (tm : Surface) (ty : Val) (rule : CheckRule) :
    Tracks d d (Term.renumber d) (checkBy fuel su k scope tm ty rule)
      (checkBy fuel su k (scope.renumber d) tm (ty.renumber d) (rule.renumber d)) := by
  cases rule with
  | typeInType => exact .pure rfl
  | hole name search => exact elaborateHole_tracks scope name search ty
  | pair a b sigma => exact checkPair_tracks hk fuel scope a b sigma ty
  | lam icit x body pi => exact checkLam_tracks hk fuel scope icit x body pi
  | insertLam pi => exact insertLam_tracks hk fuel scope tm pi
  | letIn erased x lty val body => exact checkLet_tracks hk fuel scope erased x lty val body ty
  | switch => exact (hk.synth scope tm).bind fun r => subsume_tracks hg fuel scope r.1 r.2 ty

include hg in
/-- One step of checking tracks when the recursive calls do. -/
theorem checkStep_tracks (fuel : Nat) (scope : Local) (tm : Surface) (ty : Val) :
    Tracks d d (Term.renumber d) (checkStep fuel su k scope tm ty)
      (checkStep fuel su k (scope.renumber d) tm (ty.renumber d)) := by
  cases tm with
  | spanned span t => exact .mapError (Error.locate_renumber span) (hk.check scope t ty)
  | _ =>
    refine (Tracks.emitWith _ _).bind fun _ => ?_
    refine Tracks.bind (f := id) (.ite (Tracks.emitWith _ _) (.pure rfl)) fun _ => ?_
    refine (Tracks.force fuel ty).bind fun v => ?_
    rw [CheckRule.of_renumber]
    exact checkBy_tracks hg hk fuel scope _ ty _

/-! ## Synthesis -/

omit hk in
include hg in
theorem synthVar_tracks (scope : Local) (x : Name) :
    Tracks d d (renumberTyped d) (synthVar su scope x) (synthVar su (scope.renumber d) x) := by
  simp only [synthVar, Local.lookup_renumber]
  cases scope.lookup x with
  | some r => exact .ite (.refuse rfl) (.pure rfl)
  | none =>
    dsimp only [Option.map_none]
    cases hx : su.globals.find? x with
    | some e =>
      refine .ite (.refuse rfl) (.pure ?_)
      exact congrArg (Prod.mk _) (hg.find?_ty_renumber d hx).symm
    | none =>
      dsimp only
      cases Prim.ofName? x.text with
      | some p => exact .pure (congrArg (Prod.mk _) p.type_renumber.symm)
      | none => exact .refuse rfl

theorem synthBinderType_tracks (fuel : Nat) (scope : Local) (kind : BinderKind)
    (erased : Bool) (x : Name) (dom body : Surface) :
    Tracks d d (renumberTyped d) (synthBinderType fuel k scope kind erased x dom body)
      (synthBinderType fuel k (scope.renumber d) kind erased x dom body) := by
  simp only [synthBinderType, ← Local.enterType_renumber]
  refine (hk.check scope.enterType dom .type).bind fun dom => ?_
  refine (Tracks.evalIn fuel scope.enterType dom).bind fun vdom => ?_
  rw [← Local.bind_renumber]
  exact (hk.check _ body .type).bind fun body => .pure rfl

theorem synthLam_tracks (fuel : Nat) (scope : Local) (icit : Icit) (erased : Bool) (x : Name)
    (dom body : Surface) :
    Tracks d d (renumberTyped d) (synthLam fuel k scope icit erased x dom body)
      (synthLam fuel k (scope.renumber d) icit erased x dom body) := by
  refine (hk.check scope.enterType dom .type).bind fun dom =>
    (Tracks.evalIn fuel scope dom).bind fun vdom => ?_
  simp only [← Local.bind_renumber, Local.size_renumber]
  refine (hk.synth _ body).bind fun r => (Tracks.quote fuel _ r.2).bind fun bty => ?_
  exact (Tracks.evalIn fuel scope (.bind ⟨.pi icit, x, erased⟩ dom bty)).bind fun pi => .pure rfl

theorem synthLet_tracks (fuel : Nat) (scope : Local) (erased : Bool) (x : Name)
    (ty : Option Surface) (val body : Surface) :
    Tracks d d (renumberTyped d) (synthLet fuel k scope erased x ty val body)
      (synthLet fuel k (scope.renumber d) erased x ty val body) := by
  refine (letBinding_tracks hk fuel scope erased ty val).bind fun r => ?_
  refine (Tracks.evalIn fuel scope r.2.2).bind fun v => ?_
  exact (hk.synth (scope.define x r.2.1 erased v) body).bind fun r => .pure rfl

theorem synthPair_tracks (fuel : Nat) (scope : Local) (a b : Surface) :
    Tracks d d (renumberTyped d) (synthPair fuel k scope a b)
      (synthPair fuel k (scope.renumber d) a b) := by
  simp only [synthPair, Local.size_renumber]
  refine (hk.synth scope a).bind fun ra => (hk.synth scope b).bind fun rb => ?_
  refine (Tracks.quote fuel scope.size ra.2).bind fun dom => ?_
  refine (Tracks.quote fuel (scope.size + 1) rb.2).bind fun cod => ?_
  exact (Tracks.evalIn fuel scope (.bind ⟨.sigma, .underscore, false⟩ dom cod)).bind
    fun s => .pure rfl

include hg in
theorem synthApp_tracks (fuel : Nat) (scope : Local) (f : Term) (fty : Val) (icit : Icit)
    (x : Surface) : Tracks d d (renumberTyped d) (synthApp fuel su k scope f fty icit x)
      (synthApp fuel su k (scope.renumber d) (f.renumber d) (fty.renumber d) icit x) := by
  induction fuel generalizing f fty with
  | zero => exact .fault _
  | succ fuel ih =>
    refine (Tracks.emitWith _ _).bind fun _ => (Tracks.force fuel fty).bind fun v => ?_
    cases v with
    | closure c =>
      rw [Val.renumber_closure]
      refine .ite ?_ (.ite ?_ (.ite (.refuseText (fun _ => rfl) fuel scope fty) ?_))
      · refine (Tracks.newMeta scope).bind fun m => (Tracks.evalIn fuel scope m).bind fun v => ?_
        exact (Tracks.apply fuel c v).bind fun rest => ih (.app f .impl m) rest
      · rw [← Local.enterIf_renumber]
        refine (hk.check _ x c.dom).bind fun x => (Tracks.evalIn fuel scope x).bind fun v => ?_
        exact (Tracks.apply fuel c v).bind fun ty => .pure rfl
      · exact .refuseClosure (fun _ => rfl) fuel scope c
    | neutral h sp =>
      cases h with
      | metavar m =>
        refine (freshPi_tracks fuel scope .underscore icit false).bind fun pi => ?_
        exact (unifyIn_tracks hg fuel scope (.neutral (.metavar m) sp) pi).bind fun _ => ih f pi
      | var | prim => exact .refuseText (fun _ => rfl) fuel scope _
    | type | glued | pair | nat => exact .refuseText (fun _ => rfl) fuel scope _

/-! ### Projections -/

omit hk

theorem sndType_tracks (fuel : Nat) (scope : Local) (term : Term) (sigma : Closure) :
    Tracks d d (Val.renumber d) (sndType fuel scope term sigma)
      (sndType fuel (scope.renumber d) (term.renumber d) (sigma.renumber d)) :=
  (Tracks.evalIn fuel scope (.proj term .fst)).bind fun fst => Tracks.apply fuel sigma fst

theorem projectLast_tracks (fuel : Nat) (scope : Local) (field : Field) (i : Nat) (term : Term)
    (ty v : Val) : Tracks d d (renumberTyped d) (projectLast fuel scope field i term ty v)
      (projectLast fuel (scope.renumber d) field i (term.renumber d) (ty.renumber d)
        (v.renumber d)) := by
  refine .ite (.refuseText (fun _ => rfl) fuel scope v) (.ite (.pure rfl) ?_)
  exact .refuseText (fun _ => rfl) fuel scope ty

theorem project_tracks (fuel : Nat) (scope : Local)
    (field : Field) (i : Nat) (term : Term) (ty : Val) :
    Tracks d d (renumberTyped d) (project fuel scope field i term ty)
      (project fuel (scope.renumber d) field i (term.renumber d) (ty.renumber d)) := by
  induction fuel generalizing i term ty with
  | zero => exact .fault _
  | succ fuel ih =>
    refine (Tracks.force fuel ty).bind fun v => ?_
    have hlast := projectLast_tracks (d := d) fuel scope field i term ty v
    cases v with
    | closure c =>
      rw [Val.renumber_closure] at hlast ⊢
      have hsnd := sndType_tracks (d := d) fuel scope term c
      refine .ite hlast
        (.ite (hsnd.bind fun ty => .pure rfl) (.ite (.ite (.refuse rfl) (.pure rfl)) ?_))
      exact hsnd.bind fun ty => ih (i + 1) (.proj term .snd) ty
    | type | neutral | glued | pair | nat => exact hlast

/-! ### Eliminators -/

theorem defaultMotive_tracks (fuel : Nat) (scope : Local) (ty : Val) :
    Tracks d d (Term.renumber d) (defaultMotive fuel scope ty)
      (defaultMotive fuel (scope.renumber d) (ty.renumber d)) := by
  induction fuel generalizing scope ty with
  | zero => exact .fault _
  | succ fuel ih =>
    simp only [defaultMotive, Local.size_renumber]
    refine (Tracks.force fuel ty).bind fun v => ?_
    cases v with
    | closure c =>
      rw [Val.renumber_closure]
      refine (Tracks.quote fuel scope.size c.dom).bind fun dom =>
        (Tracks.enter fuel c scope.size).bind fun rest => ?_
      exact (ih (scope.define c.binder.name c.dom false (.fresh scope.size)) rest).bind
        fun t => .pure rfl
    | type | neutral | glued | pair | nat => exact Tracks.newMeta scope

include hg in
theorem scrutEquation_tracks (fuel : Nat) (scope : Local) (ty : Val) :
    Tracks d d (Equation.renumber d) (scrutEquation fuel su scope ty)
      (scrutEquation fuel su (scope.renumber d) (ty.renumber d)) := by
  refine (Tracks.force fuel ty).bind fun v => ?_
  rw [Equation.ofType?_renumber]
  cases Equation.ofType? v with
  | some q => exact (unifyIn_tracks hg fuel scope q.lhsTy q.rhsTy).bind fun _ => .pure rfl
  | none =>
    refine (Tracks.newMeta scope).bind fun side => (Tracks.newMeta scope).bind fun lhs => ?_
    refine (Tracks.newMeta scope).bind fun rhs => (Tracks.evalIn fuel scope side).bind
      fun sideTy => ?_
    refine (Tracks.evalIn fuel scope lhs).bind fun lhs =>
      (Tracks.evalIn fuel scope rhs).bind fun rhs => ?_
    exact (unifyIn_tracks hg fuel scope ty (Equation.type ⟨sideTy, sideTy, lhs, rhs⟩)).bind
      fun _ => .pure rfl

include hk

include hg in
theorem elaborateScrut_tracks (fuel : Nat) (scope : Local) (e : Eliminator) (scrut : Surface) :
    Tracks d d (Prod.map (Term.renumber d) (Option.map (Equation.renumber d)))
      (elaborateScrut fuel su k scope e scrut)
        (elaborateScrut fuel su k (scope.renumber d) e scrut) := by
  unfold elaborateScrut
  cases he : e.scrutTy? with
  | some ty =>
    have hcheck := hk.check scope scrut ty
    rw [e.scrutTy?_renumber he] at hcheck
    exact hcheck.bind fun t => .pure rfl
  | none =>
    refine (hk.synth scope scrut).bind fun r => ?_
    exact (scrutEquation_tracks hg fuel scope r.2).bind fun q => .pure rfl

theorem elaborateMotive_tracks (fuel : Nat) (scope : Local) (motive : Option Surface)
    (motiveTy : Val) : Tracks d d (Term.renumber d) (elaborateMotive fuel k scope motive motiveTy)
      (elaborateMotive fuel k (scope.renumber d) motive (motiveTy.renumber d)) := by
  cases motive with
  | some m => exact hk.check scope.enterType m motiveTy
  | none => exact defaultMotive_tracks fuel scope.enterType motiveTy

theorem checkAll_tracks (scope : Local) (tms : List Surface) (tys : List Val) :
    Tracks d d (List.map (Term.renumber d)) (checkAll (k.check scope) tms tys)
      (checkAll (k.check (scope.renumber d)) tms (tys.map (Val.renumber d))) := by
  induction tms generalizing tys with
  | nil => exact .pure rfl
  | cons tm tms ih =>
    cases tys with
    | nil => exact .pure rfl
    | cons ty tys => exact (hk.check scope tm ty).bind fun t => (ih tys).bind fun ts => .pure rfl

include hg in
theorem synthElim_tracks (fuel : Nat) (scope : Local) (e : Eliminator) (motive : Option Surface)
    (scrut : Surface) (cases : List Surface) :
    Tracks d d (renumberTyped d) (synthElim fuel su k scope e motive scrut cases)
      (synthElim fuel su k (scope.renumber d) e motive scrut cases) := by
  refine .ite (.refuse rfl) ?_
  refine (elaborateScrut_tracks hg hk fuel scope e scrut).bind fun r => ?_
  refine (Tracks.evalIn fuel scope r.1).bind fun vscrut => ?_
  refine (Tracks.lift (e.motiveTy_renumber r.2)).bind fun motiveTy => ?_
  refine (elaborateMotive_tracks hk fuel scope motive motiveTy).bind fun motive => ?_
  refine (Tracks.evalIn fuel scope motive).bind fun vmotive => ?_
  refine (Tracks.lift (e.signature_renumber vmotive vscrut r.2)).bind fun sig => ?_
  refine (checkAll_tracks hk scope cases sig.caseTys).bind fun cases => .pure ?_
  simp [renumberTyped, Signature.renumber]

/-! ## The two directions -/

include hg in
theorem synthForm_tracks (fuel : Nat) (scope : Local) (tm : Surface) :
    Tracks d d (renumberTyped d) (synthForm fuel su k scope tm)
      (synthForm fuel su k (scope.renumber d) tm) := by
  cases tm with
  | spanned span t => exact .mapError (Error.locate_renumber span) (hk.synth scope t)
  | type => exact .pure rfl
  | nat n => exact .pure rfl
  | prim p => exact .pure (congrArg (Prod.mk _) p.type_renumber.symm)
  | var x => exact synthVar_tracks hg scope x
  | hole name search =>
    refine (newMetaVal_tracks fuel scope).bind fun ty => ?_
    exact (elaborateHole_tracks scope name search ty).bind fun t => .pure rfl
  | app f icit x =>
    exact (hk.synth scope f).bind fun r => synthApp_tracks hg hk fuel scope r.1 r.2 icit x
  | abs icit erased x dom body =>
    cases dom with
    | some dom => exact synthLam_tracks hk fuel scope icit erased x dom body
    | none =>
      refine (freshPi_tracks fuel scope x icit erased).bind fun pi => ?_
      exact (hk.check scope _ pi).bind fun t => .pure rfl
  | letIn erased x ty val body => exact synthLet_tracks hk fuel scope erased x ty val body
  | pi icit erased x dom body =>
    exact synthBinderType_tracks hk fuel scope (.pi icit) erased x dom body
  | sigma erased x dom body => exact synthBinderType_tracks hk fuel scope .sigma erased x dom body
  | pair a b => exact synthPair_tracks hk fuel scope a b
  | proj x field => exact (hk.synth scope x).bind fun r => project_tracks fuel scope field 0 r.1 r.2
  | ann x ty =>
    refine (hk.check scope.enterType ty .type).bind fun ty =>
      (Tracks.evalIn fuel scope ty).bind fun vty => ?_
    exact (hk.check scope x vty).bind fun t => .pure rfl
  | elim e motive scrut cases => exact synthElim_tracks hg hk fuel scope e motive scrut cases

include hg in
/-- One step of synthesis tracks when the recursive calls do. -/
theorem synthStep_tracks (fuel : Nat) (scope : Local) (tm : Surface) :
    Tracks d d (renumberTyped d) (synthStep fuel su k scope tm)
      (synthStep fuel su k (scope.renumber d) tm) := by
  cases tm with
  | spanned span t => exact .mapError (Error.locate_renumber span) (hk.synth scope t)
  | _ =>
    refine Tracks.bind (f := id) (.ite (Tracks.emitWith _ _) (.pure rfl)) fun _ => ?_
    refine (synthForm_tracks hg hk fuel scope _).bind fun r => ?_
    exact (Tracks.emitWith _ _).bind fun _ => .pure rfl

end

/-- Both directions of elaboration take the same steps at other numbers. -/
theorem checker_renumbered (hg : su.globals.MetaFree) (fuel : Nat) :
    Checker.Renumbered d ⟨check fuel su, synth fuel su⟩ := by
  induction fuel with
  | zero => exact ⟨fun _ _ _ => .fault _, fun _ _ => .fault _⟩
  | succ fuel ih => exact ⟨checkStep_tracks hg ih fuel, synthStep_tracks hg ih fuel⟩

end

end Elaborator
