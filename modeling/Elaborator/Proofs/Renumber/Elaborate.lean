import Elaborator.Proofs.Renumber.Check

/-! # Whole terms at different numbers

Instance search tries candidates in an order that does not depend on numbers, so it finds the same
instances. An elaboration forgets all metavariables before it begins, and it ends with a term and a
type that mention none. So what it answers is the same whatever was known before and whatever the
next number is (`elaborate_ended`). -/

namespace Elaborator

open Elaborator.Action

/-! ## Instance search -/

def Candidate.renumber (d : Nat) (c : Candidate) : Candidate := ⟨c.term.renumber d, c.ty.renumber d⟩

section

variable {d : Nat} {su : Setup} (hg : su.globals.MetaFree)

theorem Local.candidates_renumber (config : Config) (scope : Local) :
    (scope.renumber d).candidates config =
      (scope.candidates config).map (Candidate.renumber d) := by
  simp only [Local.candidates, Local.entries_renumber, List.zipIdx_map, List.filterMap_map,
    List.map_filterMap]
  refine List.filterMap_congr fun e _ => ?_
  obtain ⟨e, i⟩ := e
  dsimp only
  rw [apply_ite (Option.map (Candidate.renumber d))]
  rfl

theorem Globals.MetaFree.candidates_renumber {g : Globals} (h : g.MetaFree) (config : Config)
    (inType : Bool) :
    (g.candidates config inType).map (Candidate.renumber d) = g.candidates config inType := by
  rw [Globals.candidates, List.map_filterMap]
  refine List.filterMap_congr fun e he => ?_
  obtain ⟨x, e⟩ := e
  have hty : e.ty.renumber d = e.ty :=
    h.find?_ty_renumber d (Globals.find?_of_mem_definitions (List.mem_reverse.1 he))
  dsimp only
  split
  · rw [Option.map_some, Candidate.renumber, hty]
    rfl
  · rfl

include hg

/-- The candidates of a renumbered scope are the renumbered candidates. -/
theorem candidates_renumber (scope : Local) :
    candidates su (scope.renumber d) = (candidates su scope).map (Candidate.renumber d) := by
  rw [candidates, candidates, List.map_append, hg.candidates_renumber, Local.candidates_renumber,
    Local.inType_renumber]

theorem tryDirect_tracks (fuel : Nat) (scope : Local) (goal : Val) (c : Candidate) :
    Tracks d d (Option.map (Term.renumber d)) (tryDirect fuel su scope goal c)
      (tryDirect fuel su (scope.renumber d) (goal.renumber d) (c.renumber d)) := by
  rw [tryDirect, tryDirect, Local.size_renumber]
  exact .attempt ((unify_tracks hg fuel .solving scope.size c.ty goal).bind fun _ => .pure rfl)

theorem tryApplied_tracks (fuel : Nat) (scope : Local) (goal : Val) (c : Candidate) :
    Tracks d d (Option.map (Term.renumber d)) (tryApplied fuel su scope goal c)
      (tryApplied fuel su (scope.renumber d) (goal.renumber d) (c.renumber d)) := by
  simp only [tryApplied, Local.size_renumber]
  refine .attempt ((instantiate_tracks fuel scope c.ty).bind fun r => ?_)
  obtain ⟨ty, args⟩ := r
  cases args with
  | nil => exact .pure rfl
  | cons arg args =>
    refine (unify_tracks hg fuel .solving scope.size ty goal).bind fun _ => .pure ?_
    rw [Option.map_some, Term.renumber_applyImplicits]
    rfl

/-- Applying a candidate tracks when the search for its argument does. -/
theorem tryFunction_tracks (fuel : Nat) {search search' : Val → Action (Option Term)}
    (hsearch : ∀ v, Tracks d d (Option.map (Term.renumber d)) (search v) (search' (v.renumber d)))
    (scope : Local) (goal : Val) (c : Candidate) :
    Tracks d d (Option.map (Term.renumber d)) (tryFunction fuel su search scope goal c)
      (tryFunction fuel su search' (scope.renumber d) (goal.renumber d) (c.renumber d)) := by
  simp only [tryFunction, Local.size_renumber]
  refine .attempt ((instantiate_tracks fuel scope c.ty).bind fun r => ?_)
  obtain ⟨ty, args⟩ := r
  refine (Tracks.force fuel ty).bind fun v => ?_
  cases v with
  | closure pi =>
    rw [Val.renumber_closure]
    refine .ite ?_ (.pure rfl)
    refine (newMetaVal_tracks fuel scope).bind fun arg =>
      (Tracks.apply fuel pi arg).bind fun cod => ?_
    refine (unify_tracks hg fuel .solving scope.size cod goal).bind fun _ =>
      (hsearch pi.dom).bind fun w => ?_
    cases w with
    | none => exact .pure rfl
    | some w =>
      refine (Tracks.evalIn fuel scope w).bind fun v => ?_
      refine (unify_tracks hg fuel .solving scope.size arg v).bind fun _ => .pure ?_
      rw [Option.map_some, Term.renumber, Term.renumber_applyImplicits]
      rfl
  | type | neutral | glued | pair | nat => exact .pure rfl

theorem tryCandidate_tracks (fuel : Nat) {search search' : Val → Action (Option Term)}
    (hsearch : ∀ v, Tracks d d (Option.map (Term.renumber d)) (search v) (search' (v.renumber d)))
    (scope : Local) (goal : Val) (c : Candidate) :
    Tracks d d (Option.map (Term.renumber d)) (tryCandidate fuel su search scope goal c)
      (tryCandidate fuel su search' (scope.renumber d) (goal.renumber d) (c.renumber d)) := by
  refine (tryDirect_tracks hg fuel scope goal c).bind fun direct => ?_
  cases direct with
  | some t => exact .pure rfl
  | none =>
    refine (tryApplied_tracks hg fuel scope goal c).bind fun applied => ?_
    cases applied with
    | some t => exact .pure rfl
    | none => exact tryFunction_tracks hg fuel hsearch scope goal c

omit hg in
/-- Trying candidates in turn tracks when each attempt does. -/
theorem tryCandidates_tracks {attempt attempt' : Candidate → Action (Option Term)}
    (hattempt : ∀ c,
      Tracks d d (Option.map (Term.renumber d)) (attempt c) (attempt' (c.renumber d)))
    (scope : Local) (depth : Nat) (cs : List Candidate) :
    Tracks d d (Option.map (Term.renumber d)) (tryCandidates attempt scope depth cs)
      (tryCandidates attempt' (scope.renumber d) depth (cs.map (Candidate.renumber d))) := by
  induction cs with
  | nil => exact .pure rfl
  | cons c cs ih =>
    refine (Tracks.emit _ _).bind fun _ => (hattempt c).bind fun found => ?_
    cases found with
    | some t => exact .pure rfl
    | none => exact ih

/-- The search for an instance takes the same course on a renumbered goal. -/
theorem search_tracks (fuel : Nat) (scope : Local) (depth : Nat) (goal : Val) :
    Tracks d d (Option.map (Term.renumber d)) (search fuel su scope depth goal)
      (search fuel su (scope.renumber d) depth (goal.renumber d)) := by
  induction depth generalizing goal with
  | zero => exact .pure rfl
  | succ depth ih =>
    rw [search, search, candidates_renumber hg]
    exact tryCandidates_tracks (tryCandidate_tracks hg fuel ih scope goal) scope (depth + 1) _

theorem fillHole_tracks (fuel : Nat) (hole : Hole) :
    Tracks d d id (fillHole fuel su hole) (fillHole fuel su (hole.renumber d)) := by
  refine (Tracks.evalIn fuel hole.scope hole.term).bind fun v =>
    (Tracks.force fuel v).bind fun w => ?_
  rw [Val.isMeta_renumber]
  refine .ite ?_ (.pure rfl)
  refine (search_tracks hg fuel hole.scope su.config.instanceDepth hole.ty).bind fun found => ?_
  cases found with
  | some witness =>
    refine (Tracks.emit _ _).bind fun _ => (Tracks.evalIn fuel hole.scope witness).bind fun w => ?_
    exact unifyIn_tracks hg fuel hole.scope v w
  | none => exact .refuseText (fun _ => rfl) fuel hole.scope hole.ty

/-- Searching for all instances takes the same course in a renumbered state. -/
theorem searchInstances_tracks (fuel : Nat) : Tracks d d id (searchInstances fuel su)
    (searchInstances fuel su) := by
  refine InStep.get.bind fun s s' hs => ?_
  have hholes : s'.holes.filter (·.search) = (s.holes.filter (·.search)).map (Hole.renumber d) := by
    rw [hs.holes, List.filter_map]
    rfl
  rw [hholes]
  exact Tracks.forM fun hole _ => fillHole_tracks hg fuel hole

end

/-! ## Open holes -/

/-- The same holes are open. -/
theorem openHolesIn_renumber {d : Nat} {ms ms' : MetaStore} (h : ms.Follows d ms') (fuel : Nat)
    (holes : List Hole) :
    openHolesIn fuel ms' (holes.map (Hole.renumber d)) =
      List.map (MarkedText.renumber d) <$> openHolesIn fuel ms holes := by
  induction holes with
  | nil => rfl
  | cons hole holes ih =>
    have hzonk : ((hole.renumber d).term).zonk fuel ms' (hole.renumber d).scope.env =
        Term.renumber d <$> hole.term.zonk fuel ms hole.scope.env :=
      Term.zonk_renumber h fuel _ hole.term
    have htext : (hole.renumber d).scope.text fuel ms' (hole.renumber d).ty =
        MarkedText.renumber d <$> hole.scope.text fuel ms hole.ty := by
      rw [Local.text, Local.text, ← Val.text_renumber h]
      exact congrArg (fun names => (hole.ty.renumber d).text fuel ms' names)
        hole.scope.names_renumber
    simp only [List.map_cons, openHolesIn, hzonk, htext, ih]
    cases hole.term.zonk fuel ms hole.scope.env with
    | error f => rfl
    | ok t =>
      have hopen : (t.renumber d).metas.isEmpty = t.metas.isEmpty := by
        rw [Term.metas_renumber, List.isEmpty_map]
      simp only [Except.map_ok, ok_bind, hopen]
      split
      · rfl
      · cases hole.scope.text fuel ms hole.ty with
        | error f => rfl
        | ok s => cases openHolesIn fuel ms holes <;> rfl

theorem openHoles_tracks {d k : Nat} (fuel : Nat) :
    Tracks d k (List.map (MarkedText.renumber d)) (openHoles fuel) (openHoles fuel) := by
  refine InStep.get.bind fun s s' hs => Tracks.lift ?_
  rw [hs.holes]
  exact openHolesIn_renumber hs.metas.follows fuel s.holes

/-! ## Elaboration -/

section

variable {d : Nat} {su : Setup} (hg : su.globals.MetaFree)

def SameClosed (r r' : Term × Val) : Prop := r' = r ∧ r.1.metaOccurrences = [] ∧ r.2.Fixed

/-- A term without metavariables has the same value on both sides, one that renumbering fixes. -/
theorem evalClosed_inStep (fuel : Nat) {env : Env} (henv : ∀ d, env.renumber d = env) {t : Term}
    (ht : t.metaOccurrences = []) :
    InStep d d (fun v v' => v' = v ∧ v.Fixed) (liftM (t.eval fuel env))
      (liftM (t.eval fuel env)) := by
  refine .lift ?_
  cases hv : t.eval fuel env with
  | error f => exact .inr ⟨f, rfl, rfl⟩
  | ok v => exact .inl ⟨v, v, rfl, rfl, rfl, Term.eval_fixed henv ht hv⟩

/-- The last phase of elaborating gives the same closed term on both sides. -/
theorem finish_inStep (fuel : Nat) (scope : Local)
    (hscope : ∀ d, scope.renumber d = scope) (term : Term) (ty : Val) :
    InStep d d SameClosed (finish fuel scope term ty)
      (finish fuel scope (term.renumber d) (ty.renumber d)) := by
  have henv (d : Nat) : scope.env.renumber d = scope.env := congrArg Local.env (hscope d)
  refine InStep.metas.bind fun ms ms' h => ?_
  rw [h.hasPostponed_eq, h.postponedMetas_eq]
  refine .ite (.refuse rfl) ?_
  have hzonk := term.zonk_renumber h.follows fuel scope.env
  rw [henv d] at hzonk
  refine (Tracks.lift hzonk).bind fun term => (Tracks.quote fuel scope.size ty).bind fun ty => ?_
  refine (openHoles_tracks fuel).bind fun holes => ?_
  rw [Term.metas_renumber, Term.metas_renumber, Term.addNew_map]
  dsimp only
  cases holes with
  | cons line lines => exact .refuse rfl
  | nil =>
    cases hunknown : Term.addNew term.metas ty.metas with
    | cons m ms => exact .refuse rfl
    | nil =>
      -- Nothing is left to renumber.
      obtain ⟨hterm, hty⟩ := Term.addNew_eq_nil.1 hunknown
      rw [Term.metas_eq_nil] at hterm hty
      rw [Term.renumber_of_metaFree hterm, Term.renumber_of_metaFree hty]
      exact (evalClosed_inStep fuel henv hty).bind fun v v' hv =>
        .pure ⟨congrArg _ hv.1, hterm, hv.2⟩

include hg in
/-- Two elaborations of the same term end alike, whatever was known before them. -/
theorem elaborate_ended (fuel : Nat) (erased : Bool) (tm : Surface) {s s' : State}
    (h : s'.metas.next = s.metas.next + d) :
    Ended d d SameClosed (elaborate fuel su erased tm s) (elaborate fuel su erased tm s') := by
  have hscope := hg.enterIf_empty_renumber erased
  have hsynth :=
    (checker_renumbered (d := d) hg fuel).synth ((Local.empty su.globals).enterIf erased) tm
  rw [hscope d] at hsynth
  have hretry := retryAll_tracks (k := d) (hg.env_renumber d) fuel
  -- Everything that was known is forgotten before the first step.
  have hreset : State.Moved d d { s with metas := s.metas.reset, holes := [] }
      { s' with metas := s'.metas.reset, holes := [] } := ⟨.reset s.metas s'.metas h, rfl⟩
  refine InStep.ends (hsynth.bind fun r => ?_) _ _ hreset
  refine hretry.bind fun _ => (searchInstances_tracks hg fuel).bind fun _ => hretry.bind fun _ => ?_
  exact finish_inStep fuel _ hscope r.1 r.2

end

end Elaborator
