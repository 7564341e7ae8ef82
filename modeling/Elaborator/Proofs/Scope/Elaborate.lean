import Elaborator.Proofs.Scope.Check
import Elaborator.Session

/-! # Scope safety of elaboration

`Session.elaborateAs_inScope` puts the parts together. Over definitions whose values and types are
closed and free of metavariables, a term is elaborated without ever meeting a variable out of scope,
not even in a trace line, and the term and the type that come out are closed and free of
metavariables.

The elaboration itself works with bounds that allow all metavariables. At its end the solved ones
are replaced, and what is left is checked, so that the answer is in the narrow bounds that the
definitions are in. -/

namespace Elaborator

open Elaborator.Action

namespace Bounds

def all : Bounds := ⟨fun _ => True, fun _ _ => True, False⟩

def noMetas : Bounds := ⟨fun _ => False, fun _ _ => True, False⟩

theorem noMetas_le_all : noMetas.Le all := ⟨fun _ h => h.elim, fun _ _ h => h, id⟩

end Bounds

/-- No variable is free and no metavariable occurs. -/
structure Term.Ground (t : Term) : Prop where
  closed : t.Scoped 0
  metaFree : t.metaOccurrences = []

/-- A closed term without metavariables is a ground one. -/
theorem Term.within_noMetas {t : Term} : t.Within .noMetas 0 ↔ t.Ground := by
  constructor
  · rintro ⟨hs, hm⟩
    exact ⟨hs, List.eq_nil_iff_forall_not_mem.2 hm⟩
  · rintro ⟨hs, hm⟩
    exact ⟨hs, List.eq_nil_iff_forall_not_mem.1 hm⟩

def Val.Ground (v : Val) : Prop := v.Within .noMetas noLevels

def Globals.Ground (g : Globals) : Prop := ∀ e ∈ g.map.entries, e.2.val.Ground ∧ e.2.ty.Ground

theorem Globals.Ground.empty : Globals.empty.Ground := List.forall_mem_nil _

/-- What the environment of the globals holds is the value of a definition. -/
theorem Globals.global?_env {g : Globals} {x : Name} {v : Val} (h : g.env.global? x = some v) :
    ∃ d, g.find? x = some d ∧ d.val = v := by
  rw [Globals.env_global?] at h
  exact Option.map_eq_some_iff.1 h

/-- Ground definitions are within all bounds that allow terms without metavariables. -/
theorem Globals.Ground.within {g : Globals} (hg : g.Ground) {B : Bounds}
    (hB : Bounds.noMetas.Le B) : g.Within B where
  env :=
    { locals := List.forall_mem_nil _
      bound := fun _ _ _ _ => hB.globals _ _ trivial
      closed := by
        intro x _ v hv
        obtain ⟨d, hd, rfl⟩ := Globals.global?_env hv
        exact (hg (x, d) (Globals.mem_of_find? hd)).1.widen hB }
  types e he := (hg e he).2.widen hB

/-- Over such definitions, terms without free variables and metavariables have such values. -/
theorem Globals.Ground.eval_safely {g : Globals} (hg : g.Ground) {t : Term} (ht : t.Ground)
    (fuel : Nat) : Safely (t.eval fuel g.env) Val.Ground :=
  Term.eval_safely (hg.within ⟨fun _ => id, fun _ _ => id, id⟩).env (Term.within_noMetas.2 ht) fuel

/-! ## The end of an elaboration -/

theorem Term.addNew_eq_nil {seen ms : List MetaId} : addNew seen ms = [] ↔ seen = [] ∧ ms = [] := by
  induction ms generalizing seen with
  | nil => simp [addNew]
  | cons m ms ih =>
    rw [addNew, ih]
    split
    · next h =>
      have hseen : seen ≠ [] := List.ne_nil_of_mem (List.contains_iff_mem.1 h)
      simp [hseen]
    · simp

theorem Term.metas_eq_nil {t : Term} : t.metas = [] ↔ t.metaOccurrences = [] := by
  simp [Term.metas, Term.addNew_eq_nil]

section

variable {old : List Event} {L : Nat → Prop} {scope : Local}

/-- The open holes of a state in bounds can be shown. -/
theorem openHolesIn_safely {ms : MetaStore} (hms : ms.Within .all) {holes : List Hole}
    (hh : ∀ h ∈ holes, h.Within .all) (fuel : Nat) :
    Safely (openHolesIn fuel ms holes) anything := by
  induction holes with
  | nil => exact .ok trivial
  | cons h holes ih =>
    obtain ⟨hfirst, hrest⟩ := List.forall_mem_cons.1 hh
    obtain ⟨L, hs, hty⟩ := hfirst.scope
    refine (Term.zonk_safely hms.solvedWithin fuel ⟨hs.env, hs.lt_size⟩ hfirst.term).bind
      fun t _ => ?_
    refine .ite (fun _ => ih hrest) fun _ => ?_
    refine (Local.text_safely hms.solvedWithin hs hty fuel).bind fun _ _ => ?_
    exact (ih hrest).bind fun _ _ => .pure trivial

/-- What an elaboration gives: a closed term without metavariables, and the value of another such
term, its type. -/
structure Elaborated (g : Globals) (r : Term × Val) : Prop where
  term : r.1.Ground
  type : ∃ (q : Term) (fuel : Nat), q.Ground ∧ q.eval fuel g.env = .ok r.2

/-- A term and its type that are in scope at the end of an elaboration are given back without
metavariables. -/
theorem finish_safe {g : Globals} (hg : g.Ground) (erased : Bool) {term : Term} {ty : Val}
    (hterm : term.Within .all 0) (hty : ty.Within .all noLevels) (fuel : Nat) :
    Safe .all (Hole.Within .all) old (finish fuel ((Local.empty g).enterIf erased) term ty)
      (Elaborated g) := by
  have hs := (Local.Within.empty (hg.within Bounds.noMetas_le_all)).enterIf erased
  have hsize : ((Local.empty g).enterIf erased).size = 0 := Local.size_enterIf _ _
  have henv : ((Local.empty g).enterIf erased).env = g.env := by cases erased <;> rfl
  have hzero : ∀ l, noLevels l → l < 0 := fun _ hl => hl.elim
  refine .bind .metas fun ms hms => .ite (fun _ => .refuse _) fun _ => ?_
  rw [henv, hsize]
  refine .bind
    (.lift (Term.zonk_safely hms.solvedWithin fuel ⟨henv ▸ hs.env, fun _ hl => hl.elim⟩ hterm))
    fun term hterm => ?_
  refine .bind (.quote hty hzero fuel) fun ty hty => ?_
  refine .bind (.bind .get fun s hw => .lift (openHolesIn_safely hw.metas hw.holes fuel))
    fun holes _ => ?_
  refine .ite (fun _ => .refuse _) fun _ => .ite (fun _ => .refuse _) fun hnone => ?_
  -- Neither the term nor the type read back mentions a metavariable, or the last test would have
  -- failed.
  have hnil : Term.addNew term.metas ty.metas = [] := by simpa using hnone
  obtain ⟨hmterm, hmty⟩ := Term.addNew_eq_nil.1 hnil
  have hgterm : term.Ground := ⟨hterm.1, Term.metas_eq_nil.1 hmterm⟩
  have hgty : ty.Ground := ⟨hty.1, Term.metas_eq_nil.1 hmty⟩
  refine .bind (.lift ⟨fun _ hv => hv, (hg.eval_safely hgty fuel).fault⟩) fun v hv => ?_
  exact .pure ⟨hgterm, ty, fuel, hgty, hv⟩

/-- An elaboration forgets the metavariables of the one before, so nothing is asked of the state it
starts in. -/
theorem elaborate_ends (su : Setup) (hg : su.globals.Ground) (fuel : Nat) (erased : Bool)
    (tm : Surface) (s : State) :
    (∀ e t, elaborate fuel su erased tm s = .error e t →
      t.Within .all (Hole.Within .all) s.log ∧ ¬ e.OutOfScope) ∧
    ∀ r t, elaborate fuel su erased tm s = .ok r t →
      t.Within .all (Hole.Within .all) s.log ∧ Elaborated su.globals r := by
  have hgw := hg.within Bounds.noMetas_le_all
  have hall : ∀ m, Bounds.all.metas m := fun _ => trivial
  have hs := (Local.Within.empty hgw).enterIf erased
  refine safe_of_modify ?_ ⟨.reset _, List.forall_mem_nil _, fun _ h => .inl h⟩
  refine .bind (synth_safe hall hgw hs fuel tm) fun r hr => ?_
  rw [Local.size_enterIf] at hr
  refine .bind (retryAll_safe hgw.env fuel) fun _ _ =>
    .bind (searchInstances_safe hall hgw fuel) fun _ _ => ?_
  exact .bind (retryAll_safe hgw.env fuel) fun _ _ => finish_safe hg erased hr.1 hr.2 fuel

end

/-! ## Sessions -/

/-- A value that is closed and free of metavariables is read back as such a term, whatever is known
about metavariables. -/
theorem Val.Ground.quote_safely {v : Val} (hv : v.Ground) (fuel : Nat) (ms : MetaStore)
    (full : Bool) : Safely (v.quote fuel ms full 0) Term.Ground := by
  have hms : ms.SolvedWithin .noMetas := fun _ _ h => h.elim
  exact (Val.quote_safely hms hv (fun _ hl => hl.elim) fuel full).imp fun _ ht =>
    Term.within_noMetas.1 ht

/-- **Scope safety.** Over definitions whose values and types are closed and free of metavariables,
elaborating a term never fails because of a variable out of scope, and neither does writing the
trace line of an event on the way. If there is an answer, the term is closed, its type is read back
at size zero as a closed term without meeting a variable out of scope, and neither mentions a
metavariable. -/
theorem Session.elaborateAs_inScope (s : Session) (hg : s.globals.Ground) (fuel : Nat)
    (erased : Bool) (tm : Surface) :
    (∀ e t, elaborateAs fuel erased tm s = .error e t →
      ¬ e.OutOfScope ∧ ∀ event ∈ t.log, event ∈ s.log ∨ event.Shown) ∧
    ∀ term ty t, elaborateAs fuel erased tm s = .ok (term, ty) t →
      (term.Scoped 0 ∧ term.metaOccurrences = []) ∧
      (∀ fuel ms full, Safely (ty.quote fuel ms full 0) fun q => q.Scoped 0 ∧
        q.metaOccurrences = []) ∧
      ∀ event ∈ t.log, event ∈ s.log ∨ event.Shown := by
  obtain ⟨herror, hok⟩ := elaborate_ends ⟨s.config, s.globals⟩ hg fuel erased tm
    { metas := s.metas, holes := [], log := s.log }
  have hrun : elaborateAs fuel erased tm s =
      Session.run (elaborate fuel ⟨s.config, s.globals⟩ erased tm) s := rfl
  rw [hrun, Session.run]
  cases hx : elaborate fuel ⟨s.config, s.globals⟩ erased tm
    { metas := s.metas, holes := [], log := s.log } with
  | error e u =>
    obtain ⟨hw, he⟩ := herror e u hx
    refine ⟨?_, fun _ _ _ h => (nomatch h)⟩
    rintro _ _ ⟨⟩
    exact ⟨he, hw.log⟩
  | ok r u =>
    obtain ⟨hw, hterm, q, f, hq, hval⟩ := hok r u hx
    have hty : r.2.Ground := (hg.eval_safely hq f).answer r.2 hval
    refine ⟨fun _ _ h => (nomatch h), ?_⟩
    rintro term ty _ ⟨⟩
    refine ⟨⟨hterm.closed, hterm.metaFree⟩, fun fuel ms full => ?_, hw.log⟩
    exact (hty.quote_safely fuel ms full).imp fun _ hq => ⟨hq.closed, hq.metaFree⟩

/-- Over the definition `f : Nat -> Nat = \x. x`, the term `\x. f x : _ -> Nat` is elaborated. Its
hole is solved, and the answer is closed. -/
theorem Session.elaborateAs_inScope_hole :
    let f : Definition :=
      { term := .lam .expl "x" (.prim .nat) (.var ⟨0⟩)
        val := .closure ⟨⟨.lam .expl, "x", false⟩, .prim .nat, .empty, .var ⟨0⟩⟩
        ty := piVal .expl "x" (.prim .nat) [] (.prim .nat)
        erased := false
        erasedTerm := none }
    let s : Session := { Session.new {} with globals := .insert .empty "f" f }
    let tm : Surface := .ann (.abs .expl false "x" none (.app (.var "f") .expl (.var "x")))
      (.pi .expl false "x" (.hole none false) (.prim .nat))
    s.globals.Ground ∧ ∃ term ty t, elaborateAs 12 false tm s = .ok (term, ty) t ∧
      (term.Scoped 0 ∧ term.metaOccurrences = []) ∧
      ∀ q, ty.quote 12 t.metas false 0 = .ok q → q.Scoped 0 ∧ q.metaOccurrences = [] := by
  intro f s tm
  have hground : s.globals.Ground := by
    refine List.forall_mem_singleton.2 ⟨?_, ?_⟩
    · refine Val.within_closure.2 ⟨Val.within_prim, ⟨List.forall_mem_nil _, ?_, ?_⟩, ?_⟩
      · exact fun _ _ _ h => nomatch h
      · exact fun _ _ _ h => nomatch h
      · exact Term.within_var.2 (Nat.lt_succ_self 0)
    · exact piVal_within Val.within_prim (List.forall_mem_nil _) Term.within_prim
  have hanswers : (match elaborateAs 12 false tm s with
      | .ok _ _ => true
      | .error _ _ => false) = true := by decide +kernel
  refine ⟨hground, ?_⟩
  cases hrun : elaborateAs 12 false tm s with
  | error e t =>
    rw [hrun] at hanswers
    cases hanswers
  | ok r t =>
    obtain ⟨hterm, hty, -⟩ := (elaborateAs_inScope s hground 12 false tm).2 r.1 r.2 t hrun
    exact ⟨r.1, r.2, t, rfl, hterm, (hty 12 t.metas false).answer⟩

end Elaborator
