import Elaborator.Proofs.Scope.Eval

/-! # Invariants of evaluation

A property of values that is closed under what a single step of evaluation does holds of everything
that evaluation gives. `EvalInvariant` lists these steps, one per form of a term and one per way to
use a value. The induction on the fuel is done once for all such properties.

A term has no value of its own, so a second property says which terms may be evaluated in which
environments. A third one says what is known of the terms that values are read back as
(`ReadInvariant`). -/

namespace Elaborator

/-- Each answer of a list is the answer to one of its elements. -/
theorem exists_mem_of_mapM {ε α β : Type} {f : α → Except ε β} {xs : List α} {ys : List β}
    (h : xs.mapM f = .ok ys) {y : β} (hy : y ∈ ys) : ∃ x ∈ xs, f x = .ok y := by
  induction xs generalizing ys with
  | nil =>
    cases h
    simp at hy
  | cons x xs ih =>
    rw [List.mapM_cons] at h
    obtain ⟨z, hz, h⟩ := bind_ok h
    obtain ⟨zs, hzs, h⟩ := bind_ok h
    cases h
    rcases List.mem_cons.1 hy with rfl | hy
    · exact ⟨x, List.mem_cons_self, hz⟩
    · obtain ⟨w, hw, hwy⟩ := ih hzs hy
      exact ⟨w, List.mem_cons_of_mem _ hw, hwy⟩

/-- The only value of an application is the argument. -/
theorem Elim.forall_vals_app {P : Val → Prop} {icit : Icit} {x : Val} :
    (∀ u ∈ (Elim.app icit x).vals, P u) ↔ P x :=
  List.forall_mem_singleton

/-- The values of a case analysis are the motive and the cases. -/
theorem Elim.forall_vals_cases {P : Val → Prop} {e : Eliminator} {m : Val} {cs : List Val} :
    (∀ u ∈ (Elim.cases e m cs).vals, P u) ↔ P m ∧ ∀ c ∈ cs, P c :=
  List.forall_mem_cons

/-- The parts of a term that are evaluated before the term itself is, in the same environment. -/
def Term.parts : Term → List Term
  | .app f _ x => [f, x]
  | .bind _ dom _ => [dom]
  | .pair a b s => [a, b, s]
  | .proj x _ => [x]
  | .letIn _ _ _ val _ => [val]
  | .elim _ motive scrut cases => motive :: scrut :: cases
  | _ => []

/-- A part mentions no globals but those of the whole. -/
theorem Term.globals_of_mem_parts {t u : Term} (hu : u ∈ t.parts) {x : Name} (hx : x ∈ u.globals) :
    x ∈ t.globals := by
  cases t <;> simp only [Term.parts, List.mem_cons, List.not_mem_nil, or_false] at hu <;>
    simp only [Term.globals, Term.globalsAll_eq, List.mem_append, List.mem_flatMap] <;> grind

/-- A part mentions no metavariables but those of the whole. -/
theorem Term.metaOccurrences_of_mem_parts {t u : Term} (hu : u ∈ t.parts) {m : MetaId}
    (hm : m ∈ u.metaOccurrences) : m ∈ t.metaOccurrences := by
  cases t <;> simp only [Term.parts, List.mem_cons, List.not_mem_nil, or_false] at hu <;>
    simp only [Term.metaOccurrences, Term.metaOccurrencesAll_eq, List.mem_append, List.mem_flatMap]
      <;> grind

/-- A part is in the bounds of the whole. -/
theorem Term.within_of_mem_parts {B : Bounds} {n : Nat} {t u : Term} (h : t.Within B n)
    (hu : u ∈ t.parts) : u.Within B n := by
  cases t with
  | type | var | global | metavar | prim | nat => cases hu
  | app f icit x =>
    obtain ⟨hf, hx⟩ := Term.within_app.1 h
    simp only [Term.parts, List.mem_cons, List.not_mem_nil, or_false] at hu
    rcases hu with rfl | rfl <;> assumption
  | bind b dom body =>
    obtain rfl := List.mem_singleton.1 hu
    exact (Term.within_bind.1 h).1
  | pair a b s =>
    obtain ⟨ha, hb, hs⟩ := Term.within_pair.1 h
    simp only [Term.parts, List.mem_cons, List.not_mem_nil, or_false] at hu
    rcases hu with rfl | rfl | rfl <;> assumption
  | proj x p =>
    obtain rfl := List.mem_singleton.1 hu
    exact Term.within_proj.1 h
  | letIn x erased ty val body =>
    obtain rfl := List.mem_singleton.1 hu
    exact (Term.within_letIn.1 h).2.1
  | elim e m s cs =>
    obtain ⟨hm, hs, hcs⟩ := Term.within_elim.1 h
    rcases List.mem_cons.1 hu with rfl | hu
    · exact hm
    · rcases List.mem_cons.1 hu with rfl | hu
      · exact hs
      · exact hcs u hu

/-- A property `P` of values that every step of evaluation keeps, together with a property `T` of
terms in environments that goes with it. -/
structure EvalInvariant (P : Val → Prop) (T : Env → Term → Prop) : Prop where
  type : P .type
  nat : ∀ n, P (.nat n)
  prim : ∀ p, P (.prim p)
  metavar : ∀ {env m}, T env (.metavar m) → P (.metavar m)
  var : ∀ {env i v}, T env (.var i) → env.local? i = some v → P v
  global : ∀ {env x v}, T env (.global x) → env.global? x = some v → P (.glued x [] v)
  part : ∀ {env t u}, T env t → u ∈ t.parts → T env u
  body : ∀ {env x erased ty val body v}, T env (.letIn x erased ty val body) → P v →
    T (env.push v) body
  bind : ∀ {env b dom body vdom}, T env (.bind b dom body) → P vdom →
    P (.closure ⟨b, vdom, env, body⟩)
  apply : ∀ {c x}, P (.closure c) → P x → T (c.env.push x) c.body
  pair : ∀ {a b s}, P (.pair a b s) ↔ P a ∧ P b ∧ P s
  glued : ∀ {x sp base e}, P (.glued x sp base) → (∀ u ∈ e.vals, P u) → P (.glued x (e :: sp) base)
  neutral : ∀ {h sp e}, P (.neutral h sp) → (∀ u ∈ e.vals, P u) → e.Blocked h sp →
    P (.neutral h (e :: sp))
  spine : ∀ {h sp}, P (.neutral h sp) → ∀ u ∈ Spine.vals sp, P u

namespace EvalInvariant

variable {P : Val → Prop} {T : Env → Term → Prop} (hP : EvalInvariant P T)

structure Holds (P : Val → Prop) (T : Env → Term → Prop) (fuel : Nat) : Prop where
  eval : ∀ {env : Env} {t : Term} {v : Val}, T env t → t.eval fuel env = .ok v → P v
  eliminate : ∀ {v w : Val} {e : Elim}, P v → (∀ u ∈ e.vals, P u) → v.eliminate fuel e = .ok w → P w
  reduce : ∀ {e : Eliminator} {scrut motive : Val} {cs : List Val} {r : Option Val},
    P scrut → P motive → (∀ c ∈ cs, P c) → Val.reduce fuel e scrut motive cs = .ok r →
    (∀ w ∈ r, P w) ∧ (r = none → Reduction.of e scrut = .stuck)

variable {fuel : Nat}

section

include hP

/-- Evaluating a term keeps the invariant when the evaluator with less fuel does. -/
theorem eval_step (ih : Holds P T fuel) {env : Env} {t : Term} {v : Val} (ht : T env t)
    (hv : t.eval (fuel + 1) env = .ok v) : P v := by
  have first {u : Term} {w : Val} (hu : u ∈ t.parts) (hw : u.eval fuel env = .ok w) : P w :=
    ih.eval (hP.part ht hu) hw
  cases t with
  | type =>
    cases hv
    exact hP.type
  | nat n =>
    cases hv
    exact hP.nat n
  | prim p =>
    cases hv
    exact hP.prim p
  | metavar m =>
    cases hv
    exact hP.metavar ht
  | var i =>
    cases hi : env.local? i with
    | none => simp [Term.eval, hi] at hv
    | some w =>
      obtain rfl : w = v := by simpa [Term.eval, hi] using hv
      exact hP.var ht hi
  | global x =>
    cases hx : env.global? x with
    | none => simp [Term.eval, hx] at hv
    | some w =>
      obtain rfl : Val.glued x [] w = v := by simpa [Term.eval, hx] using hv
      exact hP.global ht hx
  | app f icit x =>
    obtain ⟨vf, hf, hv⟩ := bind_ok hv
    obtain ⟨vx, hx, hv⟩ := bind_ok hv
    have hvf : P vf := first (by simp [Term.parts]) hf
    have hvx : P vx := first (by simp [Term.parts]) hx
    exact ih.eliminate hvf (Elim.forall_vals_app.2 hvx) hv
  | bind b dom body =>
    obtain ⟨vdom, hdom, hv⟩ := bind_ok hv
    cases hv
    exact hP.bind ht (first (by simp [Term.parts]) hdom)
  | pair a b s =>
    obtain ⟨va, ha, hv⟩ := bind_ok hv
    obtain ⟨vb, hb, hv⟩ := bind_ok hv
    obtain ⟨vs, hs, hv⟩ := bind_ok hv
    cases hv
    refine hP.pair.2 ⟨first ?_ ha, first ?_ hb, first ?_ hs⟩ <;> simp [Term.parts]
  | proj x p =>
    obtain ⟨vx, hx, hv⟩ := bind_ok hv
    exact ih.eliminate (first (by simp [Term.parts]) hx) (List.forall_mem_nil _) hv
  | letIn x erased ty val body =>
    obtain ⟨w, hw, hv⟩ := bind_ok hv
    exact ih.eval (hP.body ht (first (by simp [Term.parts]) hw)) hv
  | elim e m s cs =>
    obtain ⟨vs, hs, hv⟩ := bind_ok hv
    obtain ⟨vm, hm, hv⟩ := bind_ok hv
    obtain ⟨vcs, hcs, hv⟩ := bind_ok hv
    have hvs : P vs := first (by simp [Term.parts]) hs
    have hvm : P vm := first (by simp [Term.parts]) hm
    have hvcs : ∀ w ∈ vcs, P w := by
      intro w hw
      obtain ⟨c, hc, hcw⟩ := exists_mem_of_mapM hcs hw
      exact first (by simp [Term.parts, hc]) hcw
    exact ih.eliminate hvs (Elim.forall_vals_cases.2 ⟨hvm, hvcs⟩) hv

theorem succNat {n : Nat} {v : Val} (h : succNat n = .ok v) : P v := by
  unfold Elaborator.succNat at h
  split at h
  · cases h
    exact hP.nat _
  · cases h

omit hP in
theorem caseAt {cs : List Val} (hcs : ∀ c ∈ cs, P c) {k : Nat} {v : Val} (h : caseAt cs k = .ok v) :
    P v := by
  unfold Elaborator.caseAt at h
  split at h
  · next w hw =>
    cases h
    exact hcs _ (List.mem_of_getElem? hw)
  · cases h

/-- The predecessor that a reduction goes on with is a part of the scrutinee. -/
theorem pred {e : Eliminator} {scrut pred : Val} (h : P scrut)
    (hr : Reduction.of e scrut = .step pred) : P pred := by
  unfold Reduction.of at hr
  split at hr <;> cases hr
  · exact hP.nat _
  · exact hP.spine h _ (by simp [Spine.vals, Elim.vals])

/-- Reducing an eliminator keeps the invariant when the evaluator with less fuel does. -/
theorem reduce_step (ih : Holds P T fuel) {e : Eliminator} {scrut motive : Val} {cs : List Val}
    {r : Option Val} (hs : P scrut) (hm : P motive) (hcs : ∀ c ∈ cs, P c)
    (hr : Val.reduce (fuel + 1) e scrut motive cs = .ok r) :
    (∀ w ∈ r, P w) ∧ (r = none → Reduction.of e scrut = .stuck) := by
  rw [Val.reduce] at hr
  split at hr
  · obtain ⟨v, hv, rfl⟩ := map_ok hr
    simpa using caseAt hcs hv
  · next pred hpred =>
    have hpred : P pred := hP.pred hs hpred
    obtain ⟨previous, hprevious, hr⟩ := bind_ok hr
    obtain ⟨step, hstep, hr⟩ := bind_ok hr
    obtain ⟨stepped, hstepped, hr⟩ := bind_ok hr
    obtain ⟨v, hv, rfl⟩ := map_ok hr
    have hprevious := ih.eliminate hpred (Elim.forall_vals_cases.2 ⟨hm, hcs⟩) hprevious
    have hstepped := ih.eliminate (caseAt hcs hstep) (Elim.forall_vals_app.2 hpred) hstepped
    simpa using ih.eliminate hstepped (Elim.forall_vals_app.2 hprevious) hv
  · next hstuck =>
    cases hr
    exact ⟨by simp, fun _ => hstuck⟩

/-- Eliminating a value keeps the invariant when the evaluator with less fuel does. -/
theorem eliminate_step (ih : Holds P T fuel) {v w : Val} {e : Elim} (hv : P v)
    (he : ∀ u ∈ e.vals, P u) (hw : v.eliminate (fuel + 1) e = .ok w) : P w := by
  unfold Val.eliminate at hw
  split at hw
  · exact ih.eval (hP.apply hv (Elim.forall_vals_app.1 he)) hw
  · cases hw
    exact (hP.pair.1 hv).1
  · cases hw
    exact (hP.pair.1 hv).2.1
  · cases hw
    exact hP.glued hv he
  · exact hP.succNat hw
  · obtain ⟨hm, hcs⟩ := Elim.forall_vals_cases.1 he
    obtain ⟨r, hr, hw⟩ := bind_ok hw
    obtain ⟨hfound, hstuck⟩ := ih.reduce hv hm hcs hr
    split at hw
    · cases hw
      exact hfound _ rfl
    · split at hw
      · cases hw
        exact hP.neutral hv he (hstuck rfl)
      · cases hw
  · next hsucc hcases =>
    cases hw
    refine hP.neutral hv he ?_
    -- The successor of a literal and case analyses were taken care of before.
    cases e with
    | app icit x =>
      rintro ⟨hh, hnil, rfl, n, rfl⟩
      exact hsucc n rfl hh hnil
    | proj p => trivial
    | cases e m cs => exact (hcases e m cs rfl).elim
  · cases hw

/-- An invariant closed under the evaluator's own steps is kept by all of its runs. -/
theorem holds (fuel : Nat) : Holds P T fuel := by
  induction fuel with
  | zero =>
    constructor
    · intro env t v _ hv
      cases hv
    · intro v w e _ _ hw
      cases hw
    · intro e scrut motive cs r _ _ _ hr
      cases hr
  | succ fuel ih => exact ⟨hP.eval_step ih, hP.eliminate_step ih, hP.reduce_step ih⟩

theorem eval {env : Env} {t : Term} {v : Val} (ht : T env t) (hv : t.eval fuel env = .ok v) : P v :=
  (hP.holds fuel).eval ht hv

theorem eliminate {v w : Val} {e : Elim} (hv : P v) (he : ∀ u ∈ e.vals, P u)
    (hw : v.eliminate fuel e = .ok w) : P w :=
  (hP.holds fuel).eliminate hv he hw

theorem applySpine {v w : Val} {sp : Spine} (hv : P v) (hsp : ∀ u ∈ Spine.vals sp, P u)
    (hw : v.applySpine fuel sp = .ok w) : P w := by
  induction sp generalizing w with
  | nil =>
    cases hw
    exact hv
  | cons e sp ih =>
    obtain ⟨he, hsp⟩ := List.forall_mem_append.1 hsp
    obtain ⟨u, hu, hw⟩ := bind_ok hw
    exact hP.eliminate (ih hsp hu) he hw

theorem apply_closure {c : Closure} {x w : Val} (hc : P (.closure c)) (hx : P x)
    (hw : c.apply fuel x = .ok w) : P w :=
  hP.eval (hP.apply hc hx) hw

/-- If the solutions that matter have the property, forcing keeps it. -/
theorem forceMeta {ms : MetaStore}
    (hms : ∀ m sp v, P (.neutral (.metavar m) sp) → ms.lookup m = some v → P v) {v w : Val}
    (hv : P v) (hw : v.forceMeta fuel ms = .ok w) : P w := by
  induction fuel generalizing v with
  | zero => cases hw
  | succ fuel ih =>
    unfold Val.forceMeta at hw
    split at hw
    · next m sp =>
      split at hw
      · next solution hm =>
        obtain ⟨u, hu, hw⟩ := bind_ok hw
        exact ih (hP.applySpine (hms m sp solution hv hm) (hP.spine hv) hu) hw
      · cases hw
        exact hv
    · cases hw
      exact hv

end

end EvalInvariant

/-! ## Reading back -/

/-- A property of terms that is kept by applications, projections and case analyses, in any
position. -/
structure Term.EliminationClosed (U : Term → Prop) : Prop where
  app : ∀ {f icit x}, U f → U x → U (.app f icit x)
  proj : ∀ {x p}, U x → U (.proj x p)
  elim : ∀ {e motive scrut cases}, U motive → U scrut → (∀ c ∈ cases, U c) →
    U (.elim e motive scrut cases)

/-- A spine reads back to a term with the property of its head and of the terms of its values. -/
theorem Spine.quote_of {P : Val → Prop} {U : Term → Prop} (hU : Term.EliminationClosed U)
    {quote : Val → Except Fault Term} {head t : Term} {sp : Spine}
    (hq : ∀ v t, P v → quote v = .ok t → U t) (hhead : U head) (hsp : ∀ v ∈ Spine.vals sp, P v)
    (h : Spine.quote quote head sp = .ok t) : U t := by
  induction sp generalizing t with
  | nil =>
    cases h
    exact hhead
  | cons e sp ih =>
    obtain ⟨he, hrest⟩ := List.forall_mem_append.1 hsp
    cases e with
    | app icit x =>
      obtain ⟨f, hf, h⟩ := bind_ok h
      obtain ⟨u, hu, h⟩ := bind_ok h
      cases h
      exact hU.app (ih hrest hf) (hq x u (Elim.forall_vals_app.1 he) hu)
    | proj p =>
      obtain ⟨f, hf, h⟩ := bind_ok h
      cases h
      exact hU.proj (ih hrest hf)
    | cases e motive cs =>
      obtain ⟨hmotive, hcs⟩ := Elim.forall_vals_cases.1 he
      obtain ⟨f, hf, h⟩ := bind_ok h
      obtain ⟨u, hu, h⟩ := bind_ok h
      obtain ⟨us, hus, h⟩ := bind_ok h
      cases h
      refine hU.elim (hq motive u hmotive hu) (ih hrest hf) fun c hc => ?_
      obtain ⟨w, hw, hwc⟩ := exists_mem_of_mapM hus hc
      exact hq w c (hcs w hw) hwc

/-- A property `P` of values that forcing keeps as well, and a property `U` that terms have if they
are read back from values with `P`. -/
structure ReadInvariant (P : Val → Prop) (T : Env → Term → Prop) (U : Term → Prop) : Prop extends
    EvalInvariant P T, Term.EliminationClosed U where
  fresh : ∀ l, P (.var l)
  dom : ∀ {c}, P (.closure c) → P c.dom
  unfold : ∀ {x sp base}, P (.glued x sp base) → P base ∧ ∀ u ∈ Spine.vals sp, P u
  readType : U .type
  readNat : ∀ n, U (.nat n)
  readVar : ∀ i, U (.var i)
  readPrim : ∀ p, U (.prim p)
  readGlobal : ∀ x, U (.global x)
  readMeta : ∀ {m sp}, P (.neutral (.metavar m) sp) → U (.metavar m)
  readBind : ∀ {c dom body}, P (.closure c) → U dom → U body → U (.bind c.binder dom body)
  readPair : ∀ {a b s}, U a → U b → U s → U (.pair a b s)

namespace ReadInvariant

variable {P : Val → Prop} {T : Env → Term → Prop} {U : Term → Prop} (hP : ReadInvariant P T U)
  {ms : MetaStore} (hms : ∀ m sp v, P (.neutral (.metavar m) sp) → ms.lookup m = some v → P v)
  {fuel n : Nat}

include hP

theorem enter {c : Closure} {w : Val} (hc : P (.closure c)) (hw : c.enter fuel n = .ok w) : P w :=
  hP.apply_closure hc (hP.fresh _) hw

theorem readHead {h : Head} {sp : Spine} {t : Term} (hv : P (.neutral h sp))
    (ht : h.quote n = .ok t) : U t := by
  cases h with
  | var l =>
    obtain ⟨i, -, rfl⟩ := map_ok ht
    exact hP.readVar i
  | prim p =>
    cases ht
    exact hP.readPrim p
  | metavar m =>
    cases ht
    exact hP.readMeta hv

include hms

theorem force {v w : Val} (hv : P v) (hw : v.force fuel ms = .ok w) : P w := by
  induction fuel generalizing v with
  | zero => cases hw
  | succ fuel ih =>
    unfold Val.force at hw
    split at hw
    · obtain ⟨u, hu, hw⟩ := bind_ok hw
      obtain ⟨hbase, hspine⟩ := hP.unfold hv
      exact ih (hP.applySpine hbase hspine hu) hw
    · obtain ⟨u, hu, hw⟩ := bind_ok hw
      have hforced := hP.forceMeta hms hv hu
      split at hw
      · exact ih hforced hw
      · cases hw
        exact hforced

/-- A value with the invariant reads back to a term with the matching property. -/
theorem quote {v : Val} {full : Bool} {t : Term} (hv : P v) (h : v.quote fuel ms full n = .ok t) :
    U t := by
  induction fuel generalizing v n t with
  | zero => cases h
  | succ fuel ih =>
    obtain ⟨w, hw, h⟩ := bind_ok h
    have hforced := hP.forceMeta hms hv hw
    cases w with
    | type =>
      cases h
      exact hP.readType
    | nat k =>
      cases h
      exact hP.readNat k
    | neutral head sp =>
      obtain ⟨u, hu, h⟩ := bind_ok h
      exact Spine.quote_of hP.toEliminationClosed (fun _ _ => ih) (hP.readHead hforced hu)
        (hP.spine hforced) h
    | glued x sp base =>
      cases full with
      | true =>
        obtain ⟨u, hu, h⟩ := bind_ok h
        exact ih (hP.force hms hforced hu) h
      | false =>
        exact Spine.quote_of hP.toEliminationClosed (fun _ _ => ih) (hP.readGlobal x)
          (hP.unfold hforced).2 h
    | closure c =>
      obtain ⟨dom, hdom, h⟩ := bind_ok h
      obtain ⟨entered, hentered, h⟩ := bind_ok h
      obtain ⟨body, hbody, h⟩ := bind_ok h
      cases h
      exact hP.readBind hforced (ih (hP.dom hforced) hdom) (ih (hP.enter hforced hentered) hbody)
    | pair a b s =>
      obtain ⟨ha, hb, hs⟩ := hP.pair.1 hforced
      obtain ⟨ta, hta, h⟩ := bind_ok h
      obtain ⟨tb, htb, h⟩ := bind_ok h
      obtain ⟨ts, hts, h⟩ := bind_ok h
      cases h
      exact hP.readPair (ih ha hta) (ih hb htb) (ih hs hts)

end ReadInvariant

end Elaborator
