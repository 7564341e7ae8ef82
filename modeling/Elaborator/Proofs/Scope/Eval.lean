import Mathlib.Data.List.Forall2
import Elaborator.Proofs.PrimitiveTypes
import Elaborator.Value.Quote

/-! # Evaluation and reading back stay in scope

Everything that is done with values keeps them in bounds, and none of it meets a variable that is
out of scope: evaluation (`Term.eval_safely`), forcing (`Val.force_safely`) and reading back
(`Val.quote_safely`). Each function has one lemma, which says both at once (`Safely`): if there is
an answer, it is in bounds, and if there is a fault, it has nothing to do with scopes. -/

namespace Elaborator

/-- Reasons to stop, some of which are that a variable was met outside its scope. -/
class ScopeFailure (ε : Type) where
  outOfScope : ε → Prop

def Fault.OutOfScope : Fault → Prop
  | .unboundIndex _ _ | .unboundLevel _ _ => True
  | _ => False

instance : ScopeFailure Fault := ⟨Fault.OutOfScope⟩

/-- The answer has a property, and no variable is met outside its scope. -/
structure Safely {ε α : Type} [ScopeFailure ε] (r : Except ε α) (Q : α → Prop) : Prop where
  answer : ∀ a, r = .ok a → Q a
  fault : ∀ f, r = .error f → ¬ ScopeFailure.outOfScope f

namespace Safely

variable {ε α β : Type} [ScopeFailure ε] {Q : α → Prop} {R : β → Prop}

theorem ok {a : α} (h : Q a) : Safely (.ok a : Except ε α) Q where
  answer b hb := by
    cases hb
    exact h
  fault f hf := nomatch hf

theorem pure {a : α} (h : Q a) : Safely (Pure.pure a : Except ε α) Q := ok h

theorem error {f : ε} (h : ¬ ScopeFailure.outOfScope f) : Safely (.error f : Except ε α) Q where
  answer a ha := nomatch ha
  fault g hg := by
    cases hg
    exact h

/-- A sequence is safe when its first part is and the rest is on every answer. -/
theorem bind {r : Except ε α} {k : α → Except ε β} (h : Safely r Q)
    (hk : ∀ a, Q a → Safely (k a) R) : Safely (r >>= k) R := by
  cases hr : r with
  | ok a => exact hk a (h.answer a hr)
  | error f => exact error (h.fault f hr)

theorem map {r : Except ε α} {f : α → β} (h : Safely r Q) (hf : ∀ a, Q a → R (f a)) :
    Safely (f <$> r) R := by
  cases hr : r with
  | ok a => exact ok (hf a (h.answer a hr))
  | error e => exact error (h.fault e hr)

theorem imp {r : Except ε α} {Q' : α → Prop} (h : Safely r Q) (hQ : ∀ a, Q a → Q' a) :
    Safely r Q' :=
  ⟨fun a ha => hQ a (h.answer a ha), h.fault⟩

theorem ite {c : Prop} [Decidable c] {r s : Except ε α} (hr : c → Safely r Q)
    (hs : ¬ c → Safely s Q) : Safely (if c then r else s) Q := by
  split
  · next hc => exact hr hc
  · next hc => exact hs hc

/-- Each answer of a list has the property if each step gives it. -/
theorem mapM {f : β → Except ε α} {xs : List β} (h : ∀ x ∈ xs, Safely (f x) Q) :
    Safely (xs.mapM f) (fun ys => ∀ y ∈ ys, Q y) := by
  induction xs with
  | nil =>
    rw [List.mapM_nil]
    exact pure (List.forall_mem_nil _)
  | cons x xs ih =>
    obtain ⟨hx, hxs⟩ := List.forall_mem_cons.1 h
    rw [List.mapM_cons]
    exact hx.bind fun y hy => (ih hxs).bind fun ys hys => pure (List.forall_mem_cons.2 ⟨hy, hys⟩)

end Safely

/-! ## Answers of computations without state -/

section

variable {ε α β : Type}

theorem bind_ok {r : Except ε α} {f : α → Except ε β} {b : β} (h : r >>= f = .ok b) :
    ∃ a, r = .ok a ∧ f a = .ok b := by
  cases r with
  | ok a => exact ⟨a, rfl, h⟩
  | error e => cases h

theorem map_ok {r : Except ε α} {f : α → β} {b : β} (h : f <$> r = .ok b) :
    ∃ a, r = .ok a ∧ f a = b := by
  cases r with
  | ok a => exact ⟨a, rfl, Except.ok.inj h⟩
  | error e => cases h

theorem ok_bind (a : α) (f : α → Except ε β) : (Except.ok a >>= f) = f a := rfl

theorem mem_toOption {r : Except ε α} {a : α} : a ∈ r.toOption ↔ r = .ok a := by
  cases r with
  | ok b => simp [Except.toOption]
  | error e => simp [Except.toOption]

theorem mapM_congr_of_mem {f k : α → Except ε β} {xs : List α} (h : ∀ x ∈ xs, f x = k x) :
    xs.mapM f = xs.mapM k := by
  induction xs with
  | nil => rfl
  | cons x xs ih =>
    obtain ⟨hx, hxs⟩ := List.forall_mem_cons.1 h
    rw [List.mapM_cons, List.mapM_cons, hx, ih hxs]

/-- The answers of a list stand in the same order as what they are answers to. -/
theorem mapM_ok {f : α → Except ε β} {R : α → β → Prop} {xs : List α} {ys : List β}
    (h : xs.mapM f = .ok ys) (hR : ∀ x ∈ xs, ∀ y, f x = .ok y → R x y) : List.Forall₂ R xs ys := by
  induction xs generalizing ys with
  | nil =>
    cases h
    exact .nil
  | cons x xs ih =>
    obtain ⟨hx, hxs⟩ := List.forall_mem_cons.1 hR
    rw [List.mapM_cons] at h
    obtain ⟨y, hy, h⟩ := bind_ok h
    obtain ⟨ys, hys, h⟩ := bind_ok h
    cases h
    exact .cons (hx y hy) (ih hys hxs)

/-- Lists that are related one by one are so at each index. -/
theorem rel_of_getElem? {R : α → β → Prop} {xs : List α} {ys : List β}
    (h : List.Forall₂ R xs ys) {i : Nat} {x : α} {y : β} (hx : xs[i]? = some x)
    (hy : ys[i]? = some y) : R x y := by
  obtain ⟨hi, rfl⟩ := List.getElem?_eq_some_iff.1 hx
  obtain ⟨hi', rfl⟩ := List.getElem?_eq_some_iff.1 hy
  exact h.get hi hi'

end

/-! ## Eliminating what is stuck -/

section

variable {fuel : Nat}

/-- An argument is added to the spine, unless the successor of a literal is computed. -/
theorem Val.eliminate_neutral_app {h : Head} {sp : Spine} {icit : Icit} {x : Val}
    (hb : (Elim.app icit x).Blocked h sp) :
    (Val.neutral h sp).eliminate (fuel + 1) (.app icit x) =
      .ok (.neutral h (.app icit x :: sp)) := by
  cases h with
  | var l => rfl
  | metavar m => rfl
  | prim p =>
    by_cases hp : p = .succ ∧ sp = [] ∧ icit = .expl
    · obtain ⟨rfl, rfl, rfl⟩ := hp
      cases x with
      | nat n => exact (hb ⟨rfl, rfl, rfl, n, rfl⟩).elim
      | type | neutral | glued | closure | pair => rfl
    · cases p <;> cases sp <;> cases icit <;> first | rfl | exact (hp ⟨rfl, rfl, rfl⟩).elim

theorem Val.eliminate_neutral_proj (h : Head) (sp : Spine) (p : Proj) :
    (Val.neutral h sp).eliminate (fuel + 1) (.proj p) = .ok (.neutral h (.proj p :: sp)) := by
  cases h with
  | prim q => cases q <;> cases sp <;> rfl
  | var l => rfl
  | metavar m => rfl

/-- A case analysis computes, or it is added to the spine. -/
theorem Val.eliminate_neutral_cases (h : Head) (sp : Spine) (e : Eliminator) (m : Val)
    (cs : List Val) : (Val.neutral h sp).eliminate (fuel + 1) (.cases e m cs) =
      (fun o => o.getD (.neutral h (.cases e m cs :: sp))) <$>
        Val.reduce fuel e (.neutral h sp) m cs := by
  simp only [Val.eliminate]
  cases Val.reduce fuel e (.neutral h sp) m cs with
  | error f => rfl
  | ok o => cases o <;> rfl

end

/-! ## Evaluation -/

section

variable {B : Bounds} {L : Nat → Prop}

theorem succNat_safely (n : Nat) : Safely (succNat n) (Val.Within B L) :=
  .ite (fun _ => .ok .nat) fun _ => .error id

theorem caseAt_safely {cs : List Val} (h : ∀ c ∈ cs, c.Within B L) (k : Nat) :
    Safely (caseAt cs k) (Val.Within B L) := by
  unfold caseAt
  split
  · next v hv => exact .ok (h v (List.mem_of_getElem? hv))
  · exact .error id

/-- The predecessor that a reduction goes on with is a part of the scrutinee. -/
theorem Reduction.within_of {e : Eliminator} {scrut pred : Val} (h : scrut.Within B L)
    (hr : Reduction.of e scrut = .step pred) : pred.Within B L := by
  unfold Reduction.of at hr
  split at hr <;> cases hr
  · exact .nat
  · exact Elim.within_app.1 (Spine.within_cons.1 (Val.within_neutral.1 h).2.2).1

/-- What evaluation with this fuel does, for all scopes and all parts of a computation at once. -/
structure EvaluatesSafely (B : Bounds) (fuel : Nat) : Prop where
  eval : ∀ {L : Nat → Prop} {env : Env} {t : Term}, env.Within B L (· ∈ t.globals) →
    t.Within B env.size → Safely (t.eval fuel env) (Val.Within B L)
  eliminate : ∀ {L : Nat → Prop} {v : Val} {e : Elim}, v.Within B L → e.Within B L →
    Safely (v.eliminate fuel e) (Val.Within B L)
  reduce : ∀ {L : Nat → Prop} {e : Eliminator} {scrut motive : Val} {cs : List Val},
    scrut.Within B L → motive.Within B L → (∀ c ∈ cs, c.Within B L) →
    Safely (Val.reduce fuel e scrut motive cs)
      (fun r => (∀ w ∈ r, w.Within B L) ∧ (r = none → Reduction.of e scrut = .stuck))

section Parts

/-! ### The globals of the parts of a term are among its own -/

variable {env : Env}

theorem Env.Within.app_parts {f x : Term} {icit : Icit}
    (h : env.Within B L (· ∈ (Term.app f icit x).globals)) :
    env.Within B L (· ∈ f.globals) ∧ env.Within B L (· ∈ x.globals) :=
  ⟨h.narrow fun _ => List.mem_append_left _, h.narrow fun _ => List.mem_append_right _⟩

theorem Env.Within.bind_parts {b : Binder} {dom body : Term}
    (h : env.Within B L (· ∈ (Term.bind b dom body).globals)) :
    env.Within B L (· ∈ dom.globals) ∧ env.Within B L (· ∈ body.globals) :=
  ⟨h.narrow fun _ => List.mem_append_left _, h.narrow fun _ => List.mem_append_right _⟩

theorem Env.Within.pair_parts {a b s : Term} (h : env.Within B L (· ∈ (Term.pair a b s).globals)) :
    env.Within B L (· ∈ a.globals) ∧ env.Within B L (· ∈ b.globals) ∧
      env.Within B L (· ∈ s.globals) := by
  refine ⟨h.narrow fun _ hx => ?_, h.narrow fun _ hx => ?_,
    h.narrow fun _ => List.mem_append_right _⟩
  · exact List.mem_append_left _ (List.mem_append_left _ hx)
  · exact List.mem_append_left _ (List.mem_append_right _ hx)

theorem Env.Within.letIn_parts {x : Name} {erased : Bool} {ty val body : Term}
    (h : env.Within B L (· ∈ (Term.letIn x erased ty val body).globals)) :
    env.Within B L (· ∈ val.globals) ∧ env.Within B L (· ∈ body.globals) := by
  refine ⟨h.narrow fun _ hx => ?_, h.narrow fun _ => List.mem_append_right _⟩
  exact List.mem_append_left _ (List.mem_append_right _ hx)

theorem Env.Within.elim_parts {e : Eliminator} {m s : Term} {cs : List Term}
    (h : env.Within B L (· ∈ (Term.elim e m s cs).globals)) :
    env.Within B L (· ∈ m.globals) ∧ env.Within B L (· ∈ s.globals) ∧
      ∀ c ∈ cs, env.Within B L (· ∈ c.globals) := by
  refine ⟨h.narrow fun _ hx => ?_, h.narrow fun _ hx => ?_, fun c hc => h.narrow fun x hx => ?_⟩
  · exact List.mem_append_left _ (List.mem_append_left _ hx)
  · exact List.mem_append_left _ (List.mem_append_right _ hx)
  · show x ∈ m.globals ++ s.globals ++ Term.globalsAll cs
    rw [Term.globalsAll_eq]
    exact List.mem_append_right _ (List.mem_flatMap.2 ⟨c, hc, hx⟩)

end Parts

/-- One step of evaluation, given what the steps below it do. -/
theorem Term.eval_step {fuel : Nat} (ih : EvaluatesSafely B fuel) {env : Env} {t : Term}
    (henv : env.Within B L (· ∈ t.globals)) (ht : t.Within B env.size) :
    Safely (t.eval (fuel + 1) env) (Val.Within B L) := by
  cases t with
  | type => exact .ok .type
  | var i =>
    have hi : i.toNat < env.locals.length := Term.within_var.1 ht
    have hv : env.local? i = some env.locals[i.toNat] := List.getElem?_eq_getElem hi
    simp only [Term.eval, hv]
    exact .ok (henv.locals _ (List.getElem_mem hi))
  | global x =>
    have hx : x ∈ (Term.global x).globals := List.mem_singleton_self x
    rw [Term.eval]
    split
    · next v hv =>
      exact .ok (.glued (henv.bound x hx v hv) (henv.closed x hx v hv) Spine.within_nil)
    · exact .error id
  | metavar m => exact .ok (Val.within_metavar.2 (Term.within_metavar.1 ht))
  | prim p => exact .ok Val.within_prim
  | nat n => exact .ok .nat
  | app f icit x =>
    obtain ⟨hf, hx⟩ := Term.within_app.1 ht
    obtain ⟨hef, hex⟩ := henv.app_parts
    exact (ih.eval hef hf).bind fun vf hvf => (ih.eval hex hx).bind fun vx hvx =>
      ih.eliminate hvf (Elim.within_app.2 hvx)
  | bind b dom body =>
    obtain ⟨hdom, hbody⟩ := Term.within_bind.1 ht
    obtain ⟨hedom, hebody⟩ := henv.bind_parts
    exact (ih.eval hedom hdom).bind fun v hv => .pure (Val.within_closure.2 ⟨hv, hebody, hbody⟩)
  | pair a b s =>
    obtain ⟨ha, hb, hs⟩ := Term.within_pair.1 ht
    obtain ⟨hea, heb, hes⟩ := henv.pair_parts
    exact (ih.eval hea ha).bind fun va hva => (ih.eval heb hb).bind fun vb hvb =>
      (ih.eval hes hs).bind fun vs hvs => .pure (.pair hva hvb hvs)
  | proj x p =>
    have hex : env.Within B L (· ∈ x.globals) := henv
    exact (ih.eval hex (Term.within_proj.1 ht)).bind fun v hv => ih.eliminate hv Elim.within_proj
  | letIn x erased ty val body =>
    obtain ⟨-, hval, hbody⟩ := Term.within_letIn.1 ht
    obtain ⟨heval, hebody⟩ := henv.letIn_parts
    refine (ih.eval heval hval).bind fun v hv => ih.eval (hebody.push hv) ?_
    rwa [Env.size_push]
  | elim e m s cs =>
    obtain ⟨hm, hs, hcs⟩ := Term.within_elim.1 ht
    obtain ⟨hem, hes, hecs⟩ := henv.elim_parts
    refine (ih.eval hes hs).bind fun vs hvs => (ih.eval hem hm).bind fun vm hvm => ?_
    refine (Safely.mapM fun c hc => ih.eval (hecs c hc) (hcs c hc)).bind fun vcs hvcs => ?_
    exact ih.eliminate hvs (Elim.within_cases.2 ⟨hvm, hvcs⟩)

/-- One step of an elimination, given what the steps below it do. -/
theorem Val.eliminate_step {fuel : Nat} (ih : EvaluatesSafely B fuel) {v : Val} {e : Elim}
    (hv : v.Within B L) (he : e.Within B L) :
    Safely (v.eliminate (fuel + 1) e) (Val.Within B L) := by
  unfold Val.eliminate
  split
  · obtain ⟨-, henv, hbody⟩ := Val.within_closure.1 hv
    refine ih.eval (henv.push (Elim.within_app.1 he)) ?_
    rwa [Env.size_push]
  · exact .ok (Val.within_pair.1 hv).1
  · exact .ok (Val.within_pair.1 hv).2.1
  · obtain ⟨hx, hb, hs⟩ := Val.within_glued.1 hv
    exact .ok (Val.within_glued.2 ⟨hx, hb, Spine.within_cons.2 ⟨he, hs⟩⟩)
  · exact succNat_safely _
  · obtain ⟨hm, hcs⟩ := Elim.within_cases.1 he
    refine (ih.reduce hv hm hcs).bind fun r hr => ?_
    -- A stuck case analysis is added to the spine.
    split
    · exact .pure (hr.1 _ rfl)
    · split
      · obtain ⟨hh, hb, hs⟩ := Val.within_neutral.1 hv
        exact .pure (Val.within_neutral.2
          ⟨hh, fun hc => ⟨hr.2 rfl, hb hc⟩, Spine.within_cons.2 ⟨he, hs⟩⟩)
      · exact .error id
  · next hsucc hcases =>
    obtain ⟨hh, hb, hs⟩ := Val.within_neutral.1 hv
    refine .ok (Val.within_neutral.2 ⟨hh, fun hc => ⟨?_, hb hc⟩, Spine.within_cons.2 ⟨he, hs⟩⟩)
    -- The successor of a literal and case analyses were taken care of before.
    cases e with
    | app icit x =>
      rintro ⟨hh, hnil, rfl, n, rfl⟩
      exact hsucc n rfl hh hnil
    | proj p => trivial
    | cases e m cs => exact (hcases e m cs rfl).elim
  · exact .error id

/-- One step of a reduction, given what the steps below it do. -/
theorem Val.reduce_step {fuel : Nat} (ih : EvaluatesSafely B fuel) {e : Eliminator}
    {scrut motive : Val} {cs : List Val} (hs : scrut.Within B L) (hm : motive.Within B L)
    (hcs : ∀ c ∈ cs, c.Within B L) : Safely (Val.reduce (fuel + 1) e scrut motive cs)
      (fun r => (∀ w ∈ r, w.Within B L) ∧ (r = none → Reduction.of e scrut = .stuck)) := by
  have found : ∀ v : Val, v.Within B L →
      (∀ w ∈ some v, w.Within B L) ∧ (some v = none → Reduction.of e scrut = .stuck) := by simp
  rw [Val.reduce]
  split
  · exact (caseAt_safely hcs _).map found
  · next pred hr =>
    have hp : pred.Within B L := Reduction.within_of hs hr
    refine (ih.eliminate hp (Elim.within_cases.2 ⟨hm, hcs⟩)).bind fun previous hprevious => ?_
    refine (caseAt_safely hcs 1).bind fun step hstep => ?_
    refine (ih.eliminate hstep (Elim.within_app.2 hp)).bind fun stepped hstepped => ?_
    exact (ih.eliminate hstepped (Elim.within_app.2 hprevious)).map found
  · next hr => exact .ok ⟨fun w hw => (nomatch hw), fun _ => hr⟩

/-- Evaluation within bounds never meets a variable out of scope, for every amount of fuel. -/
theorem evaluatesSafely (B : Bounds) (fuel : Nat) : EvaluatesSafely B fuel := by
  induction fuel with
  | zero => exact ⟨fun _ _ => .error id, fun _ _ => .error id, fun _ _ _ => .error id⟩
  | succ fuel ih => exact ⟨Term.eval_step ih, Val.eliminate_step ih, Val.reduce_step ih⟩

/-- A scoped term has a value in bounds. -/
theorem Term.eval_safely {env : Env} {t : Term} (henv : env.Within B L anything)
    (ht : t.Within B env.size) (fuel : Nat) : Safely (t.eval fuel env) (Val.Within B L) :=
  (evaluatesSafely B fuel).eval (henv.narrow fun _ _ => trivial) ht

/-- Eliminating a value within bounds is safe. -/
theorem Val.eliminate_safely {v : Val} {e : Elim} (hv : v.Within B L) (he : e.Within B L)
    (fuel : Nat) : Safely (v.eliminate fuel e) (Val.Within B L) :=
  (evaluatesSafely B fuel).eliminate hv he

theorem Val.apply_safely {f x : Val} (hf : f.Within B L) (hx : x.Within B L) (fuel : Nat) :
    Safely (f.apply fuel x) (Val.Within B L) :=
  Val.eliminate_safely hf (Elim.within_app.2 hx) fuel

theorem Val.applySpine_safely {v : Val} {sp : Spine} (hv : v.Within B L) (hsp : Spine.Within B L sp)
    (fuel : Nat) : Safely (v.applySpine fuel sp) (Val.Within B L) := by
  induction sp with
  | nil => exact .ok hv
  | cons e sp ih =>
    obtain ⟨he, hsp⟩ := Spine.within_cons.1 hsp
    exact (ih hsp).bind fun w hw => Val.eliminate_safely hw he fuel

theorem Closure.apply_safely {c : Closure} {x : Val} (hc : (Val.closure c).Within B L)
    (hx : x.Within B L) (fuel : Nat) : Safely (c.apply fuel x) (Val.Within B L) := by
  obtain ⟨-, henv, hbody⟩ := Val.within_closure.1 hc
  refine (evaluatesSafely B fuel).eval (henv.push hx) ?_
  rwa [Env.size_push]

/-- The levels below a size, and that size itself. -/
theorem Val.Within.below_succ {v : Val} {n : Nat} (h : v.Within B (· < n)) :
    v.Within B (· < n + 1) :=
  h.mono fun _ hl => Nat.lt_succ_of_lt hl

/-- Entering a closure allows one more level. -/
theorem Closure.enter_safely {c : Closure} {K : Nat → Prop} {n : Nat}
    (hc : (Val.closure c).Within B L) (hLK : ∀ l, L l → K l) (hn : K n) (fuel : Nat) :
    Safely (c.enter fuel n) (Val.Within B K) :=
  Closure.apply_safely (hc.mono hLK) (Val.within_var.2 hn) fuel

/-! ## Forcing

The solutions of metavariables are closed. A value without metavariables does not care about
solutions, which is why only those in bounds matter. -/

/-- Every solution of a metavariable in bounds is closed and in bounds. -/
def MetaStore.SolvedWithin (B : Bounds) (ms : MetaStore) : Prop :=
  ∀ m v, B.metas m → ms.lookup m = some v → v.Within B noLevels

variable {ms : MetaStore}

/-- After forcing, a value is stuck on an unsolved metavariable if it is stuck on one at all. -/
theorem Val.forceMeta_unsolved {fuel : Nat} {v : Val} {m : MetaId} {sp : Spine}
    (h : v.forceMeta fuel ms = .ok (.neutral (.metavar m) sp)) : ms.lookup m = none := by
  fun_induction Val.forceMeta fuel ms v with
  | case1 => cases h
  | case2 fuel ms k sp' solution hk ih =>
    obtain ⟨w, -, h⟩ := bind_ok h
    exact ih w h
  | case3 fuel ms k sp' hk =>
    cases h
    exact hk
  | case4 fuel ms v hv =>
    cases h
    exact absurd rfl (hv m sp)

/-- What is not stuck on a solved metavariable is not changed by forcing metavariables. -/
theorem Val.forceMeta_open {v : Val} {fuel : Nat}
    (h : ∀ m sp, v = .neutral (.metavar m) sp → ms.lookup m = none) :
    v.forceMeta (fuel + 1) ms = .ok v := by
  unfold Val.forceMeta
  split
  · next m sp =>
    rw [h m sp rfl]
  · rfl

/-- Forcing a value is safe when the solutions are within bounds. -/
theorem Val.forceMeta_safely (hms : ms.SolvedWithin B) {v : Val} (hv : v.Within B L) (fuel : Nat) :
    Safely (v.forceMeta fuel ms) (Val.Within B L) := by
  induction fuel generalizing v with
  | zero => exact .error id
  | succ fuel ih =>
    unfold Val.forceMeta
    split
    · next m sp =>
      split
      · next w hw =>
        obtain ⟨hm, -, hsp⟩ := Val.within_neutral.1 hv
        have hsol : w.Within B L := (hms m w hm hw).of_closed
        exact (Val.applySpine_safely hsol hsp fuel).bind fun u hu => ih hu
      · exact .ok hv
    · exact .ok hv

theorem Val.force_safely (hms : ms.SolvedWithin B) {v : Val} (hv : v.Within B L) (fuel : Nat) :
    Safely (v.force fuel ms) (Val.Within B L) := by
  induction fuel generalizing v with
  | zero => exact .error id
  | succ fuel ih =>
    unfold Val.force
    split
    · obtain ⟨-, hb, hs⟩ := Val.within_glued.1 hv
      exact (Val.applySpine_safely hb.of_closed hs fuel).bind fun w hw => ih hw
    · refine (Val.forceMeta_safely hms hv fuel).bind fun w hw => ?_
      split
      · exact ih hw
      · exact .pure hw

/-! ## Reading back -/

theorem inScope_safely (k n : Nat) :
    Safely (Elaborator.inScope k n) (fun b => b = decide (k + 1 ≤ n)) := by
  unfold Elaborator.inScope extendScope
  split
  · exact .ok rfl
  · exact .bind (.error id) fun _ => id

/-- A level below the size of a scope has an index in it. -/
theorem Level.toIndex_safely {l : Level} {n : Nat} (hl : l.toNat < n) :
    Safely (l.toIndex n) (fun i => i.toNat < n) := by
  refine (inScope_safely l.toNat n).bind ?_
  rintro b rfl
  rw [if_pos (decide_eq_true (Nat.succ_le_of_lt hl))]
  refine .pure ?_
  show n - 1 - l.toNat < n
  omega

theorem Head.quote_safely {h : Head} {n : Nat} (hh : h.Within B L) (hL : ∀ l, L l → l < n) :
    Safely (h.quote n) (Term.Within B n) := by
  cases h with
  | var l => exact (Level.toIndex_safely (hL _ hh)).map fun i hi => Term.within_var.2 hi
  | prim p => exact .ok Term.within_prim
  | metavar m => exact .ok (Term.within_metavar.2 hh)

/-- A spine within bounds reads back safely when its values do. -/
theorem Spine.quote_safely {quote : Val → Except Fault Term} {head : Term} {n : Nat} {sp : Spine}
    (hq : ∀ v, v.Within B L → Safely (quote v) (Term.Within B n)) (hh : head.Within B n)
    (hs : Spine.Within B L sp) : Safely (Spine.quote quote head sp) (Term.Within B n) := by
  induction sp with
  | nil => exact .ok hh
  | cons e sp ih =>
    obtain ⟨he, hsp⟩ := Spine.within_cons.1 hs
    cases e with
    | app icit x =>
      exact (ih hsp).bind fun t ht => (hq x (Elim.within_app.1 he)).bind fun u hu =>
        .pure (Term.within_app.2 ⟨ht, hu⟩)
    | proj p => exact (ih hsp).bind fun t ht => .pure (Term.within_proj.2 ht)
    | cases e m cs =>
      obtain ⟨hm, hcs⟩ := Elim.within_cases.1 he
      exact (ih hsp).bind fun t ht => (hq m hm).bind fun u hu =>
        (Safely.mapM fun c hc => hq c (hcs c hc)).bind fun us hus =>
          .pure (Term.within_elim.2 ⟨hu, ht, hus⟩)

/-- A spine is read back by reading its values back. -/
theorem Spine.quote_congr {q q' : Val → Except Fault Term} {head : Term} {sp : Spine}
    (h : ∀ u ∈ Spine.vals sp, q u = q' u) : Spine.quote q head sp = Spine.quote q' head sp := by
  induction sp with
  | nil => rfl
  | cons e sp ih =>
    obtain ⟨he, hsp⟩ := List.forall_mem_append.1 h
    cases e with
    | app icit x => rw [Spine.quote, Spine.quote, ih hsp, he x (List.mem_singleton_self x)]
    | proj p => rw [Spine.quote, Spine.quote, ih hsp]
    | cases e m cs =>
      obtain ⟨hm, hcs⟩ := List.forall_mem_cons.1 he
      rw [Spine.quote, Spine.quote, ih hsp, hm, mapM_congr_of_mem hcs]

/-- A value whose levels are in scope is read back as a scoped term. -/
theorem Val.quote_safely (hms : ms.SolvedWithin B) {v : Val} {n : Nat} (hv : v.Within B L)
    (hL : ∀ l, L l → l < n) (fuel : Nat) (full : Bool) :
    Safely (v.quote fuel ms full n) (Term.Within B n) := by
  induction fuel generalizing v n L with
  | zero => exact .error id
  | succ fuel ih =>
    rw [Val.quote]
    refine (Val.forceMeta_safely hms hv fuel).bind fun w hw => ?_
    split
    · exact .pure Term.within_type
    · exact .pure Term.within_nat
    · obtain ⟨hh, -, hs⟩ := Val.within_neutral.1 hw
      exact (Head.quote_safely hh hL).bind fun t ht =>
        Spine.quote_safely (fun v hv => ih hv hL) ht hs
    · refine .ite (fun _ => ?_) fun _ => ?_
      · exact (Val.force_safely hms hw fuel).bind fun u hu => ih hu hL
      · exact Spine.quote_safely (fun v hv => ih hv hL) Term.within_global
          (Val.within_glued.1 hw).2.2
    · next c =>
      -- The body is entered at the level of the size, which is in scope one level deeper.
      have hc := (Val.within_closure.1 hw).1
      refine (ih hc hL).bind fun dom hdom => ?_
      have hbelow : ∀ l, L l → l < n + 1 := fun l hl => Nat.lt_succ_of_lt (hL l hl)
      refine (Closure.enter_safely hw hbelow (Nat.lt_succ_self n) fuel).bind fun body hbody => ?_
      exact (ih hbody fun _ hl => hl).bind fun t ht => .pure (Term.within_bind.2 ⟨hdom, ht⟩)
    · obtain ⟨ha, hb, hs⟩ := Val.within_pair.1 hw
      exact (ih ha hL).bind fun ta hta => (ih hb hL).bind fun tb htb =>
          (ih hs hL).bind fun ts hts =>
        .pure (Term.within_pair.2 ⟨hta, htb, hts⟩)

/-! ## Types of primitives -/

/-- A function type of the primitives holds no globals, so only its parts matter. -/
theorem piVal_within {icit : Icit} {x : Name} {dom : Val} {locals : List Val} {body : Term}
    (hdom : dom.Within B L) (hlocals : ∀ v ∈ locals, v.Within B L)
    (hbody : body.Within B (locals.length + 1)) : (piVal icit x dom locals body).Within B L :=
  Val.within_closure.2
    ⟨hdom, ⟨hlocals, fun _ _ _ h => (nomatch h), fun _ _ _ h => (nomatch h)⟩, hbody⟩

/-- In bounds are the types of the primitives, and those around an elimination if its parts are. -/
theorem Prim.within_supports :
    Prim.Supports anything (fun n => Term.Within B n) (Val.Within B L) Safely where
  name _ _ := trivial
  term_type := Term.within_type
  term_prim := Term.within_prim
  term_var hi := Term.within_var.2 hi
  term_app hf hx := Term.within_app.2 ⟨hf, hx⟩
  term_pi _ hdom hbody := Term.within_bind.2 ⟨hdom, hbody⟩
  val_type := .type
  val_prim := Val.within_prim
  val_nat := .nat
  val_pi _ := piVal_within
  val_apps p args hp hargs := by
    refine Val.within_neutral.2 ⟨trivial, fun _ => ?_, ?_⟩
    · clear hargs
      induction args with
      | nil => exact trivial
      | cons a args ih => exact ⟨fun hsucc => hp (Head.prim.inj hsucc.1), ih⟩
    · induction args with
      | nil => exact Spine.within_nil
      | cons a args ih =>
        obtain ⟨ha, hargs⟩ := List.forall_mem_cons.1 hargs
        exact Spine.within_cons.2 ⟨Elim.within_app.2 ha, ih hargs⟩
  val_spine hv := (Val.within_neutral.1 hv).2.2
  ok h := .ok h
  bind hr hk := hr.bind hk
  missingIndices := .error id
  apply hv hx := Val.apply_safely hv hx _

end

end Elaborator
