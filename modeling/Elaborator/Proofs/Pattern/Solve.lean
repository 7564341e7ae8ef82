import Mathlib.Data.List.Nodup
import Elaborator.Proofs.Acyclicity
import Elaborator.Proofs.Pattern.Moved
import Elaborator.Proofs.Pattern.Obstacle
import Elaborator.Proofs.Renumber.State

/-! # Pattern problems are solved

A metavariable applied to distinct variables is solved at once. `solve_eq_ok` and `solve_eq_error`
say what happens step by step: the right-hand side is read back, moved into the scope of the
parameters, abstracted over them and evaluated. Then the solution is set, and since no problem waits
for the metavariable, nothing else happens.

The result is a solution of the problem: for the arguments it gives what is equal to the right-hand
side (`Spine.AppliesTo.accepts`). -/

namespace Elaborator

open Elaborator.Action

/-! ## Patterns -/

/-- The spine is made of arguments that are forced to these variables, the last argument first. -/
def Spine.AppliesTo (ms : MetaStore) (sp : Spine) (levels : List Level) : Prop :=
  List.Forall₂ (fun e l => ∃ icit x fuel, e = .app icit x ∧ x.force fuel ms = .ok (.var l)) sp
    levels

section

variable {ms : MetaStore} {sp : Spine} {levels : List Level}

/-- A spine of arguments holds no case analysis. -/
theorem Spine.AppliesTo.split (h : sp.AppliesTo ms levels) : BoolSplit.of? sp = none := by
  cases h with
  | nil => rfl
  | cons he h =>
    obtain ⟨icit, x, fuel, rfl, -⟩ := he
    cases h with
    | nil => rfl
    | cons he h =>
      obtain ⟨icit, x, fuel, rfl, -⟩ := he
      rfl

/-- If the parameters are found, they are the variables. -/
theorem Spine.AppliesTo.params (h : sp.AppliesTo ms levels) {fuel : Nat} {r : Option (List Param)}
    (hr : Spine.params? fuel ms sp = .ok r) :
    ∃ ps, r = some ps ∧ (ps.map (·.level)).reverse = levels ∧ ps.length = sp.length := by
  induction h generalizing r with
  | nil =>
    cases hr
    exact ⟨[], rfl, rfl, rfl⟩
  | @cons e l sp levels he _ ih =>
    obtain ⟨icit, x, f, rfl, hx⟩ := he
    obtain ⟨r', hr', hr⟩ := bind_ok hr
    obtain ⟨ps, rfl, hlevels, hlength⟩ := ih hr'
    obtain ⟨y, hy, hr⟩ := bind_ok hr
    obtain rfl := Val.force_twice_of_lookup rfl _ _ x y _ hy hx
    cases hr
    exact ⟨_, rfl, by simp [hlevels], by simp [hlength]⟩

end

/-! ## The steps -/

theorem distinctLevels_iff {ls : List Level} : distinctLevels ls = true ↔ ls.Nodup := by
  induction ls with
  | nil => simp [distinctLevels]
  | cons l ls ih => simp [distinctLevels, ih]

variable {fuel size : Nat} {g : Globals} {m : MetaId} {sp : Spine} {rhs : Val} {s s' : State}

/-- A metavariable applied to distinct variables is solved by the solution that abstracts over them.
-/
theorem solve_of_params {ps : List Param} (hsplit : BoolSplit.of? sp = none)
    (hps : Spine.params? fuel s.metas sp = .ok (some ps)) (hdistinct : (ps.map (·.level)).Nodup) :
    solve (fuel + 1) g size m sp rhs s =
      (do
        let v ← solution fuel g size m ps rhs
        setMeta m v
        retryFor fuel g m) { s with log := .solve s.metas m size rhs :: s.log } := by
  have hemit : emitWith (fun ms => .solve ms m size rhs) s =
      .ok () { s with log := .solve s.metas m size rhs :: s.log } := rfl
  refine (bind_of_ok hemit).trans ?_
  rw [hsplit]
  refine (bind_metas _ _).trans ((bind_of_ok (lift_eq_ok.2 ⟨hps, rfl⟩)).trans ?_)
  exact congrFun (if_pos (distinctLevels_iff.2 hdistinct)) _

theorem IdMap.erase_eq_self {α : Type} {m : IdMap α} {k : Nat} (h : m.find? k = none) :
    m.erase k = m := by
  have hentries : m.entries.filter (fun e => e.1 != k) = m.entries := by
    refine List.filter_eq_self.2 fun e he => ?_
    rw [bne_comm]
    exact List.lookup_eq_none_iff.1 h e he
  cases m
  rw [IdMap.erase]
  congr

theorem setMeta_of_ok {v : Val} {ms : MetaStore} (h : s.metas.set m v = .ok ms) :
    setMeta m v s = .ok () { s with metas := ms } := by
  refine (bind_metas _ _).trans ?_
  rw [h]
  rfl

/-- If no problem waits, there is nothing to try again. -/
theorem retryFor_of_none (h : s.metas.now.postponed.find? m.toNat = none) :
    retryFor (fuel + 1) g m s = .ok () s := by
  have hproblems : (s.metas.takePostponed m).1 = [] := by simp [MetaStore.takePostponed, h]
  have hmetas : (s.metas.takePostponed m).2 = s.metas := by
    refine MetaStore.ext ?_ rfl rfl
    show { s.metas.now with postponed := s.metas.now.postponed.erase m.toNat } = s.metas.now
    rw [IdMap.erase_eq_self h]
  have htaken : takePostponed m s = .ok [] s := takePostponed_eq_ok.2 ⟨hproblems, by rw [hmetas]⟩
  exact (bind_of_ok htaken).trans rfl

/-- Solving a metavariable for which no problem waits changes its cell only. -/
theorem setMeta_retryFor (fuel : Nat) (g : Globals) (s : State) {v : Val} {ms : MetaStore}
    (hset : s.metas.set m v = .ok ms) (hwaiting : s.metas.now.postponed.find? m.toNat = none) :
    (do
      setMeta m v
      retryFor (fuel + 1) g m) s = .ok () { s with metas := ms } := by
  obtain ⟨-, hnow, -, -⟩ := MetaStore.set_eq_ok_iff.1 hset
  have hwaiting' : ms.now.postponed.find? m.toNat = none := by rw [hnow, hwaiting]
  exact (bind_of_ok (setMeta_of_ok hset)).trans (retryFor_of_none hwaiting')

theorem quote_eq_ok {n : Nat} {v : Val} {t : Term} :
    quote fuel n v s = .ok t s' ↔ v.quote fuel s.metas false n = .ok t ∧ s = s' := by
  constructor
  · intro h
    obtain ⟨ms, u, hms, h⟩ := bind_eq_ok.1 h
    obtain ⟨rfl, rfl⟩ := metas_eq_ok.1 hms
    exact lift_eq_ok.1 h
  · intro h
    exact bind_eq_ok.2 ⟨_, _, metas_eq_ok.2 ⟨rfl, rfl⟩, lift_eq_ok.2 h⟩

theorem quote_ne_error {n : Nat} {v : Val} {e : Error} :
    quote fuel n v s ≠ .error (.error e) s' := by
  intro h
  rcases bind_eq_error.1 h with h | ⟨ms, u, hms, h⟩
  · exact metas_ne_error h
  · obtain ⟨f, -, hf, -⟩ := lift_eq_error.1 h
    cases hf

/-- What is found for a right-hand side. -/
theorem solution_eq_ok_iff {ps : List Param} {v : Val} :
    solution fuel g size m ps rhs s = .ok v s' ↔
      ∃ t u, rhs.quote fuel s.metas false size = .ok t ∧
        t.rename m (ps.map (·.level)).reverse size 0 = .ok u ∧
        (Term.abstract ps u).eval fuel g.env = .ok v ∧
          { s with log := .solved m :: s.log } = s' := by
  constructor
  · intro h
    obtain ⟨t, s₁, hread, h⟩ := bind_eq_ok.1 h
    obtain ⟨ht, rfl⟩ := quote_eq_ok.1 hread
    cases hu : t.rename m (ps.map (·.level)).reverse size 0 with
    | error e =>
      rw [hu] at h
      cases h
    | ok u =>
      rw [hu] at h
      obtain ⟨⟨⟩, s₂, hemit, h⟩ := bind_eq_ok.1 h
      obtain ⟨hv, rfl⟩ := lift_eq_ok.1 h
      cases hemit
      exact ⟨t, u, ht, hu, hv, rfl⟩
  · rintro ⟨t, u, ht, hu, hv, rfl⟩
    refine bind_eq_ok.2 ⟨t, s, quote_eq_ok.2 ⟨ht, rfl⟩, ?_⟩
    rw [hu]
    exact bind_eq_ok.2 ⟨(), _, rfl, lift_eq_ok.2 ⟨hv, rfl⟩⟩

/-- The only errors are those of moving the right-hand side. -/
theorem solution_eq_error {ps : List Param} {e : Error}
    (h : solution fuel g size m ps rhs s = .error (.error e) s') :
    s' = s ∧ ∃ t, rhs.quote fuel s.metas false size = .ok t ∧
      t.rename m (ps.map (·.level)).reverse size 0 = .error (.error e) := by
  rcases bind_eq_error.1 h with h | ⟨t, s₁, hread, h⟩
  · exact absurd h quote_ne_error
  · obtain ⟨ht, rfl⟩ := quote_eq_ok.1 hread
    cases hu : t.rename m (ps.map (·.level)).reverse size 0 with
    | error d =>
      rw [hu] at h
      cases h
      exact ⟨rfl, t, ht, hu⟩
    | ok u =>
      rw [hu] at h
      rcases bind_eq_error.1 h with h | ⟨⟨⟩, s₂, hemit, h⟩
      · cases h
      · obtain ⟨f, -, hf, -⟩ := lift_eq_error.1 h
        cases hf

section

variable {levels : List Level} (hsp : sp.AppliesTo s.metas levels)

include hsp

/-- If the problem is not left for lack of fuel, its parameters were found. -/
theorem Spine.AppliesTo.of_returns (h : (solve fuel g size m sp rhs).Returns s s') :
    ∃ k ps, fuel = k + 1 ∧ Spine.params? k s.metas sp = .ok (some ps) ∧
      (ps.map (·.level)).reverse = levels ∧ ps.length = sp.length := by
  cases fuel with
  | zero => rcases h with ⟨_, h⟩ | ⟨_, h⟩ <;> cases h
  | succ k =>
    rcases returns_bind.1 h with ⟨e, h⟩ | ⟨⟨⟩, s₁, hemit, h⟩
    · cases h
    · cases hemit
      rw [hsp.split] at h
      rcases returns_bind.1 h with ⟨e, h⟩ | ⟨ms, s₂, hms, h⟩
      · exact absurd h metas_ne_error
      · obtain ⟨rfl, rfl⟩ := metas_eq_ok.1 hms
        rcases returns_bind.1 h with ⟨e, h⟩ | ⟨r, s₃, hlift, h⟩
        · obtain ⟨f, -, hf, -⟩ := lift_eq_error.1 h
          cases hf
        · obtain ⟨hr, -⟩ := lift_eq_ok.1 hlift
          obtain ⟨ps, rfl, hlevels, hlength⟩ := hsp.params hr
          exact ⟨k, ps, rfl, hr, hlevels, hlength⟩

variable (hdistinct : levels.Nodup) (hopen : s.metas.now.cells.find? m.toNat = some none)
  (hwaiting : s.metas.now.postponed.find? m.toNat = none)

include hdistinct hopen hwaiting

/-- How a pattern problem is solved. -/
theorem solve_eq_ok (h : solve fuel g size m sp rhs s = .ok () s') :
    ∃ k ps t u v, (ps.map (·.level)).reverse = levels ∧ ps.length = sp.length ∧
      rhs.quote k s.metas false size = .ok t ∧ t.rename m levels size 0 = .ok u ∧
      (Term.abstract ps u).eval k g.env = .ok v ∧ s.metas.set m v = .ok s'.metas := by
  obtain ⟨k, ps, rfl, hps, rfl, hlength⟩ := hsp.of_returns (.of_ok h)
  rw [solve_of_params hsp.split hps (List.nodup_reverse.1 hdistinct)] at h
  obtain ⟨v, s₁, hfound, h⟩ := bind_eq_ok.1 h
  obtain ⟨t, u, ht, hu, hv, hs₁⟩ := solution_eq_ok_iff.1 hfound
  have hmetas : s₁.metas = s.metas := by rw [← hs₁]
  obtain ⟨ms, hms⟩ := MetaStore.set_of_open (v := v) hopen
  rw [← hmetas] at hms hwaiting
  cases k with
  | zero => cases ht
  | succ k =>
    cases (setMeta_retryFor k g s₁ hms hwaiting).symm.trans h
    exact ⟨k + 1, ps, t, u, v, rfl, hlength, ht, hu, hv, hmetas ▸ hms⟩

/-- Why a pattern problem is refused. -/
theorem solve_eq_error {e : Error} (h : solve fuel g size m sp rhs s = .error (.error e) s') :
    s'.metas = s.metas ∧ ∃ k t, rhs.quote k s.metas false size = .ok t ∧
      t.rename m levels size 0 = .error (.error e) := by
  obtain ⟨k, ps, rfl, hps, rfl, hlength⟩ := hsp.of_returns (.of_error h)
  rw [solve_of_params hsp.split hps (List.nodup_reverse.1 hdistinct)] at h
  rcases bind_eq_error.1 h with h | ⟨v, s₁, hfound, h⟩
  · obtain ⟨rfl, t, ht, hu⟩ := solution_eq_error h
    exact ⟨rfl, k, t, ht, hu⟩
  · -- A solution that was found can be stored.
    obtain ⟨t, u, ht, hu, hv, hs₁⟩ := solution_eq_ok_iff.1 hfound
    have hmetas : s₁.metas = s.metas := by rw [← hs₁]
    obtain ⟨ms, hms⟩ := MetaStore.set_of_open (v := v) hopen
    rw [← hmetas] at hms hwaiting
    cases k with
    | zero => cases ht
    | succ k => cases (setMeta_retryFor k g s₁ hms hwaiting).symm.trans h

/-- If the steps succeed, so does the whole, and the metavariable has the solution. -/
theorem solve_set_of_eval {ps : List Param} {t u : Term} {v : Val}
    (hps : Spine.params? (fuel + 1) s.metas sp = .ok (some ps))
    (ht : rhs.quote (fuel + 1) s.metas false size = .ok t) (hu : t.rename m levels size 0 = .ok u)
    (hv : (Term.abstract ps u).eval (fuel + 1) g.env = .ok v) :
    ∃ s', solve (fuel + 2) g size m sp rhs s = .ok () s' ∧ s.metas.set m v = .ok s'.metas := by
  obtain ⟨ps', hps', rfl, -⟩ := hsp.params hps
  cases hps'
  obtain ⟨ms, hms⟩ := MetaStore.set_of_open (v := v) hopen
  rw [solve_of_params hsp.split hps (List.nodup_reverse.1 hdistinct)]
  have hfound := (solution_eq_ok_iff (s := { s with log := .solve s.metas m size rhs :: s.log })).2
    ⟨t, u, ht, hu, hv, rfl⟩
  exact ⟨_, (bind_of_ok hfound).trans (setMeta_retryFor fuel g _ hms hwaiting), hms⟩

/-- Solving succeeds when the right-hand side reads back, renames and evaluates. -/
theorem solve_of_eval {ps : List Param} {t u : Term} {v : Val}
    (hps : Spine.params? (fuel + 1) s.metas sp = .ok (some ps))
    (ht : rhs.quote (fuel + 1) s.metas false size = .ok t) (hu : t.rename m levels size 0 = .ok u)
    (hv : (Term.abstract ps u).eval (fuel + 1) g.env = .ok v) :
    ∃ s', solve (fuel + 2) g size m sp rhs s = .ok () s' :=
  (solve_set_of_eval hsp hdistinct hopen hwaiting hps ht hu hv).imp fun _ => And.left

end

/-- Abstracting over one more parameter binds it innermost. -/
theorem Term.abstract_concat (ps : List Param) (p : Param) (body : Term) :
    Term.abstract (ps ++ [p]) body =
      Term.abstract ps (.lam p.icit ⟨"$" ++ toString p.level.toNat⟩ .type body) := by
  simp [Term.abstract]

/-- Applied to as many arguments as there are parameters, an abstraction gives the value of its body
for them. -/
theorem Term.abstract_applied {env : Env} {v w : Val} {ps : List Param} {body : Term} {f f' : Nat}
    (hsp : ∀ e ∈ sp, ∃ icit x, e = .app icit x) (hlength : ps.length = sp.length)
    (hv : (Term.abstract ps body).eval f env = .ok v) (hw : v.applySpine f' sp = .ok w) :
    ∃ k, body.eval k { env with locals := Spine.vals sp ++ env.locals } = .ok w := by
  -- From the outermost argument on: the last parameter is bound innermost.
  induction sp generalizing ps body w with
  | nil =>
    obtain rfl := List.length_eq_zero_iff.1 hlength
    cases hw
    cases env
    exact ⟨f, hv⟩
  | cons e sp ih =>
    obtain ⟨⟨icit, x, rfl⟩, hrest⟩ := List.forall_mem_cons.1 hsp
    rcases List.eq_nil_or_concat ps with rfl | ⟨ps, p, rfl⟩
    · cases hlength
    · rw [List.concat_eq_append] at hv hlength
      rw [Term.abstract_concat] at hv
      obtain ⟨u, hu, hw⟩ := bind_ok hw
      obtain ⟨k, hk⟩ := ih hrest (by simpa using hlength) hv hu
      cases k with
      | zero => cases hk
      | succ k =>
        obtain ⟨dom, -, hk⟩ := bind_ok hk
        cases hk
        cases f' with
        | zero => cases hw
        | succ f' => exact ⟨f', hw⟩

/-! ## The problem and its solution -/

namespace Spine.AppliesTo

variable {ms ms' : MetaStore} {levels : List Level} {v : Val}

theorem isApp (h : sp.AppliesTo ms levels) : ∀ e ∈ sp, ∃ icit x, e = .app icit x := by
  induction h with
  | nil => exact List.forall_mem_nil _
  | cons he _ ih =>
    obtain ⟨icit, x, -, rfl, -⟩ := he
    exact List.forall_mem_cons.2 ⟨⟨icit, x, rfl⟩, ih⟩

/-- The arguments of a pattern unwind to the variables they stand for. -/
theorem unwinds {σ : MetaId → Option Val} (h : sp.AppliesTo ms levels)
    (hσ : ∀ q v, ms.lookup q = some v → σ q = some v) :
    List.Forall₂ (fun x l => x.Unwinds σ (.var l)) (Spine.vals sp) levels := by
  induction h with
  | nil => exact .nil
  | cons he _ ih =>
    obtain ⟨icit, x, f, rfl, hx⟩ := he
    exact .cons ((Val.unwinds_of_force hx).mono hσ) ih

/-- As long as no other metavariable is solved, the arguments stand for the variables. -/
theorem later (h : sp.AppliesTo ms levels) (hopen : ms.now.cells.find? m.toNat = some none)
    (hsolutions : ∀ q u, ms.lookup q = some u → u.Settled anything anything false)
    (hkept : ∀ q, q ≠ m → ms'.lookup q = ms.lookup q) (g : Globals) (size : Nat) :
    Pattern.Later ⟨ms, g, m, size, levels, Spine.vals sp⟩ ms' := by
  have hunsolved : ms.lookup m = none := by simp [MetaStore.lookup, hopen]
  refine ⟨hsolutions, hunsolved, hkept, h.unwinds fun q u hu => ?_⟩
  have hq : q ≠ m := by
    rintro rfl
    rw [hunsolved] at hu
    cases hu
  rw [hkept q hq, hu]

/-- What the solution gives for the arguments is equal to the right-hand side. -/
theorem accepts (h : sp.AppliesTo ms levels) (hset : ms.set m v = .ok ms')
    (hsolutions : ∀ q u, ms.lookup q = some u → u.Settled anything anything false)
    (hrhs : rhs.Settled anything anything false) {ps : List Param}
    (hlength : ps.length = sp.length) {t u : Term} {k : Nat}
    (ht : rhs.quote k ms false size = .ok t) (hu : t.rename m levels size 0 = .ok u)
    (hv : (Term.abstract ps u).eval k g.env = .ok v) (f : Nat) :
    Looks ms'.lookup (unify f .rigid g size (.neutral (.metavar m) sp) rhs) anything noErrors := by
  -- Forcing the left-hand side puts the arguments in the place of the parameters.
  have hcovers : ∀ a, (Val.neutral (.metavar m) sp).ForcesTo ms'.lookup a →
      ∃ w, (Pattern.mk ms g m size levels (Spine.vals sp)).Yields k 0 rhs w ∧
        w.ForcesTo ms'.lookup a := by
    rintro a ⟨ms₁, f₁, hms₁, ha⟩
    cases f₁ with
    | zero => cases ha
    | succ f₁ =>
      have hlookup : ms₁.lookup m = some v := by rw [hms₁, MetaStore.lookup_set hset, if_pos rfl]
      simp only [Val.forceMeta, hlookup] at ha
      obtain ⟨w, hw, ha⟩ := bind_ok ha
      obtain ⟨f₂, hw⟩ := Term.abstract_applied h.isApp hlength hv hw
      rw [show g.env.locals = [] from rfl, List.append_nil] at hw
      exact ⟨w, ⟨u, f₂, ⟨hrhs, t, ht, hu⟩, hw⟩, ms₁, f₁, hms₁, ha⟩
  have hkept : ∀ q, q ≠ m → ms'.lookup q = ms.lookup q := by
    intro q hq
    have hne : q.toNat ≠ m.toNat := by
      intro heq
      exact hq (by cases q; cases m; simpa using heq)
    rw [MetaStore.lookup_set hset, if_neg hne]
  obtain ⟨hopen, -, -, -⟩ := MetaStore.set_eq_ok_iff.1 hset
  exact Pattern.yields_accepts (h.later hopen hsolutions hkept g size) hcovers f

end Spine.AppliesTo

/-- A value that evaluation makes of settled ones holds nothing that is left to compute. -/
theorem Term.eval_settled {fuel : Nat} {env : Env} {t : Term} {v : Val}
    (henv : ∀ x ∈ env.locals, x.Settled anything anything false) (hv : t.eval fuel env = .ok v) :
    v.Settled anything anything false :=
  Term.SettledIn.eval ⟨henv, fun _ _ _ _ => trivial, nofun, fun _ _ => trivial⟩ hv

/-- **Pattern problems are solved correctly.** A metavariable without a solution, for which no
problem waits, is applied to arguments that are forced to distinct variables. If the problem is
solved, then by a closed value, nothing else has changed in the store, and the metavariable applied
to the arguments is now convertible to the right-hand side: checking their conversion never ends
with an error. If the problem is refused, then since the right-hand side depends on another variable
or on the metavariable itself, and the store is as before. Like all values that evaluation makes,
the right-hand side and the solutions hold nothing that is left to compute; so does the new
solution. -/
theorem solve_pattern_sound {fuel size : Nat} {g : Globals} {m : MetaId} {sp : Spine} {rhs : Val}
    {levels : List Level} {s : State} (hg : g.Ground)
    (hsolutions : ∀ q v, s.metas.lookup q = some v → v.Settled anything anything false)
    (hopen : s.metas.now.cells.find? m.toNat = some none)
    (hwaiting : s.metas.now.postponed.find? m.toNat = none) (hsp : sp.AppliesTo s.metas levels)
    (hdistinct : levels.Nodup) (hrhs : rhs.Settled anything anything false) :
    (∀ s', solve fuel g size m sp rhs s = .ok () s' →
      (∃ v, s'.metas.lookup m = some v ∧ v.Within .all noLevels ∧
        v.Settled anything anything false) ∧
      (∀ q, q ≠ m.toNat → s'.metas.now.cells.find? q = s.metas.now.cells.find? q) ∧
      s'.metas.now.postponed = s.metas.now.postponed ∧ s'.metas.saved = s.metas.saved ∧
      s'.metas.next = s.metas.next ∧
      ∀ fuel' t, (unify fuel' .rigid g size (.neutral (.metavar m) sp) rhs).Returns s' t →
        unify fuel' .rigid g size (.neutral (.metavar m) sp) rhs s' = .ok () t) ∧
    ∀ e s', solve fuel g size m sp rhs s = .error (.error e) s' →
      (e = .occurs m ∨ ∃ x, e = .scope m x) ∧ s'.metas = s.metas := by
  constructor
  · intro s' h
    obtain ⟨k, ps, t, u, v, hlevels, hlength, ht, hu, hv, hset⟩ :=
      solve_eq_ok hsp hdistinct hopen hwaiting h
    obtain ⟨-, hnow, hsaved, hnext⟩ := MetaStore.set_eq_ok_iff.1 hset
    have hlookup : s'.metas.lookup m = some v := by rw [MetaStore.lookup_set hset, if_pos rfl]
    have hfound : s.metas.Finds g m v := ⟨k, size, ps, rhs, t, u, ht, hlevels ▸ hu, hv⟩
    have hclosed : v.Within .all noLevels :=
      (hfound.within hg).widen ⟨fun _ _ => trivial, fun _ _ => id, id⟩
    have hsettled : v.Settled anything anything false :=
      Term.eval_settled (List.forall_mem_nil _) hv
    have hkept : ∀ q, q ≠ m.toNat → s'.metas.now.cells.find? q = s.metas.now.cells.find? q := by
      intro q hq
      rw [hnow, IdMap.find?_insert, if_neg hq]
    refine ⟨⟨v, hlookup, hclosed, hsettled⟩,
      hkept, by rw [hnow], hsaved, hnext, fun f t' hreturns => ?_⟩
    have hlooks := hsp.accepts hset hsolutions hrhs hlength ht hu hv f
    rcases hreturns with ⟨⟨⟩, hok⟩ | ⟨e, herror⟩
    · exact hok
    · exact ((hlooks.error rfl herror).2).elim
  · intro e s' h
    obtain ⟨hmetas, k, t, -, hu⟩ := solve_eq_error hsp hdistinct hopen hwaiting h
    refine ⟨?_, hmetas⟩
    cases t.rename_obstacle _ hu with
    | occurs => exact .inl rfl
    | scope => exact .inr ⟨_, rfl⟩

/-- `?1` is the identity function, and so is `i`. Then `?0 (?1 x) (i y) = \z. x (y z)` has a
solution. -/
theorem solve_pattern_sound_composition :
    ∃ (s s' t : State) (identity rhs v : Val) (sp : Spine),
      (Term.lam .expl ⟨"z"⟩ .type (.var ⟨0⟩)).eval 9 Globals.empty.env = .ok identity ∧
      (Term.lam .expl ⟨"z"⟩ .type (.app (.var ⟨2⟩) .expl (.app (.var ⟨1⟩) .expl (.var ⟨0⟩)))).eval 9
        (Globals.empty.scopeEnv 2) = .ok rhs ∧
      s.metas.lookup ⟨1⟩ = some identity ∧
      sp = [.app .expl (.glued ⟨"i"⟩ [.app .expl (.fresh 1)] identity),
        .app .expl (.neutral (.metavar ⟨1⟩) [.app .expl (.fresh 0)])] ∧
      sp.AppliesTo s.metas [⟨1⟩, ⟨0⟩] ∧
      solve 12 .empty 2 ⟨0⟩ sp rhs s = .ok () s' ∧ s'.metas.lookup ⟨0⟩ = some v ∧
        v.Within .all noLevels ∧
      unify 12 .rigid .empty 2 (.neutral (.metavar ⟨0⟩) sp) rhs s' = .ok () t := by
  obtain ⟨identity, rhs, sp, ms, s', t, hidentity, hrhs, hspine, hset, hopen, hwaiting, hy, hx,
    hsolve, hreturns⟩ : ∃ (identity rhs : Val) (sp : Spine) (ms : MetaStore) (s' t : State),
        (Term.lam .expl ⟨"z"⟩ .type (.var ⟨0⟩)).eval 9 Globals.empty.env = .ok identity ∧
        (Term.lam .expl ⟨"z"⟩ .type (.app (.var ⟨2⟩) .expl (.app (.var ⟨1⟩) .expl (.var ⟨0⟩)))).eval
          9 (Globals.empty.scopeEnv 2) = .ok rhs ∧
        sp = [.app .expl (.glued ⟨"i"⟩ [.app .expl (.fresh 1)] identity),
          .app .expl (.neutral (.metavar ⟨1⟩) [.app .expl (.fresh 0)])] ∧
        MetaStore.empty.fresh.2.fresh.2.set ⟨1⟩ identity = .ok ms ∧
        ms.now.cells.find? 0 = some none ∧ ms.now.postponed.find? 0 = none ∧
        (Val.glued ⟨"i"⟩ [.app .expl (.fresh 1)] identity).force 9 ms = .ok (.var ⟨1⟩) ∧
        (Val.neutral (.metavar ⟨1⟩) [.app .expl (.fresh 0)]).force 9 ms = .ok (.var ⟨0⟩) ∧
        solve 12 .empty 2 ⟨0⟩ sp rhs ⟨ms, [], []⟩ = .ok () s' ∧
        (unify 12 .rigid .empty 2 (.neutral (.metavar ⟨0⟩) sp) rhs).Returns s' t :=
    ⟨_, _, _, _, _, _, rfl, rfl, rfl, rfl, rfl, rfl, rfl, rfl, rfl, .of_ok rfl⟩
  have hsp : sp.AppliesTo ms [⟨1⟩, ⟨0⟩] := by
    rw [hspine]
    exact .cons ⟨_, _, 9, rfl, hy⟩ (.cons ⟨_, _, 9, rfl, hx⟩ .nil)
  have hsettled : rhs.Settled anything anything false := by
    refine Term.eval_settled ?_ hrhs
    exact List.forall_mem_cons.2
      ⟨Val.settled_fresh 1, List.forall_mem_singleton.2 (Val.settled_fresh 0)⟩
  have hsolutions : ∀ q v, ms.lookup q = some v → v.Settled anything anything false := by
    intro q v hv
    rw [MetaStore.lookup_set hset, MetaStore.lookup_fresh, MetaStore.lookup_fresh] at hv
    split at hv
    · cases hv
      exact Term.eval_settled (List.forall_mem_nil _) hidentity
    · split at hv
      · cases hv
      · split at hv <;> cases hv
  have hground : Globals.empty.Ground := .empty
  obtain ⟨⟨v, hv, hclosed, -⟩, -, -, -, -, hconverts⟩ :=
    (solve_pattern_sound (s := ⟨ms, [], []⟩) hground hsolutions
    hopen hwaiting hsp (by decide) hsettled).1 s' hsolve
  refine ⟨⟨ms, [], []⟩, s', t, identity, rhs, v, sp, hidentity, hrhs, ?_, hspine, hsp, hsolve,
    hv, hclosed, ?_⟩
  · rw [MetaStore.lookup_set hset]
    rfl
  · exact hconverts 12 t hreturns

end Elaborator
