import Elaborator.Proofs.Replay.Eval

/-! # Unfolding before and after eliminations

A global is kept folded, and a solved metavariable may still stand at the head of a value
(`Val.Folds`). Eliminations are then collected and nothing is computed. Forcing puts what the head
stands for in its place, takes the collected eliminations to it, and does the same with the result
for as long as its head stands for something else. These are the steps of `Val.Unwinds`.

A step leads to the same value whether further eliminations are collected before it or take place
after it. Hence it does not matter when a value is forced: forcing it first, eliminating the result
and forcing again returns what eliminating and forcing return (`Val.force_applySpine`). -/

namespace Elaborator

/-! ## Steps -/

/-- With the solutions `σ`, the head of a value stands for `base`, and the eliminations of a spine
wait for it. -/
inductive Val.Folds (σ : MetaId → Option Val) : Val → (base : Val) → Spine → Prop
  | solution {m : MetaId} {base : Val} {sp : Spine} (solved : σ m = some base) :
      Folds σ (.neutral (.metavar m) sp) base sp
  | global {x : Name} {base : Val} {sp : Spine} : Folds σ (.glued x sp base) base sp

/-- With the solutions `σ`, some steps lead from `v` to `w`, in each of which a solved metavariable
or a global at the head is replaced. -/
inductive Val.Unwinds (σ : MetaId → Option Val) : Val → Val → Prop
  | done (v : Val) : Unwinds σ v v
  | solution {m : MetaId} {sp : Spine} {v u w : Val} {fuel : Nat} (solved : σ m = some v)
      (applied : v.applySpine fuel sp = .ok u) (rest : Unwinds σ u w) :
      Unwinds σ (.neutral (.metavar m) sp) w
  | global {x : Name} {sp : Spine} {base u w : Val} {fuel : Nat}
      (applied : base.applySpine fuel sp = .ok u) (rest : Unwinds σ u w) :
      Unwinds σ (.glued x sp base) w

def Val.Exposed (σ : MetaId → Option Val) (v : Val) : Prop := ∀ base sp, ¬ v.Folds σ base sp

section

variable {σ : MetaId → Option Val} {v w u base : Val} {sp : Spine}

/-- Induction along the steps, without looking at what is replaced. -/
theorem Val.Unwinds.along {motive : Val → Prop} (h : v.Unwinds σ w) (done : motive w)
    (step : ∀ {v base u sp fuel}, v.Folds σ base sp → base.applySpine fuel sp = .ok u →
      motive u → motive v) : motive v := by
  induction h with
  | done => exact done
  | solution solved applied _ ih => exact step (.solution solved) applied (ih done)
  | global applied _ ih => exact step .global applied (ih done)

theorem Val.Unwinds.trans (h : v.Unwinds σ u) (h' : u.Unwinds σ w) : v.Unwinds σ w := by
  induction h with
  | done => exact h'
  | solution solved applied _ ih => exact .solution solved applied (ih h')
  | global applied _ ih => exact .global applied (ih h')

/-- More solutions allow the same steps. -/
theorem Val.Unwinds.mono {τ : MetaId → Option Val} (h : v.Unwinds σ w)
    (hστ : ∀ m u, σ m = some u → τ m = some u) : v.Unwinds τ w := by
  induction h with
  | done v => exact .done v
  | solution solved applied _ ih => exact .solution (hστ _ _ solved) applied ih
  | global applied _ ih => exact .global applied ih

end

/-! ## Forcing takes such steps -/

section

variable {ms : MetaStore} {v w u base : Val} {sp rest : Spine} {fuel fuel' : Nat}

/-- Forcing metavariables unwinds a value. -/
theorem Val.unwinds_of_forceMeta (h : v.forceMeta fuel ms = .ok w) : v.Unwinds ms.lookup w := by
  induction fuel generalizing v with
  | zero => cases h
  | succ fuel ih =>
    cases v with
    | neutral k sp =>
      cases k with
      | metavar m =>
        simp only [Val.forceMeta] at h
        cases hm : ms.lookup m with
        | none =>
          rw [hm] at h
          cases h
          exact .done _
        | some solution =>
          rw [hm] at h
          obtain ⟨u, hu, h⟩ := bind_ok h
          exact .solution hm hu (ih h)
      | var | prim =>
        cases h
        exact .done _
    | type | glued | closure | pair | nat =>
      cases h
      exact .done _

/-- Forcing metavariables and definitions unwinds a value. -/
theorem Val.unwinds_of_force (h : v.force fuel ms = .ok w) : v.Unwinds ms.lookup w := by
  induction fuel generalizing v with
  | zero => cases h
  | succ fuel ih =>
    cases v with
    | glued x sp base =>
      obtain ⟨u, hu, h⟩ := bind_ok h
      exact .global hu (ih h)
    | type | neutral | closure | pair | nat =>
      obtain ⟨u, hu, h⟩ := bind_ok h
      refine (Val.unwinds_of_forceMeta hu).trans ?_
      cases u with
      | glued x sp base => exact ih h
      | type | neutral | closure | pair | nat =>
        cases h
        exact .done _

/-- Forcing goes on until nothing is left to replace. -/
theorem Val.exposed_of_force (h : v.force fuel ms = .ok w) : w.Exposed ms.lookup := by
  induction fuel generalizing v with
  | zero => cases h
  | succ fuel ih =>
    cases v with
    | glued x sp base =>
      obtain ⟨u, -, h⟩ := bind_ok h
      exact ih h
    | type | neutral | closure | pair | nat =>
      obtain ⟨u, hu, h⟩ := bind_ok h
      cases u with
      | glued x sp base => exact ih h
      | neutral k sp =>
        cases h
        rintro base _ ⟨solved⟩
        rw [Val.forceMeta_unsolved hu] at solved
        cases solved
      | type | closure | pair | nat =>
        cases h
        rintro _ _ ⟨⟩

/-- Where nothing is left to replace, forcing changes nothing. -/
theorem Val.Exposed.force (h : v.Exposed ms.lookup) : v.force 2 ms = .ok v := by
  have hmeta : v.forceMeta 1 ms = .ok v := by
    refine Val.forceMeta_open fun m sp hv => Option.eq_none_iff_forall_ne_some.2 fun base hm => ?_
    subst hv
    exact h base sp (.solution hm)
  cases v with
  | glued x sp base => exact (h base sp .global).elim
  | type | neutral | closure | pair | nat =>
    rw [Val.force, hmeta]
    · rfl
    · simp

/-! ## Eliminating and then forcing -/

/-- Applying a value to two spines in a row is applying it to their concatenation. -/
theorem Val.applySpine_append (v : Val) (sp rest : Spine) :
    v.applySpine fuel (rest ++ sp) = v.applySpine fuel sp >>= fun u => u.applySpine fuel rest := by
  induction rest with
  | nil => exact (bind_pure (v.applySpine fuel sp)).symm
  | cons e rest ih => simp [Val.applySpine, ih]

/-- Eliminating `v` in these ways and forcing the result returns `w`. -/
def Val.UnfoldsUnder (ms : MetaStore) (sp : Spine) (v w : Val) : Prop :=
  ∃ fuel u, v.applySpine fuel sp = .ok u ∧ u.force fuel ms = .ok w

/-- The two parts may have different fuel. -/
theorem Val.UnfoldsUnder.of_ok (hu : v.applySpine fuel sp = .ok u) (hw : u.force fuel' ms = .ok w) :
    v.UnfoldsUnder ms sp w :=
  ⟨max fuel fuel', u, (Val.applySpine_prolongs (Nat.le_max_left ..) v sp).ok hu,
    (Val.force_prolongs ms (Nat.le_max_right ..) u).ok hw⟩

/-- The first eliminations may be done already. -/
theorem Val.unfoldsUnder_append (hu : base.applySpine fuel sp = .ok u) :
    base.UnfoldsUnder ms (rest ++ sp) w ↔ u.UnfoldsUnder ms rest w := by
  simp only [Val.UnfoldsUnder, Val.applySpine_append]
  constructor
  · rintro ⟨f, x, hx, hw⟩
    obtain ⟨u', hu', hx⟩ := bind_ok hx
    obtain rfl := Val.applySpine_twice _ _ base sp u u' hu hu'
    exact ⟨f, x, hx, hw⟩
  · rintro ⟨f, x, hx, hw⟩
    refine ⟨max fuel f, x, ?_, (Val.force_prolongs ms (Nat.le_max_right ..) x).ok hw⟩
    rw [(Val.applySpine_prolongs (Nat.le_max_left ..) base sp).ok hu]
    exact (Val.applySpine_prolongs (Nat.le_max_right ..) u rest).ok hx

/-- What a solved metavariable is forced to is what its solution, put in its place, is forced to. -/
theorem Val.unfoldsUnder_of_force_solution {m : MetaId} (hm : ms.lookup m = some base)
    (h : (Val.neutral (.metavar m) sp).force fuel ms = .ok w) : base.UnfoldsUnder ms sp w := by
  cases fuel with
  | zero => cases h
  | succ fuel =>
    obtain ⟨b, hb, hw⟩ := bind_ok h
    clear h
    cases fuel with
    | zero => cases hb
    | succ fuel =>
      simp only [Val.forceMeta, hm] at hb
      obtain ⟨u, hu, hb⟩ := bind_ok hb
      -- A global is forced as it is; anything else is looked up first, which has given `b`.
      cases u with
      | glued x sp base =>
        obtain rfl := Val.forceMeta_settled rfl hb
        exact .of_ok hu hw
      | type | neutral | closure | pair | nat =>
        refine .of_ok hu (?_ : Val.force (fuel + 2) ms _ = _)
        rw [Val.force, (Val.forceMeta_prolongs ms (Nat.le_succ fuel) _).ok hb]
        · exact hw
        · simp

/-- A solved metavariable forces to what its solution unfolds to under the same spine. -/
theorem Val.force_solution_of_unfoldsUnder {m : MetaId} (hm : ms.lookup m = some base)
    (h : base.UnfoldsUnder ms sp w) :
    ∃ fuel, (Val.neutral (.metavar m) sp).force fuel ms = .ok w := by
  obtain ⟨fuel, u, hu, hw⟩ := h
  -- Looking the metavariable up leads to `u`, and then on to what `u` is looked up to.
  have hlook : (Val.neutral (.metavar m) sp).forceMeta (fuel + 1) ms = u.forceMeta fuel ms := by
    simp only [Val.forceMeta, hm, hu, ok_bind]
  refine ⟨fuel + 2, ?_⟩
  cases fuel with
  | zero => cases hw
  | succ fuel =>
    rw [Val.force, hlook]
    · cases u with
      | glued x sp base => exact (Val.force_prolongs ms (Nat.le_succ _) _).ok hw
      | type | neutral | closure | pair | nat =>
        obtain ⟨b, hb, hw⟩ := bind_ok hw
        rw [(Val.forceMeta_prolongs ms (Nat.le_succ fuel) _).ok hb, ok_bind]
        cases b with
        | glued x sp base => exact (Val.force_prolongs ms (by omega) _).ok hw
        | type | neutral | closure | pair | nat => exact hw
    · simp

namespace Val.Folds

/-- A value folds back to one base and one spine at most. -/
theorem unique {base' : Val} {sp' : Spine} (h : v.Folds ms.lookup base sp)
    (h' : v.Folds ms.lookup base' sp') : base = base' ∧ sp = sp' := by
  cases h with
  | solution solved =>
    obtain ⟨solved'⟩ := h'
    exact ⟨Option.some.inj (solved.symm.trans solved'), rfl⟩
  | global =>
    cases h'
    exact ⟨rfl, rfl⟩

/-- A folded value collects eliminations. -/
theorem applySpine (h : v.Folds ms.lookup base sp) (rest : Spine) :
    ∃ w, w.Folds ms.lookup base (rest ++ sp) ∧ ∀ fuel, v.applySpine (fuel + 2) rest = .ok w := by
  induction rest with
  | nil => exact ⟨v, h, fun _ => rfl⟩
  | cons e rest ih =>
    obtain ⟨u, hu, happly⟩ := ih
    simp only [Val.applySpine, happly, ok_bind]
    cases hu with
    | solution solved =>
      refine ⟨_, .solution solved, fun fuel => ?_⟩
      cases e with
      | app | proj => rfl
      | cases e => cases e <;> rfl
    | global => exact ⟨_, .global, fun _ => rfl⟩

/-- Forcing a folded value is forcing what it stands for, under the eliminations that were
collected. -/
theorem force_iff (h : v.Folds ms.lookup base sp) :
    (∃ fuel, v.force fuel ms = .ok w) ↔ base.UnfoldsUnder ms sp w := by
  cases h with
  | solution solved =>
    exact ⟨fun ⟨_, hw⟩ => Val.unfoldsUnder_of_force_solution solved hw,
      Val.force_solution_of_unfoldsUnder solved⟩
  | global =>
    constructor
    · rintro ⟨fuel, hw⟩
      cases fuel with
      | zero => cases hw
      | succ fuel =>
        obtain ⟨u, hu, hw⟩ := bind_ok hw
        exact ⟨fuel, u, hu, hw⟩
    · rintro ⟨fuel, u, hu, hw⟩
      refine ⟨fuel + 1, ?_⟩
      rw [Val.force, hu]
      exact hw

/-- Eliminations that a folded value collects meet what it stands for after those that were there
before. -/
theorem unfoldsUnder_iff (h : v.Folds ms.lookup base sp) :
    v.UnfoldsUnder ms rest w ↔ base.UnfoldsUnder ms (rest ++ sp) w := by
  obtain ⟨u, hu, happly⟩ := h.applySpine rest
  rw [← hu.force_iff]
  constructor
  · rintro ⟨fuel, u', hu', hw⟩
    obtain rfl := Val.applySpine_twice _ _ v rest u u' (happly 0) hu'
    exact ⟨fuel, hw⟩
  · rintro ⟨fuel, hw⟩
    exact .of_ok (happly 0) hw

end Val.Folds

/-! ## The order does not matter -/

/-- **A step may be taken before or after further eliminations.** -/
theorem Val.Unwinds.unfoldsUnder_iff (h : v.Unwinds ms.lookup u) :
    v.UnfoldsUnder ms sp w ↔ u.UnfoldsUnder ms sp w := by
  refine h.along (motive := fun v => v.UnfoldsUnder ms sp w ↔ u.UnfoldsUnder ms sp w) Iff.rfl
    fun hv happlied ih => ?_
  rw [hv.unfoldsUnder_iff, Val.unfoldsUnder_append happlied, ih]

/-- If eliminating and forcing returns, then forcing alone does: no elimination takes place before
the head that it meets has come up. -/
theorem Val.UnfoldsUnder.exists_force (h : v.UnfoldsUnder ms sp w) :
    ∃ fuel u, v.force fuel ms = .ok u := by
  obtain ⟨fuel, x, hx, hw⟩ := h
  -- Along the steps from the eliminated value `x`, for all values that `x` may come from.
  refine (Val.unwinds_of_force hw).along
    (motive := fun x => ∀ (v : Val) (fuel : Nat), v.applySpine fuel sp = .ok x →
    ∃ fuel u, v.force fuel ms = .ok u) ?_ ?_ v fuel hx
  · intro v fuel hv
    refine ⟨2, v, Val.Exposed.force fun base s hfolds => ?_⟩
    obtain ⟨x, hx, happly⟩ := hfolds.applySpine sp
    obtain rfl := Val.applySpine_twice _ _ v sp x w (happly 0) hv
    exact Val.exposed_of_force hw _ _ hx
  · intro x base y xs f hxs hy ih v fuel hv
    by_cases hexposed : v.Exposed ms.lookup
    · exact ⟨2, v, hexposed.force⟩
    · simp only [Val.Exposed, not_forall, not_not] at hexposed
      obtain ⟨b, s, hfolds⟩ := hexposed
      obtain ⟨x', hx', happly⟩ := hfolds.applySpine sp
      obtain rfl := Val.applySpine_twice _ _ v sp x' x (happly 0) hv
      obtain ⟨rfl, rfl⟩ := hxs.unique hx'
      rw [Val.applySpine_append] at hy
      obtain ⟨u, hu, hy⟩ := bind_ok hy
      obtain ⟨g, a, ha⟩ := ih u f hy
      obtain ⟨k, hk⟩ := hfolds.force_iff.2 (.of_ok hu ha)
      exact ⟨k, a, hk⟩

/-- Unfolding under a spine has at most one answer. -/
theorem Val.UnfoldsUnder.unique (h : v.UnfoldsUnder ms sp w) (h' : v.UnfoldsUnder ms sp u) :
    u = w := by
  obtain ⟨fuel, x, hx, hw⟩ := h
  obtain ⟨fuel', x', hx', hu⟩ := h'
  obtain rfl := Val.applySpine_twice _ _ v sp x x' hx hx'
  exact Val.force_twice_of_lookup rfl fuel fuel' _ w u hw hu

/-- **Unfolding commutes with elimination.** Eliminating a value and then unfolding the result
returns exactly if unfolding it first, eliminating what comes out and unfolding again returns, and
both return the same value. This needs nothing of the store: from a solution that leads back to
itself, neither way comes to an end. -/
theorem Val.force_applySpine (ms : MetaStore) (v : Val) (sp : Spine) :
    let after (fuel : Nat) : Except Fault Val := do
      let w ← v.applySpine fuel sp
      w.force fuel ms
    let before (fuel : Nat) : Except Fault Val := do
      let u ← v.force fuel ms
      let w ← u.applySpine fuel sp
      w.force fuel ms
    (∀ fuel fuel' r r', after fuel = .ok r → before fuel' = .ok r' → r = r') ∧
      ∀ r, (∃ fuel, after fuel = .ok r) ↔ ∃ fuel, before fuel = .ok r := by
  intro after before
  -- Both orders compute the same relation, in which no fuel occurs.
  have hafter (r : Val) : (∃ fuel, after fuel = .ok r) ↔ v.UnfoldsUnder ms sp r := by
    constructor
    · rintro ⟨fuel, h⟩
      obtain ⟨w, hw, hr⟩ := bind_ok h
      exact ⟨fuel, w, hw, hr⟩
    · rintro ⟨fuel, w, hw, hr⟩
      refine ⟨fuel, ?_⟩
      simp only [after, hw, ok_bind, hr]
  have hbefore (r : Val) : (∃ fuel, before fuel = .ok r) ↔ v.UnfoldsUnder ms sp r := by
    constructor
    · rintro ⟨fuel, h⟩
      obtain ⟨u, hu, h⟩ := bind_ok h
      obtain ⟨w, hw, hr⟩ := bind_ok h
      exact (Val.unwinds_of_force hu).unfoldsUnder_iff.2 ⟨fuel, w, hw, hr⟩
    · intro h
      obtain ⟨fuel, u, hu⟩ := h.exists_force
      obtain ⟨fuel', w, hw, hr⟩ := (Val.unwinds_of_force hu).unfoldsUnder_iff.1 h
      refine ⟨max fuel fuel', ?_⟩
      have hle := Nat.le_max_right fuel fuel'
      simp only [before, (Val.force_prolongs ms (Nat.le_max_left ..) v).ok hu, ok_bind,
        (Val.applySpine_prolongs hle u sp).ok hw, (Val.force_prolongs ms hle w).ok hr]
  refine ⟨fun fuel fuel' r r' hr hr' => ?_, fun r => (hafter r).trans (hbefore r).symm⟩
  exact ((hbefore r').1 ⟨fuel', hr'⟩).unique ((hafter r).1 ⟨fuel, hr⟩)

/-- A metavariable is solved by a global that stands for another solved metavariable. Its solution
makes a pair. -/
example :
    let pairing : Val :=
  .closure ⟨⟨.lam .expl, "x", false⟩, .prim .nat, .empty, .pair (.var ⟨0⟩) .type .type⟩
    let sp : Spine := [.proj .fst, .app .expl (.nat 3)]
    ∃ ms₀ ms : MetaStore,
      MetaStore.empty.fresh.2.fresh.2.set ⟨0⟩ (.glued "f" [] (.metavar ⟨1⟩)) = .ok ms₀ ∧
      ms₀.set ⟨1⟩ pairing = .ok ms ∧ (Val.metavar ⟨0⟩).force 9 ms = .ok pairing ∧
      ((Val.metavar ⟨0⟩).applySpine 9 sp >>= Val.force 9 ms) = .ok (.nat 3) ∧
      (pairing.applySpine 9 sp >>= Val.force 9 ms) = .ok (.nat 3) :=
  ⟨_, _, rfl, rfl, rfl, rfl, rfl⟩

end

end Elaborator
