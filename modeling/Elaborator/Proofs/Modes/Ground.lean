import Elaborator.Proofs.Mentions
import Elaborator.Proofs.Modes.Looking

/-! # The two modes on ground problems

The modes of unification differ in one place: what is done with a value that is stuck on a
metavariable. A value is stuck on an unsolved metavariable only, and forcing comes to that
metavariable by looking up solutions. So if every metavariable that can be reached from two values
through solutions is solved (`MetaStore.Grounds`), unification and conversion do the same, step by
step (`unify_modes_agree`). -/

namespace Elaborator

open Elaborator.Action

/-! ## Reachable metavariables -/

/-- A metavariable occurs in the value, or in the solution of a solved metavariable that can be
reached. -/
inductive MetaStore.Reaches (ms : MetaStore) (v : Val) : MetaId → Prop
  | mentions {q : MetaId} (hq : v.Mentions q) : Reaches ms v q
  | solution {p q : MetaId} {w : Val} (hp : Reaches ms v p) (solved : ms.lookup p = some w)
      (hq : w.Mentions q) : Reaches ms v q

/-- Every metavariable that can be reached from the value is solved. -/
def MetaStore.Grounds (ms : MetaStore) (v : Val) : Prop := ∀ q, ms.Reaches v q → ms.isSolved q

/-- A set of solved metavariables whose solutions mention only metavariables of the set. -/
def SolvedAmong (σ : MetaId → Option Val) (A : MetaId → Prop) : Prop :=
  ∀ q, A q → ∃ w, σ q = some w ∧ w.Among A

/-- What can be reached from two values is such a set. -/
theorem MetaStore.Grounds.solvedAmong {ms : MetaStore} {a b : Val} (ha : ms.Grounds a)
    (hb : ms.Grounds b) : SolvedAmong ms.lookup fun q => ms.Reaches a q ∨ ms.Reaches b q := by
  intro q hq
  have hsolved : ms.isSolved q := hq.elim (ha q) (hb q)
  obtain ⟨w, hw⟩ := Option.isSome_iff_exists.1 hsolved
  refine ⟨w, hw, fun p hp => ?_⟩
  rcases hq with hq | hq
  · exact .inl (.solution hq hw hp)
  · exact .inr (.solution hq hw hp)

/-- From a value that mentions only metavariables of such a set, no other metavariable can be
reached. -/
theorem SolvedAmong.grounds {ms : MetaStore} {A : MetaId → Prop}
    (hA : SolvedAmong ms.lookup A) {v : Val} (hv : v.Among A) : ms.Grounds v := by
  have hreach : ∀ q, ms.Reaches v q → A q := by
    intro q hq
    induction hq with
    | mentions hq => exact hv _ hq
    | solution _ hsolved hq ih =>
      obtain ⟨w, hw, hamong⟩ := hA _ ih
      cases hsolved.symm.trans hw
      exact hamong _ hq
  intro q hq
  obtain ⟨w, hw, -⟩ := hA q (hreach q hq)
  exact Option.isSome_iff_exists.2 ⟨w, hw⟩

section

variable {σ : MetaId → Option Val} {A : MetaId → Prop} (hA : SolvedAmong σ A) {v w : Val}

include hA

/-- The solutions of metavariables in `A` are over `A` themselves. -/
theorem SolvedAmong.solutions {ms : MetaStore} (hms : ms.lookup = σ) :
    ∀ m v, A m → ms.lookup m = some v → v.Among A := by
  intro m v hm hv
  obtain ⟨w, hw, hamong⟩ := hA m hm
  rw [hms, hw] at hv
  cases hv
  exact hamong

/-- Unfolding a value over `A` gives a value over `A`. -/
theorem SolvedAmong.unfoldsTo (hv : v.Among A) (hw : v.UnfoldsTo σ w) : w.Among A := by
  obtain ⟨ms, fuel, hms, hw⟩ := hw
  exact Val.force_among (hA.solutions hms) hv hw

/-- After forcing, a value that mentions only such metavariables is not stuck on a metavariable. -/
theorem SolvedAmong.forcesTo (hv : v.Among A) (hw : v.ForcesTo σ w) :
    w.Among A ∧ w.isMeta = false := by
  have hamong : w.Among A := by
    obtain ⟨ms, fuel, hms, hw⟩ := hw
    exact Val.forceMeta_among (hA.solutions hms) hv hw
  refine ⟨hamong, ?_⟩
  cases w with
  | neutral h sp =>
    cases h with
    | metavar m =>
      obtain ⟨u, hu, -⟩ := hA m ((Val.among_neutral.1 hamong).1 m rfl)
      have hopen := hw.unsolved
      rw [hu] at hopen
      cases hopen
    | var | prim => rfl
  | type | glued | closure | pair | nat => rfl

end

/-! ## Comparisons in the two modes -/

/-- Unless a metavariable has to be solved, the same is done in both modes. -/
theorem Comparison.of_solving {a b : Val}
    (h : ∀ m sp rhs, Comparison.of .solving a b ≠ .solve m sp rhs) :
    Comparison.of .solving a b = Comparison.of .rigid a b := by
  -- The modes differ only where a metavariable meets something else, and there solving would begin.
  have one (k : Head) (sp : Spine) (v : Val) (unfold : Comparison)
      (h : ∀ m sp' rhs, ofNeutral .solving k sp v unfold ≠ .solve m sp' rhs) :
      ofNeutral .solving k sp v unfold = ofNeutral .rigid k sp v unfold := by
    cases k with
    | metavar m => exact absurd rfl (h m sp v)
    | var | prim => rfl
  cases a with
  | neutral k sa =>
    cases b with
    | neutral l sb =>
      change ∀ m sp rhs, ofNeutrals .solving k sa l sb ≠ .solve m sp rhs at h
      show ofNeutrals .solving k sa l sb = ofNeutrals .rigid k sa l sb
      unfold ofNeutrals at h ⊢
      by_cases hkl : k = l
      · rw [if_pos hkl, if_pos hkl]
      · rw [if_neg hkl] at h ⊢
        rw [if_neg hkl]
        cases k with
        | metavar m =>
          cases l with
          | metavar n => grind
          | var | prim => exact absurd rfl (h m sa _)
        | var | prim =>
          cases l with
          | metavar n => exact absurd rfl (h n sb _)
          | var | prim => rfl
    | type | nat | glued | closure | pair => exact one k sa _ .unfoldRight h
  | type | nat | glued | closure | pair =>
    cases b with
    | neutral l sb => exact one l sb _ .unfoldLeft h
    | type | nat | glued | closure | pair => rfl

/-- Values that are not stuck on a metavariable are compared alike in both modes. -/
theorem Comparison.of_solving_of_isMeta {a b : Val} (ha : a.isMeta = false)
    (hb : b.isMeta = false) : Comparison.of .solving a b = Comparison.of .rigid a b := by
  refine Comparison.of_solving fun m sp rhs h => ?_
  have hc := Compares.of .solving a b
  rw [h] at hc
  cases hc with
  | solveLeft => cases ha
  | solveRight => cases hb

/-! ## Two actions that do the same -/

namespace Action

variable {α β : Type} {σ : MetaId → Option Val}

/-- From every state with the solutions `σ`, the two actions do the same. -/
structure Same (σ : MetaId → Option Val) (x y : Action α) : Prop where
  run : ∀ {s}, s.metas.lookup = σ → x s = y s

namespace Same

variable {x y : Action α} {Q : α → Prop} {E : Error → Prop}

theorem refl (x : Action α) : Same σ x x := ⟨fun _ => rfl⟩

/-- A sequence whose first part leaves the solutions alone. -/
theorem bind (h : Same σ x y) (hy : Looks σ y Q E) {f k : α → Action β}
    (hf : ∀ a, Q a → Same σ (f a) (k a)) : Same σ (x >>= f) (y >>= k) := by
  constructor
  intro s hs
  show EStateM.bind x f s = EStateM.bind y k s
  unfold EStateM.bind
  rw [h.run hs]
  cases hrun : y s with
  | error e t => rfl
  | ok a t =>
    obtain ⟨hlooked, ha⟩ := hy.ok hs hrun
    have hσ : t.metas.lookup = σ := hlooked.metas ▸ hs
    exact (hf a ha).run hσ

/-- After an action that is the same on both sides. -/
theorem after (hx : Looks σ x Q E) {f k : α → Action β} (hf : ∀ a, Q a → Same σ (f a) (k a)) :
    Same σ (x >>= f) (x >>= k) :=
  (refl x).bind hx hf

theorem afterLift {r : Except Fault α} {f k : α → Action β}
    (hf : ∀ a, r = .ok a → Same σ (f a) (k a)) : Same σ (liftM r >>= f) (liftM r >>= k) :=
  after (Looks.lift (E := anything) fun _ h => h) hf

theorem transaction (h : Same σ x y) : Same σ (transaction x) (transaction y) := by
  constructor
  intro s hs
  have hinside : catchError x s.opened = catchError y s.opened := by
    unfold catchError
    rw [h.run (s := s.opened) hs]
  show EStateM.bind (catchError x) _ s.opened = EStateM.bind (catchError y) _ s.opened
  unfold EStateM.bind
  rw [hinside]

end Same

end Action

/-- On values that mention only solved metavariables, and reach only such, the modes do the same. -/
theorem unify_same {σ : MetaId → Option Val} {A : MetaId → Prop}
    (hA : SolvedAmong σ A) (g : Globals) {fuel size : Nat} {a b : Val} (ha : a.Among A)
    (hb : b.Among A) : Same σ (unify fuel .solving g size a b) (unify fuel .rigid g size a b) := by
  induction fuel generalizing size a b with
  | zero => exact .refl _
  | succ fuel ih =>
    refine .after (Looks.forceMeta (E := anything) fuel a) fun a' hforced => ?_
    refine .after (Looks.forceMeta (E := anything) fuel b) fun b' hforced' => ?_
    obtain ⟨ha', hstuck⟩ := hA.forcesTo ha hforced
    obtain ⟨hb', hstuck'⟩ := hA.forcesTo hb hforced'
    refine .after (Looks.emitWith (E := anything) _) fun _ _ => ?_
    -- The rigid run has to leave the solutions as they are, or the induction hypothesis would not
    -- apply to the rest.
    have spines {sa sb : Spine} (hsa : ∀ v ∈ Spine.vals sa, v.Among A)
        (hsb : ∀ v ∈ Spine.vals sb, v.Among A) :
        Same σ (unifySpines (unify fuel .solving g size) (mismatch fuel size a' b') sa sb)
            (unifySpines (unify fuel .rigid g size) (mismatch fuel size a' b') sa sb) ∧
          Looks σ (unifySpines (unify fuel .rigid g size) (mismatch fuel size a' b') sa sb) anything
            Error.Differs := by
      refine Sequential.unifySpines (J := fun x y => Same σ x y ∧ Looks σ y anything Error.Differs)
        ⟨?_, ?_⟩ ?_ ?_
      · exact ⟨.refl _, .pure trivial⟩
      · intro x x' y y' hx hy
        exact ⟨hx.1.bind hx.2 fun _ _ => hy.1, hx.2.bind fun _ _ => hy.2⟩
      · exact ⟨.refl _, mismatch_looks ..⟩
      · intro x hx y hy
        exact ⟨ih (hsa x hx) (hsb y hy), unify_looks ..⟩
    -- After forcing, neither side is a metavariable, so there is nothing to solve.
    rw [Comparison.of_solving_of_isMeta hstuck hstuck']
    have hparts := Comparison.of_among ha' hb' .rigid
    cases hc : Comparison.of .rigid a' b' with
    | equal => exact .refl _
    | mismatch => exact .refl _
    | binders c d =>
      rw [hc] at hparts
      obtain ⟨hclosure, hclosure'⟩ := hparts
      have hdoms : Same σ (unify fuel .solving g size c.dom d.dom)
          (unify fuel .rigid g size c.dom d.dom) :=
        ih (Val.among_closure.1 hclosure).1 (Val.among_closure.1 hclosure').1
      have hbodies (u : Unit) : anything u → Same σ
          (do
            let x ← c.enter fuel size
            let y ← d.enter fuel size
            unify fuel .solving g (size + 1) x y)
          (do
            let x ← c.enter fuel size
            let y ← d.enter fuel size
            unify fuel .rigid g (size + 1) x y) := fun _ =>
        .afterLift fun x hx => .afterLift fun y hy =>
          ih (Closure.enter_among hclosure hx) (Closure.enter_among hclosure' hy)
      -- The domains of functions are not compared.
      by_cases hlam : c.binder.kind.isLam = true
      · simp only [hlam, if_true]
        exact .after (Looks.pure (E := anything) trivial) hbodies
      · simp only [hlam]
        exact hdoms.bind (unify_looks ..) hbodies
    | pairs x y z w =>
      rw [hc] at hparts
      obtain ⟨⟨hx, hy⟩, hz, hw⟩ := hparts
      exact (ih hx hz).bind (unify_looks ..) fun _ _ => ih hy hw
    | numeral n pred =>
      rw [hc] at hparts
      exact ih Val.among_nat hparts
    | spines sa sb =>
      rw [hc] at hparts
      exact (spines hparts.1 hparts.2).1
    | solve m sp rhs => exact absurd hc Comparison.of_rigid_ne_solve
    | expandFun c v =>
      rw [hc] at hparts
      obtain ⟨hclosure, hv⟩ := hparts
      refine .afterLift fun x hx => .afterLift fun y hy => ih (Closure.enter_among hclosure hx) ?_
      exact Val.eliminate_among hv (Elim.forall_vals_app.2 Val.among_var) hy
    | expandPair x y v =>
      rw [hc] at hparts
      obtain ⟨⟨hx, hy⟩, hv⟩ := hparts
      have component {p : Proj} {w : Val} (hw : v.eliminate fuel (.proj p) = .ok w) : w.Among A :=
        Val.eliminate_among hv (List.forall_mem_nil _) hw
      refine .afterLift fun fst hfst => (ih hx (component hfst)).bind (unify_looks ..) fun _ _ => ?_
      exact .afterLift fun snd hsnd => ih hy (component hsnd)
    | sameGlobal sa sb =>
      rw [hc] at hparts
      obtain ⟨hsame, hlooks⟩ := spines hparts.1 hparts.2
      refine hsame.transaction.bind hlooks.transaction fun r _ => ?_
      cases r with
      | ok _ => exact .refl _
      | error e =>
        by_cases hsoft : e.isSoft = true
        · simp only [hsoft, if_true]
          refine .after (Looks.force (E := anything) fuel a') fun a hunfolds => ?_
          refine .after (Looks.force (E := anything) fuel b') fun b hunfolds' => ?_
          exact ih (hA.unfoldsTo ha' hunfolds) (hA.unfoldsTo hb' hunfolds')
        · simp only [hsoft]
          exact .refl _
    | unfoldLeft =>
      exact .after (Looks.force (E := anything) fuel a') fun _ h => ih (hA.unfoldsTo ha' h) hb'
    | unfoldRight =>
      exact .after (Looks.force (E := anything) fuel b') fun _ h => ih ha' (hA.unfoldsTo hb' h)

/-- **The modes agree on ground problems, and conversion only looks.** If every metavariable that
can be reached from two values is solved, unifying them and checking their conversion end in the
same way and in the same state, and the store of metavariables is as it was. Conversion leaves the
store as it was whatever the two values are, with an answer and with an error. -/
theorem unify_modes_agree (s : State) (fuel : Nat) (g : Globals) (size : Nat) (a b : Val) :
    (s.metas.Grounds a → s.metas.Grounds b →
      unify fuel .solving g size a b s = unify fuel .rigid g size a b s ∧
        ∀ t, (unify fuel .solving g size a b).Returns s t → t.metas = s.metas) ∧
      ∀ t, (unify fuel .rigid g size a b).Returns s t → t.metas = s.metas := by
  have hlooks : ∀ t, (unify fuel .rigid g size a b).Returns s t → t.metas = s.metas :=
    fun t ht => ((unify_looks fuel size a b).looked rfl ht).metas
  refine ⟨fun ha hb => ?_, hlooks⟩
  have hsame : unify fuel .solving g size a b s = unify fuel .rigid g size a b s := by
    apply (unify_same (ha.solvedAmong hb) g ?_ ?_).run rfl
    · exact fun q hq => .inl (.mentions hq)
    · exact fun q hq => .inr (.mentions hq)
  refine ⟨hsame, fun t ht => hlooks t ?_⟩
  unfold Action.Returns at ht ⊢
  rwa [← hsame]

/-- `?0` is solved by `3`, so it is equal to `S 2` in both modes. -/
theorem unify_modes_agree_solved :
    ∃ s t : State, s.metas.Grounds (.metavar ⟨0⟩) ∧
      s.metas.Grounds (.neutral (.prim .succ) [.app .expl (.nat 2)]) ∧
      unify 9 .solving .empty 0 (.metavar ⟨0⟩) (.neutral (.prim .succ) [.app .expl (.nat 2)])
        s = .ok () t ∧
      unify 9 .rigid .empty 0 (.metavar ⟨0⟩) (.neutral (.prim .succ) [.app .expl (.nat 2)])
        s = .ok () t ∧
      t.metas = s.metas := by
  obtain ⟨s, t, -, hsolution, hrun⟩ : ∃ s t : State,
      setMeta ⟨0⟩ (.nat 3) { State.empty with metas := MetaStore.empty.fresh.2 } = .ok () s ∧
      s.metas.lookup ⟨0⟩ = some (.nat 3) ∧
      unify 9 .rigid .empty 0 (.metavar ⟨0⟩) (.neutral (.prim .succ) [.app .expl (.nat 2)])
        s = .ok () t :=
    ⟨_, _, rfl, rfl, rfl⟩
  have hset : SolvedAmong s.metas.lookup (· = ⟨0⟩) := by
    rintro q rfl
    exact ⟨_, hsolution, Val.among_nat⟩
  have hleft := hset.grounds (v := .metavar ⟨0⟩)
    (Val.among_neutral.2 ⟨fun _ h => (Head.metavar.inj h).symm, List.forall_mem_nil _⟩)
  have hright := hset.grounds (v := .neutral (.prim .succ) [.app .expl (.nat 2)])
    (Val.among_neutral.2 ⟨nofun, List.forall_mem_singleton.2 Val.among_nat⟩)
  obtain ⟨hagree, hlooks⟩ := unify_modes_agree s 9 .empty 0 (.metavar ⟨0⟩)
    (.neutral (.prim .succ) [.app .expl (.nat 2)])
  exact ⟨s, t, hleft, hright, (hagree hleft hright).1.trans hrun, hrun, hlooks t (.of_ok hrun)⟩

end Elaborator
