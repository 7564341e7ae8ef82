import Elaborator.Proofs.Transactions

/-! # Growth of the metavariable store

What an elaboration may do to the store: the open transactions stay exactly as they are, solutions
are final, metavariables stay, and the counter never goes down. `MetaStore.Grows` says this of two
stores, and `Transacted.returns_grows` says it of the stores before and after every call of
unification, elaboration and instance search, however they are put together and whether they end
with an answer or with an error. -/

namespace Elaborator

namespace MetaStore

/-- The store `t` has the transactions of `s` and knows everything that `s` knows about
metavariables. -/
structure Grows (s t : MetaStore) : Prop where
  saved : t.saved = s.saved
  solved : ∀ m v, s.lookup m = some v → t.lookup m = some v
  made : ∀ i, (s.now.cells.find? i).isSome → (t.now.cells.find? i).isSome
  next : s.next ≤ t.next

namespace Grows

/-- Steps that only move problems do not touch the cells. -/
theorem of_cells_eq {s t : MetaStore} (hcells : t.now.cells = s.now.cells)
    (hsaved : t.saved = s.saved) (hnext : t.next = s.next) : Grows s t := by
  refine ⟨hsaved, fun m v hv => ?_, fun i hi => ?_, Nat.le_of_eq hnext.symm⟩
  · rw [lookup, hcells]
    exact hv
  · rw [hcells]
    exact hi

theorem refl (s : MetaStore) : Grows s s := of_cells_eq rfl rfl rfl

theorem trans {s t u : MetaStore} (h : Grows s t) (h' : Grows t u) : Grows s u :=
  ⟨h'.saved.trans h.saved, fun m v hv => h'.solved m v (h.solved m v hv),
    fun i hi => h'.made i (h.made i hi), Nat.le_trans h.next h'.next⟩

/-- Only a metavariable without a solution is solved, so no solution is lost. -/
theorem of_set {s t : MetaStore} {m : MetaId} {v : Val} (h : s.set m v = .ok t) : Grows s t := by
  obtain ⟨hcell, hnow, hsaved, hnext⟩ := set_eq_ok_iff.1 h
  refine ⟨hsaved, fun n w hw => ?_, fun i hi => ?_, Nat.le_of_eq hnext.symm⟩
  · have hne : n.toNat ≠ m.toNat := by
      intro heq
      rw [lookup, heq, hcell] at hw
      cases hw
    rw [lookup_set h, if_neg hne]
    exact hw
  · rw [hnow, IdMap.find?_insert]
    split
    · rfl
    · exact hi

/-- The number of a new metavariable is above all others, so no cell is overwritten. -/
theorem of_fresh (s : MetaStore) : Grows s s.fresh.2 := by
  refine ⟨rfl, fun m v hv => ?_, fun i hi => ?_, Nat.le_succ _⟩
  · have hne : m.toNat ≠ s.next := by
      intro heq
      have hmade : (s.now.cells.find? m.toNat).isSome := by
        rw [lookup] at hv
        cases hc : s.now.cells.find? m.toNat with
        | none => rw [hc] at hv; cases hv
        | some cell => rfl
      exact absurd (s.below_now _ hmade) (by omega)
    rw [lookup_fresh, if_neg hne]
    exact hv
  · show ((s.now.cells.insert s.next none).find? i).isSome
    rw [IdMap.find?_insert]
    split
    · rfl
    · exact hi

/-- Undoing a transaction goes back to what was known when it was opened. -/
theorem of_pop {s t u : MetaStore} (h : Grows s.push t) (hu : t.pop = .ok u) : Grows s u := by
  obtain ⟨hsaved, hnext⟩ := pop_eq_ok_iff.1 hu
  have hcons : s.now :: s.saved = u.now :: u.saved := h.saved.symm.trans hsaved
  obtain ⟨hnow, hrest⟩ := List.cons.inj hcons
  have hlookup : ∀ m, u.lookup m = s.lookup m := by
    intro m
    rw [lookup, ← hnow]
    rfl
  refine ⟨hrest.symm, fun m v hv => (hlookup m).trans hv, fun i hi => hnow ▸ hi, ?_⟩
  exact Nat.le_trans h.next (Nat.le_of_eq hnext.symm)

/-- Closing a transaction keeps what was found in it. -/
theorem of_discard {s t u : MetaStore} (h : Grows s.push t) (hu : t.discard = .ok u) :
    Grows s u := by
  obtain ⟨⟨k, hsaved⟩, hnow, hnext⟩ := discard_eq_ok_iff.1 hu
  have hcons : s.now :: s.saved = k :: u.saved := h.saved.symm.trans hsaved
  have hlookup : ∀ m, u.lookup m = t.lookup m := by
    intro m
    rw [lookup, hnow]
    rfl
  refine ⟨(List.cons.inj hcons).2.symm, fun m v hv => (hlookup m).trans (h.solved m v hv),
    fun i hi => ?_, ?_⟩
  · rw [hnow]
    exact h.made i hi
  · exact Nat.le_trans h.next (Nat.le_of_eq hnext.symm)

theorem tracksFresh : TracksFresh Grows where
  refl := refl
  trans := trans
  set := of_set
  postpone _ _ _ := of_cells_eq rfl rfl rfl
  takePostponed _ _ := of_cells_eq rfl rfl rfl
  pop := of_pop
  discard := of_discard
  fresh := of_fresh

end Grows

end MetaStore

/-! ## Calls and what is put together from them -/

open Elaborator.Action

/-- The calls that work on the metavariable store, and the actions that are made of such calls:
sequences of them and of actions that leave the store alone, and attempts at them. -/
inductive Transacted : {α : Type} → Action α → Prop
  | unify (fuel : Nat) (mode : Mode) (g : Globals) (size : Nat) (a b : Val) :
      Transacted (unify fuel mode g size a b)
  | solve (fuel : Nat) (g : Globals) (size : Nat) (m : MetaId) (sp : Spine) (rhs : Val) :
      Transacted (solve fuel g size m sp rhs)
  | retryFor (fuel : Nat) (g : Globals) (m : MetaId) : Transacted (retryFor fuel g m)
  | retryAll (fuel : Nat) (g : Globals) : Transacted (retryAll fuel g)
  | newMeta (scope : Local) : Transacted (newMeta scope)
  | instantiate (fuel : Nat) (scope : Local) (ty : Val) : Transacted (instantiate fuel scope ty)
  | check (fuel : Nat) (su : Setup) (scope : Local) (tm : Surface) (ty : Val) :
      Transacted (check fuel su scope tm ty)
  | synth (fuel : Nat) (su : Setup) (scope : Local) (tm : Surface) :
      Transacted (synth fuel su scope tm)
  | synthApp (fuel inner : Nat) (su : Setup) (scope : Local) (f : Term) (fty : Val) (icit : Icit)
      (x : Surface) :
      Transacted (synthApp fuel su ⟨Elaborator.check inner su, Elaborator.synth inner su⟩
        scope f fty icit x)
  | search (fuel : Nat) (su : Setup) (scope : Local) (depth : Nat) (goal : Val) :
      Transacted (search fuel su scope depth goal)
  | searchInstances (fuel : Nat) (su : Setup) : Transacted (searchInstances fuel su)
  | attempt {α : Type} {x : Action (Option α)} (hx : Transacted x) : Transacted (attempt x)
  | aside {α : Type} {x : Action α} (hx : ∀ s t, x.Returns s t → t.metas = s.metas) : Transacted x
  | bind {α β : Type} {x : Action α} {f : α → Action β} (hx : Transacted x)
      (hf : ∀ a, Transacted (f a)) : Transacted (x >>= f)

/-- Every relation that the steps of the store respect is kept. -/
theorem Transacted.keeps {R : MetaStore → MetaStore → Prop}
    (hR : MetaStore.TracksFresh R) {α : Type} {x : Action α} (hx : Transacted x) : Keeps R x := by
  have hT := hR.toTracks
  induction hx with
  | unify => exact unify_keeps (hR.solutions _) ..
  | solve => exact solve_keeps (hR.solutions _) ..
  | retryFor => exact retryFor_keeps (hR.solutions _) ..
  | retryAll => exact retryAll_keeps (hR.solutions _) ..
  | newMeta => exact .newMeta hR _
  | instantiate => exact instantiate_keeps hR ..
  | check fuel su => exact (checker_keeps hR fuel su).check ..
  | synth fuel su => exact (checker_keeps hR fuel su).synth ..
  | synthApp fuel inner su => exact synthApp_keeps hR (checker_keeps hR inner su) ..
  | search => exact search_keeps hR ..
  | searchInstances => exact searchInstances_keeps hR ..
  | attempt _ ih => exact .attempt hT ih
  | aside h => exact .of_metas_eq hT h
  | bind _ _ ihx ihf => exact .bind hT ihx ihf

/-- **Transaction discipline.** Wherever a call returns, with an answer or with an error, the
snapshots are exactly those of before, every solution of before is still there with the same value,
every metavariable of before is still there, and the counter has not gone down. -/
theorem Transacted.returns_grows {α : Type} {x : Action α} (hx : Transacted x) {s t : State}
    (h : x.Returns s t) :
    t.metas.saved = s.metas.saved ∧
    (∀ m v, s.metas.lookup m = some v → t.metas.lookup m = some v) ∧
    (∀ i, (s.metas.now.cells.find? i).isSome → (t.metas.now.cells.find? i).isSome) ∧
    s.metas.next ≤ t.metas.next := by
  have hgrows := (hx.keeps MetaStore.Grows.tracksFresh).related h
  exact ⟨hgrows.saved, hgrows.solved, hgrows.made, hgrows.next⟩

/-- Inside an open transaction that made `?0`, an attempt that solves `?0` and then meets `Type = 0`
returns with the transaction still open and the solution taken back. -/
theorem returns_grows_undone :
    ∃ t : State,
      Returns (attempt do
          unify 9 .solving .empty 0 (.pair (.metavar ⟨0⟩) .type .type) (.pair .type (.nat 0) .type)
          return some ())
        { State.empty with metas := MetaStore.empty.push.fresh.2 } t ∧
      t.metas.lookup ⟨0⟩ = none ∧ t.metas.saved = [.empty] ∧ (t.metas.now.cells.find? 0).isSome ∧
      1 ≤ t.metas.next := by
  have hx : Transacted (attempt do
      unify 9 .solving .empty 0 (.pair (.metavar ⟨0⟩) .type .type) (.pair .type (.nat 0) .type)
      return some ()) :=
    .attempt (.bind (.unify ..) fun _ => .aside fun _ _ h => congrArg _ (returns_pure h))
  obtain ⟨hsaved, -, hmade, hnext⟩ := hx.returns_grows
    (s := { State.empty with metas := MetaStore.empty.push.fresh.2 }) (.of_ok rfl)
  exact ⟨_, .of_ok rfl, rfl, hsaved, hmade 0 rfl, hnext⟩

end Elaborator
