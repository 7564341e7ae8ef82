import Elaborator.Proofs.Run
import Elaborator.Proofs.Scope.Basic

/-! # Invariants of runs

`Action.Upholds I` says of an action that it keeps a property `I` of states, and what its answer is
like. There is one rule for each way to build an action. The property has to hold after a failure as
well: a transaction goes on after an error, in the state that the error left.

Many properties are about what is known of the metavariables and about the holes (`State.Holds`).
They have to hold of what was known at the start of each open transaction, too, since this comes
back when the transaction is undone. -/

namespace Elaborator

/-- What is known, or was known at the start of an open transaction, has the property `K`, and holes
have the property `H`. -/
structure State.Holds (K : Knowledge → Prop) (H : Hole → Prop) (s : State) : Prop where
  metas : s.metas.Always K
  holes : ∀ h ∈ s.holes, H h

namespace Action

variable {α β : Type} {I : State → Prop} {Q : α → Prop} {R : β → Prop}

/-- From a state with the property `I`, the action goes to such a state, however it ends, and its
answer has the property `Q`. -/
structure Upholds (I : State → Prop) (x : Action α) (Q : α → Prop) : Prop where
  ok : ∀ {s a t}, I s → x s = .ok a t → I t ∧ Q a
  error : ∀ {s e t}, I s → x s = .error e t → I t

/-- An action that starts by changing the state needs only the changed state to have the
property. -/
theorem upholds_of_modify {f : State → State} {k : PUnit → Action α}
    (hk : Upholds I (k ⟨⟩) Q) {s t : State} {a : α} (hs : I (f s))
    (h : (modify f >>= k) s = .ok a t) : I t ∧ Q a :=
  hk.ok hs h

namespace Upholds

theorem imp {x : Action α} {Q' : α → Prop} (hx : Upholds I x Q) (h : ∀ a, Q a → Q' a) :
    Upholds I x Q' where
  ok hs hst := (hx.ok hs hst).imp_right (h _)
  error := hx.error

theorem pure {a : α} (h : Q a) : Upholds I (pure a) Q where
  ok := by
    intro s b t hs hst
    obtain ⟨rfl, rfl⟩ := pure_eq_ok.1 hst
    exact ⟨hs, h⟩
  error _ hst := absurd hst pure_ne_error

theorem throw {e : Failure} : Upholds I (throw e) Q where
  ok _ hst := nomatch hst
  error hs hst := by
    cases hst
    exact hs

theorem refuse {e : Error} : Upholds I (refuse e) Q := throw

theorem lift {r : Except Fault α} (h : ∀ a, r = .ok a → Q a) : Upholds I (liftM r) Q where
  ok := by
    intro s a t hs hst
    obtain ⟨hr, rfl⟩ := lift_eq_ok.1 hst
    exact ⟨hs, h a hr⟩
  error := by
    intro s e t hs hst
    obtain ⟨f, hr, rfl, rfl⟩ := lift_eq_error.1 hst
    exact hs

/-- A sequence upholds an invariant when its first action does and the rest does on every answer. -/
theorem bind {x : Action α} {f : α → Action β} (hx : Upholds I x Q)
    (hf : ∀ a, Q a → Upholds I (f a) R) : Upholds I (x >>= f) R where
  ok := by
    intro s b t hs hst
    obtain ⟨a, u, hu, ht⟩ := bind_eq_ok.1 hst
    obtain ⟨hus, ha⟩ := hx.ok hs hu
    exact (hf a ha).ok hus ht
  error := by
    intro s e t hs hst
    rcases bind_eq_error.1 hst with hu | ⟨a, u, hu, ht⟩
    · exact hx.error hs hu
    · obtain ⟨hus, ha⟩ := hx.ok hs hu
      exact (hf a ha).error hus ht

theorem ite {p : Prop} [Decidable p] {x y : Action α} (hx : p → Upholds I x Q)
    (hy : ¬ p → Upholds I y Q) : Upholds I (if p then x else y) Q := by
  split
  · next h => exact hx h
  · next h => exact hy h

theorem forM {f : α → Action PUnit} {l : List α} (hf : ∀ a ∈ l, Upholds I (f a) anything) :
    Upholds I (l.forM f) anything := by
  induction l with
  | nil => exact pure trivial
  | cons a l ih =>
    obtain ⟨ha, hl⟩ := List.forall_mem_cons.1 hf
    exact bind ha fun _ _ => ih hl

theorem mapError {x : Action α} (f : Error → Error) (hx : Upholds I x Q) :
    Upholds I (mapError f x) Q where
  ok hs hst := hx.ok hs (mapError_eq_ok.1 hst)
  error := by
    intro s e t hs hst
    unfold Action.mapError at hst
    split at hst
    · cases hst
    · next hu =>
      cases hst
      exact hx.error hs hu
    · next hu =>
      cases hst
      exact hx.error hs hu

theorem catchError {x : Action α} (hx : Upholds I x Q) :
    Upholds I (catchError x) (fun r => ∀ a, r = .ok a → Q a) where
  ok := by
    intro s r t hs hst
    rcases catchError_eq_ok.1 hst with ⟨a, rfl, hu⟩ | ⟨e, rfl, hu⟩
    · obtain ⟨ht, ha⟩ := hx.ok hs hu
      refine ⟨ht, ?_⟩
      rintro b ⟨⟩
      exact ha
    · exact ⟨hx.error hs hu, fun _ h => nomatch h⟩
  error := by
    intro s e t hs hst
    obtain ⟨f, rfl, hu⟩ := catchError_eq_error.1 hst
    exact hx.error hs hu

theorem get : Upholds I (get : Action State) I where
  ok hs hst := by
    cases hst
    exact ⟨hs, hs⟩
  error _ hst := nomatch hst

theorem modify {f : State → State} (hf : ∀ s, I s → I (f s)) :
    Upholds I (modify f : Action PUnit) anything where
  ok hs hst := by
    cases hst
    exact ⟨hf _ hs, trivial⟩
  error _ hst := nomatch hst

/-! ### Properties of what is known -/

variable {K : Knowledge → Prop} {H : Hole → Prop}

theorem metas : Upholds (State.Holds K H) metas (MetaStore.Always K) :=
  bind get fun _ hs => pure hs.metas

theorem setMetas {ms : MetaStore} (hms : ms.Always K) :
    Upholds (State.Holds K H) (setMetas ms) anything :=
  modify fun _ hs => ⟨hms, hs.holes⟩

theorem emit {e : Event} : Upholds (State.Holds K H) (emit e) anything :=
  modify fun _ hs => ⟨hs.metas, hs.holes⟩

theorem emitWith {e : MetaStore → Event} : Upholds (State.Holds K H) (emitWith e) anything :=
  bind metas fun _ _ => emit

theorem freshMeta (hmake : ∀ k i, K k → K { k with cells := k.cells.insert i none }) :
    Upholds (State.Holds K H) freshMeta anything := by
  refine bind metas fun ms hms => bind (setMetas ?_) fun _ _ => pure trivial
  exact hms.of_now rfl (hmake _ _ hms.now)

theorem setMeta {m : MetaId} {v : Val}
    (hsolve : ∀ k, K k → K { k with cells := k.cells.insert m.toNat (some v) }) :
    Upholds (State.Holds K H) (setMeta m v) anything := by
  refine bind metas fun ms hms => ?_
  split
  · next t ht =>
    obtain ⟨-, hnow, hsaved, -⟩ := MetaStore.set_eq_ok_iff.1 ht
    refine setMetas (hms.of_now hsaved ?_)
    rw [hnow]
    exact hsolve _ hms.now
  · exact refuse

theorem postpone {m : MetaId} {p : Problem}
    (hwait : ∀ k, K k → K { k with
      postponed := k.postponed.insert m.toNat ((k.postponed.find? m.toNat).getD [] ++ [p]) }) :
    Upholds (State.Holds K H) (postpone m p) anything :=
  bind emit fun _ _ => bind metas fun _ hms => setMetas (hms.of_now rfl (hwait _ hms.now))

/-- The problems that are taken were known to wait. -/
theorem takePostponed {m : MetaId}
    (herase : ∀ k, K k → K { k with postponed := k.postponed.erase m.toNat }) :
    Upholds (State.Holds K H) (takePostponed m)
      (fun ps => ∃ k, K k ∧ ps = (k.postponed.find? m.toNat).getD []) := by
  refine bind metas fun ms hms => bind (setMetas ?_) fun _ _ => pure ⟨ms.now, hms.now, rfl⟩
  exact hms.of_now rfl (herase _ hms.now)

theorem push : Upholds (State.Holds K H) push anything := bind metas fun _ hms => setMetas hms.push

theorem pop : Upholds (State.Holds K H) pop anything :=
  bind metas fun _ hms => bind (lift fun _ ht => hms.pop ht) fun _ ht => setMetas ht

theorem discard : Upholds (State.Holds K H) discard anything :=
  bind metas fun _ hms => bind (lift fun _ ht => hms.discard ht) fun _ ht => setMetas ht

/-- A transaction upholds an invariant of the current and the saved knowledge. -/
theorem transaction {x : Action α} (hx : Upholds (State.Holds K H) x Q) :
    Upholds (State.Holds K H) (transaction x) (fun r => ∀ a, r = .ok a → Q a) := by
  refine bind push fun _ _ => bind (catchError hx) fun r hr => ?_
  cases r with
  | ok a => exact bind discard fun _ _ => pure hr
  | error e => exact bind pop fun _ _ => pure hr

theorem attempt {x : Action (Option α)} (hx : Upholds (State.Holds K H) x (fun r => ∀ a ∈ r, Q a)) :
    Upholds (State.Holds K H) (attempt x) (fun r => ∀ a ∈ r, Q a) := by
  have nothing : ∀ a ∈ (none : Option α), Q a := fun _ h => nomatch h
  refine bind push fun _ _ => bind (catchError hx) fun r hr => ?_
  cases r with
  | ok o =>
    cases o with
    | some a => exact bind discard fun _ _ => pure (hr _ rfl)
    | none => exact bind pop fun _ _ => pure nothing
  | error e => exact bind pop fun _ _ => ite (fun _ => pure nothing) fun _ => refuse

end Upholds

end Action

end Elaborator
