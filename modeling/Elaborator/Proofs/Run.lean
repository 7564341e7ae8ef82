import Elaborator.Action

/-! # Runs of actions

An action that is run from a state ends with an answer, with an error or with a fault. The first two
are its ways to return (`Action.Returns`); a fault ends everything. The lemmas below take a run of a
composed action apart into runs of its parts, so that nothing further on has to look into the
monad. -/

namespace Elaborator

namespace State

def opened (s : State) : State := { s with metas := s.metas.push }

def Undone (s t : State) : Prop := ∃ ms, s.metas.pop = .ok ms ∧ { s with metas := ms } = t

def Kept (s t : State) : Prop := ∃ ms, s.metas.discard = .ok ms ∧ { s with metas := ms } = t

end State

namespace Action

variable {α β : Type}

/-- Run from `s`, the action returns in `t`, either with an answer or with an error. -/
def Returns (x : Action α) (s t : State) : Prop :=
  (∃ a, x s = .ok a t) ∨ ∃ e, x s = .error (.error e) t

theorem Returns.of_ok {x : Action α} {a : α} {s t : State} (h : x s = .ok a t) : x.Returns s t :=
  .inl ⟨a, h⟩

theorem Returns.of_error {x : Action α} {e : Error} {s t : State} (h : x s = .error (.error e) t) :
    x.Returns s t :=
  .inr ⟨e, h⟩

/-- An answer comes with the state after it, whatever the states are. -/
theorem ok_of_run {σ : Type} {x : EStateM Failure σ α} {a : α} {s : σ} (h : x.run' s = some a) :
    ∃ t, x s = .ok a t := by
  unfold EStateM.run' EStateM.run at h
  cases hx : x s with
  | ok b t =>
    rw [hx] at h
    cases h
    exact ⟨t, rfl⟩
  | error e t =>
    rw [hx] at h
    cases h

/-! ## Sequences -/

/-- After an answer of its first part, a sequence goes on with the second one. -/
theorem bind_of_ok {x : Action α} {f : α → Action β} {a : α} {s t : State} (h : x s = .ok a t) :
    (x >>= f) s = f a t := by
  show EStateM.bind x f s = _
  simp only [EStateM.bind, h]

/-- A failure of its first part ends a sequence. -/
theorem bind_of_error {x : Action α} {f : α → Action β} {e : Failure} {s t : State}
    (h : x s = .error e t) : (x >>= f) s = .error e t := by
  show EStateM.bind x f s = _
  simp only [EStateM.bind, h]

/-- A sequence answers exactly if both parts do. -/
theorem bind_eq_ok {x : Action α} {f : α → Action β} {b : β} {s t : State} :
    (x >>= f) s = .ok b t ↔ ∃ a u, x s = .ok a u ∧ f a u = .ok b t := by
  show EStateM.bind x f s = _ ↔ _
  unfold EStateM.bind
  cases hx : x s with
  | ok a u =>
    constructor
    · intro h
      exact ⟨a, u, rfl, h⟩
    · rintro ⟨_, _, ⟨⟩, h⟩
      exact h
  | error e u => simp

/-- A sequence fails exactly if its first part does or, after an answer of the first part, the
second does. -/
theorem bind_eq_error {x : Action α} {f : α → Action β} {e : Failure} {s t : State} :
    (x >>= f) s = .error e t ↔ x s = .error e t ∨ ∃ a u, x s = .ok a u ∧ f a u = .error e t := by
  show EStateM.bind x f s = _ ↔ _
  unfold EStateM.bind
  cases hx : x s with
  | ok a u =>
    constructor
    · intro h
      exact .inr ⟨a, u, rfl, h⟩
    · rintro (h | ⟨_, _, ⟨⟩, h⟩)
      · cases h
      · exact h
  | error e u => simp

/-- A sequence returns where its first part fails, or where its second part returns. -/
theorem returns_bind {x : Action α} {f : α → Action β} {s t : State} :
    (x >>= f).Returns s t ↔
      (∃ e, x s = .error (.error e) t) ∨ ∃ a u, x s = .ok a u ∧ (f a).Returns u t := by
  constructor
  · rintro (⟨b, h⟩ | ⟨e, h⟩)
    · obtain ⟨a, u, hx, hf⟩ := bind_eq_ok.1 h
      exact .inr ⟨a, u, hx, .of_ok hf⟩
    · rcases bind_eq_error.1 h with hx | ⟨a, u, hx, hf⟩
      · exact .inl ⟨e, hx⟩
      · exact .inr ⟨a, u, hx, .of_error hf⟩
  · rintro (⟨e, h⟩ | ⟨a, u, hx, ⟨b, hf⟩ | ⟨e, hf⟩⟩)
    · exact .of_error (bind_eq_error.2 (.inl h))
    · exact .of_ok (bind_eq_ok.2 ⟨a, u, hx, hf⟩)
    · exact .of_error (bind_eq_error.2 (.inr ⟨a, u, hx, hf⟩))

/-- A loop over a list fails where one of its steps does. -/
theorem forM_error {f : α → Action PUnit} {l : List α} {e : Failure} {s t : State}
    (h : l.forM f s = .error e t) : ∃ a ∈ l, ∃ u, f a u = .error e t := by
  induction l generalizing s with
  | nil => cases h
  | cons a l ih =>
    rcases bind_eq_error.1 h with h | ⟨_, u, -, h⟩
    · exact ⟨a, List.mem_cons_self, s, h⟩
    · obtain ⟨b, hb, hfails⟩ := ih h
      exact ⟨b, List.mem_cons_of_mem _ hb, hfails⟩

/-! ## Single steps -/

@[simp] theorem pure_eq_ok {a b : α} {s t : State} :
    (pure a : Action α) s = .ok b t ↔ a = b ∧ s = t := by
  show EStateM.Result.ok a s = _ ↔ _
  simp

@[simp] theorem pure_ne_error {a : α} {e : Failure} {s t : State} :
    (pure a : Action α) s ≠ .error e t := by
  show EStateM.Result.ok a s ≠ _
  simp

theorem returns_pure {a : α} {s t : State} (h : (pure a : Action α).Returns s t) : t = s := by
  rcases h with ⟨b, h⟩ | ⟨e, h⟩
  · exact (pure_eq_ok.1 h).2.symm
  · exact absurd h pure_ne_error

/-- A computation without state answers like itself. -/
theorem lift_eq_ok {r : Except Fault α} {a : α} {s t : State} :
    (liftM r : Action α) s = .ok a t ↔ r = .ok a ∧ s = t := by
  cases r with
  | ok b =>
    show EStateM.Result.ok b s = _ ↔ _
    simp
  | error f =>
    show EStateM.Result.error (Failure.fault f) s = _ ↔ _
    simp

/-- A computation without state has no errors, only faults. -/
theorem lift_eq_error {r : Except Fault α} {e : Failure} {s t : State} :
    (liftM r : Action α) s = .error e t ↔ ∃ f, r = .error f ∧ e = .fault f ∧ s = t := by
  cases r with
  | ok b =>
    show EStateM.Result.ok b s = _ ↔ _
    simp
  | error f =>
    show EStateM.Result.error (Failure.fault f) s = _ ↔ _
    simp [eq_comm]

/-- An error that shows a value is no answer. -/
theorem refuse_text_ne_ok {fuel : Nat} {scope : Local} {v : Val} {e : MarkedText → Error} {b : β}
    {s t : State} : (text fuel scope v >>= fun w => (refuse (e w) : Action β)) s ≠ .ok b t := by
  intro h
  obtain ⟨w, u, -, hw⟩ := bind_eq_ok.1 h
  cases hw

/-- The metavariables are read without a change. -/
theorem metas_eq_ok {ms : MetaStore} {s t : State} :
    metas s = .ok ms t ↔ s.metas = ms ∧ s = t := by
  show EStateM.Result.ok s.metas s = _ ↔ _
  simp

theorem metas_ne_error {e : Failure} {s t : State} : metas s ≠ .error e t := by
  show EStateM.Result.ok s.metas s ≠ _
  simp

/-- What follows the reading of the metavariables gets those of the state. -/
theorem bind_metas (f : MetaStore → Action β) (s : State) : (metas >>= f) s = f s.metas s :=
  bind_of_ok (metas_eq_ok.2 ⟨rfl, rfl⟩)

theorem forceMeta_of_ok {fuel : Nat} {v w : Val} {s : State}
    (h : v.forceMeta fuel s.metas = .ok w) : forceMeta fuel v s = .ok w s :=
  (bind_metas _ s).trans (lift_eq_ok.2 ⟨h, rfl⟩)

theorem force_of_ok {fuel : Nat} {v w : Val} {s : State} (h : v.force fuel s.metas = .ok w) :
    force fuel v s = .ok w s :=
  (bind_metas _ s).trans (lift_eq_ok.2 ⟨h, rfl⟩)

theorem quote_of_ok {fuel size : Nat} {v : Val} {t : Term} {s : State}
    (h : v.quote fuel s.metas false size = .ok t) : quote fuel size v s = .ok t s :=
  (bind_metas _ s).trans (lift_eq_ok.2 ⟨h, rfl⟩)

theorem setMetas_eq_ok {ms : MetaStore} {s t : State} :
    setMetas ms s = .ok () t ↔ { s with metas := ms } = t := by
  show EStateM.Result.ok () { s with metas := ms } = _ ↔ _
  simp

theorem setMetas_ne_error {ms : MetaStore} {e : Failure} {s t : State} :
    setMetas ms s ≠ .error e t := by
  show EStateM.Result.ok () { s with metas := ms } ≠ _
  simp

/-- A solution is stored, or it is refused and nothing changes. -/
theorem returns_setMeta {m : MetaId} {v : Val} {s t : State} (h : (setMeta m v).Returns s t) :
    (t.metas = s.metas ∨ s.metas.set m v = .ok t.metas) ∧ { s with metas := t.metas } = t := by
  rcases returns_bind.1 h with ⟨e, h⟩ | ⟨ms, u, h, hu⟩
  · exact absurd h metas_ne_error
  · obtain ⟨rfl, rfl⟩ := metas_eq_ok.1 h
    split at hu
    · next ms hset =>
      rcases hu with ⟨a, hu⟩ | ⟨e, hu⟩
      · rw [← setMetas_eq_ok.1 hu]
        exact ⟨.inr hset, rfl⟩
      · exact absurd hu setMetas_ne_error
    · rcases hu with ⟨a, hu⟩ | ⟨e, hu⟩ <;> cases hu
      exact ⟨.inl rfl, rfl⟩

/-- The problems that waited for a metavariable are given out and no longer wait. -/
theorem takePostponed_eq_ok {m : MetaId} {ps : List Problem} {s t : State} :
    takePostponed m s = .ok ps t ↔
      (s.metas.takePostponed m).1 = ps ∧ { s with metas := (s.metas.takePostponed m).2 } = t := by
  show EStateM.Result.ok (s.metas.takePostponed m).1
    { s with metas := (s.metas.takePostponed m).2 } = _ ↔ _
  simp

/-! ## Errors -/

/-- Only the errors of an action are changed. -/
theorem mapError_eq_ok {f : Error → Error} {x : Action α} {a : α} {s t : State} :
    mapError f x s = .ok a t ↔ x s = .ok a t := by
  unfold mapError
  split <;> simp_all

/-- Rewording its errors does not change the states an action can end in. -/
theorem returns_mapError {f : Error → Error} {x : Action α} {s t : State} :
    (mapError f x).Returns s t ↔ x.Returns s t := by
  unfold Returns mapError
  cases hx : x s with
  | ok a u => simp
  | error e u => cases e <;> simp

/-- An error that is caught is an answer. -/
theorem catchError_eq_ok {x : Action α} {r : Except Error α} {s t : State} :
    catchError x s = .ok r t ↔
      (∃ a, r = .ok a ∧ x s = .ok a t) ∨ ∃ e, r = .error e ∧ x s = .error (.error e) t := by
  unfold catchError
  cases hx : x s with
  | ok a u => grind
  | error e u => cases e <;> grind

/-- What is left after errors are caught are faults. -/
theorem catchError_eq_error {x : Action α} {e : Failure} {s t : State} :
    catchError x s = .error e t ↔ ∃ f, e = .fault f ∧ x s = .error (.fault f) t := by
  unfold catchError
  cases hx : x s with
  | ok a u => grind
  | error e u => cases e <;> grind

/-! ## Transactions

A run of a transaction is a run of its inside from the state with one more snapshot
(`State.opened`), and then the snapshot is used (`State.Undone`) or dropped (`State.Kept`). -/

theorem push_eq_ok {a : Unit} {s t : State} : push s = .ok a t ↔ s.opened = t := by
  show EStateM.Result.ok () s.opened = _ ↔ _
  simp

theorem push_ne_error {e : Failure} {s t : State} : push s ≠ .error e t := by
  show EStateM.Result.ok () s.opened ≠ _
  simp

theorem pop_eq_ok {s t : State} :
    pop s = .ok () t ↔ s.Undone t := by
  simp only [pop, bind_eq_ok, metas_eq_ok, lift_eq_ok, setMetas_eq_ok]
  constructor
  · rintro ⟨_, _, ⟨rfl, rfl⟩, ms, _, ⟨h, rfl⟩, rfl⟩
    exact ⟨ms, h, rfl⟩
  · rintro ⟨ms, h, rfl⟩
    exact ⟨_, _, ⟨rfl, rfl⟩, ms, _, ⟨h, rfl⟩, rfl⟩

theorem pop_ne_error {e : Error} {s t : State} : pop s ≠ .error (.error e) t := by
  simp [pop, bind_eq_error, metas_ne_error, lift_eq_error, setMetas_ne_error]

theorem discard_eq_ok {s t : State} :
    discard s = .ok () t ↔ s.Kept t := by
  simp only [discard, bind_eq_ok, metas_eq_ok, lift_eq_ok, setMetas_eq_ok]
  constructor
  · rintro ⟨_, _, ⟨rfl, rfl⟩, ms, _, ⟨h, rfl⟩, rfl⟩
    exact ⟨ms, h, rfl⟩
  · rintro ⟨ms, h, rfl⟩
    exact ⟨_, _, ⟨rfl, rfl⟩, ms, _, ⟨h, rfl⟩, rfl⟩

theorem discard_ne_error {e : Error} {s t : State} : discard s ≠ .error (.error e) t := by
  simp [discard, bind_eq_error, metas_ne_error, lift_eq_error, setMetas_ne_error]

/-- A transaction answers with the answer or the error of its inside. -/
theorem transaction_eq_ok {x : Action α} {r : Except Error α} {s t : State} :
    transaction x s = .ok r t ↔
      (∃ a u, r = .ok a ∧ x s.opened = .ok a u ∧ u.Kept t) ∨
      ∃ e u, r = .error e ∧ x s.opened = .error (.error e) u ∧ u.Undone t := by
  simp only [transaction, bind_eq_ok, push_eq_ok, catchError_eq_ok]
  constructor
  · rintro ⟨_, _, rfl, r, u, ⟨a, rfl, hx⟩ | ⟨e, rfl, hx⟩, h⟩
    · obtain ⟨_, v, hv, h⟩ := bind_eq_ok.1 h
      obtain ⟨rfl, rfl⟩ := pure_eq_ok.1 h
      exact .inl ⟨a, u, rfl, hx, discard_eq_ok.1 hv⟩
    · obtain ⟨_, v, hv, h⟩ := bind_eq_ok.1 h
      obtain ⟨rfl, rfl⟩ := pure_eq_ok.1 h
      exact .inr ⟨e, u, rfl, hx, pop_eq_ok.1 hv⟩
  · rintro (⟨a, u, rfl, hx, h⟩ | ⟨e, u, rfl, hx, h⟩)
    · refine ⟨(), _, rfl, .ok a, u, .inl ⟨a, rfl, hx⟩, ?_⟩
      exact bind_eq_ok.2 ⟨(), t, discard_eq_ok.2 h, rfl⟩
    · refine ⟨(), _, rfl, .error e, u, .inr ⟨e, rfl, hx⟩, ?_⟩
      exact bind_eq_ok.2 ⟨(), t, pop_eq_ok.2 h, rfl⟩

/-- A transaction has no errors of its own. -/
theorem transaction_ne_error {x : Action α} {e : Error} {s t : State} :
    transaction x s ≠ .error (.error e) t := by
  simp only [transaction, ne_eq, bind_eq_error, push_ne_error, catchError_eq_error, false_or]
  rintro ⟨_, _, -, ⟨f, hf, -⟩ | ⟨r, u, -, h⟩⟩
  · cases hf
  · cases r with
    | ok a =>
      rcases bind_eq_error.1 h with h | ⟨_, _, -, h⟩
      · exact discard_ne_error h
      · exact pure_ne_error h
    | error d =>
      rcases bind_eq_error.1 h with h | ⟨_, _, -, h⟩
      · exact pop_ne_error h
      · exact pure_ne_error h

/-- An attempt finds what its inside finds. -/
theorem attempt_eq_ok_some {x : Action (Option α)} {a : α} {s t : State} :
    attempt x s = .ok (some a) t ↔ ∃ u, x s.opened = .ok (some a) u ∧ u.Kept t := by
  simp only [attempt, bind_eq_ok, push_eq_ok, catchError_eq_ok]
  constructor
  · rintro ⟨_, _, rfl, r, u, ⟨b, rfl, hx⟩ | ⟨e, rfl, hx⟩, h⟩
    · cases b with
      | none =>
        obtain ⟨_, v, -, h⟩ := bind_eq_ok.1 h
        cases (pure_eq_ok.1 h).1
      | some b =>
        obtain ⟨_, v, hv, h⟩ := bind_eq_ok.1 h
        obtain ⟨h, rfl⟩ := pure_eq_ok.1 h
        cases h
        exact ⟨u, hx, discard_eq_ok.1 hv⟩
    · obtain ⟨_, v, -, h⟩ := bind_eq_ok.1 h
      split at h
      · cases (pure_eq_ok.1 h).1
      · cases h
  · rintro ⟨u, hx, h⟩
    refine ⟨(), _, rfl, .ok (some a), u, .inl ⟨_, rfl, hx⟩, ?_⟩
    exact bind_eq_ok.2 ⟨(), t, discard_eq_ok.2 h, rfl⟩

/-- An attempt finds nothing if its inside finds nothing or has a soft error. -/
theorem attempt_eq_ok_none {x : Action (Option α)} {s t : State} :
    attempt x s = .ok none t ↔
      ∃ u, (x s.opened = .ok none u ∨ ∃ e, e.isSoft ∧ x s.opened = .error (.error e) u) ∧
        u.Undone t := by
  simp only [attempt, bind_eq_ok, push_eq_ok, catchError_eq_ok]
  constructor
  · rintro ⟨_, _, rfl, r, u, ⟨b, rfl, hx⟩ | ⟨e, rfl, hx⟩, h⟩
    · cases b with
      | none =>
        obtain ⟨_, v, hv, h⟩ := bind_eq_ok.1 h
        obtain ⟨-, rfl⟩ := pure_eq_ok.1 h
        exact ⟨u, .inl hx, pop_eq_ok.1 hv⟩
      | some b =>
        obtain ⟨_, v, -, h⟩ := bind_eq_ok.1 h
        cases (pure_eq_ok.1 h).1
    · obtain ⟨_, v, hv, h⟩ := bind_eq_ok.1 h
      split at h
      · next hsoft =>
        obtain ⟨-, rfl⟩ := pure_eq_ok.1 h
        exact ⟨u, .inr ⟨e, hsoft, hx⟩, pop_eq_ok.1 hv⟩
      · cases h
  · rintro ⟨u, hx | ⟨e, hsoft, hx⟩, h⟩
    · refine ⟨(), _, rfl, .ok none, u, .inl ⟨_, rfl, hx⟩, ?_⟩
      exact bind_eq_ok.2 ⟨(), t, pop_eq_ok.2 h, rfl⟩
    · refine ⟨(), _, rfl, .error e, u, .inr ⟨e, rfl, hx⟩, ?_⟩
      refine bind_eq_ok.2 ⟨(), t, pop_eq_ok.2 h, ?_⟩
      rw [if_pos hsoft]
      rfl

/-- An attempt fails with the errors of its inside that are not soft. -/
theorem attempt_eq_error {x : Action (Option α)} {e : Error} {s t : State} :
    attempt x s = .error (.error e) t ↔
      e.isSoft = false ∧ ∃ u, x s.opened = .error (.error e) u ∧ u.Undone t := by
  simp only [attempt, bind_eq_error, push_ne_error, push_eq_ok, catchError_eq_error,
    catchError_eq_ok, false_or]
  constructor
  · rintro ⟨_, _, rfl, ⟨f, hf, -⟩ | ⟨r, u, ⟨b, rfl, hx⟩ | ⟨d, rfl, hx⟩, h⟩⟩
    · cases hf
    · cases b with
      | none =>
        rcases bind_eq_error.1 h with h | ⟨_, _, -, h⟩
        · exact absurd h pop_ne_error
        · exact absurd h pure_ne_error
      | some b =>
        rcases bind_eq_error.1 h with h | ⟨_, _, -, h⟩
        · exact absurd h discard_ne_error
        · exact absurd h pure_ne_error
    · rcases bind_eq_error.1 h with h | ⟨_, v, hv, h⟩
      · exact absurd h pop_ne_error
      · split at h
        · exact absurd h pure_ne_error
        · next hsoft =>
          cases h
          exact ⟨by simpa using hsoft, u, hx, pop_eq_ok.1 hv⟩
  · rintro ⟨hsoft, u, hx, h⟩
    refine ⟨(), _, rfl, .inr ⟨.error e, u, .inr ⟨e, rfl, hx⟩, ?_⟩⟩
    refine bind_eq_error.2 (.inr ⟨(), t, pop_eq_ok.2 h, ?_⟩)
    rw [hsoft]
    rfl

/-! ## Internal errors -/

def internalError? (x : Action α) (s : State) : Option MarkedText :=
  match x s with
  | .ok _ _ => none
  | .error f _ =>
    match f with
    | .fault _ => none
    | .error e =>
      match e.inner with
      | .internal text => some text
      | _ => none

/-- An internal error is what the run failed with. -/
theorem internalError?_eq_some {x : Action α} {s : State} {text : MarkedText}
    (h : x.internalError? s = some text) :
    ∃ e t, x s = .error (.error e) t ∧ e.inner = .internal text := by
  unfold internalError? at h
  split at h
  · cases h
  · next f t hrun =>
    cases f with
    | fault f => cases h
    | error e =>
      dsimp only at h
      split at h
      · next hinner =>
        cases h
        exact ⟨e, t, hrun, hinner⟩
      · cases h

end Action

end Elaborator
