import Elaborator.Proofs.Run
import Elaborator.Proofs.Scope.Local

/-! # Actions that stay in scope

`Action.Safe` is what is proved of every action of unification and elaboration: started in a state
whose values are in bounds (`State.Within`), it ends in such a state, its answer has a given
property, and if it has none, the reason is not a variable out of scope. The state has to be in
bounds as a whole: the solutions of the open transactions come back when one of them is undone,
waiting problems are tried again at their own size, and holes are filled long after they were met.

Trace lines are part of the state. An action may only note an event whose line can be written
(`Event.Shown`). -/

namespace Elaborator

/-! ## States -/

structure Problem.Within (B : Bounds) (p : Problem) : Prop where
  lhs : p.lhs.Within B (· < p.size)
  rhs : p.rhs.Within B (· < p.size)

structure Knowledge.Within (B : Bounds) (k : Knowledge) : Prop where
  solved : ∀ m v, k.cells.find? m = some (some v) → v.Within B noLevels
  waiting : ∀ m ps, k.postponed.find? m = some ps → ∀ p ∈ ps, p.Within B

/-- Everything that is known, or was known at the start of an open transaction, is in bounds. -/
def MetaStore.Within (B : Bounds) (ms : MetaStore) : Prop := ∀ k ∈ ms.now :: ms.saved, k.Within B

structure Hole.Within (B : Bounds) (h : Hole) : Prop where
  scope : ∃ L, h.scope.Within B L ∧ h.ty.Within B L
  term : h.term.Within B h.scope.size

def Event.Shown (e : Event) : Prop := ∀ fuel, Safely (e.line fuel) anything

/-- The values of a state are in bounds. Holes have the property `H`, and each event that is not one
of the `old` ones can be shown. -/
structure State.Within (B : Bounds) (H : Hole → Prop) (old : List Event) (s : State) : Prop where
  metas : s.metas.Within B
  holes : ∀ h ∈ s.holes, H h
  log : ∀ e ∈ s.log, e ∈ old ∨ e.Shown

def Failure.OutOfScope : Failure → Prop
  | .error _ => False
  | .fault f => f.OutOfScope

instance : ScopeFailure Failure := ⟨Failure.OutOfScope⟩

namespace Knowledge.Within

variable {B : Bounds} {k : Knowledge}

theorem empty : Knowledge.empty.Within B :=
  ⟨fun _ _ hv => (nomatch hv), fun _ _ hps => (nomatch hps)⟩

/-- A new cell is empty. -/
theorem make (h : k.Within B) (i : Nat) :
    Knowledge.Within B { k with cells := k.cells.insert i none } := by
  refine ⟨?_, h.waiting⟩
  intro m v hm
  simp only [IdMap.find?_insert] at hm
  split at hm
  · cases hm
  · exact h.solved m v hm

/-- A cell is filled with a closed solution. -/
theorem solve (h : k.Within B) {v : Val} (hv : v.Within B noLevels) (i : Nat) :
    Knowledge.Within B { k with cells := k.cells.insert i (some v) } := by
  refine ⟨?_, h.waiting⟩
  intro m w hm
  simp only [IdMap.find?_insert] at hm
  split at hm
  · cases hm
    exact hv
  · exact h.solved m w hm

/-- The problems that wait for a metavariable. -/
theorem waitingFor (h : k.Within B) (i : Nat) :
    ∀ p ∈ (k.postponed.find? i).getD [], p.Within B := by
  cases hw : k.postponed.find? i with
  | none => exact List.forall_mem_nil _
  | some waiting => exact h.waiting i waiting hw

/-- Postponing a problem in bounds keeps the knowledge in bounds. -/
theorem postpone (h : k.Within B) {p : Problem} (hp : p.Within B) (i : Nat) :
    Knowledge.Within B
      { k with postponed := k.postponed.insert i ((k.postponed.find? i).getD [] ++ [p]) } := by
  refine ⟨h.solved, ?_⟩
  intro m ps hps
  simp only [IdMap.find?_insert] at hps
  split at hps
  · cases hps
    exact List.forall_mem_append.2 ⟨h.waitingFor i, List.forall_mem_singleton.2 hp⟩
  · exact h.waiting m ps hps

theorem erase (h : k.Within B) (i : Nat) :
    Knowledge.Within B { k with postponed := k.postponed.erase i } := by
  refine ⟨h.solved, ?_⟩
  intro m ps hps
  simp only [IdMap.find?_erase] at hps
  split at hps
  · cases hps
  · exact h.waiting m ps hps

/-- Knowledge in bounds has solutions in bounds. -/
theorem solvedWithin {ms : MetaStore} (h : ms.now.Within B) : ms.SolvedWithin B := by
  intro m v _ hv
  exact h.solved m.toNat v (Option.join_eq_some_iff.1 hv)

end Knowledge.Within

namespace MetaStore.Within

variable {B : Bounds} {ms : MetaStore}

theorem now (h : ms.Within B) : ms.now.Within B := Always.now h

theorem solvedWithin (h : ms.Within B) : ms.SolvedWithin B := h.now.solvedWithin

/-- A change of what is known now. -/
theorem of_now (h : ms.Within B) {t : MetaStore} (hsaved : t.saved = ms.saved)
    (hnow : t.now.Within B) : t.Within B :=
  Always.of_now h hsaved hnow

theorem fresh (h : ms.Within B) : ms.fresh.2.Within B := h.of_now rfl (h.now.make ms.next)

/-- A closed solution in bounds keeps the store in bounds. -/
theorem set (h : ms.Within B) {t : MetaStore} {m : MetaId} {v : Val} (hv : v.Within B noLevels)
    (ht : ms.set m v = .ok t) : t.Within B := by
  obtain ⟨-, hnow, hsaved, -⟩ := MetaStore.set_eq_ok_iff.1 ht
  refine h.of_now hsaved ?_
  rw [hnow]
  exact h.now.solve hv m.toNat

theorem postpone (h : ms.Within B) {m : MetaId} {p : Problem} (hp : p.Within B) :
    (ms.postpone m p).Within B :=
  h.of_now rfl (h.now.postpone hp m.toNat)

theorem takePostponed (h : ms.Within B) (m : MetaId) :
    (∀ p ∈ (ms.takePostponed m).1, p.Within B) ∧ (ms.takePostponed m).2.Within B :=
  ⟨h.now.waitingFor m.toNat, h.of_now rfl (h.now.erase m.toNat)⟩

theorem push (h : ms.Within B) : ms.push.Within B := Always.push h

theorem pop (h : ms.Within B) {t : MetaStore} (ht : ms.pop = .ok t) : t.Within B := Always.pop h ht

theorem discard (h : ms.Within B) {t : MetaStore} (ht : ms.discard = .ok t) : t.Within B :=
  Always.discard h ht

theorem reset (ms : MetaStore) : ms.reset.Within B := List.forall_mem_singleton.2 .empty

end MetaStore.Within

/-! ## Safe actions -/

namespace Action

variable {α β : Type} {B : Bounds} {H : Hole → Prop} {old : List Event} {Q : α → Prop}
  {R : β → Prop}

/-- From a state in bounds the action goes to a state in bounds. Its answer has the property `Q`,
and it does not fail because of a variable out of scope. -/
structure Safe (B : Bounds) (H : Hole → Prop) (old : List Event) (x : Action α) (Q : α → Prop) :
    Prop where
  ok : ∀ {s a t}, s.Within B H old → x s = .ok a t → t.Within B H old ∧ Q a
  error : ∀ {s e t}, s.Within B H old → x s = .error e t → t.Within B H old ∧ ¬ e.OutOfScope

namespace Safe

theorem imp {x : Action α} {Q' : α → Prop} (hx : Safe B H old x Q) (h : ∀ a, Q a → Q' a) :
    Safe B H old x Q' where
  ok hs hst := (hx.ok hs hst).imp_right (h _)
  error := hx.error

theorem pure {a : α} (h : Q a) : Safe B H old (pure a) Q where
  ok := by
    intro s b t hs hst
    obtain ⟨rfl, rfl⟩ := pure_eq_ok.1 hst
    exact ⟨hs, h⟩
  error _ hst := absurd hst pure_ne_error

theorem throw {e : Failure} (h : ¬ e.OutOfScope) : Safe B H old (throw e) Q where
  ok _ hst := nomatch hst
  error hs hst := by
    cases hst
    exact ⟨hs, h⟩

theorem refuse (e : Error) : Safe B H old (refuse e) Q := throw id

theorem lift {r : Except Fault α} (h : Safely r Q) : Safe B H old (liftM r) Q where
  ok := by
    intro s a t hs hst
    obtain ⟨hr, rfl⟩ := lift_eq_ok.1 hst
    exact ⟨hs, h.answer a hr⟩
  error := by
    intro s e t hs hst
    obtain ⟨f, hr, rfl, rfl⟩ := lift_eq_error.1 hst
    exact ⟨hs, h.fault f hr⟩

/-- A sequence is safe when its first action is and the rest is on every answer. -/
theorem bind {x : Action α} {f : α → Action β} (hx : Safe B H old x Q)
    (hf : ∀ a, Q a → Safe B H old (f a) R) : Safe B H old (x >>= f) R where
  ok := by
    intro s b t hs hst
    obtain ⟨a, u, hu, ht⟩ := bind_eq_ok.1 hst
    obtain ⟨hus, ha⟩ := hx.ok hs hu
    exact (hf a ha).ok hus ht
  error := by
    intro s e t hs hst
    rcases bind_eq_error.1 hst with hu | ⟨a, u, hu, ht⟩
    · exact hx.error hs hu
    · obtain ⟨hus, ha⟩ := hx.ok hs hu
      exact (hf a ha).error hus ht

theorem ite {p : Prop} [Decidable p] {x y : Action α} (hx : p → Safe B H old x Q)
    (hy : ¬ p → Safe B H old y Q) : Safe B H old (if p then x else y) Q := by
  split
  · next h => exact hx h
  · next h => exact hy h

theorem forM {f : α → Action PUnit} {l : List α} (hf : ∀ a ∈ l, Safe B H old (f a) anything) :
    Safe B H old (l.forM f) anything := by
  induction l with
  | nil => exact pure trivial
  | cons a l ih =>
    obtain ⟨ha, hl⟩ := List.forall_mem_cons.1 hf
    exact bind ha fun _ _ => ih hl

/-! ### Errors -/

theorem mapError {x : Action α} (f : Error → Error) (hx : Safe B H old x Q) :
    Safe B H old (mapError f x) Q where
  ok hs hst := hx.ok hs (mapError_eq_ok.1 hst)
  error := by
    intro s e t hs hst
    unfold Action.mapError at hst
    split at hst
    · cases hst
    · next hu =>
      cases hst
      exact ⟨(hx.error hs hu).1, id⟩
    · next hu =>
      cases hst
      exact hx.error hs hu

/-- An error that is caught leaves the state in bounds. -/
theorem catchError {x : Action α} (hx : Safe B H old x Q) :
    Safe B H old (catchError x) (fun r => ∀ a, r = .ok a → Q a) where
  ok := by
    intro s r t hs hst
    rcases catchError_eq_ok.1 hst with ⟨a, rfl, hu⟩ | ⟨e, rfl, hu⟩
    · obtain ⟨ht, ha⟩ := hx.ok hs hu
      refine ⟨ht, ?_⟩
      rintro b ⟨⟩
      exact ha
    · exact ⟨(hx.error hs hu).1, fun _ h => nomatch h⟩
  error := by
    intro s e t hs hst
    obtain ⟨f, rfl, hu⟩ := catchError_eq_error.1 hst
    exact hx.error hs hu

/-! ### The state -/

theorem get : Safe B H old (get : Action State) (State.Within B H old) where
  ok hs hst := by
    cases hst
    exact ⟨hs, hs⟩
  error _ hst := nomatch hst

theorem modify {f : State → State} (hf : ∀ s, s.Within B H old → (f s).Within B H old) :
    Safe B H old (modify f : Action PUnit) anything where
  ok hs hst := by
    cases hst
    exact ⟨hf _ hs, trivial⟩
  error _ hst := nomatch hst

theorem metas : Safe B H old metas (MetaStore.Within B) :=
  bind get fun _ hs => pure hs.metas

theorem setMetas {ms : MetaStore} (hms : ms.Within B) : Safe B H old (setMetas ms) anything :=
  modify fun _ hs => ⟨hms, hs.holes, hs.log⟩

theorem emit {e : Event} (he : e.Shown) : Safe B H old (emit e) anything :=
  modify fun _ hs => ⟨hs.metas, hs.holes, List.forall_mem_cons.2 ⟨.inr he, hs.log⟩⟩

/-- An event is written safely when it can be shown in every store in bounds. -/
theorem emitWith {e : MetaStore → Event} (he : ∀ ms, ms.Within B → (e ms).Shown) :
    Safe B H old (emitWith e) anything :=
  bind metas fun ms hms => emit (he ms hms)

theorem freshMeta (hB : ∀ m, B.metas m) : Safe B H old freshMeta B.metas :=
  bind metas fun _ hms => bind (setMetas hms.fresh) fun _ _ => pure (hB _)

/-- A new metavariable is applied to variables of its scope only. -/
theorem newMeta (hB : ∀ m, B.metas m) {L : Nat → Prop} {scope : Local} (hs : scope.Within B L) :
    Safe B H old (newMeta scope) (Term.Within B scope.size) :=
  bind (freshMeta hB) fun _ hm => pure (hs.applyMeta hm)

theorem setMeta {m : MetaId} {v : Val} (hv : v.Within B noLevels) :
    Safe B H old (setMeta m v) anything := by
  refine bind metas fun ms hms => ?_
  split
  · next t ht => exact setMetas (hms.set hv ht)
  · exact refuse _

theorem postpone {m : MetaId} {p : Problem} (hp : p.Within B) :
    Safe B H old (postpone m p) anything := by
  refine bind (emit ?_) fun _ _ => bind metas fun ms hms => setMetas (hms.postpone hp)
  exact fun fuel => .pure trivial

theorem takePostponed (m : MetaId) :
    Safe B H old (takePostponed m) (fun ps => ∀ p ∈ ps, p.Within B) := by
  refine bind metas fun ms hms => ?_
  obtain ⟨hps, ht⟩ := hms.takePostponed m
  exact bind (setMetas ht) fun _ _ => pure hps

/-! ### Transactions -/

theorem push : Safe B H old push anything := bind metas fun _ hms => setMetas hms.push

theorem pop : Safe B H old pop anything := by
  refine bind metas fun ms hms => bind (Q := MetaStore.Within B) (lift ⟨fun t ht => hms.pop ht, ?_⟩)
    fun _ ht => setMetas ht
  intro f hf
  unfold MetaStore.pop at hf
  split at hf <;> cases hf
  exact id

theorem discard : Safe B H old discard anything := by
  refine bind metas fun ms hms =>
    bind (Q := MetaStore.Within B) (lift ⟨fun t ht => hms.discard ht, ?_⟩) fun _ ht => setMetas ht
  intro f hf
  unfold MetaStore.discard at hf
  split at hf <;> cases hf
  exact id

/-- A transaction is safe when its body is, whether it is kept or not. -/
theorem transaction {x : Action α} (hx : Safe B H old x Q) :
    Safe B H old (transaction x) (fun r => ∀ a, r = .ok a → Q a) := by
  refine bind push fun _ _ => bind (catchError hx) fun r hr => ?_
  cases r with
  | ok a => exact bind discard fun _ _ => pure hr
  | error e => exact bind pop fun _ _ => pure hr

theorem attempt {x : Action (Option α)} (hx : Safe B H old x (fun r => ∀ a ∈ r, Q a)) :
    Safe B H old (attempt x) (fun r => ∀ a ∈ r, Q a) := by
  have nothing : ∀ a ∈ (none : Option α), Q a := fun _ h => nomatch h
  refine bind push fun _ _ => bind (catchError hx) fun r hr => ?_
  cases r with
  | ok o =>
    cases o with
    | some a => exact bind discard fun _ _ => pure (hr _ rfl)
    | none => exact bind pop fun _ _ => pure nothing
  | error e => exact bind pop fun _ _ => ite (fun _ => pure nothing) fun _ => refuse _

/-! ### Values under the current solutions -/

variable {L : Nat → Prop} {v : Val}

theorem forceMeta (hv : v.Within B L) (fuel : Nat) :
    Safe B H old (forceMeta fuel v) (Val.Within B L) :=
  bind metas fun _ hms => lift (Val.forceMeta_safely hms.solvedWithin hv fuel)

theorem force (hv : v.Within B L) (fuel : Nat) : Safe B H old (force fuel v) (Val.Within B L) :=
  bind metas fun _ hms => lift (Val.force_safely hms.solvedWithin hv fuel)

theorem quote {n : Nat} (hv : v.Within B L) (hL : ∀ l, L l → l < n) (fuel : Nat) :
    Safe B H old (quote fuel n v) (Term.Within B n) :=
  bind metas fun _ hms => lift (Val.quote_safely hms.solvedWithin hv hL fuel false)

theorem text {scope : Local} (hs : scope.Within B L) (hv : v.Within B L) (fuel : Nat) :
    Safe B H old (text fuel scope v) anything :=
  bind metas fun _ hms => lift (Local.text_safely hms.solvedWithin hs hv fuel)

end Safe

/-- An action that starts by changing the state needs only the changed state to be in bounds. -/
theorem safe_of_modify {f : State → State} {k : PUnit → Action α}
    (hk : Safe B H old (k ⟨⟩) Q) {s : State} (hs : (f s).Within B H old) :
    (∀ e t, (modify f >>= k) s = .error e t → t.Within B H old ∧ ¬ e.OutOfScope) ∧
    ∀ a t, (modify f >>= k) s = .ok a t → t.Within B H old ∧ Q a :=
  ⟨fun _ _ h => hk.error hs h, fun _ _ h => hk.ok hs h⟩

end Action

/-! ## Events -/

namespace Event.Shown

/-- An event can be shown if its parts can be described. -/
theorem of_describe {e : Event} (h : ∀ fuel, Safely (e.describe fuel) anything) : e.Shown :=
  fun fuel => (h fuel).bind fun _ _ => .pure trivial

variable {B : Bounds} {L : Nat → Prop} {ms : MetaStore} {scope : Local} {ty : Val}

theorem scopeText (hms : ms.Within B) (hs : scope.Within B L) (hty : ty.Within B L) (fuel : Nat) :
    Safely (scope.text fuel ms ty) anything :=
  Local.text_safely hms.solvedWithin hs hty fuel

theorem levelText {v : Val} {n : Nat} (hms : ms.Within B) (hv : v.Within B (· < n)) (fuel : Nat) :
    Safely (v.text fuel ms (levelNames n)) anything :=
  Val.text_safely hms.solvedWithin hv (by simp [levelNames]) fuel

end Event.Shown

end Elaborator
