import Elaborator.Proofs.Replay.Eval
import Elaborator.Proofs.Scope.Unify

/-! # Actions that only look

Most actions read the metavariable store and leave it alone: they force values, read them back and
note events. `Action.Looks` says this of an action, together with what its answers and its errors
are like. What such an action does depends on the solutions only, not on the waiting problems and
not on the open transactions, so the judgement names the solutions that the action starts with.

Comparing two values as they stand (`Mode.rigid`) is of this kind as a whole (`unify_looks`). It
does open transactions, but both ways out of one lead back to the store of before. -/

namespace Elaborator

/-- Between two states nothing but events was added. -/
structure State.Looked (s t : State) : Prop where
  metas : t.metas = s.metas
  holes : t.holes = s.holes
  log : s.log <:+ t.log

namespace State.Looked

theorem refl (s : State) : s.Looked s := ⟨rfl, rfl, List.suffix_refl _⟩

theorem trans {s t u : State} (h : s.Looked t) (h' : t.Looked u) : s.Looked u :=
  ⟨h'.metas.trans h.metas, h'.holes.trans h.holes, h.log.trans h'.log⟩

/-- A transaction in which nothing was solved is undone. -/
theorem undone {s t u : State} (h : s.opened.Looked t) (hu : t.Undone u) : s.Looked u := by
  obtain ⟨ms, hpop, rfl⟩ := hu
  refine ⟨?_, h.holes, h.log⟩
  rw [h.metas] at hpop
  exact (Except.ok.inj hpop).symm

/-- A transaction in which nothing was solved is kept. -/
theorem kept {s t u : State} (h : s.opened.Looked t) (hu : t.Kept u) : s.Looked u := by
  obtain ⟨ms, hdiscard, rfl⟩ := hu
  refine ⟨?_, h.holes, h.log⟩
  rw [h.metas] at hdiscard
  exact (Except.ok.inj hdiscard).symm

end State.Looked

/-! ## Forcing under given solutions -/

/-- With the solutions `σ`, replacing solved metavariables at the head of `v` gives `w`. -/
def Val.ForcesTo (σ : MetaId → Option Val) (v w : Val) : Prop :=
  ∃ ms fuel, MetaStore.lookup ms = σ ∧ v.forceMeta fuel ms = .ok w

def Val.UnfoldsTo (σ : MetaId → Option Val) (v w : Val) : Prop :=
  ∃ ms fuel, MetaStore.lookup ms = σ ∧ v.force fuel ms = .ok w

def Val.QuotesTo (σ : MetaId → Option Val) (size : Nat) (v : Val) (t : Term) : Prop :=
  ∃ ms fuel, MetaStore.lookup ms = σ ∧ v.quote fuel ms false size = .ok t

section

variable {σ : MetaId → Option Val} {v w u : Val}

/-- Forcing the head of a value has at most one answer. -/
theorem Val.ForcesTo.unique (h : v.ForcesTo σ w) (h' : v.ForcesTo σ u) : u = w := by
  obtain ⟨ms, fuel, hms, hw⟩ := h
  obtain ⟨ms', fuel', hms', hu⟩ := h'
  exact Val.forceMeta_twice (hms'.trans hms.symm) fuel fuel' v w u hw hu

/-- Unfolding a value has at most one answer. -/
theorem Val.UnfoldsTo.unique (h : v.UnfoldsTo σ w) (h' : v.UnfoldsTo σ u) : u = w := by
  obtain ⟨ms, fuel, hms, hw⟩ := h
  obtain ⟨ms', fuel', hms', hu⟩ := h'
  exact Val.force_twice_of_lookup (hms'.trans hms.symm) fuel fuel' v w u hw hu

/-- What is not stuck on a metavariable is left alone. -/
theorem Val.ForcesTo.eq_of_isMeta (h : v.ForcesTo σ w) (hv : v.isMeta = false) : w = v := by
  obtain ⟨ms, fuel, -, hw⟩ := h
  exact Val.forceMeta_settled hv hw

/-- Forcing stops at a metavariable only if it is unsolved. -/
theorem Val.ForcesTo.unsolved {m : MetaId} {sp : Spine}
    (h : v.ForcesTo σ (.neutral (.metavar m) sp)) : σ m = none := by
  obtain ⟨ms, fuel, rfl, hw⟩ := h
  exact Val.forceMeta_unsolved hw

end

def noErrors : Error → Prop := fun _ => False

namespace Action

variable {α β : Type} {σ : MetaId → Option Val} {Q : α → Prop} {R : β → Prop} {E : Error → Prop}

/-- From a state with the solutions `σ` the action only adds events. Its answers satisfy `Q` and its
errors satisfy `E`. -/
structure Looks (σ : MetaId → Option Val) (x : Action α) (Q : α → Prop) (E : Error → Prop) :
    Prop where
  ok : ∀ {s a t}, s.metas.lookup = σ → x s = .ok a t → s.Looked t ∧ Q a
  error : ∀ {s e t}, s.metas.lookup = σ → x s = .error (.error e) t → s.Looked t ∧ E e

namespace Looks

variable {x : Action α}

theorem looked (h : Looks σ x Q E) {s t : State} (hs : s.metas.lookup = σ) (hst : x.Returns s t) :
    s.Looked t := by
  rcases hst with ⟨a, hst⟩ | ⟨e, hst⟩
  · exact (h.ok hs hst).1
  · exact (h.error hs hst).1

theorem pure {a : α} (h : Q a) : Looks σ (pure a) Q E where
  ok := by
    intro s b t _ hst
    obtain ⟨rfl, rfl⟩ := pure_eq_ok.1 hst
    exact ⟨.refl s, h⟩
  error _ hst := absurd hst pure_ne_error

theorem fault (f : Fault) : Looks σ (throw (.fault f) : Action α) Q E where
  ok _ hst := nomatch hst
  error _ hst := nomatch hst

theorem refuse {e : Error} (h : E e) : Looks σ (refuse e : Action α) Q E where
  ok _ hst := nomatch hst
  error := by
    rintro s _ _ _ ⟨⟩
    exact ⟨.refl s, h⟩

theorem lift {r : Except Fault α} (h : ∀ a, r = .ok a → Q a) : Looks σ (liftM r) Q E where
  ok := by
    intro s a t _ hst
    obtain ⟨hr, rfl⟩ := lift_eq_ok.1 hst
    exact ⟨.refl s, h a hr⟩
  error := by
    intro s e t _ hst
    obtain ⟨f, -, hf, -⟩ := lift_eq_error.1 hst
    cases hf

/-- A sequence looks when its first action does and the rest does on every answer. -/
theorem bind {f : α → Action β} (hx : Looks σ x Q E) (hf : ∀ a, Q a → Looks σ (f a) R E) :
    Looks σ (x >>= f) R E where
  ok := by
    intro s b t hs hst
    obtain ⟨a, u, hu, ht⟩ := bind_eq_ok.1 hst
    obtain ⟨hsu, ha⟩ := hx.ok hs hu
    have hσ : u.metas.lookup = σ := hsu.metas ▸ hs
    obtain ⟨hut, hb⟩ := (hf a ha).ok hσ ht
    exact ⟨hsu.trans hut, hb⟩
  error := by
    intro s e t hs hst
    rcases bind_eq_error.1 hst with hu | ⟨a, u, hu, ht⟩
    · exact hx.error hs hu
    · obtain ⟨hsu, ha⟩ := hx.ok hs hu
      have hσ : u.metas.lookup = σ := hsu.metas ▸ hs
      obtain ⟨hut, he⟩ := (hf a ha).error hσ ht
      exact ⟨hsu.trans hut, he⟩

theorem imp {Q' : α → Prop} {E' : Error → Prop} (hx : Looks σ x Q E) (hQ : ∀ a, Q a → Q' a)
    (hE : ∀ e, E e → E' e) : Looks σ x Q' E' where
  ok hs hst := ⟨(hx.ok hs hst).1, hQ _ (hx.ok hs hst).2⟩
  error hs hst := ⟨(hx.error hs hst).1, hE _ (hx.error hs hst).2⟩

theorem ite {p : Prop} [Decidable p] {y : Action α} (hx : p → Looks σ x Q E)
    (hy : ¬ p → Looks σ y Q E) : Looks σ (if p then x else y) Q E := by
  split
  · next h => exact hx h
  · next h => exact hy h

theorem metas : Looks σ metas (fun ms => ms.lookup = σ) E where
  ok := by
    intro s ms t hs hst
    obtain ⟨rfl, rfl⟩ := metas_eq_ok.1 hst
    exact ⟨.refl s, hs⟩
  error _ hst := absurd hst metas_ne_error

theorem emit (e : Event) : Looks σ (emit e) anything E where
  ok := by
    rintro s _ _ _ ⟨⟩
    exact ⟨⟨rfl, rfl, List.suffix_cons e s.log⟩, trivial⟩
  error _ hst := nomatch hst

theorem emitWith (e : MetaStore → Event) : Looks σ (emitWith e) anything E :=
  metas.bind fun _ _ => emit _

/-- The answer or the error of what runs inside a transaction is the answer of the transaction. -/
theorem transaction (hx : Looks σ x Q E) :
    Looks σ (transaction x) (fun r => (∃ a, r = .ok a ∧ Q a) ∨ ∃ e, r = .error e ∧ E e) E where
  ok := by
    intro s r t hs hst
    rcases transaction_eq_ok.1 hst with ⟨a, u, rfl, hu, ht⟩ | ⟨e, u, rfl, hu, ht⟩
    · obtain ⟨hlooked, ha⟩ := hx.ok (s := s.opened) hs hu
      exact ⟨hlooked.kept ht, .inl ⟨a, rfl, ha⟩⟩
    · obtain ⟨hlooked, he⟩ := hx.error (s := s.opened) hs hu
      exact ⟨hlooked.undone ht, .inr ⟨e, rfl, he⟩⟩
  error _ hst := absurd hst transaction_ne_error

theorem forceMeta (fuel : Nat) (v : Val) : Looks σ (forceMeta fuel v) (v.ForcesTo σ) E :=
  metas.bind fun ms hms => lift fun _ hw => ⟨ms, fuel, hms, hw⟩

theorem force (fuel : Nat) (v : Val) : Looks σ (force fuel v) (v.UnfoldsTo σ) E :=
  metas.bind fun ms hms => lift fun _ hw => ⟨ms, fuel, hms, hw⟩

theorem quote (fuel size : Nat) (v : Val) : Looks σ (quote fuel size v) anything E :=
  metas.bind fun _ _ => lift fun _ _ => trivial

end Looks

end Action

/-! ## Comparing values as they stand -/

open Elaborator.Action

variable {σ : MetaId → Option Val} {g : Globals}

def Error.Differs (e : Error) : Prop := ∃ size lhs rhs, e = .conversion size lhs rhs none

/-- A mismatch looks at the two values and reports that they differ. -/
theorem mismatch_looks {Q : Unit → Prop} (fuel size : Nat) (a b : Val) :
    Looks σ (mismatch fuel size a b) Q Error.Differs :=
  (Looks.quote fuel size a).bind fun _ _ => (Looks.quote fuel size b).bind fun _ _ =>
    .refuse ⟨_, _, _, rfl⟩

/-- Spines are compared by looking when their values are. -/
theorem unifySpines_looks {u : Val → Val → Action Unit}
    (hu : ∀ x y, Looks σ (u x y) anything Error.Differs) (fuel size : Nat) (a b : Val)
    (sa sb : Spine) :
    Looks σ (unifySpines u (mismatch fuel size a b) sa sb) anything Error.Differs :=
  unifySpines_of (J := fun x => Looks σ x anything Error.Differs) (.pure trivial)
    (fun hx hy => hx.bind fun _ _ => hy) (mismatch_looks fuel size a b) fun x _ y _ => hu x y

/-- A metavariable is only to be solved if it is the head of one side, and the solution is the other
side. -/
theorem Comparison.of_eq_solve {mode : Mode} {a b : Val} {m : MetaId} {sp : Spine} {rhs : Val}
    (h : Comparison.of mode a b = .solve m sp rhs) :
    mode = .solving ∧
      (a = .neutral (.metavar m) sp ∧ b = rhs ∨ a = rhs ∧ b = .neutral (.metavar m) sp) := by
  have hc := Compares.of mode a b
  rw [h] at hc
  cases hc with
  | solveLeft hmode => exact ⟨hmode, .inl ⟨rfl, rfl⟩⟩
  | solveRight hmode => exact ⟨hmode, .inr ⟨rfl, rfl⟩⟩

/-- Nothing is solved where metavariables are treated like constants. -/
theorem Comparison.of_rigid_ne_solve {a b : Val} {m : MetaId} {sp : Spine} {rhs : Val} :
    Comparison.of .rigid a b ≠ .solve m sp rhs :=
  fun h => nomatch (of_eq_solve h).1

/-- Only a metavariable that forcing has stopped at is to be solved. -/
theorem Comparison.unsolved_of_solve {mode : Mode}
    {a b a' b' : Val} {m : MetaId} {sp : Spine} {rhs : Val}
    (hc : Comparison.of mode a' b' = .solve m sp rhs) (ha : a.ForcesTo σ a')
    (hb : b.ForcesTo σ b') : σ m = none := by
  obtain ⟨-, ⟨rfl, -⟩ | ⟨-, rfl⟩⟩ := of_eq_solve hc
  · exact ha.unsolved
  · exact hb.unsolved

/-- Comparing two values as they stand leaves the store alone, and its only errors say that the
values differ. -/
theorem unify_looks (fuel size : Nat) (a b : Val) :
    Looks σ (unify fuel .rigid g size a b) anything Error.Differs := by
  induction fuel generalizing size a b with
  | zero => exact .fault _
  | succ fuel ih =>
    refine (Looks.forceMeta fuel a).bind fun a _ => (Looks.forceMeta fuel b).bind fun b _ => ?_
    refine (Looks.emitWith _).bind fun _ _ => ?_
    have spines := unifySpines_looks (fun x y => ih size x y) fuel size a b
    cases hc : Comparison.of .rigid a b with
    | equal => exact .pure trivial
    | mismatch => exact mismatch_looks ..
    | binders c d =>
      refine Looks.bind (Q := anything) (.ite (fun _ => .pure trivial) fun _ => ih ..) fun _ _ => ?_
      exact (Looks.lift fun _ h => h).bind fun x _ =>
        (Looks.lift fun _ h => h).bind fun y _ => ih ..
    | pairs x y z w => exact (ih size x z).bind fun _ _ => ih size y w
    | numeral n pred => exact ih ..
    | spines sa sb => exact spines sa sb
    | solve m sp rhs => exact absurd hc Comparison.of_rigid_ne_solve
    | expandFun c v =>
      exact (Looks.lift fun _ h => h).bind fun x _ =>
        (Looks.lift fun _ h => h).bind fun y _ => ih ..
    | expandPair x y v =>
      refine (Looks.lift fun _ h => h).bind fun fst _ => (ih size x fst).bind fun _ _ => ?_
      exact (Looks.lift fun _ h => h).bind fun snd _ => ih ..
    | sameGlobal sa sb =>
      refine (spines sa sb).transaction.bind fun r hr => ?_
      rcases hr with ⟨_, rfl, -⟩ | ⟨e, rfl, he⟩
      · exact .pure trivial
      · refine .ite (fun _ => ?_) fun _ => .refuse he
        exact (Looks.force fuel a).bind fun a _ => (Looks.force fuel b).bind fun b _ => ih ..
    | unfoldLeft => exact (Looks.force fuel a).bind fun a _ => ih ..
    | unfoldRight => exact (Looks.force fuel b).bind fun b _ => ih ..

end Elaborator
