import Elaborator.Proofs.Mentions
import Elaborator.Proofs.Modes.Looking

/-! # Runs that solve nothing

The log tells what happened on the way, also what a transaction took back later. `Action.Barring` is
about runs in which events of one kind do not happen. Unification notes an event whenever it finds a
solution (`Event.IsSolved`). As long as it does not, the solutions are those of the beginning, and
there are only two kinds of errors: two values differ, or the solution of an unsolved metavariable
is refused (`unifiesUnsolving`). -/

namespace Elaborator

/-! ## What a run leaves behind -/

/-- The transactions are those of before, and events were only added. -/
structure State.Follows (s t : State) : Prop where
  saved : t.metas.saved = s.metas.saved
  log : s.log <:+ t.log

def State.Notes (N : Event → Prop) (s t : State) : Prop :=
  ∃ events e, t.log = events ++ s.log ∧ e ∈ events ∧ N e

namespace State

variable {N : Event → Prop} {s t u : State}

theorem Follows.trans (h : s.Follows t) (h' : t.Follows u) : s.Follows u :=
  ⟨h'.saved.trans h.saved, h.log.trans h'.log⟩

theorem Looked.follows (h : s.Looked t) : s.Follows t := ⟨by rw [h.metas], h.log⟩

/-- An event stays in the log. -/
theorem Notes.later (h : s.Notes N t) (htu : t.Follows u) : s.Notes N u := by
  obtain ⟨events, e, ht, he, hN⟩ := h
  obtain ⟨more, hu⟩ := htu.log
  refine ⟨more ++ events, e, ?_, List.mem_append_right _ he, hN⟩
  rw [← hu, ht, List.append_assoc]

theorem Notes.sooner (h : t.Notes N u) (hst : s.Follows t) : s.Notes N u := by
  obtain ⟨events, e, hu, he, hN⟩ := h
  obtain ⟨before, ht⟩ := hst.log
  refine ⟨events ++ before, e, ?_, List.mem_append_left _ he, hN⟩
  rw [hu, ← ht, List.append_assoc]

theorem Notes.imp {N' : Event → Prop} (h : s.Notes N t) (hN : ∀ e, N e → N' e) : s.Notes N' t := by
  obtain ⟨events, e, ht, he, hNe⟩ := h
  exact ⟨events, e, ht, he, hN e hNe⟩

/-- Leaving a transaction, by either way, does not change the log. -/
theorem Follows.undone (h : s.opened.Follows t) (hu : t.Undone u) :
    s.Follows u ∧ u.metas.lookup = s.metas.lookup ∧ (s.opened.Notes N t → s.Notes N u) := by
  obtain ⟨ms, hpop, rfl⟩ := hu
  obtain ⟨hsaved, -⟩ := MetaStore.pop_eq_ok_iff.1 hpop
  obtain ⟨hnow, hrest⟩ := List.cons.inj (h.saved.symm.trans hsaved)
  refine ⟨⟨hrest.symm, h.log⟩, ?_, id⟩
  funext m
  show (ms.now.cells.find? m.toNat).join = _
  rw [← hnow]
  rfl

/-- Keeping an attempt follows the state before it was opened, with the notes made in between. -/
theorem Follows.kept (h : s.opened.Follows t) (hu : t.Kept u) :
    s.Follows u ∧ u.metas.lookup = t.metas.lookup ∧ (s.opened.Notes N t → s.Notes N u) := by
  obtain ⟨ms, hdiscard, rfl⟩ := hu
  obtain ⟨⟨k, hsaved⟩, hnow, -⟩ := MetaStore.discard_eq_ok_iff.1 hdiscard
  obtain ⟨-, hrest⟩ := List.cons.inj (h.saved.symm.trans hsaved)
  refine ⟨⟨hrest.symm, h.log⟩, ?_, id⟩
  funext m
  show (ms.now.cells.find? m.toNat).join = _
  rw [hnow]
  rfl

end State

/-! ## The judgement -/

namespace Action

variable {α β : Type} {N : Event → Prop} {σ : MetaId → Option Val} {P : Prop} {Q : α → Prop}
  {R : β → Prop} {E : Error → Prop}

/-- Wherever the action returns, transactions are as before and events were only added. If moreover
`P` holds, the action starts with the solutions `σ`, and it notes no event of the kind `N`, then the
solutions are still `σ` after an answer, answers satisfy `Q`, and errors satisfy `E`. -/
structure Barring (N : Event → Prop) (σ : MetaId → Option Val) (P : Prop) (x : Action α)
    (Q : α → Prop) (E : Error → Prop) : Prop where
  follows : ∀ {s t}, x.Returns s t → s.Follows t
  ok : ∀ {s a t}, P → s.metas.lookup = σ → x s = .ok a t → ¬ s.Notes N t → t.metas.lookup = σ ∧ Q a
  error : ∀ {s e t}, P → s.metas.lookup = σ → x s = .error (.error e) t → ¬ s.Notes N t → E e

namespace Barring

variable {x : Action α}

/-! ### Actions that only look -/

/-- An action that only looks bars every event. -/
theorem of_looks (hfollows : ∀ {τ}, Looks τ x anything anything) (hx : P → Looks σ x Q E) :
    Barring N σ P x Q E where
  follows hst := (hfollows.looked rfl hst).follows
  ok := by
    intro s a t hP hs hst _
    obtain ⟨hlooked, ha⟩ := (hx hP).ok hs hst
    exact ⟨hlooked.metas ▸ hs, ha⟩
  error hP hs hst _ := ((hx hP).error hs hst).2

theorem pure {a : α} (h : P → Q a) : Barring N σ P (pure a) Q E :=
  of_looks (.pure trivial) fun hP => .pure (h hP)

theorem fault (f : Fault) : Barring N σ P (throw (.fault f) : Action α) Q E :=
  of_looks (.fault f) fun _ => .fault f

theorem refuse {e : Error} (h : P → E e) : Barring N σ P (refuse e : Action α) Q E :=
  of_looks (.refuse trivial) fun hP => .refuse (h hP)

theorem lift {r : Except Fault α} (h : P → ∀ a, r = .ok a → Q a) : Barring N σ P (liftM r) Q E :=
  of_looks (.lift fun _ _ => trivial) fun hP => .lift (h hP)

theorem metas : Barring N σ P metas (fun ms => ms.lookup = σ) E :=
  of_looks (Looks.metas.imp (fun _ _ => trivial) fun _ => id) fun _ => Looks.metas

/-- What happens is not of the kind that is barred. -/
theorem emit (e : Event) : Barring N σ P (emit e) (fun _ => ¬ N e) E where
  follows hst := ((Looks.emit (E := anything) e).looked rfl hst).follows
  ok := by
    rintro s _ _ _ hs ⟨⟩ hquiet
    exact ⟨hs, fun hN => hquiet ⟨[e], e, rfl, List.mem_singleton_self _, hN⟩⟩
  error _ _ hst _ := nomatch hst

/-! ### Composed actions -/

/-- What is known about an answer is known to what follows. -/
theorem bind {f : α → Action β} (hx : Barring N σ P x Q E)
    (hf : ∀ a, Barring N σ (P ∧ Q a) (f a) R E) : Barring N σ P (x >>= f) R E where
  follows := by
    intro s t hst
    rcases returns_bind.1 hst with ⟨e, hst⟩ | ⟨a, u, hu, ht⟩
    · exact hx.follows (.of_error hst)
    · exact (hx.follows (.of_ok hu)).trans ((hf a).follows ht)
  ok := by
    intro s b t hP hs hst hquiet
    obtain ⟨a, u, hu, ht⟩ := bind_eq_ok.1 hst
    have hsu := hx.follows (.of_ok hu)
    have hut := (hf a).follows (.of_ok ht)
    obtain ⟨hσ, ha⟩ := hx.ok hP hs hu fun h => hquiet (h.later hut)
    exact (hf a).ok ⟨hP, ha⟩ hσ ht fun h => hquiet (h.sooner hsu)
  error := by
    intro s e t hP hs hst hquiet
    rcases bind_eq_error.1 hst with hst | ⟨a, u, hu, ht⟩
    · exact hx.error hP hs hst hquiet
    · have hsu := hx.follows (.of_ok hu)
      have hut := (hf a).follows (.of_error ht)
      obtain ⟨hσ, ha⟩ := hx.ok hP hs hu fun h => hquiet (h.later hut)
      exact (hf a).error ⟨hP, ha⟩ hσ ht fun h => hquiet (h.sooner hsu)

theorem imp {P' : Prop} {Q' : α → Prop} {E' : Error → Prop} (hx : Barring N σ P x Q E) (hP : P' → P)
    (hQ : P' → ∀ a, Q a → Q' a) (hE : P' → ∀ e, E e → E' e) : Barring N σ P' x Q' E' where
  follows := hx.follows
  ok := by
    intro s a t hP' hs hst hquiet
    obtain ⟨hσ, ha⟩ := hx.ok (hP hP') hs hst hquiet
    exact ⟨hσ, hQ hP' a ha⟩
  error hP' hs hst hquiet := hE hP' _ (hx.error (hP hP') hs hst hquiet)

/-- A stronger assumption. -/
theorem given {P' : Prop} (hx : Barring N σ P x Q E) (hP : P' → P) : Barring N σ P' x Q E :=
  hx.imp hP (fun _ _ => id) fun _ _ => id

/-- More kinds of events are barred. -/
theorem mono {N' : Event → Prop} (hx : Barring N σ P x Q E) (h : ∀ e, N e → N' e) :
    Barring N' σ P x Q E where
  follows := hx.follows
  ok hP hs hst hquiet := hx.ok hP hs hst fun hN => hquiet (hN.imp h)
  error hP hs hst hquiet := hx.error hP hs hst fun hN => hquiet (hN.imp h)

/-- An action that is not reached. -/
theorem unreached (hfollows : ∀ {s t}, x.Returns s t → s.Follows t) (hP : ¬ P) :
    Barring N σ P x Q E :=
  ⟨hfollows, fun h => absurd h hP, fun h => absurd h hP⟩

theorem ite {p : Prop} [Decidable p] {y : Action α} (hx : Barring N σ P x Q E)
    (hy : Barring N σ P y Q E) : Barring N σ P (if p then x else y) Q E := by
  split
  · exact hx
  · exact hy

theorem forM {f : α → Action PUnit} {l : List α} (hf : ∀ a, Barring N σ P (f a) anything E) :
    Barring N σ P (l.forM f) anything E := by
  induction l with
  | nil => exact pure fun _ => trivial
  | cons a l ih => exact (hf a).bind fun _ => ih.given And.left

/-- An event that is written is none of the barred ones, in a run without barred events. -/
theorem emitWith (e : MetaStore → Event) :
    Barring N σ P (emitWith e) (fun _ => ∃ ms, ¬ N (e ms)) E :=
  metas.bind fun ms => (emit _).imp id (fun _ _ h => ⟨ms, h⟩) fun _ _ => id

/-- A transaction has no errors of its own. -/
theorem transaction {E' : Error → Prop} (hx : Barring N σ P x Q E) :
    Barring N σ P (transaction x) (fun r => (∃ a, r = .ok a ∧ Q a) ∨ ∃ e, r = .error e ∧ E e) E'
      where
  follows := by
    rintro s t (⟨r, hst⟩ | ⟨e, hst⟩)
    · rcases transaction_eq_ok.1 hst with ⟨a, u, -, hu, ht⟩ | ⟨e, u, -, hu, ht⟩
      · exact ((hx.follows (.of_ok hu)).kept (N := N) ht).1
      · exact ((hx.follows (.of_error hu)).undone (N := N) ht).1
    · exact absurd hst transaction_ne_error
  ok := by
    intro s r t hP hs hst hquiet
    rcases transaction_eq_ok.1 hst with ⟨a, u, rfl, hu, ht⟩ | ⟨e, u, rfl, hu, ht⟩
    · obtain ⟨-, hlookup, hsolves⟩ := (hx.follows (.of_ok hu)).kept ht
      obtain ⟨hσ, ha⟩ := hx.ok (s := s.opened) hP hs hu fun h => hquiet (hsolves h)
      exact ⟨hlookup.trans hσ, .inl ⟨a, rfl, ha⟩⟩
    · obtain ⟨-, hlookup, hsolves⟩ := (hx.follows (.of_error hu)).undone ht
      have he := hx.error (s := s.opened) hP hs hu fun h => hquiet (hsolves h)
      exact ⟨hlookup.trans hs, .inr ⟨e, rfl, he⟩⟩
  error _ _ hst _ := absurd hst transaction_ne_error

/-! ### Values under the current solutions -/

theorem forceMeta (fuel : Nat) (v : Val) : Barring N σ P (forceMeta fuel v) (v.ForcesTo σ) E :=
  metas.bind fun ms => lift fun h _ hw => ⟨ms, fuel, h.2, hw⟩

theorem force (fuel : Nat) (v : Val) : Barring N σ P (force fuel v) (v.UnfoldsTo σ) E :=
  metas.bind fun ms => lift fun h _ hw => ⟨ms, fuel, h.2, hw⟩

theorem quote (fuel size : Nat) (v : Val) :
    Barring N σ P (quote fuel size v) (v.QuotesTo σ size) E :=
  metas.bind fun ms => lift fun h _ ht => ⟨ms, fuel, h.2, ht⟩

/-! ### Waiting problems -/

/-- Steps that only move problems leave the solutions alone. -/
theorem of_moved {k : MetaStore → MetaStore} {c : MetaStore → α}
    (hsaved : ∀ ms, (k ms).saved = ms.saved) (hlookup : ∀ ms, (k ms).lookup = ms.lookup)
    (hx : ∀ s, x s = .ok (c s.metas) { s with metas := k s.metas }) :
    Barring N σ P x anything E where
  follows := by
    rintro s t (⟨a, hst⟩ | ⟨e, hst⟩)
    · cases (hx s).symm.trans hst
      exact ⟨hsaved _, List.suffix_refl _⟩
    · cases (hx s).symm.trans hst
  ok := by
    intro s a t _ hs hst _
    cases (hx s).symm.trans hst
    exact ⟨(hlookup _).trans hs, trivial⟩
  error := by
    intro s e t _ _ hst _
    cases (hx s).symm.trans hst

theorem postpone (m : MetaId) (p : Problem) : Barring N σ P (postpone m p) anything E :=
  (emit _).bind fun _ =>
    of_moved (k := fun ms => ms.postpone m p) (c := fun _ => ()) (fun _ => rfl) (fun _ => rfl)
    fun _ => rfl

theorem takePostponed (m : MetaId) : Barring N σ P (takePostponed m) anything E :=
  of_moved (k := fun ms => (ms.takePostponed m).2) (c := fun ms => (ms.takePostponed m).1)
    (fun _ => rfl) (fun _ => rfl) fun _ => rfl

/-- A metavariable is only solved after a solution was found. -/
theorem setMeta (m : MetaId) (v : Val) (hP : ¬ P) : Barring N σ P (setMeta m v) anything E where
  follows := by
    intro s t hst
    obtain ⟨hmetas, hstate⟩ := returns_setMeta hst
    rw [← hstate]
    refine ⟨?_, List.suffix_refl _⟩
    rcases hmetas with h | h
    · rw [h]
    · exact (MetaStore.set_eq_ok_iff.1 h).2.2.1
  ok h := absurd h hP
  error h := absurd h hP

end Barring

end Action

/-! ## Unification -/

open Elaborator.Action

/-- The solution of a metavariable is refused that `σ` does not solve. -/
def Error.Refused (σ : MetaId → Option Val) (e : Error) : Prop := ∃ m, σ m = none ∧ e.Refuses m

def Error.Expected (σ : MetaId → Option Val) (e : Error) : Prop := e.Differs ∨ e.Refused σ

/-- Values that differ are a soft error, which a search may go past. -/
theorem Error.Differs.isSoft_eq {e : Error} (h : e.Differs) : e.isSoft = true := by
  obtain ⟨_, _, _, rfl⟩ := h
  rfl

/-- A refused solution is a hard error. -/
theorem Error.Refused.isSoft_eq {σ : MetaId → Option Val} {e : Error} (h : e.Refused σ) :
    e.isSoft = false := by
  obtain ⟨m, -, rfl | rfl | ⟨x, rfl⟩⟩ := h <;> rfl

def Event.IsSolved : Event → Prop
  | .solved _ => True
  | _ => False

section

variable {N : Event → Prop} {σ : MetaId → Option Val} {g : Globals} {P : Prop}

theorem mismatch_barring {Q : Unit → Prop} (fuel size : Nat) (a b : Val) :
    Barring N σ P (mismatch fuel size a b) Q Error.Differs :=
  .of_looks ((mismatch_looks ..).imp (fun _ => id) fun _ _ => trivial) fun _ => mismatch_looks ..

/-- Spines are compared without barred events when their values are. -/
theorem unifySpines_barring {u : Val → Val → Action Unit}
    (hu : ∀ x y, Barring N σ P (u x y) anything (Error.Expected σ)) (fuel size : Nat) (a b : Val)
    (sa sb : Spine) :
    Barring N σ P (unifySpines u (mismatch fuel size a b) sa sb) anything (Error.Expected σ) :=
  unifySpines_of (J := fun x => Barring N σ P x anything (Error.Expected σ))
    (.pure fun _ => trivial) (fun hx hy => hx.bind fun _ => hy.given And.left)
    ((mismatch_barring ..).imp id (fun _ _ => id) fun _ _ => .inl) fun x _ y _ => hu x y

/-- Only the errors that are not soft leave the search for a branch. -/
theorem chooseBranch_barring (fuel : Nat) (m : MetaId) (split : BoolSplit)
    {fit : Val → Prim → Action Unit}
    (hfit : ∀ v p, Barring N σ P (fit v p) anything (Error.Expected σ))
    (branches : List (Val × Prim)) :
    Barring N σ P (chooseBranch fuel m split fit branches) anything (Error.Refused σ) := by
  induction branches with
  | nil => exact .pure fun _ => trivial
  | cons branch rest ih =>
    refine (Barring.lift fun _ _ h => h).bind fun v => ?_
    refine ((hfit v branch.2).given And.left).transaction.bind fun r => ?_
    cases r with
    | ok _ => exact (Barring.emit _).bind fun _ => .pure fun _ => trivial
    | error e =>
      by_cases hsoft : e.isSoft = true
      · simp only [hsoft, if_true]
        exact (Barring.emit _).bind fun _ => ih.given fun h => h.1.1.1
      · simp only [hsoft]
        refine .refuse fun h => ?_
        rcases h.2 with ⟨_, hr, -⟩ | ⟨_, ⟨⟩, hdiffers | hrefused⟩
        · cases hr
        · exact absurd hdiffers.isSoft_eq hsoft
        · exact hrefused

/-- A solution is not found if finding one is barred, or if the metavariable occurs in what it
should be. -/
theorem solution_barring (fuel size : Nat) {m : MetaId} (hm : P → σ m = none)
    (params : List Param) {rhs : Val}
    (hrhs : P → N (.solved m) ∨ ∀ t, rhs.QuotesTo σ size t → m ∈ t.metaOccurrences) :
    Barring N σ P (solution fuel g size m params rhs) (fun _ => False) (Error.Refused σ) := by
  refine (Barring.quote fuel size rhs).bind fun body => ?_
  have hmoving := Term.rename_moving m (params.map (·.level)).reverse size 0 body
  cases hmoved : body.rename m (params.map (·.level)).reverse size 0 with
  | ok moved =>
    refine (Barring.emit _).bind fun _ => .lift fun h _ _ => ?_
    rcases hrhs h.1.1 with hbarred | hoccurs
    · exact h.2 hbarred
    · exact (hmoving.answer moved hmoved).2 (hoccurs body h.1.2)
  | error e =>
    cases e with
    | fault f => exact .fault f
    | error e => exact .refuse fun h => ⟨m, hm h.1, hmoving.error e hmoved⟩

/-- Solving a metavariable whose spine is no case analysis: the problem waits, or the solution is
refused. -/
theorem solve_barring {fuel size : Nat} {m : MetaId} {sp : Spine} {rhs : Val}
    (hsp : BoolSplit.of? sp = none) (hm : P → σ m = none)
    (hrhs : P → N (.solved m) ∨ ∀ t, rhs.QuotesTo σ size t → m ∈ t.metaOccurrences)
    (hretry : ∀ {s t}, (retryFor fuel g m).Returns s t → s.Follows t) :
    Barring N σ P (solve (fuel + 1) g size m sp rhs) anything (Error.Refused σ) := by
  refine (Barring.emitWith _).bind fun _ => ?_
  rw [hsp]
  refine Barring.metas.bind fun ms => (Barring.lift fun _ _ h => h).bind fun params => ?_
  cases params with
  | none => exact .postpone ..
  | some params =>
    refine .ite ?_ (.refuse fun h => ⟨m, hm h.1.1.1, .inr (.inl rfl)⟩)
    refine (solution_barring fuel size (fun h => hm h.1.1.1) params fun h => hrhs h.1.1.1).bind
      fun v => ?_
    exact (Barring.setMeta m v And.right).bind fun _ => .unreached hretry fun h => h.1.2

structure UnifiesUnsolving (σ : MetaId → Option Val) (g : Globals) (fuel : Nat) : Prop where
  unify : ∀ mode size a b,
    Barring Event.IsSolved σ True (unify fuel mode g size a b) anything (Error.Expected σ)
  solve : ∀ size m sp rhs,
    Barring Event.IsSolved σ (σ m = none) (solve fuel g size m sp rhs) anything (Error.Refused σ)
  retryFor : ∀ m, Barring Event.IsSolved σ True (retryFor fuel g m) anything (Error.Expected σ)

variable {fuel : Nat}

/-- Unification without a solving step leaves the solutions as they are, when the unifier with less
fuel does. -/
theorem unify_unsolving_step (ih : UnifiesUnsolving σ g fuel) (mode : Mode) (size : Nat)
    (a b : Val) :
    Barring Event.IsSolved σ True (unify (fuel + 1) mode g size a b) anything
      (Error.Expected σ) := by
  refine (Barring.forceMeta fuel a).bind fun a' => (Barring.forceMeta fuel b).bind fun b' => ?_
  refine (Barring.emitWith _).bind fun _ => ?_
  have part {Q : Prop} (n : Nat) (x y : Val) :
      Barring Event.IsSolved σ Q (unify fuel mode g n x y) anything (Error.Expected σ) :=
    (ih.unify mode n x y).given fun _ => trivial
  cases hc : Comparison.of mode a' b' with
  | equal => exact .pure fun _ => trivial
  | mismatch => exact (mismatch_barring ..).imp id (fun _ _ => id) fun _ _ => .inl
  | binders c d =>
    refine Barring.bind (Q := anything) (.ite (.pure fun _ => trivial) (part ..)) fun _ => ?_
    exact (Barring.lift fun _ _ h => h).bind fun x =>
      (Barring.lift fun _ _ h => h).bind fun y => part ..
  | pairs x y z w => exact (part size x z).bind fun _ => part size y w
  | numeral n pred => exact part ..
  | spines sa sb => exact unifySpines_barring (part size) ..
  | solve m sp rhs =>
    refine (ih.solve size m sp rhs).imp (fun h => ?_) (fun _ _ => id) fun _ _ => .inr
    exact Comparison.unsolved_of_solve hc h.1.1.2 h.1.2
  | expandFun c v =>
    exact (Barring.lift fun _ _ h => h).bind fun x =>
      (Barring.lift fun _ _ h => h).bind fun y => part ..
  | expandPair x y v =>
    refine (Barring.lift fun _ _ h => h).bind fun fst => (part size x fst).bind fun _ => ?_
    exact (Barring.lift fun _ _ h => h).bind fun snd => part ..
  | sameGlobal sa sb =>
    refine (unifySpines_barring (part size) ..).transaction.bind fun r => ?_
    cases r with
    | ok _ => exact .pure fun _ => trivial
    | error e =>
      refine .ite ?_ (.refuse fun h => ?_)
      · exact (Barring.force fuel a').bind fun a => (Barring.force fuel b').bind fun b => part ..
      · rcases h.2 with ⟨_, hr, -⟩ | ⟨_, ⟨⟩, he⟩
        · cases hr
        · exact he
  | unfoldLeft => exact (Barring.force fuel a').bind fun a => part ..
  | unfoldRight => exact (Barring.force fuel b').bind fun b => part ..

/-- Solving an unsolved metavariable writes a solving event, unless it is refused. -/
theorem solve_unsolving_step (ih : UnifiesUnsolving σ g fuel) (size : Nat) (m : MetaId) (sp : Spine)
    (rhs : Val) :
    Barring Event.IsSolved σ (σ m = none) (solve (fuel + 1) g size m sp rhs) anything
      (Error.Refused σ) := by
  cases hsp : BoolSplit.of? sp with
  | some split =>
    refine (Barring.emitWith _).bind fun _ => ?_
    rw [hsp]
    refine (chooseBranch_barring fuel m split (fun v p => ?_) _).bind fun chosen => ?_
    · refine ((ih.unify .solving size v rhs).given fun _ => trivial).bind fun _ => ?_
      exact (ih.solve size m split.init (.prim p)).imp (fun h => h.1.1) (fun _ _ => id)
        fun _ _ => .inr
    · exact .ite (.pure fun _ => trivial) (.postpone ..)
  | none => exact solve_barring hsp id (fun _ => .inl trivial) (ih.retryFor m).follows

theorem retryFor_unsolving_step (ih : UnifiesUnsolving σ g fuel) (m : MetaId) :
    Barring Event.IsSolved σ True (retryFor (fuel + 1) g m) anything (Error.Expected σ) := by
  refine (Barring.takePostponed m).bind fun problems => ?_
  refine Barring.bind (Q := anything) (.ite (.pure fun _ => trivial) ?_) fun _ => ?_
  · exact (Barring.emit _).imp id (fun _ _ _ => trivial) fun _ _ => id
  exact .forM fun p => (ih.unify .solving p.size p.lhs p.rhs).given fun _ => trivial

/-- Unification that announces no solution leaves the solutions as they are, for every amount of
fuel. -/
theorem unifiesUnsolving (σ : MetaId → Option Val) (g : Globals) (fuel : Nat) :
    UnifiesUnsolving σ g fuel := by
  induction fuel with
  | zero => exact ⟨fun _ _ _ _ => .fault _, fun _ _ _ _ => .fault _, fun _ => .fault _⟩
  | succ fuel ih =>
    exact ⟨unify_unsolving_step ih, solve_unsolving_step ih, retryFor_unsolving_step ih⟩

end

end Elaborator
