import Elaborator.Proofs.Allocation.Unify

/-! # What waits for a metavariable

A problem waits for a metavariable because nothing can be said about it before the metavariable is
solved. When it is solved, everything that waits for it is taken and tried again. So no problem
should wait for a metavariable that already has a solution, because nothing would ever wake it.

There is one gap. A boolean case analysis that is stuck on `?m` is inverted by making a branch equal
to the other side and then asking for `?m sp = True` or `?m sp = False`. Making the branch equal may
have solved `?m`. If `sp` is not made of variables, the question is then left to wait for `?m`
(`unify_strands`). This is the only way (`unify_waits_unsolved`): whatever else waits after
unification waits for a metavariable without a solution.

Between storing a solution and taking what waits for it, the rule does not hold. What is proved
about `retryFor` therefore starts from the store without the problems that it takes first. -/

namespace Elaborator

open Elaborator.Action

/-- The question that the inversion of a case analysis on `?m` ends with: whether `?m`, applied to
something, is this boolean constant. -/
structure Problem.Inverts (m : MetaId) (p : Problem) : Prop where
  lhs : ∃ sp, p.lhs = .neutral (.metavar m) sp
  rhs : p.rhs.IsBool

/-- What waits, waits for a metavariable without a solution, unless since the log was `old` the
metavariable was to be solved by a boolean constant although it had a solution. Then only questions
of that kind wait for it. -/
structure State.Waits (old : List Event) (s : State) : Prop where
  log : old <:+ s.log
  nonempty : ∀ i ps, s.metas.now.postponed.find? i = some ps → ps ≠ []
  unsolved : ∀ i ps, s.metas.now.postponed.find? i = some ps →
    s.metas.lookup ⟨i⟩ = none ∨ s.Resolves old ⟨i⟩ ∧ ∀ p ∈ ps, p.Inverts ⟨i⟩

section

variable {old : List Event} {s t : State}

namespace State.Waits

/-- Only what is known now matters, and events may be added. -/
theorem of_now_eq (h : s.Waits old) (hnow : t.metas.now = s.metas.now) (hlog : s.log <:+ t.log) :
    t.Waits old := by
  refine ⟨h.log.trans hlog, fun i ps hps => h.nonempty i ps (hnow ▸ hps), fun i ps hps => ?_⟩
  rw [MetaStore.lookup, hnow]
  exact (h.unsolved i ps (hnow ▸ hps)).imp_right fun hr => ⟨hr.1.of_log hlog, hr.2⟩

theorem event (h : s.Waits old) (e : Event) : State.Waits old { s with log := e :: s.log } :=
  h.of_now_eq rfl (List.suffix_cons ..)

/-- A problem is left to wait behind those that already do. -/
theorem postpone (h : s.Waits old) {m : MetaId} {p : Problem}
    (hp : s.metas.lookup m = none ∨ s.Resolves old m ∧ p.Inverts m) :
    State.Waits old { s with metas := s.metas.postpone m p } := by
  have hfind (i : Nat) : (s.metas.postpone m p).now.postponed.find? i =
      if i = m.toNat then some ((s.metas.now.postponed.find? m.toNat).getD [] ++ [p])
      else s.metas.now.postponed.find? i := IdMap.find?_insert ..
  have hqueue : s.metas.lookup m = none ∨ s.Resolves old m ∧
      ∀ q ∈ (s.metas.now.postponed.find? m.toNat).getD [] ++ [p], q.Inverts m := by
    by_cases hm : s.metas.lookup m = none
    · exact .inl hm
    · obtain ⟨hresolves, hp⟩ := hp.resolve_left hm
      refine .inr ⟨hresolves, List.forall_mem_append.2 ⟨?_, List.forall_mem_singleton.2 hp⟩⟩
      cases hps : s.metas.now.postponed.find? m.toNat with
      | none => exact List.forall_mem_nil _
      | some ps => exact ((h.unsolved _ ps hps).resolve_left hm).2
  refine ⟨h.log, fun i ps hps => ?_, fun i ps hps => ?_⟩ <;> rw [hfind] at hps <;> split at hps
  · cases hps
    simp
  · exact h.nonempty i ps hps
  · next him =>
    subst him
    cases hps
    exact hqueue
  · exact h.unsolved i ps hps

/-- Once the problems that wait for a solved metavariable are taken, it does not matter that it was
solved. -/
theorem set_takePostponed (h : s.Waits old) {m : MetaId} {v : Val} {ms : MetaStore}
    (hset : s.metas.set m v = .ok ms) :
    State.Waits old { s with metas := (ms.takePostponed m).2 } := by
  have hfind {i : Nat} {ps : List Problem}
      (hps : (ms.takePostponed m).2.now.postponed.find? i = some ps) :
      i ≠ m.toNat ∧ s.metas.now.postponed.find? i = some ps := by
    replace hps : (ms.now.postponed.erase m.toNat).find? i = some ps := hps
    rw [IdMap.find?_erase, (MetaStore.set_eq_ok_iff.1 hset).2.1] at hps
    split at hps
    · cases hps
    · exact ⟨‹_›, hps⟩
  refine ⟨h.log, fun i ps hps => h.nonempty i ps (hfind hps).2, fun i ps hps => ?_⟩
  obtain ⟨him, hps⟩ := hfind hps
  have hsame : (ms.takePostponed m).2.lookup ⟨i⟩ = s.metas.lookup ⟨i⟩ :=
    (MetaStore.lookup_set hset ..).trans (if_neg him)
  rw [hsame]
  exact h.unsolved i ps hps

end State.Waits

end

/-! ## The judgement -/

namespace Action

variable {α β : Type} {old : List Event} {s : State} {x : Action α} {f : α → Action β}

/-- The run of the action from `s` ends, if it answers, in a state in which only what may wait does.
Events are only added to the log, also if the run ends with an error. -/
structure Parks (old : List Event) (s : State) (x : Action α) : Prop where
  ok : ∀ {a t}, x s = .ok a t → s.log <:+ t.log ∧ t.Waits old
  error : ∀ {e t}, x s = .error (.error e) t → s.log <:+ t.log

namespace Parks

theorem pure (hs : s.Waits old) (a : α) : Parks old s (pure a) where
  ok h := by
    obtain ⟨-, rfl⟩ := pure_eq_ok.1 h
    exact ⟨List.suffix_refl _, hs⟩
  error h := absurd h pure_ne_error

theorem throw (e : Failure) : Parks old s (throw e : Action α) where
  ok h := by cases h
  error h := by
    cases h
    exact List.suffix_refl _

theorem bindThrow (e : Failure) : Parks old s ((MonadExcept.throw e : Action α) >>= f) where
  ok h := by cases h
  error h := by
    cases h
    exact List.suffix_refl _

/-- A sequence parks when its first action does and the rest does from every state it may end in. -/
theorem bind (hx : Parks old s x) (hf : ∀ a t, s.log <:+ t.log → t.Waits old → Parks old t (f a)) :
    Parks old s (x >>= f) where
  ok h := by
    obtain ⟨a, u, hu, ht⟩ := bind_eq_ok.1 h
    obtain ⟨hsu, hwaits⟩ := hx.ok hu
    obtain ⟨hut, hwaits⟩ := (hf a u hsu hwaits).ok ht
    exact ⟨hsu.trans hut, hwaits⟩
  error h := by
    rcases bind_eq_error.1 h with h | ⟨a, u, hu, ht⟩
    · exact hx.error h
    · obtain ⟨hsu, hwaits⟩ := hx.ok hu
      exact hsu.trans ((hf a u hsu hwaits).error ht)

/-! ### Actions that leave the store alone -/

/-- After an action that only reads, the state is still the same. -/
theorem bindRead (hok : ∀ {a t}, x s = .ok a t → t = s ∧ Parks old s (f a))
    (herror : ∀ {e t}, x s ≠ .error (.error e) t) : Parks old s (x >>= f) where
  ok h := by
    obtain ⟨a, u, hu, ht⟩ := bind_eq_ok.1 h
    obtain ⟨rfl, hf⟩ := hok hu
    exact hf.ok ht
  error h := by
    rcases bind_eq_error.1 h with h | ⟨a, u, hu, ht⟩
    · exact absurd h herror
    · obtain ⟨rfl, hf⟩ := hok hu
      exact hf.error ht

theorem bindLift {r : Except Fault α} (hf : ∀ a, r = .ok a → Parks old s (f a)) :
    Parks old s (liftM r >>= f) := by
  refine bindRead (fun h => ?_) (fun h => ?_)
  · obtain ⟨hr, rfl⟩ := lift_eq_ok.1 h
    exact ⟨rfl, hf _ hr⟩
  · obtain ⟨_, -, h, -⟩ := lift_eq_error.1 h
    cases h

theorem bindMetas {f : MetaStore → Action β} (hf : Parks old s (f s.metas)) :
    Parks old s (metas >>= f) :=
  ⟨hf.ok, hf.error⟩

/-- A computation on the metavariables as they are. -/
theorem bindLook {r : MetaStore → Except Fault α}
    (hf : ∀ a, r s.metas = .ok a → Parks old s (f a)) : Parks old s ((do r (← metas)) >>= f) := by
  rw [bind_assoc]
  exact bindMetas (bindLift hf)

/-- After an event was noted, everything but the log is as before. -/
theorem bindEmit {e : Event} {f : Unit → Action β}
    (hf : Parks old { s with log := e :: s.log } (f ())) : Parks old s (Action.emit e >>= f) where
  ok h := ⟨(List.suffix_cons ..).trans (hf.ok h).1, (hf.ok h).2⟩
  error h := (List.suffix_cons ..).trans (hf.error h)

theorem bindEmitWith {e : MetaStore → Event} {f : Unit → Action β}
    (hf : Parks old { s with log := e s.metas :: s.log } (f ())) :
    Parks old s (Action.emitWith e >>= f) :=
  ⟨(bindEmit hf).ok, (bindEmit hf).error⟩

/-! ### Composed actions -/

theorem forM {g : α → Action PUnit} {l : List α} (hs : s.Waits old)
    (hg : ∀ a ∈ l, ∀ t : State, t.Waits old → Parks old t (g a)) : Parks old s (l.forM g) := by
  induction l generalizing s with
  | nil => exact pure hs ()
  | cons a l ih =>
    obtain ⟨ha, hl⟩ := List.forall_mem_cons.1 hg
    exact bind (ha s hs) fun _ t _ ht => ih ht hl

/-- A transaction that is undone ends where it began, apart from the log. -/
theorem bindTransaction {f : Except Error α → Action β} (hgrows : Keeps MetaStore.Grows x)
    (hs : s.Waits old) (hx : Parks old s.opened x)
    (hok : ∀ a t, s.log <:+ t.log → t.Waits old → Parks old t (f (.ok a)))
    (herror : ∀ e t, s.log <:+ t.log → t.Waits old → t.metas.now = s.metas.now →
      Parks old t (f (.error e))) : Parks old s (transaction x >>= f) := by
  have hrun : ∀ {r t}, transaction x s = .ok r t → s.log <:+ t.log ∧ Parks old t (f r) := by
    intro r t hr
    rcases transaction_eq_ok.1 hr with ⟨a, u, rfl, hu, ms, hms, rfl⟩ | ⟨e, u, rfl, hu, ms, hms, rfl⟩
    · obtain ⟨hlog, hwaits⟩ := hx.ok hu
      have hnow := (MetaStore.discard_eq_ok_iff.1 hms).2.1
      exact ⟨hlog, hok a _ hlog (hwaits.of_now_eq hnow (List.suffix_refl _))⟩
    · have hlog := hx.error hu
      -- A failed transaction puts the store back that was saved when it was opened.
      have hnow : ms.now = s.metas.now := by
        have hsaved := (hgrows.related (.of_error hu)).saved
        obtain ⟨hpop, -⟩ := MetaStore.pop_eq_ok_iff.1 hms
        exact (List.cons.inj (hsaved.symm.trans hpop)).1.symm
      exact ⟨hlog, herror e _ hlog (hs.of_now_eq hnow hlog) hnow⟩
  constructor
  · intro b t h
    obtain ⟨r, u, hu, ht⟩ := bind_eq_ok.1 h
    obtain ⟨hlog, hf⟩ := hrun hu
    exact ⟨hlog.trans (hf.ok ht).1, (hf.ok ht).2⟩
  · intro e t h
    rcases bind_eq_error.1 h with hu | ⟨r, u, hu, ht⟩
    · exact absurd hu transaction_ne_error
    · obtain ⟨hlog, hf⟩ := hrun hu
      exact hlog.trans (hf.error ht)

end Parks

end Action

/-! ## Unification -/

structure UnifiesParked (old : List Event) (g : Globals) (fuel : Nat) : Prop where
  unify : ∀ {s : State} (size : Nat) (a b : Val), s.Waits old →
    Parks old s (unify fuel .solving g size a b)
  solve : ∀ {s : State} (size : Nat) {m : MetaId} (sp : Spine) {rhs : Val}, s.Waits old →
    s.metas.lookup m = none ∨ rhs.IsBool → Parks old s (solve fuel g size m sp rhs)
  retryFor : ∀ {s : State} {m : MetaId},
    State.Waits old { s with metas := (s.metas.takePostponed m).2 } →
    Parks old s (retryFor fuel g m)

section

variable {old : List Event} {g : Globals} {fuel size : Nat} {s : State}

theorem mismatch_parks (a b : Val) : Parks old s (mismatch fuel size a b) :=
  .bindLook fun _ _ => .bindLook fun _ _ => .throw _

theorem unifySpines_parks (ih : UnifiesParked old g fuel) (a b : Val) (hs : s.Waits old)
    (sa sb : Spine) :
    Parks old s (unifySpines (unify fuel .solving g size) (mismatch fuel size a b) sa sb) := by
  refine unifySpines_of (J := fun x => ∀ t : State, t.Waits old → Parks old t x) ?_ ?_ ?_ ?_ s hs
  · exact fun t ht => .pure ht ()
  · exact fun hx hy t ht => .bind (hx t ht) fun _ u _ hu => hy u hu
  · exact fun t _ => mismatch_parks a b
  · exact fun x _ y _ t ht => ih.unify size x y ht

/-- Unification parks problems with open metavariables only, when the unifier with less fuel does.
-/
theorem unify_parks_step (ih : UnifiesParked old g fuel) (size : Nat) (a b : Val)
    (hs : s.Waits old) : Parks old s (unify (fuel + 1) .solving g size a b) := by
  refine .bindLook fun a' hfa => .bindLook fun b' hfb => .bindEmitWith ?_
  have hlogged := hs.event (.unify s.metas size a' b')
  cases hc : Comparison.of .solving a' b' with
  | equal => exact .pure hlogged ()
  | mismatch => exact mismatch_parks a' b'
  | binders c d =>
    refine .bind ?_ fun _ t _ ht => .bindLift fun x _ => .bindLift fun y _ =>
      ih.unify (size + 1) x y ht
    split
    · exact .pure hlogged ()
    · exact ih.unify size _ _ hlogged
  | pairs x y z w => exact .bind (ih.unify size x z hlogged) fun _ t _ ht => ih.unify size y w ht
  | numeral n pred => exact ih.unify size _ _ hlogged
  | spines sa sb => exact unifySpines_parks ih a' b' hlogged sa sb
  | solve m sp rhs =>
    exact ih.solve size sp hlogged
      (.inl (Comparison.unsolved_of_solve hc ⟨_, _, rfl, hfa⟩ ⟨_, _, rfl, hfb⟩))
  | expandFun c v => exact .bindLift fun x _ => .bindLift fun y _ => ih.unify (size + 1) x y hlogged
  | expandPair x y v =>
    refine .bindLift fun fst _ => .bind (ih.unify size x fst hlogged) fun _ t _ ht => ?_
    exact .bindLift fun snd _ => ih.unify size y snd ht
  | sameGlobal sa sb =>
    have hgrows : Keeps MetaStore.Grows
        (unifySpines (unify fuel .solving g size) (mismatch fuel size a' b') sa sb) :=
      unifySpines_keeps MetaStore.Grows.tracksFresh.toTracks
        (unify_keeps (MetaStore.Grows.tracksFresh.solutions g) fuel .solving size) (mismatch_keeps
          MetaStore.Grows.tracksFresh.toTracks ..) sa sb
    have hopened : State.Waits old (State.opened _) := hlogged.of_now_eq rfl (List.suffix_refl _)
    refine .bindTransaction hgrows hlogged (unifySpines_parks ih a' b' hopened sa sb)
      (fun _ t _ ht => .pure ht ()) ?_
    intro e t _ ht _
    show Parks old t (if e.isSoft then _ else _)
    split
    · exact .bindLook fun a _ => .bindLook fun b _ => ih.unify size a b ht
    · exact .throw _
  | unfoldLeft => exact .bindLook fun a _ => ih.unify size a b' hlogged
  | unfoldRight => exact .bindLook fun b _ => ih.unify size a' b hlogged

/-- If no branch fits, everything but the log is as before. -/
theorem chooseBranch_parks {m : MetaId} {split : BoolSplit} {fit : Val → Prim → Action Unit}
    {l : List (Val × Prim)} {f : Bool → Action Unit}
    (hgrows : ∀ v p, Keeps MetaStore.Grows (fit v p)) (hs : s.Waits old)
    (hfit : ∀ c ∈ l, ∀ v, ∀ t : State, t.Waits old → Parks old t (fit v c.2))
    (hfound : ∀ t : State, t.Waits old → Parks old t (f true))
    (hnone : ∀ t : State, s.log <:+ t.log → t.Waits old → t.metas.now = s.metas.now →
      Parks old t (f false)) : Parks old s (chooseBranch fuel m split fit l >>= f) := by
  induction l generalizing s with
  | nil =>
    rw [chooseBranch, pure_bind]
    exact hnone s (List.suffix_refl _) hs rfl
  | cons c l ih =>
    obtain ⟨case, constant⟩ := c
    obtain ⟨hfirst, hfit⟩ := List.forall_mem_cons.1 hfit
    have hopened : s.opened.Waits old := hs.of_now_eq rfl (List.suffix_refl _)
    rw [chooseBranch, bind_assoc]
    refine .bindLift fun v _ => ?_
    rw [bind_assoc]
    refine .bindTransaction (hgrows v constant) hs (hfirst v _ hopened) (fun _ t _ ht => ?_)
      fun e t hst ht hnow => ?_
    · show Parks old t ((emit _ >>= fun _ => pure true) >>= f)
      rw [bind_assoc]
      exact .bindEmit (hfound _ (ht.event _))
    · by_cases hsoft : e.isSoft = true
      · simp only [hsoft, if_true]
        rw [bind_assoc]
        refine .bindEmit (ih (ht.event _) hfit fun u htu hu hu' => ?_)
        exact hnone u (hst.trans ((List.suffix_cons ..).trans htu)) hu (hu'.trans hnow)
      · simp only [hsoft]
        exact .bindThrow _

/-- A problem is parked with a metavariable that is open, or was to be solved twice by a boolean. -/
theorem postponeProblem_parks {m : MetaId} {sp : Spine} {rhs : Val} (hs : s.Waits old)
    (hopen : s.metas.lookup m = none ∨ s.Resolves old m ∧ rhs.IsBool) :
    Parks old s (postponeProblem size m sp rhs) where
  ok h := by
    cases h
    refine ⟨List.suffix_cons .., (hs.event _).postpone ?_⟩
    exact hopen.imp_right fun hr => ⟨hr.1.of_log (List.suffix_cons ..), ⟨sp, rfl⟩, hr.2⟩
  error h := by cases h

/-- Building a solution ahead of an action leaves the store as it is. -/
theorem solution_parks {m : MetaId} {params : List Param} {rhs : Val} {f : Val → Action Unit}
    (hs : s.Waits old) (hf : ∀ v (t : State), t.Waits old → t.metas = s.metas → Parks old t (f v)) :
    Parks old s (solution fuel g size m params rhs >>= f) := by
  unfold solution
  rw [bind_assoc]
  refine .bindLook fun body _ => ?_
  cases body.rename m (params.map (·.level)).reverse size 0 with
  | error e => exact .bindThrow e
  | ok moved =>
    show Parks old s ((emit (.solved m) >>= fun _ => _) >>= f)
    rw [bind_assoc]
    exact .bindEmit (.bindLift fun v _ => hf v _ (hs.event _) rfl)

theorem setMeta_parks {m : MetaId} {v : Val} {f : Unit → Action Unit}
    (hf : ∀ ms, s.metas.set m v = .ok ms → Parks old { s with metas := ms } (f ())) :
    Parks old s (setMeta m v >>= f) := by
  unfold setMeta
  rw [bind_assoc]
  refine .bindMetas ?_
  cases hset : s.metas.set m v with
  | ok ms => exact ⟨(hf ms hset).ok, (hf ms hset).error⟩
  | error e => exact .bindThrow (.error e)

/-- Solving parks problems with open metavariables only, when the unifier with less fuel does. -/
theorem solve_parks_step (ih : UnifiesParked old g fuel) (size : Nat) {m : MetaId} (sp : Spine)
    {rhs : Val} (hs : s.Waits old) (hopen : s.metas.lookup m = none ∨ rhs.IsBool) :
    Parks old s (solve (fuel + 1) g size m sp rhs) := by
  refine .bindEmitWith ?_
  have hlogged := hs.event (.solve s.metas m size rhs)
  -- If `?m` is solved already, the right-hand side is a constant, and the event logged just now
  -- shows both.
  have hwait : s.metas.lookup m = none ∨
      State.Resolves old { s with log := .solve s.metas m size rhs :: s.log } m ∧ rhs.IsBool := by
    cases hlookup : s.metas.lookup m with
    | none => exact .inl rfl
    | some v =>
      obtain ⟨p, rfl, hp⟩ := hopen.resolve_left (by simp [hlookup])
      obtain ⟨events, hevents⟩ := hs.log
      refine .inr ⟨⟨.solve s.metas m size (.prim p) :: events, s.metas, size, p, ?_,
        List.mem_cons_self, hp, ?_⟩, p, rfl, hp⟩
      · rw [← hevents, List.cons_append]
      · rw [MetaStore.isSolved, hlookup]
        rfl
  cases hsplit : BoolSplit.of? sp with
  | some split =>
    have hgrows (v : Val) (p : Prim) : Keeps MetaStore.Grows (do
        unify fuel .solving g size v rhs
        solve fuel g size m split.init (.prim p)) :=
      .bind MetaStore.Grows.tracksFresh.toTracks
        (unify_keeps (MetaStore.Grows.tracksFresh.solutions g) ..)
        fun _ => solve_keeps (MetaStore.Grows.tracksFresh.solutions g) ..
    refine chooseBranch_parks hgrows hlogged (fun c hc v t ht => ?_) (fun t ht => .pure ht ())
      fun t hst ht hnow => ?_
    · -- `?m` was not solved when the branch was tried, but it may be solved now.
      refine .bind (ih.unify size v rhs ht) fun _ u _ hu =>
        ih.solve size split.init hu (.inr ⟨c.2, rfl, ?_⟩)
      simpa using (List.of_mem_zip hc).2
    · have hlookup : t.metas.lookup m = s.metas.lookup m := by
        rw [MetaStore.lookup, hnow, MetaStore.lookup]
      refine postponeProblem_parks ht ?_
      rw [hlookup]
      exact hwait.imp_right fun hr => ⟨hr.1.of_log hst, hr.2⟩
  | none =>
    refine .bindMetas (.bindLift fun params _ => ?_)
    cases params with
    | none => exact postponeProblem_parks hlogged hwait
    | some params =>
      show Parks old _ (if _ then _ else _)
      split
      · refine solution_parks hlogged fun v t ht _ => setMeta_parks fun ms hset => ?_
        exact ih.retryFor (ht.set_takePostponed hset)
      · exact .throw _

/-- The problems are taken before they are tried, so none of them waits any longer. -/
theorem retryFor_parks_step (ih : UnifiesParked old g fuel) {m : MetaId}
    (hs : State.Waits old { s with metas := (s.metas.takePostponed m).2 }) :
    Parks old s (retryFor (fuel + 1) g m) := by
  have htake : Parks old s (takePostponed m) := by
    constructor <;> intro _ _ h <;> cases h
    exact ⟨List.suffix_refl _, hs⟩
  refine .bind htake fun problems t _ ht => ?_
  have htries (u : State) (hu : u.Waits old) :
      Parks old u (problems.forM fun p => unify fuel .solving g p.size p.lhs p.rhs) :=
    .forM hu fun p _ w hw => ih.unify p.size p.lhs p.rhs hw
  split
  · exact htries t ht
  · exact .bindEmit (htries _ (ht.event _))

/-- **Unification from a store in which only what may wait does.** -/
theorem unifiesParked (old : List Event) (g : Globals) (fuel : Nat) : UnifiesParked old g fuel := by
  induction fuel with
  | zero => constructor <;> intros <;> exact .throw _
  | succ fuel ih => exact ⟨unify_parks_step ih, solve_parks_step ih, retryFor_parks_step ih⟩

end

/-- **Problems wait for unsolved metavariables, with one exception.** If every metavariable that
something waits for is unsolved, then after unification no list of waiting problems is empty, and
every metavariable that something waits for is unsolved again, unless it was to be solved by `True`
or `False` at a time when it already had a solution, which is how a stuck case analysis is inverted.
What waits for it then are only the questions whether it is such a constant. -/
theorem unify_waits_unsolved {fuel size : Nat} {g : Globals} {a b : Val} {s t : State}
    (hnonempty : ∀ i ps, s.metas.now.postponed.find? i = some ps → ps ≠ [])
    (hunsolved : ∀ i ps, s.metas.now.postponed.find? i = some ps → s.metas.lookup ⟨i⟩ = none)
    (h : unify fuel .solving g size a b s = .ok () t) :
    ∀ i ps, t.metas.now.postponed.find? i = some ps →
      ps ≠ [] ∧ (t.metas.lookup ⟨i⟩ = none ∨ t.Resolves s.log ⟨i⟩ ∧ ∀ p ∈ ps, p.Inverts ⟨i⟩) := by
  have hs : s.Waits s.log :=
    ⟨List.suffix_refl _, hnonempty, fun i ps hps => .inl (hunsolved i ps hps)⟩
  obtain ⟨-, ht⟩ := ((unifiesParked s.log g fuel).unify size a b hs).ok h
  exact fun i ps hps => ⟨ht.nonempty i ps hps, ht.unsolved i ps hps⟩

/-- `?0 True = False` waits for `?0`. Solving `?0` by `\x. ?1 x` wakes it, and it goes on to wait
for `?1`. -/
theorem unify_waits_unsolved_woken :
    let applied (m : MetaId) (x : Val) : Val := .neutral (.metavar m) [.app .expl x]
    let s : State := { State.empty with
      metas :=
        MetaStore.empty.fresh.2.fresh.2.postpone ⟨0⟩ ⟨1, applied ⟨0⟩ (.prim .true), .prim .false⟩ }
    ∃ t, unify 20 .solving .empty 1 (applied ⟨0⟩ (.fresh 0)) (applied ⟨1⟩ (.fresh 0)) s = .ok () t ∧
      t.metas.now.postponed.keys = [1] ∧
      ∀ i ps, t.metas.now.postponed.find? i = some ps →
        ps ≠ [] ∧ (t.metas.lookup ⟨i⟩ = none ∨ t.Resolves s.log ⟨i⟩ ∧ ∀ p ∈ ps, p.Inverts ⟨i⟩) := by
  intro applied s
  have hwaiting {i : Nat} {ps : List Problem} (hps : s.metas.now.postponed.find? i = some ps) :
      i = 0 ∧ ps = [⟨1, applied ⟨0⟩ (.prim .true), .prim .false⟩] := by
    replace hps : (IdMap.empty.insert 0 [⟨1, applied ⟨0⟩ (.prim .true), .prim .false⟩]).find? i =
      some ps := hps
    rw [IdMap.find?_insert] at hps
    split at hps <;> cases hps
    exact ⟨‹_›, rfl⟩
  obtain ⟨t, hrun, hkeys⟩ : ∃ t,
      unify 20 .solving .empty 1 (applied ⟨0⟩ (.fresh 0)) (applied ⟨1⟩ (.fresh 0)) s = .ok () t ∧
      t.metas.now.postponed.keys = [1] := ⟨_, rfl, rfl⟩
  refine ⟨t, hrun, hkeys, unify_waits_unsolved (fun i ps hps => ?_) (fun i ps hps => ?_) hrun⟩
  · simp [(hwaiting hps).2]
  · rw [(hwaiting hps).1]
    rfl

/-- A problem can be left to wait for a metavariable that has a solution. With nothing waiting, and
for a variable `x`, `elimBool (\_. Bool) (?0 True) (?0 x) False = x` is inverted: in the branch for
`True`, `?0 x = x` solves `?0`, and then `?0 True = True` waits for `?0`, since `True` is no
variable. -/
theorem unify_strands :
    let applied (x : Val) : Val := .neutral (.metavar ⟨0⟩) [.app .expl x]
    let a : Val := .neutral (.metavar ⟨0⟩)
      [.cases .bool (.closure ⟨⟨.lam .expl, "_", false⟩, .prim .bool, .empty, .prim .bool⟩)
        [applied (.fresh 0), .prim .false], .app .expl (.prim .true)]
    let s : State := { State.empty with metas := MetaStore.empty.fresh.2 }
    ∃ t, s.metas.hasPostponed = false ∧ a.Among s.metas.Made ∧
      unify 20 .solving .empty 1 a (.fresh 0) s = .ok () t ∧ t.metas.isSolved ⟨0⟩ = true ∧
      t.metas.now.postponed.find? 0 = some [⟨1, applied (.prim .true), .prim .true⟩] := by
  intro applied a s
  have hmade : ∀ m, Head.metavar ⟨0⟩ = .metavar m → s.metas.Made m := by
    rintro _ ⟨⟩
    rfl
  have hmotive : (Val.closure ⟨⟨.lam .expl, "_", false⟩, .prim .bool, .empty, .prim .bool⟩).Among
      s.metas.Made :=
    Val.among_closure.2
      ⟨Val.among_prim, List.forall_mem_nil _, by simp [Term.globals], Term.among_prim⟩
  have hcase : (applied (.fresh 0)).Among s.metas.Made :=
    Val.among_neutral.2 ⟨hmade, List.forall_mem_singleton.2 Val.among_var⟩
  have hspine : ∀ v ∈ [_, applied (.fresh 0), .prim .false, .prim .true], v.Among s.metas.Made :=
    List.forall_mem_cons.2 ⟨hmotive, List.forall_mem_cons.2 ⟨hcase,
      List.forall_mem_cons.2 ⟨Val.among_prim, List.forall_mem_singleton.2 Val.among_prim⟩⟩⟩
  exact ⟨_, rfl, Val.among_neutral.2 ⟨hmade, hspine⟩, rfl, rfl, rfl⟩

end Elaborator
