import Mathlib.Data.List.Perm.Subperm
import Elaborator.Proofs.StoreGrowth

/-! # Retrying ends

`retryAll` tries the waiting problems again, round after round, as long as a round solves something.
The waiting problems are no measure for that: a problem that is tried again may wait again, new
problems may start to wait, and speculative solutions come and go. The metavariables without a
solution are one. Unification makes no metavariables, and it takes no solution back that was there
before, whether it ends with an answer or with an error (`MetaStore.OnlySolves`). So a round that
changes the number of unsolved metavariables makes it smaller.

The loop itself, without a bound on the number of rounds, is `Retries`. Its runs are exactly those
of `retryAll`, so the bound that `retryAll` computes at the start never cuts it off. -/

namespace Elaborator

open Elaborator.Action

/-! ## Unsolved metavariables -/

/-- A map holds exactly the entries that are found in it. -/
theorem IdMap.mem_entries {α : Type} {m : IdMap α} {k : Nat} {a : α} :
    (k, a) ∈ m.entries ↔ m.find? k = some a := by
  obtain ⟨entries, hincreasing⟩ := m
  show _ ↔ entries.lookup k = some a
  induction entries with
  | nil => simp
  | cons e rest ih =>
    obtain ⟨j, b⟩ := e
    obtain ⟨hfirst, hrest⟩ := List.pairwise_cons.1 hincreasing
    rw [List.mem_cons, ih hrest, List.lookup_cons]
    by_cases hk : k = j
    · subst hk
      -- The keys behind the first entry are larger, so `k` is not among them.
      have hlater : rest.lookup k ≠ some a :=
        fun h => Nat.lt_irrefl k (hfirst (k, a) ((ih hrest).2 h))
      simp [hlater, eq_comm]
    · simp [hk, beq_false_of_ne hk]

namespace MetaStore

/-- The unsolved metavariables are those with an empty cell. -/
theorem mem_unsolved {s : MetaStore} {m : MetaId} :
    m ∈ s.unsolved ↔ s.now.cells.find? m.toNat = some none := by
  rw [← IdMap.mem_entries, unsolved, List.mem_filterMap]
  constructor
  · rintro ⟨⟨i, cell⟩, hmem, hm⟩
    cases cell with
    | none =>
      obtain rfl : (⟨i⟩ : MetaId) = m := by simpa using hm
      exact hmem
    | some v => simp at hm
  · intro hmem
    exact ⟨_, hmem, rfl⟩

theorem nodup_unsolved (s : MetaStore) : s.unsolved.Nodup := by
  refine List.Pairwise.filterMap _ ?_ s.now.cells.increasing
  rintro ⟨i, cell⟩ ⟨j, cell'⟩ hlt m hm n hn rfl
  obtain ⟨-, hi⟩ := Option.ite_none_right_eq_some.1 hm
  obtain ⟨-, hj⟩ := Option.ite_none_right_eq_some.1 hn
  cases hi.trans hj.symm
  exact Nat.lt_irrefl _ hlt

/-- From `s` to `t` metavariables were solved at most: none was made, and no solution was taken
back. -/
structure OnlySolves (s t : MetaStore) : Prop extends Grows s t where
  old : ∀ i, (t.now.cells.find? i).isSome → (s.now.cells.find? i).isSome
  unused : t.next = s.next

namespace OnlySolves

/-- Steps that only move problems. -/
theorem of_cells_eq {s t : MetaStore} (hcells : t.now.cells = s.now.cells)
    (hsaved : t.saved = s.saved) (hnext : t.next = s.next) : OnlySolves s t :=
  ⟨.of_cells_eq hcells hsaved hnext, fun _ hi => hcells ▸ hi, hnext⟩

/-- Writing a solution only solves. -/
theorem of_set {s t : MetaStore} {m : MetaId} {v : Val} (h : s.set m v = .ok t) :
    OnlySolves s t := by
  obtain ⟨hcell, hnow, -, hnext⟩ := set_eq_ok_iff.1 h
  refine ⟨.of_set h, fun i hi => ?_, hnext⟩
  rw [hnow, IdMap.find?_insert] at hi
  split at hi
  · next him => simp [him, hcell]
  · exact hi

/-- Going back to where a transaction began only solves. -/
theorem of_pop {s t u : MetaStore} (h : OnlySolves s.push t) (hu : t.pop = .ok u) :
    OnlySolves s u := by
  obtain ⟨hsaved, hnext⟩ := pop_eq_ok_iff.1 hu
  obtain ⟨hnow, -⟩ := List.cons.inj (h.saved.symm.trans hsaved)
  exact ⟨.of_pop h.toGrows hu, fun i hi => hnow ▸ hi, hnext.trans h.unused⟩

theorem of_discard {s t u : MetaStore} (h : OnlySolves s.push t) (hu : t.discard = .ok u) :
    OnlySolves s u := by
  obtain ⟨-, hnow, hnext⟩ := discard_eq_ok_iff.1 hu
  exact ⟨.of_discard h.toGrows hu, fun i hi => h.old i (hnow ▸ hi), hnext.trans h.unused⟩

theorem tracks : Tracks OnlySolves where
  refl _ := of_cells_eq rfl rfl rfl
  trans h h' :=
    ⟨h.toGrows.trans h'.toGrows, fun i hi => h.old i (h'.old i hi), h'.unused.trans h.unused⟩
  postpone _ _ _ := of_cells_eq rfl rfl rfl
  takePostponed _ _ := of_cells_eq rfl rfl rfl
  pop := of_pop
  discard := of_discard

theorem tracksSolutions (g : Globals) : TracksSolutions g OnlySolves where
  toTracks := tracks
  set _ h := of_set h

variable {s t : MetaStore}

/-- What has no solution in the end had none at the start. -/
theorem unsolved_subset (h : OnlySolves s t) : t.unsolved ⊆ s.unsolved := by
  intro m hm
  rw [mem_unsolved] at hm ⊢
  obtain ⟨cell, hcell⟩ := Option.isSome_iff_exists.1 (h.old m.toNat (by rw [hm]; rfl))
  cases cell with
  | none => exact hcell
  | some v =>
    have hkept := h.solved m v (by rw [lookup, hcell]; rfl)
    rw [lookup, hm] at hkept
    cases hkept

/-- Solving makes the list of unsolved metavariables no longer. -/
theorem length_unsolved_le (h : OnlySolves s t) : t.unsolved.length ≤ s.unsolved.length :=
  (List.subperm_of_subset t.nodup_unsolved h.unsolved_subset).length_le

/-- If as many metavariables are unsolved as before, nothing was solved. -/
theorem lookup_eq (h : OnlySolves s t) (hlength : t.unsolved.length = s.unsolved.length)
    (m : MetaId) : t.lookup m = s.lookup m := by
  cases hs : s.lookup m with
  | some v => exact h.solved m v hs
  | none =>
    refine Option.eq_none_iff_forall_ne_some.2 fun v hv => ?_
    have hcell : t.now.cells.find? m.toNat = some (some v) := Option.join_eq_some_iff.1 hv
    have hopen : s.now.cells.find? m.toNat = some none := by
      obtain ⟨cell, hcell⟩ := Option.isSome_iff_exists.1 (h.old m.toNat (by rw [hcell]; rfl))
      rw [lookup, hcell] at hs
      rw [hcell, show cell = none from hs]
    have hsubperm := List.subperm_of_subset t.nodup_unsolved h.unsolved_subset
    have hperm := hsubperm.perm_of_length_le (Nat.le_of_eq hlength.symm)
    have hstill := mem_unsolved.1 (hperm.symm.subset (mem_unsolved.2 hopen))
    rw [hcell] at hstill
    cases hstill

end OnlySolves

end MetaStore

/-! ## The loop -/

/-- One round: for each metavariable that problems wait for now, these problems are tried again. -/
def retryPass (fuel : Nat) (g : Globals) : Action Unit := do
  (← metas).postponedMetas.forM (retryFor fuel g)

/-- The runs of the loop: from a state `s` it makes rounds that start in the given states, one after
the other, and ends with this result. -/
inductive Retries (fuel : Nat) (g : Globals) :
    State → List State → EStateM.Result Failure State Unit → Prop
  | idle {s : State} (waiting : s.metas.hasPostponed = false) : Retries fuel g s [] (.ok () s)
  | failed {s t : State} {e : Failure} (waiting : s.metas.hasPostponed = true)
      (pass : retryPass fuel g s = .error e t) : Retries fuel g s [s] (.error e t)
  /-- As many metavariables are unsolved after a round as before it. -/
  | settled {s t : State} (waiting : s.metas.hasPostponed = true)
      (pass : retryPass fuel g s = .ok () t)
      (same : t.metas.unsolved.length = s.metas.unsolved.length) : Retries fuel g s [s] (.ok () t)
  /-- Another number of metavariables is unsolved, so the loop goes on. -/
  | again {s t : State} {starts : List State} {r : EStateM.Result Failure State Unit}
      (waiting : s.metas.hasPostponed = true) (pass : retryPass fuel g s = .ok () t)
      (changed : t.metas.unsolved.length ≠ s.metas.unsolved.length)
      (rest : Retries fuel g t starts r) :
      Retries fuel g s (s :: starts) r

section

variable {fuel : Nat} {g : Globals} {s t : State} {starts : List State}
  {r : EStateM.Result Failure State Unit}

/-- A pass over the postponed problems only solves. -/
theorem retryPass_onlySolves (h : (retryPass fuel g).Returns s t) : s.metas.OnlySolves t.metas := by
  have hT := MetaStore.OnlySolves.tracks
  refine Keeps.related ?_ h
  exact .bind hT (.metas hT) fun ms =>
    .forM hT (retryFor_keeps (MetaStore.OnlySolves.tracksSolutions g) fuel) _

/-- A round after which the loop goes on has solved something. -/
theorem retryPass_decreases (pass : retryPass fuel g s = .ok () t)
    (changed : t.metas.unsolved.length ≠ s.metas.unsolved.length) :
    t.metas.unsolved.length < s.metas.unsolved.length :=
  Nat.lt_of_le_of_ne (retryPass_onlySolves (.of_ok pass)).length_unsolved_le changed

/-- Trying the problems that wait for a metavariable again fails where unification fails for one of
them. -/
theorem retryFor_error {k : Nat} {m : MetaId} {e : Failure}
    (h : retryFor (k + 1) g m s = .error e t) :
    ∃ p ∈ (s.metas.takePostponed m).1, ∃ u, unify k .solving g p.size p.lhs p.rhs u =
      .error e t := by
  rcases bind_eq_error.1 h with h | ⟨ps, u, hps, h⟩
  · cases h
  · obtain ⟨rfl, -⟩ := takePostponed_eq_ok.1 hps
    rcases bind_eq_error.1 h with h | ⟨_, v, -, h⟩
    · split at h <;> cases h
    · exact forM_error h

/-- A pass fails only by failing to unify one of the problems. -/
theorem retryPass_error {k : Nat} {e : Failure} (h : retryPass (k + 1) g s = .error e t) :
    ∃ (p : Problem) (u : State), unify k .solving g p.size p.lhs p.rhs u = .error e t := by
  obtain ⟨m, -, v, hv⟩ := forM_error ((bind_metas _ _).symm.trans h)
  obtain ⟨p, -, hp⟩ := retryFor_error hv
  exact ⟨p, hp⟩

/-- A round while something waits, and what comes after it. -/
theorem retryRounds_of_waiting {rounds : Nat} (waiting : s.metas.hasPostponed = true) :
    retryRounds fuel g (rounds + 1) s =
      (do
        retryPass fuel g
        if (← metas).unsolved.length ≠ s.metas.unsolved.length then
          retryRounds fuel g rounds) s := by
  refine (bind_metas _ _).trans ?_
  rw [waiting]
  rfl

namespace Retries

/-- There is at most one pass more than there are unsolved metavariables to begin with. -/
theorem length_le (h : Retries fuel g s starts r) :
    starts.length ≤ s.metas.unsolved.length + 1 := by
  induction h with
  | idle => exact Nat.zero_le _
  | failed | settled => exact Nat.le_add_left _ _
  | again _ pass changed _ ih =>
    have := retryPass_decreases pass changed
    rw [List.length_cons]
    omega

/-- No round starts with more unsolved metavariables than there were at the start. -/
theorem le_of_mem (h : Retries fuel g s starts r) {u : State} (hu : u ∈ starts) :
    u.metas.unsolved.length ≤ s.metas.unsolved.length := by
  induction h with
  | idle => cases hu
  | failed | settled => exact Nat.le_of_eq (by rw [List.mem_singleton.1 hu])
  | again _ pass changed _ ih =>
    rcases List.mem_cons.1 hu with rfl | hu
    · exact Nat.le_refl _
    · exact Nat.le_trans (ih hu) (Nat.le_of_lt (retryPass_decreases pass changed))

/-- Each round starts with fewer unsolved metavariables than the one before it, where it ended. -/
theorem decreasing (h : Retries fuel g s starts r) :
    starts.Pairwise fun u v => v.metas.unsolved.length < u.metas.unsolved.length := by
  induction h with
  | idle => exact .nil
  | failed | settled => exact List.pairwise_singleton _ _
  | again _ pass changed rest ih =>
    refine List.pairwise_cons.2 ⟨fun v hv => ?_, ih⟩
    exact Nat.lt_of_le_of_lt (rest.le_of_mem hv) (retryPass_decreases pass changed)

/-- The loop ends if nothing waits any more or after a round that solved nothing. -/
theorem ends (h : Retries fuel g s starts (.ok () t)) :
    t.metas.hasPostponed = false ∨ ∃ u, starts.getLast? = some u ∧ retryPass fuel g u = .ok () t ∧
      ∀ m, t.metas.lookup m = u.metas.lookup m := by
  generalize hr : EStateM.Result.ok () t = r at h
  induction h with
  | idle waiting =>
    cases hr
    exact .inl waiting
  | failed => cases hr
  | settled _ pass same =>
    cases hr
    exact .inr ⟨_, rfl, pass, (retryPass_onlySolves (.of_ok pass)).lookup_eq same⟩
  | again _ _ _ _ ih =>
    refine (ih hr).imp_right ?_
    rintro ⟨u, hlast, hu⟩
    exact ⟨u, by rw [List.getLast?_cons, hlast]; rfl, hu⟩

/-- The loop ends, because each round that it goes on after has solved something. -/
theorem exists_run (s : State) : ∃ starts r, Retries fuel g s starts r := by
  induction hn : s.metas.unsolved.length using Nat.strongRecOn generalizing s with
  | _ n ih =>
    subst hn
    cases waiting : s.metas.hasPostponed with
    | false => exact ⟨_, _, .idle waiting⟩
    | true =>
      cases pass : retryPass fuel g s with
      | error e t => exact ⟨_, _, .failed waiting pass⟩
      | ok _ t =>
        by_cases same : t.metas.unsolved.length = s.metas.unsolved.length
        · exact ⟨_, _, .settled waiting pass same⟩
        · obtain ⟨starts, r, h⟩ := ih _ (retryPass_decreases pass same) t rfl
          exact ⟨_, _, .again waiting pass same h⟩

/-- With more rounds than there are unsolved metavariables, the loop is not cut off. -/
theorem retryRounds_eq (h : Retries fuel g s starts r) {rounds : Nat}
    (hrounds : s.metas.unsolved.length < rounds) : retryRounds fuel g rounds s = r := by
  induction h generalizing rounds with
  | idle waiting =>
    obtain ⟨rounds, rfl⟩ := Nat.exists_eq_succ_of_ne_zero (Nat.ne_zero_of_lt hrounds)
    refine (bind_metas _ _).trans ?_
    rw [waiting]
    rfl
  | failed waiting pass =>
    obtain ⟨rounds, rfl⟩ := Nat.exists_eq_succ_of_ne_zero (Nat.ne_zero_of_lt hrounds)
    exact (retryRounds_of_waiting waiting).trans (bind_of_error pass)
  | settled waiting pass same =>
    obtain ⟨rounds, rfl⟩ := Nat.exists_eq_succ_of_ne_zero (Nat.ne_zero_of_lt hrounds)
    refine (retryRounds_of_waiting waiting).trans ((bind_of_ok pass).trans ?_)
    refine (bind_metas _ _).trans ?_
    rw [if_neg (not_not.2 same)]
    rfl
  | again waiting pass changed _ ih =>
    obtain ⟨rounds, rfl⟩ := Nat.exists_eq_succ_of_ne_zero (Nat.ne_zero_of_lt hrounds)
    refine (retryRounds_of_waiting waiting).trans ((bind_of_ok pass).trans ?_)
    refine (bind_metas _ _).trans ?_
    rw [if_pos changed]
    -- A round that changes the store solves a metavariable, which pays for this round.
    have := retryPass_decreases pass changed
    exact ih (by omega)

/-- The rounds of a run are the ones that retrying everything makes. -/
theorem retryAll_eq (h : Retries fuel g s starts r) : retryAll fuel g s = r :=
  (bind_metas _ _).trans (h.retryRounds_eq (Nat.lt_succ_self _))

/-- If the loop fails, one of its rounds does. -/
theorem failed_pass {e : Failure} (h : Retries fuel g s starts (.error e t)) :
    ∃ u ∈ starts, retryPass fuel g u = .error e t := by
  generalize hr : EStateM.Result.error e t = r at h
  induction h with
  | idle => cases hr
  | settled => cases hr
  | failed _ pass =>
    cases hr
    exact ⟨_, List.mem_cons_self, pass⟩
  | again _ _ _ _ ih =>
    obtain ⟨u, hu, pass⟩ := ih hr
    exact ⟨u, List.mem_cons_of_mem _ hu, pass⟩

end Retries

end

/-! ## What retrying does -/

inductive UnificationCall (g : Globals) : Action Unit → Prop
  | unify (fuel : Nat) (mode : Mode) (size : Nat) (a b : Val) :
      UnificationCall g (unify fuel mode g size a b)
  | solve (fuel size : Nat) (m : MetaId) (sp : Spine) (rhs : Val) :
      UnificationCall g (solve fuel g size m sp rhs)
  | retryFor (fuel : Nat) (m : MetaId) : UnificationCall g (retryFor fuel g m)
  | retryAll (fuel : Nat) : UnificationCall g (retryAll fuel g)

/-- Every call of the unifier only solves. -/
theorem UnificationCall.onlySolves {g : Globals} {x : Action Unit}
    (hx : UnificationCall g x) {s t : State} (h : x.Returns s t) : s.metas.OnlySolves t.metas := by
  have hS := MetaStore.OnlySolves.tracksSolutions g
  cases hx with
  | unify => exact (unify_keeps hS ..).related h
  | solve => exact (solve_keeps hS ..).related h
  | retryFor => exact (retryFor_keeps hS ..).related h
  | retryAll => exact (retryAll_keeps hS ..).related h

/-- **Retrying ends.** No call of unification makes a metavariable or takes a solution back, neither
with an answer nor with an error. So the loop that tries all waiting problems again has a run, which
is the run of `retryAll`. It makes at most one round more than there are unsolved metavariables, and
each round starts with fewer of them than the one before it. If `retryAll` fails, a call of
unification that it makes has failed in this way; and if it has an answer, no problem waits any more
or the last round has solved nothing. -/
theorem retryAll_terminates (fuel : Nat) (g : Globals) (s : State) :
    (∀ x u t, UnificationCall g x → x.Returns u t →
      (∀ i, (t.metas.now.cells.find? i).isSome = (u.metas.now.cells.find? i).isSome) ∧
        t.metas.next = u.metas.next ∧
        ∀ m v, u.metas.lookup m = some v → t.metas.lookup m = some v) ∧
    (∃ starts r, Retries fuel g s starts r) ∧
    ∀ starts r, Retries fuel g s starts r →
      retryAll fuel g s = r ∧
      starts.length ≤ s.metas.unsolved.length + 1 ∧
      starts.Pairwise (fun u v => v.metas.unsolved.length < u.metas.unsolved.length) ∧
      (∀ k e t, fuel = k + 1 → retryAll fuel g s = .error e t →
        ∃ (p : Problem) (u : State), unify k .solving g p.size p.lhs p.rhs u = .error e t) ∧
      ∀ t, retryAll fuel g s = .ok () t →
        t.metas.hasPostponed = false ∨ ∃ u, starts.getLast? = some u ∧
          retryPass fuel g u = .ok () t ∧ ∀ m, t.metas.lookup m = u.metas.lookup m := by
  refine ⟨fun x u t hx h => ?_, Retries.exists_run s, fun starts r h => ?_⟩
  · have hsolves := hx.onlySolves h
    exact ⟨fun i => Bool.eq_iff_iff.2 ⟨hsolves.old i, hsolves.made i⟩, hsolves.unused,
      hsolves.solved⟩
  · obtain rfl := h.retryAll_eq
    refine ⟨rfl, h.length_le, h.decreasing, ?_, fun t ht => (ht ▸ h).ends⟩
    rintro k e t rfl ht
    obtain ⟨u, -, pass⟩ := (ht ▸ h).failed_pass
    exact retryPass_error pass

/-- If `?0 = Nat` waits for `?0`, one round solves it, and then nothing waits. If `?0 Nat = Nat`
waits for `?0`, one round solves nothing, and the problem waits on. -/
theorem retryAll_terminates_waiting :
    let waitsFor (p : Problem) : State := ⟨MetaStore.empty.fresh.2.postpone ⟨0⟩ p, [], []⟩
    let s := waitsFor ⟨0, .metavar ⟨0⟩, .prim .nat⟩
    let s' := waitsFor ⟨0, .neutral (.metavar ⟨0⟩) [.app .expl (.prim .nat)], .prim .nat⟩
    (∃ t, Retries 6 .empty s [s] (.ok () t) ∧ retryAll 6 .empty s = .ok () t ∧
      1 ≤ s.metas.unsolved.length + 1 ∧ t.metas.unsolved = [] ∧ t.metas.hasPostponed = false) ∧
    ∃ t, Retries 6 .empty s' [s'] (.ok () t) ∧ retryAll 6 .empty s' = .ok () t ∧
      t.metas.hasPostponed = true ∧ ∀ m, t.metas.lookup m = s'.metas.lookup m := by
  intro waitsFor s s'
  constructor
  · obtain ⟨t, hpass, hsolved, hidle⟩ : ∃ t, retryPass 6 .empty s = .ok () t ∧
      t.metas.unsolved = [] ∧ t.metas.hasPostponed = false := ⟨_, rfl, rfl, rfl⟩
    have h : Retries 6 .empty s [s] (.ok () t) :=
      .again rfl hpass (by rw [hsolved]; decide) (.idle hidle)
    obtain ⟨hrun, hlength, -⟩ := (retryAll_terminates 6 .empty s).2.2 _ _ h
    exact ⟨t, h, hrun, hlength, hsolved, hidle⟩
  · obtain ⟨t, hpass, hsame, hwaiting⟩ : ∃ t, retryPass 6 .empty s' = .ok () t ∧
        t.metas.unsolved.length = s'.metas.unsolved.length ∧ t.metas.hasPostponed = true :=
          ⟨_, rfl, rfl, rfl⟩
    have h : Retries 6 .empty s' [s'] (.ok () t) := .settled rfl hpass hsame
    obtain ⟨hrun, -, -, -, hends⟩ := (retryAll_terminates 6 .empty s').2.2 _ _ h
    refine ⟨t, h, hrun, hwaiting, ?_⟩
    rcases hends t hrun with hidle | ⟨u, hu, -, hlookup⟩
    · rw [hwaiting] at hidle
      cases hidle
    · cases hu
      exact hlookup

end Elaborator
