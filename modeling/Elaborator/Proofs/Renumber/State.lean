import Elaborator.Proofs.Renumber.Eval
import Elaborator.Proofs.Run

/-! # Two runs at different numbers

`State.Moved d k` says of two states that they know the same about their metavariables, those of the
second one being `d` numbers further on, and that the second one gives out numbers that are `k`
further on. What happened so far is not compared. `Action.InStep` says of two actions that they keep
this: from such states they both have an answer, and the answers are related, or both refuse with
the same error up to the numbers in it (`Error.renumber`), or both end with the same fault.

As long as nothing new is made, `k` does not matter. Elaboration makes metavariables, and there `k`
is `d`. -/

namespace Elaborator

/-! ## Maps -/

namespace IdMap

variable {α β : Type} {d : Nat} {f : α → β}

def shift (d : Nat) (f : α → β) (m : IdMap α) : IdMap β where
  entries := m.entries.map fun e => (e.1 + d, f e.2)
  increasing := List.pairwise_map.2 (m.increasing.imp fun h => Nat.add_lt_add_right h d)

theorem eq_of_entries {m n : IdMap α} (h : m.entries = n.entries) : m = n := by
  obtain ⟨entries, hm⟩ := m
  subst h
  rfl

@[simp] theorem find?_shift (m : IdMap α) (k : Nat) :
    (m.shift d f).find? (k + d) = (m.find? k).map f := by
  obtain ⟨entries, hm⟩ := m
  simp only [find?, shift]
  clear hm
  induction entries with
  | nil => rfl
  | cons e entries ih =>
    obtain ⟨j, a⟩ := e
    have hkeys : (k + d == j + d) = (k == j) := by simp
    simp only [List.map_cons, List.lookup_cons, hkeys]
    cases k == j with
    | true => rfl
    | false => exact ih

@[simp] theorem insert_shift (m : IdMap α) (k : Nat) (a : α) :
    (m.shift d f).insert (k + d) (f a) = (m.insert k a).shift d f := by
  apply eq_of_entries
  obtain ⟨entries, hm⟩ := m
  simp only [insert, shift]
  clear hm
  induction entries with
  | nil => rfl
  | cons e entries ih =>
    obtain ⟨j, b⟩ := e
    simp only [List.map_cons, insertEntry, Nat.add_lt_add_iff_right, Nat.add_right_cancel_iff]
    split
    · rfl
    · split
      · rfl
      · rw [List.map_cons, ih]

@[simp] theorem erase_shift (m : IdMap α) (k : Nat) :
    (m.shift d f).erase (k + d) = (m.erase k).shift d f := by
  have hkeys (j : Nat) : (j + d != k + d) = (j != k) := by
    rw [Bool.eq_iff_iff]
    simp
  apply eq_of_entries
  simp [erase, shift, List.filter_map, Function.comp_def, hkeys]

@[simp] theorem keys_shift (m : IdMap α) : (m.shift d f).keys = m.keys.map (· + d) := by
  simp [keys, shift, Function.comp_def]

@[simp] theorem isEmpty_shift (m : IdMap α) : (m.shift d f).isEmpty = m.isEmpty := by
  simp [isEmpty, shift]

end IdMap

/-! ## Stores -/

def Problem.renumber (d : Nat) (p : Problem) : Problem :=
  ⟨p.size, p.lhs.renumber d, p.rhs.renumber d⟩

def Knowledge.renumber (d : Nat) (k : Knowledge) : Knowledge :=
  ⟨k.cells.shift d (Option.map (Val.renumber d)),
    k.postponed.shift d (List.map (Problem.renumber d))⟩

/-- Both stores know the same, the second one with numbers that are `d` further on. New
metavariables of the second one get numbers that are `k` further on. -/
structure MetaStore.Moved (d k : Nat) (ms ms' : MetaStore) : Prop where
  now : ms'.now = ms.now.renumber d
  saved : ms'.saved = ms.saved.map (Knowledge.renumber d)
  next : ms'.next = ms.next + k

/-! ## What the operations of a store do -/

namespace MetaStore

variable {ms : MetaStore} {m : MetaId} {v w : Val}

theorem pop_of_nil (h : ms.saved = []) : ms.pop = .error .noSnapshot := by
  unfold pop
  split <;> simp_all

theorem pop_of_cons {k : Knowledge} {ks : List Knowledge} (h : ms.saved = k :: ks) :
    ∃ t, ms.pop = .ok t := by
  unfold pop
  split <;> simp_all

theorem discard_of_nil (h : ms.saved = []) : ms.discard = .error .noSnapshot := by
  unfold discard
  split <;> simp_all

theorem discard_of_cons {k : Knowledge} {ks : List Knowledge} (h : ms.saved = k :: ks) :
    ∃ t, ms.discard = .ok t := by
  unfold discard
  split <;> simp_all

theorem set_of_unallocated (h : ms.now.cells.find? m.toNat = none) :
    ms.set m v = .error (.internal ("meta " ++ .metavar m ++ " was never allocated")) := by
  unfold set
  split <;> simp_all [unallocated]

theorem set_of_solved (h : ms.now.cells.find? m.toNat = some (some w)) :
    ms.set m v = .error (.internal ("meta " ++ .metavar m ++ " solved twice")) := by
  unfold set
  split <;> simp_all

theorem set_of_open (h : ms.now.cells.find? m.toNat = some none) : ∃ t, ms.set m v = .ok t := by
  unfold set
  split <;> simp_all

end MetaStore

namespace MetaStore.Moved

variable {d k : Nat} {ms ms' : MetaStore}

theorem empty (d : Nat) : MetaStore.empty.Moved d 0 .empty := ⟨rfl, rfl, rfl⟩

/-- Whatever two stores knew is forgotten by a reset. -/
theorem reset (ms ms' : MetaStore) (h : ms'.next = ms.next + k) : ms.reset.Moved d k ms'.reset :=
  ⟨rfl, rfl, h⟩

/-- A renumbered cell is where the renumbered store has it. -/
theorem cell (h : ms.Moved d k ms') (m : MetaId) :
    ms'.now.cells.find? (m.toNat + d) =
      (ms.now.cells.find? m.toNat).map (Option.map (Val.renumber d)) := by
  rw [h.now]
  exact IdMap.find?_shift ms.now.cells m.toNat

theorem waiting (h : ms.Moved d k ms') (m : MetaId) :
    (ms'.now.postponed.find? (m.toNat + d)).getD [] =
      ((ms.now.postponed.find? m.toNat).getD []).map (Problem.renumber d) := by
  rw [h.now]
  show ((ms.now.postponed.shift d _).find? _).getD [] = _
  rw [IdMap.find?_shift]
  cases ms.now.postponed.find? m.toNat <;> rfl

/-- Solutions are looked up alike in a store and in the renumbered one. -/
theorem follows (h : ms.Moved d k ms') : ms.Follows d ms' := by
  intro m
  rw [MetaStore.lookup, MetaStore.lookup, MetaId.toNat_renumber, h.cell m]
  cases ms.now.cells.find? m.toNat <;> rfl

theorem hasPostponed_eq (h : ms.Moved d k ms') : ms'.hasPostponed = ms.hasPostponed := by
  rw [MetaStore.hasPostponed, MetaStore.hasPostponed, h.now]
  exact congrArg _ (IdMap.isEmpty_shift _)

/-- Problems are retried in the order of the numbers, which stays the same. -/
theorem postponedMetas_eq (h : ms.Moved d k ms') :
    ms'.postponedMetas = ms.postponedMetas.map (MetaId.renumber d) := by
  rw [MetaStore.postponedMetas, MetaStore.postponedMetas, h.now]
  show ((ms.now.postponed.shift d _).keys).map _ = _
  simp [MetaId.renumber, Function.comp_def]

theorem unsolved_length (h : ms.Moved d k ms') : ms'.unsolved.length = ms.unsolved.length := by
  rw [MetaStore.unsolved, MetaStore.unsolved, h.now]
  show (List.filterMap _ (List.map _ ms.now.cells.entries)).length = _
  rw [List.filterMap_map]
  induction ms.now.cells.entries with
  | nil => rfl
  | cons e entries ih =>
    obtain ⟨j, cell⟩ := e
    cases cell <;> simpa using ih

/-- A new metavariable of the second store is `d` numbers further on, if that is where its numbers
are. -/
theorem fresh (h : ms.Moved d d ms') :
    ms'.fresh.1 = ms.fresh.1.renumber d ∧ ms.fresh.2.Moved d d ms'.fresh.2 := by
  refine ⟨congrArg MetaId.mk h.next, ?_, h.saved, ?_⟩
  · show Knowledge.mk (ms'.now.cells.insert ms'.next none) ms'.now.postponed = _
    rw [h.next, h.now]
    exact congrArg (Knowledge.mk · _) (IdMap.insert_shift ms.now.cells ms.next none)
  · show ms'.next + 1 = ms.next + 1 + d
    rw [h.next]
    omega

theorem postpone (h : ms.Moved d k ms') (m : MetaId) (p : Problem) :
    (ms.postpone m p).Moved d k (ms'.postpone (m.renumber d) (p.renumber d)) := by
  refine ⟨?_, h.saved, h.next⟩
  show Knowledge.mk ms'.now.cells
    (ms'.now.postponed.insert (m.toNat + d)
      ((ms'.now.postponed.find? (m.toNat + d)).getD [] ++ [p.renumber d])) = _
  rw [h.waiting m, h.now, ← List.map_singleton, ← List.map_append]
  exact congrArg (Knowledge.mk _) (IdMap.insert_shift ms.now.postponed m.toNat _)

theorem takePostponed (h : ms.Moved d k ms') (m : MetaId) :
    (ms'.takePostponed (m.renumber d)).1 = (ms.takePostponed m).1.map (Problem.renumber d) ∧
      (ms.takePostponed m).2.Moved d k (ms'.takePostponed (m.renumber d)).2 := by
  refine ⟨h.waiting m, ?_, h.saved, h.next⟩
  show Knowledge.mk ms'.now.cells (ms'.now.postponed.erase (m.toNat + d)) = _
  rw [h.now]
  exact congrArg (Knowledge.mk _) (IdMap.erase_shift ms.now.postponed m.toNat)

theorem push (h : ms.Moved d k ms') : ms.push.Moved d k ms'.push := by
  refine ⟨h.now, ?_, h.next⟩
  show ms'.now :: ms'.saved = (ms.now :: ms.saved).map _
  rw [h.now, h.saved, List.map_cons]

inductive Stepped (d k : Nat) : Except Fault MetaStore → Except Fault MetaStore → Prop
  | ok {ms ms' : MetaStore} (h : ms.Moved d k ms') : Stepped d k (.ok ms) (.ok ms')
  | error (f : Fault) : Stepped d k (.error f) (.error f)

/-- Going back to a saved knowledge takes a store and the renumbered one to such a pair again. -/
theorem pop (h : ms.Moved d k ms') : Stepped d k ms.pop ms'.pop := by
  have hsaved := h.saved
  cases hs : ms.saved with
  | nil =>
    rw [hs, List.map_nil] at hsaved
    rw [MetaStore.pop_of_nil hs, MetaStore.pop_of_nil hsaved]
    exact .error _
  | cons j js =>
    rw [hs, List.map_cons] at hsaved
    obtain ⟨t, ht⟩ := MetaStore.pop_of_cons hs
    obtain ⟨t', ht'⟩ := MetaStore.pop_of_cons hsaved
    obtain ⟨hold, hnext⟩ := MetaStore.pop_eq_ok_iff.1 ht
    obtain ⟨hold', hnext'⟩ := MetaStore.pop_eq_ok_iff.1 ht'
    rw [h.saved, hold, List.map_cons, List.cons.injEq] at hold'
    rw [ht, ht']
    exact .ok ⟨hold'.1.symm, hold'.2.symm, by rw [hnext', hnext, h.next]⟩

theorem discard (h : ms.Moved d k ms') : Stepped d k ms.discard ms'.discard := by
  have hsaved := h.saved
  cases hs : ms.saved with
  | nil =>
    rw [hs, List.map_nil] at hsaved
    rw [MetaStore.discard_of_nil hs, MetaStore.discard_of_nil hsaved]
    exact .error _
  | cons j js =>
    rw [hs, List.map_cons] at hsaved
    obtain ⟨t, ht⟩ := MetaStore.discard_of_cons hs
    obtain ⟨t', ht'⟩ := MetaStore.discard_of_cons hsaved
    obtain ⟨⟨_, hold⟩, hnow, hnext⟩ := MetaStore.discard_eq_ok_iff.1 ht
    obtain ⟨⟨_, hold'⟩, hnow', hnext'⟩ := MetaStore.discard_eq_ok_iff.1 ht'
    rw [h.saved, hold, List.map_cons, List.cons.injEq] at hold'
    rw [ht, ht']
    exact .ok ⟨by rw [hnow', hnow, h.now], hold'.2.symm, by rw [hnext', hnext, h.next]⟩

/-- A solution is stored in both, or both refuse it with the same error. -/
theorem set (h : ms.Moved d k ms') (m : MetaId) (v : Val) :
    (∃ t t', ms.set m v = .ok t ∧ ms'.set (m.renumber d) (v.renumber d) = .ok t' ∧ t.Moved d k t') ∨
      ∃ e, ms.set m v = .error e ∧ ms'.set (m.renumber d) (v.renumber d) =
        .error (e.renumber d) := by
  have hcell := h.cell m
  rw [← MetaId.toNat_renumber] at hcell
  cases hc : ms.now.cells.find? m.toNat with
  | none =>
    rw [hc] at hcell
    exact .inr ⟨_, MetaStore.set_of_unallocated hc, MetaStore.set_of_unallocated hcell⟩
  | some cell =>
    rw [hc] at hcell
    cases cell with
    | some w => exact .inr ⟨_, MetaStore.set_of_solved hc, MetaStore.set_of_solved hcell⟩
    | none =>
      obtain ⟨t, ht⟩ := MetaStore.set_of_open (v := v) hc
      obtain ⟨t', ht'⟩ := MetaStore.set_of_open (v := v.renumber d) hcell
      obtain ⟨-, hnow, hsaved, hnext⟩ := MetaStore.set_eq_ok_iff.1 ht
      obtain ⟨-, hnow', hsaved', hnext'⟩ := MetaStore.set_eq_ok_iff.1 ht'
      refine .inl ⟨t, t', ht, ht',
        ?_, by rw [hsaved', hsaved, h.saved], by rw [hnext', hnext, h.next]⟩
      rw [hnow', hnow, h.now]
      exact congrArg (Knowledge.mk · _) (IdMap.insert_shift ms.now.cells m.toNat (some v))

end MetaStore.Moved

/-! ## Actions -/

/-- Both states know the same and have met the same holes, the second one with other numbers. -/
structure State.Moved (d k : Nat) (s s' : State) : Prop where
  metas : s.metas.Moved d k s'.metas
  holes : s'.holes = s.holes.map (Hole.renumber d)

def Failure.renumber (d : Nat) : Failure → Failure
  | .error e => .error (e.renumber d)
  | .fault f => .fault f

namespace Action

variable {α β γ δ : Type} {d k : Nat} {R : α → β → Prop} {S : γ → δ → Prop}

inductive Ended (d k : Nat) (R : α → β → Prop) :
    EStateM.Result Failure State α → EStateM.Result Failure State β → Prop
  | ok {a : α} {b : β} {s s' : State} (answer : R a b) (state : s.Moved d k s') :
      Ended d k R (.ok a s) (.ok b s')
  | error {e e' : Failure} {s s' : State} (failure : e' = e.renumber d) (state : s.Moved d k s') :
      Ended d k R (.error e s) (.error e' s')

/-- From states that know the same, the two actions end in such states, with related answers or the
same failure. -/
structure InStep (d k : Nat) (R : α → β → Prop) (x : Action α) (y : Action β) : Prop where
  ends : ∀ s s', s.Moved d k s' → Ended d k R (x s) (y s')

abbrev Tracks (d k : Nat) (f : α → β) (x : Action α) (y : Action β) : Prop :=
  InStep d k (fun a b => b = f a) x y

namespace InStep

variable {x : Action α} {y : Action β}

theorem pure {a : α} {b : β} (h : R a b) : InStep d k R (pure a) (pure b) :=
  ⟨fun _ _ hs => .ok h hs⟩

theorem refuse {e e' : Error} (h : e' = e.renumber d) : InStep d k R (refuse e) (refuse e') :=
  ⟨fun _ _ hs => .error (congrArg Failure.error h) hs⟩

theorem fault (f : Fault) : InStep d k R (throw (.fault f)) (throw (.fault f)) :=
  ⟨fun _ _ hs => .error rfl hs⟩

theorem bind {f : α → Action γ} {g : β → Action δ} (hx : InStep d k R x y)
    (hf : ∀ a b, R a b → InStep d k S (f a) (g b)) : InStep d k S (x >>= f) (y >>= g) := by
  constructor
  intro s s' hs
  have hends := hx.ends s s' hs
  show Ended d k S (EStateM.bind x f s) (EStateM.bind y g s')
  unfold EStateM.bind
  generalize x s = u at hends ⊢
  generalize y s' = v at hends ⊢
  cases hends with
  | ok h hs => exact (hf _ _ h).ends _ _ hs
  | error h hs => exact .error h hs

/-- Two computations without state that end alike. -/
theorem lift {r : Except Fault α} {q : Except Fault β}
    (h : (∃ a b, r = .ok a ∧ q = .ok b ∧ R a b) ∨ ∃ f, r = .error f ∧ q = .error f) :
    InStep d k R (liftM r) (liftM q) := by
  rcases h with ⟨a, b, rfl, rfl, h⟩ | ⟨f, rfl, rfl⟩
  · exact ⟨fun _ _ hs => .ok h hs⟩
  · exact ⟨fun _ _ hs => .error rfl hs⟩

theorem ite {c : Prop} [Decidable c] {x' : Action α} {y' : Action β} (hx : InStep d k R x y)
    (hx' : InStep d k R x' y') : InStep d k R (if c then x else x') (if c then y else y') := by
  split
  · exact hx
  · exact hx'

theorem mapError {f : Error → Error} (hf : ∀ e, f (e.renumber d) = (f e).renumber d)
    (hx : InStep d k R x y) : InStep d k R (mapError f x) (mapError f y) := by
  constructor
  intro s s' hs
  have hends := hx.ends s s' hs
  unfold Action.mapError
  generalize x s = u at hends ⊢
  generalize y s' = v at hends ⊢
  cases hends with
  | ok h hs => exact .ok h hs
  | @error e e' _ _ h hs =>
    subst h
    cases e with
    | error e => exact .error (congrArg Failure.error (hf e)) hs
    | fault f => exact .error rfl hs

inductive Caught (d : Nat) (R : α → β → Prop) : Except Error α → Except Error β → Prop
  | ok {a : α} {b : β} (h : R a b) : Caught d R (.ok a) (.ok b)
  | error (e : Error) : Caught d R (.error e) (.error (e.renumber d))

/-- Errors caught on both sides are renumberings of each other. -/
theorem catchError (hx : InStep d k R x y) : InStep d k (Caught d R) (catchError x)
    (catchError y) := by
  constructor
  intro s s' hs
  have hends := hx.ends s s' hs
  unfold Action.catchError
  generalize x s = u at hends ⊢
  generalize y s' = v at hends ⊢
  cases hends with
  | ok h hs => exact .ok (.ok h) hs
  | @error e e' _ _ h hs =>
    subst h
    cases e with
    | error e => exact .ok (.error e) hs
    | fault f => exact .error rfl hs

theorem get : InStep d k (State.Moved d k) get get := ⟨fun _ _ hs => .ok hs hs⟩

theorem metas : InStep d k (MetaStore.Moved d k) metas metas := ⟨fun _ _ hs => .ok hs.metas hs⟩

/-- On metavariables of their own, both actions start at the same number. -/
theorem isolated (hx : InStep d 0 R x y) : InStep d k R (isolated x) (isolated y) := by
  constructor
  intro s s' hs
  have hends := hx.ends { s with metas := .empty } { s' with metas := .empty } ⟨.empty d, hs.holes⟩
  unfold Action.isolated
  generalize x { s with metas := .empty } = u at hends ⊢
  generalize y { s' with metas := .empty } = v at hends ⊢
  cases hends with
  | ok h hu => exact .ok h ⟨hs.metas, hu.holes⟩
  | error h hu => exact .error h ⟨hs.metas, hu.holes⟩

theorem stepped {r q : Except Fault MetaStore} (h : MetaStore.Moved.Stepped d k r q) :
    InStep d k (MetaStore.Moved d k) (liftM r) (liftM q) := by
  cases h with
  | ok h => exact lift (.inl ⟨_, _, rfl, rfl, h⟩)
  | error f => exact lift (.inr ⟨f, rfl, rfl⟩)

end InStep

namespace Tracks

variable {x : Action α} {y : Action β} {f : α → β}

theorem bind {g : α → Action γ} {g' : β → Action δ} (hx : Tracks d k f x y)
    (hg : ∀ a, InStep d k S (g a) (g' (f a))) : InStep d k S (x >>= g) (y >>= g') :=
  InStep.bind hx fun a _ h => h ▸ hg a

/-- A computation without state that commutes with renumbering. -/
theorem lift {r : Except Fault α} {q : Except Fault β} (h : q = f <$> r) :
    Tracks d k f (liftM r) (liftM q) := by
  subst h
  cases r with
  | ok a => exact ⟨fun _ _ hs => .ok rfl hs⟩
  | error e => exact ⟨fun _ _ hs => .error rfl hs⟩

theorem forM {p : α → β} {f : α → Action Unit} {g : β → Action Unit} {xs : List α}
    (h : ∀ a ∈ xs, Tracks d k id (f a) (g (p a))) :
    Tracks d k id (xs.forM f) ((xs.map p).forM g) := by
  induction xs with
  | nil => exact .pure rfl
  | cons a xs ih =>
    obtain ⟨ha, hxs⟩ := List.forall_mem_cons.1 h
    show Tracks d k id (f a >>= fun _ => xs.forM f) (g (p a) >>= fun _ => (xs.map p).forM g)
    exact ha.bind fun _ => ih hxs

/-! ### The state -/

theorem modify {f f' : State → State} (h : ∀ s s', s.Moved d k s' → (f s).Moved d k (f' s')) :
    Tracks d k id (modify f) (modify f') :=
  ⟨fun s s' hs => .ok rfl (h s s' hs)⟩

theorem setMetas {ms ms' : MetaStore} (h : ms.Moved d k ms') :
    Tracks d k id (setMetas ms) (setMetas ms') :=
  ⟨fun _ _ hs => .ok rfl ⟨h, hs.holes⟩⟩

/-- Events are not compared. -/
theorem emit (e e' : Event) : Tracks d k id (emit e) (emit e') :=
  ⟨fun _ _ hs => .ok rfl ⟨hs.metas, hs.holes⟩⟩

theorem emitWith (e e' : MetaStore → Event) : Tracks d k id (emitWith e) (emitWith e') :=
  InStep.metas.bind fun _ _ _ => emit _ _

/-- Solving a renumbered metavariable by the renumbered value tracks. -/
theorem setMeta (m : MetaId) (v : Val) :
    Tracks d k id (setMeta m v) (setMeta (m.renumber d) (v.renumber d)) := by
  refine InStep.metas.bind fun ms ms' h => ?_
  rcases h.set m v with ⟨t, t', ht, ht', hset⟩ | ⟨e, he, he'⟩
  · rw [ht, ht']
    exact setMetas hset
  · rw [he, he']
    exact .refuse rfl

theorem postpone (m : MetaId) (p : Problem) :
    Tracks d k id (postpone m p) (postpone (m.renumber d) (p.renumber d)) :=
  (emit _ _).bind fun _ => InStep.metas.bind fun _ _ h => setMetas (h.postpone m p)

theorem takePostponed (m : MetaId) :
    Tracks d k (List.map (Problem.renumber d)) (takePostponed m) (takePostponed (m.renumber d)) :=
  InStep.metas.bind fun _ _ h => (setMetas (h.takePostponed m).2).bind fun _ =>
    .pure (h.takePostponed m).1

/-- Fresh metavariables are renumberings of each other when the stores' counters are that far apart.
-/
theorem freshMeta : Tracks d d (MetaId.renumber d) freshMeta freshMeta :=
  InStep.metas.bind fun _ _ h => (setMetas h.fresh.2).bind fun _ => .pure h.fresh.1

/-- A new metavariable in a renumbered scope is the renumbered one. -/
theorem newMeta (scope : Local) : Tracks d d (Term.renumber d) (newMeta scope)
    (newMeta (scope.renumber d)) :=
  freshMeta.bind fun m => .pure (scope.applyMeta_renumber m).symm

/-! ### Transactions -/

theorem push : Tracks d k id push push := InStep.metas.bind fun _ _ h => setMetas h.push

theorem pop : Tracks d k id pop pop :=
  InStep.metas.bind fun _ _ h => (InStep.stepped h.pop).bind fun _ _ => setMetas

theorem discard : Tracks d k id discard discard :=
  InStep.metas.bind fun _ _ h => (InStep.stepped h.discard).bind fun _ _ => setMetas

theorem attempt {x : Action (Option α)} {y : Action (Option β)}
    (hx : Tracks d k (Option.map f) x y) : Tracks d k (Option.map f) (attempt x) (attempt y) := by
  refine push.bind fun _ => hx.catchError.bind fun r q hrq => ?_
  cases hrq with
  | @ok a b h =>
    subst h
    cases a with
    | none => exact pop.bind fun _ => .pure rfl
    | some a => exact discard.bind fun _ => .pure rfl
  | error e =>
    refine pop.bind fun _ => ?_
    rw [Error.isSoft_renumber]
    exact .ite (.pure rfl) (.refuse rfl)

/-! ### Values under the current solutions -/

theorem forceMeta (fuel : Nat) (v : Val) :
    Tracks d k (Val.renumber d) (forceMeta fuel v) (forceMeta fuel (v.renumber d)) :=
  InStep.metas.bind fun _ _ h => lift (Val.forceMeta_renumber h.follows fuel v)

theorem force (fuel : Nat) (v : Val) : Tracks d k (Val.renumber d) (force fuel v)
    (force fuel (v.renumber d)) :=
  InStep.metas.bind fun _ _ h => lift (Val.force_renumber h.follows fuel v)

theorem quote (fuel n : Nat) (v : Val) :
    Tracks d k (Term.renumber d) (quote fuel n v) (quote fuel n (v.renumber d)) :=
  InStep.metas.bind fun _ _ h => lift (Val.quote_renumber h.follows fuel false n v)

theorem text (fuel : Nat) (scope : Local) (v : Val) :
    Tracks d k (MarkedText.renumber d) (text fuel scope v)
      (text fuel (scope.renumber d) (v.renumber d)) := by
  refine InStep.metas.bind fun ms ms' h => lift ?_
  rw [Local.text, Local.text, Local.names_renumber, Val.text_renumber h.follows]

end Tracks

namespace InStep

variable {x : Action α} {y : Action β}

/-- A transaction that fails is rolled back on both sides. -/
theorem transaction (hx : InStep d k R x y) : InStep d k (Caught d R) (transaction x)
    (transaction y) := by
  refine Tracks.push.bind fun _ => hx.catchError.bind fun r q hrq => ?_
  cases hrq with
  | ok h => exact Tracks.discard.bind fun _ => .pure (.ok h)
  | error e => exact Tracks.pop.bind fun _ => .pure (.error e)

/-- An error that shows a value. -/
theorem refuseText {e : MarkedText → Error}
    (he : ∀ s, e (s.renumber d) = (e s).renumber d) (fuel : Nat) (scope : Local) (v : Val) :
    InStep d k R (Action.text fuel scope v >>= fun s => Action.refuse (e s))
      (Action.text fuel (scope.renumber d) (v.renumber d) >>= fun s => Action.refuse (e s)) :=
  (Tracks.text fuel scope v).bind fun s => refuse (he s)

theorem refuseClosure {e : MarkedText → Error}
    (he : ∀ s, e (s.renumber d) = (e s).renumber d) (fuel : Nat) (scope : Local) (c : Closure) :
    InStep d k R (Action.text fuel scope (.closure c) >>= fun s => Action.refuse (e s))
      (Action.text fuel (scope.renumber d) (.closure (c.renumber d)) >>= fun s =>
        Action.refuse (e s)) := by
  rw [← Val.renumber_closure]
  exact refuseText he fuel scope (.closure c)

end InStep

end Action

end Elaborator
