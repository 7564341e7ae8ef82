import Mathlib.Order.Basic
import Elaborator.Proofs.Mentions
import Elaborator.Proofs.StoreGrowth

/-! # Metavariables that were made

A value should only mention metavariables that the store knows. This is not a property of the value
alone: undoing a transaction takes metavariables back that were made in it. `Action.Allocates` is
what is proved of every action of unification and elaboration. It speaks about one run, from a state
that is given: what is known about values at that state stays known later, because metavariables are
only added, and a transaction that is undone ends where it began. What is known of an answer may
depend on the state that the run ends in, but not on the transactions that are open there
(`State.current`), so that it is still known after a transaction was closed.

The store has two internal errors, for a metavariable that was never made and for one that already
has a solution. The first one does not happen. For the second one there is one cause, which the log
tells (`State.Resolves`). -/

namespace Elaborator

/-! ## Stores and states -/

/-- The metavariable was made, and this was not undone. -/
def MetaStore.Made (ms : MetaStore) (m : MetaId) : Prop := (ms.now.cells.find? m.toNat).isSome

structure Problem.Among (A : MetaId → Prop) (p : Problem) : Prop where
  lhs : p.lhs.Among A
  rhs : p.rhs.Among A

/-- Solutions and waiting problems mention only metavariables that were made. -/
structure MetaStore.Allocated (ms : MetaStore) : Prop where
  solved : ∀ m v, ms.lookup m = some v → v.Among ms.Made
  waiting : ∀ i ps, ms.now.postponed.find? i = some ps → ∀ p ∈ ps, p.Among ms.Made

structure Local.Among (A : MetaId → Prop) (scope : Local) : Prop where
  env : scope.env.Among A
  types : ∀ e ∈ scope.entries, e.ty.Among A

structure Hole.Among (A : MetaId → Prop) (h : Hole) : Prop where
  scope : h.scope.Among A
  ty : h.ty.Among A
  term : h.term.Among A

/-- The store mentions only metavariables that were made, and events were only added since the log
was `old`. -/
structure State.Allocated (old : List Event) (s : State) : Prop where
  metas : s.metas.Allocated
  log : old <:+ s.log

/-- The store has grown. New holes mention only metavariables that were made, and there are none if
`quiet` holds. -/
structure State.Extends (quiet : Prop) (s t : State) : Prop where
  metas : s.metas.Grows t.metas
  holes : ∀ h ∈ t.holes, h ∈ s.holes ∨ ¬ quiet ∧ h.Among t.metas.Made

/-- Since the log was `old`, the metavariable was to be solved by a boolean constant although it had
a solution. -/
def State.Resolves (old : List Event) (s : State) (m : MetaId) : Prop :=
  ∃ events ms size p, s.log = events ++ old ∧ Event.solve ms m size (.prim p) ∈ events ∧
    (p = .true ∨ p = .false) ∧ ms.isSolved m = true

def MetaStore.current (ms : MetaStore) : MetaStore :=
  { ms with
    saved := []
    below := fun k hk => ms.below k (List.mem_cons.2 (.inl (List.mem_singleton.1 hk))) }

def State.current (s : State) : State := { s with metas := s.metas.current }

/-- An internal error says that a metavariable was solved twice, and there is a reason for that. -/
def Error.Excused (old : List Event) (s : State) (e : Error) : Prop :=
  ∀ text, e.inner = .internal text → ∃ m, text = "meta " ++ .metavar m ++ " solved twice" ∧
    s.Resolves old m

section

variable {A A' : MetaId → Prop}

theorem Env.Among.mono {env : Env} (h : env.Among A) (hA : ∀ q, A q → A' q) : env.Among A' :=
  ⟨fun v hv => (h.locals v hv).mono hA, fun x v hv => (h.globals x v hv).mono hA⟩

theorem Problem.Among.mono {p : Problem} (h : p.Among A) (hA : ∀ q, A q → A' q) : p.Among A' :=
  ⟨h.lhs.mono hA, h.rhs.mono hA⟩

theorem Local.Among.mono {scope : Local} (h : scope.Among A) (hA : ∀ q, A q → A' q) :
    scope.Among A' :=
  ⟨h.env.mono hA, fun e he => (h.types e he).mono hA⟩

theorem Hole.Among.mono {h : Hole} (hh : h.Among A) (hA : ∀ q, A q → A' q) : h.Among A' :=
  ⟨hh.scope.mono hA, hh.ty.mono hA, hh.term.mono hA⟩

end

namespace MetaStore

variable {ms ms' : MetaStore} {m : MetaId} {v : Val}

theorem Grows.mono (h : ms.Grows ms') : ms.Made ≤ ms'.Made := fun q hq => h.made q.toNat hq

theorem current_congr (hnow : ms'.now = ms.now) (hnext : ms'.next = ms.next) :
    ms'.current = ms.current := by
  cases ms
  cases ms'
  cases hnow
  cases hnext
  rfl

theorem made_of_now_eq (h : ms'.now = ms.now) : ms'.Made = ms.Made := by
  unfold Made
  rw [h]

namespace Allocated

theorem reset (ms : MetaStore) : ms.reset.Allocated :=
  ⟨fun _ _ h => (nomatch h), fun _ _ h => nomatch h⟩

theorem of_now_eq (h : ms.Allocated) (hnow : ms'.now = ms.now) : ms'.Allocated := by
  have hmade := made_of_now_eq hnow
  constructor
  · intro m v hv
    rw [hmade]
    apply h.solved m v
    rw [← hv, lookup, lookup, hnow]
  · intro i ps hps
    rw [hmade]
    rw [hnow] at hps
    exact h.waiting i ps hps

/-- A new metavariable has no solution. -/
theorem fresh (h : ms.Allocated) : ms.fresh.2.Allocated := by
  have hmono := (Grows.of_fresh ms).mono
  constructor
  · intro m v hv
    rw [lookup_fresh] at hv
    split at hv
    · cases hv
    · exact (h.solved m v hv).mono hmono
  · exact fun i ps hps p hp => (h.waiting i ps hps p hp).mono hmono

theorem set (h : ms.Allocated) (hv : v.Among ms.Made) (ht : ms.set m v = .ok ms') :
    ms'.Allocated := by
  have hmono := (Grows.of_set ht).mono
  constructor
  · intro n w hw
    rw [lookup_set ht] at hw
    split at hw
    · cases hw
      exact hv.mono hmono
    · exact (h.solved n w hw).mono hmono
  · intro i ps hps p hp
    rw [(set_eq_ok_iff.1 ht).2.1] at hps
    exact (h.waiting i ps hps p hp).mono hmono

theorem waitingFor (h : ms.Allocated) (i : Nat) :
    ∀ p ∈ (ms.now.postponed.find? i).getD [], p.Among ms.Made := by
  cases hw : ms.now.postponed.find? i with
  | none => exact List.forall_mem_nil _
  | some ps => exact h.waiting i ps hw

theorem postpone (h : ms.Allocated) {p : Problem} (hp : p.Among ms.Made) (m : MetaId) :
    (ms.postpone m p).Allocated := by
  refine ⟨h.solved, fun i ps hps => ?_⟩
  replace hps : (ms.now.postponed.insert m.toNat
      ((ms.now.postponed.find? m.toNat).getD [] ++ [p])).find? i = some ps :=
    hps
  rw [IdMap.find?_insert] at hps
  split at hps
  · cases hps
    exact List.forall_mem_append.2 ⟨h.waitingFor m.toNat, List.forall_mem_singleton.2 hp⟩
  · exact h.waiting i ps hps

theorem takePostponed (h : ms.Allocated) (m : MetaId) : (ms.takePostponed m).2.Allocated := by
  refine ⟨h.solved, fun i ps hps => ?_⟩
  replace hps : (ms.now.postponed.erase m.toNat).find? i = some ps := hps
  rw [IdMap.find?_erase] at hps
  split at hps
  · cases hps
  · exact h.waiting i ps hps

end Allocated

end MetaStore

namespace State.Extends

variable {quiet : Prop} {s t u : State}

theorem refl (quiet : Prop) (s : State) : s.Extends quiet s := ⟨.refl _, fun _ => .inl⟩

theorem trans (h : s.Extends quiet t) (h' : t.Extends quiet u) : s.Extends quiet u := by
  refine ⟨h.metas.trans h'.metas, fun hole hu => ?_⟩
  rcases h'.holes hole hu with ht | hnew
  · rcases h.holes hole ht with hs | ⟨hloud, hmade⟩
    · exact .inl hs
    · exact .inr ⟨hloud, hmade.mono h'.metas.mono⟩
  · exact .inr hnew

theorem of_metas (h : s.metas.Grows t.metas) (hholes : t.holes = s.holes) : s.Extends quiet t :=
  ⟨h, fun _ hh => .inl (hholes ▸ hh)⟩

/-- The holes still mention only what was made. -/
theorem holesAmong (h : s.Extends quiet t) (hs : ∀ hole ∈ s.holes, hole.Among s.metas.Made) :
    ∀ hole ∈ t.holes, hole.Among t.metas.Made := by
  intro hole ht
  rcases h.holes hole ht with hold | ⟨-, hnew⟩
  · exact (hs hole hold).mono h.metas.mono
  · exact hnew

end State.Extends

/-- A metavariable that was to be solved twice still was when the log has grown. -/
theorem State.Resolves.of_log {old : List Event} {s t : State} {m : MetaId} (h : s.Resolves old m)
    (hlog : s.log <:+ t.log) : t.Resolves old m := by
  obtain ⟨events, ms, size, p, hs, hmem, hsolved⟩ := h
  obtain ⟨later, hlater⟩ := hlog
  refine ⟨later ++ events, ms, size, p, ?_, List.mem_append_right _ hmem, hsolved⟩
  rw [← hlater, hs, List.append_assoc]

/-! ## Errors -/

namespace Error.Excused

variable {old : List Event} {s : State} {e : Error}

/-- Only internal errors need an excuse. -/
theorem of_inner (h : ∀ text, e.inner ≠ .internal text) : e.Excused old s :=
  fun text ht => absurd ht (h text)

theorem of_log {t : State} (h : e.Excused old s) (hlog : t.log = s.log) : e.Excused old t := by
  intro text ht
  obtain ⟨m, hm, events, hresolves⟩ := h text ht
  exact ⟨m, hm, events, hlog ▸ hresolves⟩

theorem of_refuses {m : MetaId} (h : e.Refuses m) : e.Excused old s := by
  rcases h with rfl | rfl | ⟨x, rfl⟩ <;> exact of_inner nofun

end Error.Excused

/-! ## The judgement -/

namespace Action

variable {α β : Type} {old : List Event} {quiet : Prop} {s : State} {x : Action α}
  {f : α → Action β} {Q : State → α → Prop} {R : State → β → Prop}

/-- If the values of `s` mention only metavariables that were made, the run of the action from `s`
goes to such a state. What is known of an answer may refer to that state. Internal errors have an
excuse. -/
structure Allocates (old : List Event) (quiet : Prop) (s : State) (x : Action α)
    (Q : State → α → Prop) : Prop where
  ok : ∀ {a t}, s.Allocated old → x s = .ok a t →
    s.Extends quiet t ∧ t.Allocated old ∧ Q t.current a
  error : ∀ {e t}, s.Allocated old → x s = .error (.error e) t →
    s.Extends quiet t ∧ t.Allocated old ∧ e.Excused old t

def whatever {α : Type} : State → α → Prop := fun _ _ => True

/-- Run from `s`, the action changes nothing and has no errors of its own. -/
structure Inspects (old : List Event) (s : State) (x : Action α) (P : α → Prop) : Prop where
  ok : ∀ {a t}, s.Allocated old → x s = .ok a t → t = s ∧ P a
  error : ∀ {e t}, x s ≠ .error (.error e) t

namespace Inspects

variable {P P' : α → Prop}

theorem imp (hx : Inspects old s x P) (h : ∀ a, P a → P' a) : Inspects old s x P' :=
  ⟨fun hs hst => ⟨(hx.ok hs hst).1, h _ (hx.ok hs hst).2⟩, hx.error⟩

theorem lift {r : Except Fault α} (h : ∀ a, r = .ok a → P a) : Inspects old s (liftM r) P where
  ok := by
    intro a t _ hst
    obtain ⟨hr, rfl⟩ := lift_eq_ok.1 hst
    exact ⟨rfl, h a hr⟩
  error := by
    intro e t hst
    obtain ⟨_, -, hfault, -⟩ := lift_eq_error.1 hst
    cases hfault

/-- A computation on the metavariables as they are. -/
theorem look {r : MetaStore → Except Fault α}
    (h : s.metas.Allocated → ∀ a, r s.metas = .ok a → P a) : Inspects old s (do r (← metas)) P where
  ok := by
    intro a t hs hst
    obtain ⟨_, _, hms, hst⟩ := bind_eq_ok.1 hst
    obtain ⟨rfl, rfl⟩ := metas_eq_ok.1 hms
    obtain ⟨hr, rfl⟩ := lift_eq_ok.1 hst
    exact ⟨rfl, h hs.metas a hr⟩
  error := by
    intro e t hst
    rcases bind_eq_error.1 hst with hms | ⟨_, _, -, hst⟩
    · exact metas_ne_error hms
    · obtain ⟨_, -, hfault, -⟩ := lift_eq_error.1 hst
      cases hfault

variable {fuel : Nat} {v : Val}

theorem forceMeta (hv : v.Among s.metas.Made) :
    Inspects old s (forceMeta fuel v) fun w =>
      w.Among s.metas.Made ∧ v.forceMeta fuel s.metas = .ok w :=
  look fun hs _ hw => ⟨Val.forceMeta_among (fun m u _ => hs.solved m u) hv hw, hw⟩

theorem force (hv : v.Among s.metas.Made) :
    Inspects old s (force fuel v) (Val.Among s.metas.Made) :=
  look fun hs _ hw => Val.force_among (fun m u _ => hs.solved m u) hv hw

theorem quote {size : Nat} (hv : v.Among s.metas.Made) :
    Inspects old s (quote fuel size v) (Term.Among s.metas.Made) :=
  look fun hs _ ht => Val.quote_among (fun m u _ => hs.solved m u) hv ht

end Inspects

namespace Allocates

/-- A run may assume that what the state holds is allocated, since nothing is claimed of it
otherwise. -/
theorem of_allocated (h : s.Allocated old → Allocates old quiet s x Q) :
    Allocates old quiet s x Q :=
  ⟨fun hs => (h hs).ok hs, fun hs => (h hs).error hs⟩

theorem imp {Q' : State → α → Prop} (hx : Allocates old quiet s x Q) (h : ∀ t a, Q t a → Q' t a) :
    Allocates old quiet s x Q' where
  ok hs hst := ⟨(hx.ok hs hst).1, (hx.ok hs hst).2.1, h _ _ (hx.ok hs hst).2.2⟩
  error := hx.error

/-! ### Actions that leave the state alone -/

theorem pure {a : α} (h : Q s.current a) : Allocates old quiet s (pure a) Q where
  ok := by
    intro b t hs hst
    obtain ⟨rfl, rfl⟩ := pure_eq_ok.1 hst
    exact ⟨.refl _ _, hs, h⟩
  error _ hst := absurd hst pure_ne_error

theorem refuse {e : Error} (h : e.Excused old s) : Allocates old quiet s (refuse e) Q where
  ok _ hst := nomatch hst
  error hs hst := by
    cases hst
    exact ⟨.refl _ _, hs, h⟩

/-- Most errors are not internal. -/
theorem reject (e : Error) (h : ∀ text, e.inner ≠ .internal text := by nofun) :
    Allocates old quiet s (Action.refuse e) Q :=
  refuse (.of_inner h)

theorem fault (e : Fault) : Allocates old quiet s (throw (.fault e)) Q where
  ok _ hst := nomatch hst
  error _ hst := nomatch hst

/-- The second part of a sequence starts in a state that the first part leads to. -/
theorem bindExtends (hx : Allocates old quiet s x Q)
    (hf : ∀ t a, s.Extends quiet t → Q t.current a → Allocates old quiet t (f a) R) :
    Allocates old quiet s (x >>= f) R where
  ok := by
    intro b t hs hst
    obtain ⟨a, u, hu, ht⟩ := bind_eq_ok.1 hst
    obtain ⟨hsu, hua, ha⟩ := hx.ok hs hu
    obtain ⟨hut, hta, hb⟩ := (hf u a hsu ha).ok hua ht
    exact ⟨hsu.trans hut, hta, hb⟩
  error := by
    intro e t hs hst
    rcases bind_eq_error.1 hst with hu | ⟨a, u, hu, ht⟩
    · exact hx.error hs hu
    · obtain ⟨hsu, hua, ha⟩ := hx.ok hs hu
      obtain ⟨hut, hta, he⟩ := (hf u a hsu ha).error hua ht
      exact ⟨hsu.trans hut, hta, he⟩

/-- Mostly it is enough to know that no metavariables were lost. -/
theorem bind (hx : Allocates old quiet s x Q)
    (hf : ∀ t a, s.metas.Made ≤ t.metas.Made → Q t.current a → Allocates old quiet t (f a) R) :
    Allocates old quiet s (x >>= f) R :=
  bindExtends hx fun t a hst => hf t a hst.metas.mono

/-- After an action that only looks, the state is still the same. -/
theorem bindRead {P : α → Prop} (hx : Inspects old s x P)
    (hf : ∀ a, P a → Allocates old quiet s (f a) R) : Allocates old quiet s (x >>= f) R where
  ok := by
    intro b t hs hst
    obtain ⟨a, u, hu, ht⟩ := bind_eq_ok.1 hst
    obtain ⟨rfl, ha⟩ := hx.ok hs hu
    exact (hf a ha).ok hs ht
  error := by
    intro e t hs hst
    rcases bind_eq_error.1 hst with hu | ⟨a, u, hu, ht⟩
    · exact absurd hu hx.error
    · obtain ⟨rfl, ha⟩ := hx.ok hs hu
      exact (hf a ha).error hs ht

/-- A computation without effects ahead of an action changes nothing of the state it starts in. -/
theorem bindLift {r : Except Fault α} (hf : ∀ a, r = .ok a → Allocates old quiet s (f a) R) :
    Allocates old quiet s (liftM r >>= f) R :=
  bindRead (.lift fun _ => id) hf

theorem lift {r : Except Fault α} (h : ∀ a, r = .ok a → Q s.current a) :
    Allocates old quiet s (liftM r) Q where
  ok := by
    intro a t hs hst
    obtain ⟨hr, rfl⟩ := lift_eq_ok.1 hst
    exact ⟨.refl _ _, hs, h a hr⟩
  error := by
    intro e t _ hst
    obtain ⟨_, -, hfault, -⟩ := lift_eq_error.1 hst
    cases hfault

theorem bindMetas {f : MetaStore → Action β} (hf : Allocates old quiet s (f s.metas) R) :
    Allocates old quiet s (metas >>= f) R := ⟨hf.ok, hf.error⟩

theorem bindGet {f : State → Action β} (hf : Allocates old quiet s (f s) R) :
    Allocates old quiet s (get >>= f) R :=
  ⟨hf.ok, hf.error⟩

section

variable {fuel : Nat} {v : Val}

theorem bindQuote {size : Nat} {f : Term → Action β} (hv : v.Among s.metas.Made)
    (hf : ∀ t, t.Among s.metas.Made → Allocates old quiet s (f t) R) :
    Allocates old quiet s (quote fuel size v >>= f) R :=
  bindRead (.quote hv) hf

end

/-! ### Steps of the store -/

/-- One step that succeeds is an allocating run when it extends the state and keeps it allocated. -/
theorem of_step {t : State} {a : α} (hx : x s = .ok a t) (hextends : s.Extends quiet t)
    (hallocated : s.Allocated old → t.Allocated old ∧ Q t.current a) :
    Allocates old quiet s x Q where
  ok := by
    intro b u hs hst
    cases hx.symm.trans hst
    exact ⟨hextends, hallocated hs⟩
  error _ hst := nomatch hx.symm.trans hst

/-- After an event was noted, everything but the log is as before. -/
theorem emit {e : Event} {Q : State → Unit → Prop}
    (hQ : s.Allocated old → Q { s.current with log := e :: s.log } ()) :
    Allocates old quiet s (emit e) Q :=
  of_step rfl (.of_metas (.refl _) rfl) fun hs =>
    ⟨⟨hs.metas, hs.log.trans (List.suffix_cons ..)⟩, hQ hs⟩

theorem emitWith {e : MetaStore → Event} {Q : State → Unit → Prop}
    (hQ : s.Allocated old → Q { s.current with log := e s.metas :: s.log } ()) :
    Allocates old quiet s (emitWith e) Q :=
  ⟨(emit hQ).ok, (emit hQ).error⟩

theorem bindEmit {e : Event} {f : Unit → Action β}
    (hf : Allocates old quiet { s with log := e :: s.log } (f ()) R) :
    Allocates old quiet s (Action.emit e >>= f) R := by
  have hextends {t : State} (ht : State.Extends quiet { s with log := e :: s.log } t) :
      s.Extends quiet t :=
    ⟨ht.metas, ht.holes⟩
  constructor
  · intro a t hs hst
    obtain ⟨ht, hta, ha⟩ := hf.ok ⟨hs.metas, hs.log.trans (List.suffix_cons ..)⟩ hst
    exact ⟨hextends ht, hta, ha⟩
  · intro d t hs hst
    obtain ⟨ht, hta, hd⟩ := hf.error ⟨hs.metas, hs.log.trans (List.suffix_cons ..)⟩ hst
    exact ⟨hextends ht, hta, hd⟩

theorem bindEmitWith {e : MetaStore → Event} {f : Unit → Action β}
    (hf : Allocates old quiet { s with log := e s.metas :: s.log } (f ()) R) :
    Allocates old quiet s (Action.emitWith e >>= f) R :=
  ⟨(bindEmit hf).ok, (bindEmit hf).error⟩

/-- A fresh metavariable is one that the store has made by the end. -/
theorem freshMeta : Allocates old quiet s freshMeta fun t m => t.metas.Made m := by
  refine of_step rfl (.of_metas (.of_fresh _) rfl) fun hs => ⟨⟨hs.metas.fresh, hs.log⟩, ?_⟩
  show ((s.metas.now.cells.insert s.metas.next none).find? s.metas.next).isSome
  rw [IdMap.find?_insert, if_pos rfl]
  rfl

theorem postpone {p : Problem} (hp : p.Among s.metas.Made) (m : MetaId) :
    Allocates old quiet s (postpone m p) whatever := by
  refine of_step rfl (.of_metas (.of_cells_eq rfl rfl rfl) rfl) fun hs =>
    ⟨⟨hs.metas.postpone hp m, ?_⟩, trivial⟩
  exact hs.log.trans (List.suffix_cons ..)

/-- The problems taken back for a metavariable mention made metavariables only. -/
theorem takePostponed (m : MetaId) :
    Allocates old quiet s (takePostponed m) fun t ps => ∀ p ∈ ps, p.Among t.metas.Made := by
  refine of_step rfl (.of_metas (.of_cells_eq rfl rfl rfl) rfl) fun hs => ?_
  exact ⟨⟨hs.metas.takePostponed m, hs.log⟩, hs.metas.waitingFor m.toNat⟩

/-- A metavariable that was made is solved, unless it has a solution. -/
theorem setMeta {m : MetaId} {v : Val} (hm : s.metas.Made m) (hv : v.Among s.metas.Made)
    (hopen : s.metas.lookup m = none ∨ s.Resolves old m) :
    Allocates old quiet s (setMeta m v) whatever := by
  refine bindMetas ?_
  cases hset : s.metas.set m v with
  | ok ms =>
    exact of_step rfl (.of_metas (.of_set hset) rfl) fun hs =>
      ⟨⟨hs.metas.set hv hset, hs.log⟩, trivial⟩
  | error e =>
    refine refuse ?_
    obtain ⟨cell, hcell⟩ := Option.isSome_iff_exists.1 hm
    unfold MetaStore.set at hset
    split at hset
    · next hnone => cases hnone.symm.trans hcell
    · next w hw =>
      cases hset
      rintro text ⟨⟩
      refine ⟨m, rfl, hopen.resolve_left ?_⟩
      rw [MetaStore.lookup, hw]
      simp
    · cases hset

/-! ### Composed actions -/

theorem newMeta (scope : Local) :
    Allocates old quiet s (newMeta scope) fun t => Term.Among t.metas.Made := by
  refine bind freshMeta fun t m _ hm => pure ?_
  have hfold : ∀ (is : List Index) (u : Term), u.Among t.metas.Made →
      (is.foldl (fun u i => Term.app u .expl (.var i)) u).Among t.metas.Made := by
    intro is
    induction is with
    | nil => exact fun _ hu => hu
    | cons i is ih => exact fun u hu => ih _ (Term.among_app.2 ⟨hu, Term.among_var⟩)
  exact hfold _ _ (Term.among_metavar.2 hm)

/-- Rewording the errors of an action keeps it allocating when the new texts are excused as well. -/
theorem mapError {g : Error → Error} (hg : ∀ e t, e.Excused old t → (g e).Excused old t)
    (hx : Allocates old quiet s x Q) : Allocates old quiet s (mapError g x) Q where
  ok hs hst := hx.ok hs (mapError_eq_ok.1 hst)
  error := by
    intro e t hs hst
    unfold Action.mapError at hst
    split at hst
    · cases hst
    · next hu =>
      cases hst
      obtain ⟨hsu, hua, he⟩ := hx.error hs hu
      exact ⟨hsu, hua, hg _ _ he⟩
    · cases hst

/-- A list of actions allocates when each one does in every state that has made at least as much. -/
theorem forM {g : α → Action PUnit} {l : List α}
    (hg : ∀ a ∈ l, ∀ t : State, s.metas.Made ≤ t.metas.Made →
      Allocates old quiet t (g a) whatever) : Allocates old quiet s (l.forM g) whatever := by
  induction l generalizing s with
  | nil => exact pure trivial
  | cons a l ih =>
    obtain ⟨ha, hl⟩ := List.forall_mem_cons.1 hg
    refine bind (ha s fun _ => id) fun t _ hst _ => ih fun b hb u htu => ?_
    exact hl b hb u (hst.trans htu)

/-! ### Transactions -/

/-- Inside a transaction everything is as before. -/
theorem opened_allocated (hs : s.Allocated old) : s.opened.Allocated old :=
  ⟨hs.metas.of_now_eq rfl, hs.log⟩

/-- A transaction that is undone ends where it began, apart from the log. -/
theorem undone {t u : State} (hs : s.Allocated old) (ht : s.opened.Extends True t)
    (hlog : old <:+ t.log) (hu : t.Undone u) :
    s.Extends quiet u ∧ u.Allocated old ∧ u.log = t.log := by
  obtain ⟨ms, hpop, rfl⟩ := hu
  have hnow : ms.now = s.metas.now := by
    obtain ⟨hsaved, -⟩ := MetaStore.pop_eq_ok_iff.1 hpop
    exact (List.cons.inj (ht.metas.saved.symm.trans hsaved)).1.symm
  refine ⟨⟨.of_pop ht.metas hpop, fun h hh => ?_⟩, ⟨hs.metas.of_now_eq hnow, hlog⟩, rfl⟩
  exact .inl ((ht.holes h hh).resolve_right fun hnew => hnew.1 trivial)

/-- Keeping an attempt gives a state that extends the one before it was opened. -/
theorem kept {t u : State} (ht : s.opened.Extends True t) (hta : t.Allocated old) (hu : t.Kept u) :
    s.Extends quiet u ∧ u.Allocated old ∧ u.current = t.current := by
  obtain ⟨ms, hdiscard, rfl⟩ := hu
  obtain ⟨-, hnow, hnext⟩ := MetaStore.discard_eq_ok_iff.1 hdiscard
  refine ⟨⟨.of_discard ht.metas hdiscard, fun h hh => ?_⟩, ⟨hta.metas.of_now_eq hnow, hta.log⟩, ?_⟩
  · exact .inl ((ht.holes h hh).resolve_right fun hnew => hnew.1 trivial)
  · rw [State.current, State.current, MetaStore.current_congr hnow hnext]

/-- The excuse of an error that was caught holds on after the transaction. -/
theorem bindTransaction {f : Except Error α → Action β} (hx : Allocates old True s.opened x Q)
    (hok : ∀ t a, s.metas.Made ≤ t.metas.Made → Q t.current a → Allocates old quiet t (f (.ok a)) R)
    (herror : ∀ t e, s.metas.Made ≤ t.metas.Made → e.Excused old t →
      Allocates old quiet t (f (.error e)) R) :
    Allocates old quiet s (transaction x >>= f) R := by
  refine of_allocated fun hs => ?_
  have hrun : ∀ {r t}, transaction x s = .ok r t →
      s.Extends quiet t ∧ t.Allocated old ∧ Allocates old quiet t (f r) R := by
    intro r t hr
    rcases transaction_eq_ok.1 hr with ⟨a, u, rfl, hu, hkept⟩ | ⟨e, u, rfl, hu, hundone⟩
    · obtain ⟨hextends, hallocated, ha⟩ := hx.ok (opened_allocated hs) hu
      obtain ⟨hst, hta, hcurrent⟩ := kept hextends hallocated hkept
      exact ⟨hst, hta, hok t a hst.metas.mono (hcurrent ▸ ha)⟩
    · obtain ⟨hextends, hallocated, he⟩ := hx.error (opened_allocated hs) hu
      obtain ⟨hst, hta, hlog⟩ := undone hs hextends hallocated.log hundone
      exact ⟨hst, hta, herror t e hst.metas.mono (he.of_log hlog)⟩
  constructor
  · intro b t _ hst
    obtain ⟨r, u, hu, ht⟩ := bind_eq_ok.1 hst
    obtain ⟨hsu, hua, hf⟩ := hrun hu
    exact ⟨hsu.trans (hf.ok hua ht).1, (hf.ok hua ht).2⟩
  · intro e t _ hst
    rcases bind_eq_error.1 hst with hu | ⟨r, u, hu, ht⟩
    · exact absurd hu transaction_ne_error
    · obtain ⟨hsu, hua, hf⟩ := hrun hu
      exact ⟨hsu.trans (hf.error hua ht).1, (hf.error hua ht).2⟩

/-- An attempt allocates when its body does in the opened state, and quietly so. -/
theorem attempt {x : Action (Option α)}
    (hx : Allocates old True s.opened x fun t r => ∀ a ∈ r, Q t a) :
    Allocates old quiet s (attempt x) fun t r => ∀ a ∈ r, Q t a where
  ok := by
    intro r t hs hst
    cases r with
    | some a =>
      obtain ⟨u, hu, hkept⟩ := attempt_eq_ok_some.1 hst
      obtain ⟨hextends, hallocated, ha⟩ := hx.ok (opened_allocated hs) hu
      obtain ⟨hst, hta, hcurrent⟩ := kept hextends hallocated hkept
      exact ⟨hst, hta, hcurrent ▸ ha⟩
    | none =>
      obtain ⟨u, hu, hundone⟩ := attempt_eq_ok_none.1 hst
      have hreturned : s.opened.Extends True u ∧ u.Allocated old := by
        rcases hu with hu | ⟨e, -, hu⟩
        · exact ⟨(hx.ok (opened_allocated hs) hu).1, (hx.ok (opened_allocated hs) hu).2.1⟩
        · exact ⟨(hx.error (opened_allocated hs) hu).1, (hx.error (opened_allocated hs) hu).2.1⟩
      obtain ⟨hst, hta, -⟩ := undone hs hreturned.1 hreturned.2.log hundone
      exact ⟨hst, hta, fun _ h => nomatch h⟩
  error := by
    intro e t hs hst
    obtain ⟨-, u, hu, hundone⟩ := attempt_eq_error.1 hst
    obtain ⟨hextends, hallocated, he⟩ := hx.error (opened_allocated hs) hu
    obtain ⟨hst, hta, hlog⟩ := undone hs hextends hallocated.log hundone
    exact ⟨hst, hta, he.of_log hlog⟩

end Allocates

end Action

end Elaborator
