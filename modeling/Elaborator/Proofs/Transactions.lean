import Elaborator.Proofs.Discipline.Check
import Elaborator.Proofs.Discipline.Unify
import Elaborator.Proofs.Spines

/-! # Transaction discipline

Whatever an elaboration does to the metavariable store, it does in steps that keep the open
transactions as they are. Solving, postponing and taking a problem change only what is known now,
and every transaction that is opened is closed again on every way out: by `discard` after an answer,
by `pop` after an error.

A relation between stores that the single steps respect and that a bracketed transaction respects
(`MetaStore.Tracks`) is therefore respected by every action that is built from them. This file
proves that for an arbitrary relation, so that each property of stores needs only its own step
lemmas. For elaboration, such a relation is a discipline (`Discipline.stores`) that asks nothing of
values and terms.

Solving is a step of its own. Some relations respect it whatever the solution is
(`MetaStore.TracksFresh`), others only for the solutions that unification finds
(`MetaStore.TracksSolutions`). -/

namespace Elaborator

namespace MetaStore

/-- A relation between the stores before and after an action that every step of unification respects
except solving, and that a transaction respects if what runs inside it does. -/
structure Tracks (R : MetaStore → MetaStore → Prop) : Prop where
  refl : ∀ s, R s s
  trans : ∀ {s t u}, R s t → R t u → R s u
  postpone : ∀ s m p, R s (s.postpone m p)
  takePostponed : ∀ s m, R s (s.takePostponed m).2
  pop : ∀ {s t u}, R s.push t → t.pop = .ok u → R s u
  discard : ∀ {s t u}, R s.push t → t.discard = .ok u → R s u

/-- A relation that elaboration respects: it may make metavariables and solve them by anything. -/
structure TracksFresh (R : MetaStore → MetaStore → Prop) : Prop extends Tracks R where
  set : ∀ {s t m v}, s.set m v = .ok t → R s t
  fresh : ∀ s, R s s.fresh.2

/-- The value is a solution that unification finds for a metavariable: some right-hand side is read
back, moved into the scope of the parameters of the metavariable, and evaluated with the parameters
around it. -/
def Finds (g : Globals) (s : MetaStore) (m : MetaId) (v : Val) : Prop :=
  ∃ (fuel size : Nat) (params : List Param) (rhs : Val) (body moved : Term),
    rhs.quote fuel s false size = .ok body ∧
      body.rename m (params.map (·.level)).reverse size 0 = .ok moved ∧
      (Term.abstract params moved).eval fuel g.env = .ok v

structure TracksSolutions (g : Globals) (R : MetaStore → MetaStore → Prop) :
    Prop extends Tracks R where
  set : ∀ {s t m v}, s.Finds g m v → s.set m v = .ok t → R s t

/-- Where every solution is respected, those that unification finds are. -/
theorem TracksFresh.solutions {R : MetaStore → MetaStore → Prop} (hR : TracksFresh R)
    (g : Globals) : TracksSolutions g R where
  toTracks := hR.toTracks
  set _ h := hR.set h

end MetaStore

namespace Action

variable {α β : Type} {R : MetaStore → MetaStore → Prop}

/-- Wherever the action returns, the stores before and after it are related. -/
structure Keeps (R : MetaStore → MetaStore → Prop) (x : Action α) : Prop where
  related : ∀ {s t}, x.Returns s t → R s.metas t.metas

namespace Keeps

/-! ## Actions that leave the store alone -/

/-- An action that never changes the store keeps every reflexive relation. -/
theorem of_metas_eq (hR : MetaStore.Tracks R) {x : Action α}
    (h : ∀ s t, x.Returns s t → t.metas = s.metas) : Keeps R x := by
  constructor
  intro s t hst
  rw [h s t hst]
  exact hR.refl _

theorem pure (hR : MetaStore.Tracks R) (a : α) : Keeps R (pure a : Action α) := by
  refine of_metas_eq hR ?_
  intro s t h
  rw [returns_pure h]

theorem throw (hR : MetaStore.Tracks R) (e : Failure) : Keeps R (throw e : Action α) := by
  refine of_metas_eq hR ?_
  rintro s t (⟨a, h⟩ | ⟨d, h⟩)
  · cases h
  · cases h
    rfl

theorem refuse (hR : MetaStore.Tracks R) (e : Error) : Keeps R (refuse e : Action α) :=
  throw hR (.error e)

theorem lift (hR : MetaStore.Tracks R) (r : Except Fault α) : Keeps R (liftM r : Action α) := by
  refine of_metas_eq hR ?_
  rintro s t (⟨a, h⟩ | ⟨e, h⟩)
  · rw [(lift_eq_ok.1 h).2]
  · obtain ⟨f, -, he, -⟩ := lift_eq_error.1 h
    cases he

theorem metas (hR : MetaStore.Tracks R) : Keeps R metas := by
  refine of_metas_eq hR ?_
  rintro s t (⟨a, h⟩ | ⟨e, h⟩)
  · rw [(metas_eq_ok.1 h).2]
  · exact absurd h metas_ne_error

/-- Reading the state and writing anything but the store. -/
theorem modify (hR : MetaStore.Tracks R) {f : State → State} (hf : ∀ s, (f s).metas = s.metas) :
    Keeps R (modify f : Action PUnit) := by
  refine of_metas_eq hR ?_
  rintro s t (⟨a, h⟩ | ⟨e, h⟩)
  · cases h
    exact hf s
  · cases h

theorem get (hR : MetaStore.Tracks R) : Keeps R (get : Action State) := by
  refine of_metas_eq hR ?_
  rintro s t (⟨a, h⟩ | ⟨e, h⟩)
  · cases h
    rfl
  · cases h

theorem emit (hR : MetaStore.Tracks R) (e : Event) : Keeps R (emit e) :=
  modify hR fun _ => rfl

/-! ## Composed actions -/

/-- A sequence keeps a relation of stores when its first action does and the rest does on every
answer. -/
theorem bind (hR : MetaStore.Tracks R) {x : Action α} {f : α → Action β} (hx : Keeps R x)
    (hf : ∀ a, Keeps R (f a)) : Keeps R (x >>= f) := by
  constructor
  intro s t h
  rcases returns_bind.1 h with ⟨e, h⟩ | ⟨a, u, h, hu⟩
  · exact hx.related (.of_error h)
  · exact hR.trans (hx.related (.of_ok h)) ((hf a).related hu)

theorem mapError {x : Action α} (f : Error → Error) (hx : Keeps R x) : Keeps R (mapError f x) := by
  constructor
  intro s t h
  exact hx.related (returns_mapError.1 h)

theorem ite {p : Prop} [Decidable p] {x y : Action α} (hx : Keeps R x) (hy : Keeps R y) :
    Keeps R (if p then x else y) := by
  split
  · exact hx
  · exact hy

theorem forM (hR : MetaStore.Tracks R) {f : α → Action PUnit} (hf : ∀ a, Keeps R (f a))
    (l : List α) : Keeps R (l.forM f) := by
  induction l with
  | nil => exact pure hR _
  | cons a l ih => exact bind hR (hf a) fun _ => ih

theorem emitWith (hR : MetaStore.Tracks R) (e : MetaStore → Event) : Keeps R (emitWith e) :=
  bind hR (metas hR) fun _ => emit hR _

/-! ## Steps of the store -/

/-- Replacing the store by a related one. -/
theorem metas_setMetas {f : MetaStore → MetaStore} (hf : ∀ s, R s (f s)) :
    Keeps R (do setMetas (f (← Action.metas))) := by
  constructor
  intro s t h
  rcases returns_bind.1 h with ⟨e, h⟩ | ⟨ms, u, h, hu⟩
  · exact absurd h metas_ne_error
  · obtain ⟨rfl, rfl⟩ := metas_eq_ok.1 h
    rcases hu with ⟨a, hu⟩ | ⟨e, hu⟩
    · rw [← setMetas_eq_ok.1 hu]
      exact hf _
    · exact absurd hu setMetas_ne_error

theorem postpone (hR : MetaStore.Tracks R) (m : MetaId) (p : Problem) : Keeps R (postpone m p) :=
  bind hR (emit hR _) fun _ => metas_setMetas fun s => hR.postpone s m p

theorem takePostponed (hR : MetaStore.Tracks R) (m : MetaId) : Keeps R (takePostponed m) := by
  constructor
  intro s t h
  rcases returns_bind.1 h with ⟨e, h⟩ | ⟨ms, u, h, hu⟩
  · exact absurd h metas_ne_error
  · obtain ⟨rfl, rfl⟩ := metas_eq_ok.1 h
    rcases returns_bind.1 hu with ⟨e, hu⟩ | ⟨_, w, hw, hu⟩
    · exact absurd hu setMetas_ne_error
    · rw [returns_pure hu, ← setMetas_eq_ok.1 hw]
      exact hR.takePostponed _ m

/-- Making a metavariable keeps the relations that allow it. -/
theorem freshMeta (hR : MetaStore.TracksFresh R) : Keeps R freshMeta := by
  constructor
  intro s t h
  rcases returns_bind.1 h with ⟨e, h⟩ | ⟨ms, u, h, hu⟩
  · exact absurd h metas_ne_error
  · obtain ⟨rfl, rfl⟩ := metas_eq_ok.1 h
    rcases returns_bind.1 hu with ⟨e, hu⟩ | ⟨_, w, hw, hu⟩
    · exact absurd hu setMetas_ne_error
    · rw [returns_pure hu, ← setMetas_eq_ok.1 hw]
      exact hR.fresh _

theorem newMeta (hR : MetaStore.TracksFresh R) (scope : Local) : Keeps R (newMeta scope) :=
  bind hR.toTracks (freshMeta hR) fun _ => pure hR.toTracks _

/-! ## Transactions

Only between `push` and its partner are the snapshots not those of before, so the inside of a
transaction is looked at as a whole. -/

/-- A transaction keeps the relation, since going back to a saved knowledge does. -/
theorem transaction (hR : MetaStore.Tracks R) {x : Action α} (hx : Keeps R x) :
    Keeps R (transaction x) := by
  constructor
  rintro s t (⟨r, h⟩ | ⟨e, h⟩)
  · rcases transaction_eq_ok.1 h with ⟨a, u, -, hu, ms, hms, rfl⟩ | ⟨e, u, -, hu, ms, hms, rfl⟩
    · exact hR.discard (hx.related (.of_ok hu)) hms
    · exact hR.pop (hx.related (.of_error hu)) hms
  · exact absurd h transaction_ne_error

theorem attempt (hR : MetaStore.Tracks R) {x : Action (Option α)} (hx : Keeps R x) :
    Keeps R (attempt x) := by
  constructor
  rintro s t (⟨r, h⟩ | ⟨e, h⟩)
  · cases r with
    | some a =>
      obtain ⟨u, hu, ms, hms, rfl⟩ := attempt_eq_ok_some.1 h
      exact hR.discard (hx.related (.of_ok hu)) hms
    | none =>
      obtain ⟨u, hu | ⟨e, -, hu⟩, ms, hms, rfl⟩ := attempt_eq_ok_none.1 h
      · exact hR.pop (hx.related (.of_ok hu)) hms
      · exact hR.pop (hx.related (.of_error hu)) hms
  · obtain ⟨-, u, hu, ms, hms, rfl⟩ := attempt_eq_error.1 h
    exact hR.pop (hx.related (.of_error hu)) hms

/-! ## Values under the current solutions -/

theorem forceMeta (hR : MetaStore.Tracks R) (fuel : Nat) (v : Val) : Keeps R (forceMeta fuel v) :=
  bind hR (metas hR) fun _ => lift hR _

theorem force (hR : MetaStore.Tracks R) (fuel : Nat) (v : Val) : Keeps R (force fuel v) :=
  bind hR (metas hR) fun _ => lift hR _

theorem quote (hR : MetaStore.Tracks R) (fuel size : Nat) (v : Val) : Keeps R (quote fuel size v) :=
  bind hR (metas hR) fun _ => lift hR _

theorem text (hR : MetaStore.Tracks R) (fuel : Nat) (scope : Local) (v : Val) :
    Keeps R (text fuel scope v) :=
  bind hR (metas hR) fun _ => lift hR _

end Keeps

end Action

open Elaborator.Action

/-! ## The discipline -/

structure Action.KeepsWith {α : Type} (R : MetaStore → MetaStore → Prop) (x : Action α)
    (Q : α → Prop) : Prop
    extends Keeps R x where
  answer : ∀ {s a t}, x s = .ok a t → Q a

/-- Nothing is to be known of values and terms. -/
abbrev Discipline.stores (R : MetaStore → MetaStore → Prop) : Discipline where
  World := Unit
  Later _ _ := True
  Runs _ _ x Q := KeepsWith R x (Q ())
  Reads _ x P := KeepsWith R x P
  NameOk _ := True
  ValOk _ _ _ := True
  TermOk _ _ _ := True
  ScopeOk _ _ _ := True

namespace Action.KeepsWith

variable {α β : Type} {R : MetaStore → MetaStore → Prop} {x : Action α} {Q : α → Prop}

/-- Nothing has to be proved of the answers. -/
theorem of_keeps (hx : Keeps R x) (h : ∀ a, Q a) : KeepsWith R x Q := ⟨hx, fun _ => h _⟩

theorem bind (hR : MetaStore.Tracks R) {f : α → Action β} {P : β → Prop} (hx : KeepsWith R x Q)
    (hf : ∀ a, Q a → KeepsWith R (f a) P) : KeepsWith R (x >>= f) P where
  related := by
    intro s t h
    rcases returns_bind.1 h with ⟨e, h⟩ | ⟨a, u, h, hu⟩
    · exact hx.related (.of_error h)
    · exact hR.trans (hx.related (.of_ok h)) ((hf a (hx.answer h)).related hu)
  answer := by
    intro s b t h
    obtain ⟨a, u, ha, hb⟩ := bind_eq_ok.1 h
    exact (hf a (hx.answer ha)).answer hb

theorem transaction (hR : MetaStore.Tracks R) (hx : KeepsWith R x Q) :
    KeepsWith R (transaction x) fun r => ∀ a, r = .ok a → Q a where
  toKeeps := .transaction hR hx.toKeeps
  answer := by
    rintro s _ t h a rfl
    rcases transaction_eq_ok.1 h with ⟨b, u, hb, hu, -⟩ | ⟨e, u, he, -⟩
    · cases hb
      exact hx.answer hu
    · cases he

theorem attempt (hR : MetaStore.Tracks R) {x : Action (Option α)}
    (hx : KeepsWith R x fun r => ∀ a ∈ r, Q a) : KeepsWith R (attempt x) fun r => ∀ a ∈ r, Q a where
  toKeeps := .attempt hR hx.toKeeps
  answer := by
    rintro s _ t h a rfl
    obtain ⟨u, hu, -⟩ := attempt_eq_ok_some.1 h
    exact hx.answer hu a rfl

end Action.KeepsWith

section

variable {R : MetaStore → MetaStore → Prop}

/-- What runs in this discipline respects the relation. -/
theorem Action.keeps_of_runs {α : Type} {x : Action α} {Q : Unit → α → Prop} (quiet : Prop)
    (h : (Discipline.stores R).Runs quiet () x Q) : Keeps R x :=
  h.toKeeps

theorem Discipline.stores_worlds : (stores R).WorldLaws where
  refl _ := trivial
  trans _ _ := trivial
  val_later _ _ := trivial
  term_later _ _ := trivial
  scope_later _ _ := trivial

theorem Discipline.stores_actions (hR : MetaStore.Tracks R) : (stores R).ActionLaws where
  pure h := ⟨.pure hR _, fun hst => (pure_eq_ok.1 hst).1 ▸ h⟩
  bind hx hf := .bind hR hx fun a ha => hf () a trivial ha
  read hx hf := .bind hR hx hf
  outOfFuel := ⟨.throw hR _, nofun⟩
  refuse _ := ⟨.refuse hR _, nofun⟩
  mapError _ hx := ⟨.mapError _ hx.toKeeps, fun hst => hx.answer (mapError_eq_ok.1 hst)⟩
  transaction hx hok hsoft hhard := by
    refine .bind hR (.transaction hR hx) fun r hr => ?_
    cases r with
    | ok a => exact hok () a trivial (hr a rfl)
    | error e =>
      cases he : e.isSoft with
      | true => exact hsoft () e trivial he
      | false =>
        rw [hhard e he]
        exact ⟨.refuse hR _, nofun⟩
  attempt hx := .attempt hR hx

theorem Discipline.stores_forces (hR : MetaStore.Tracks R) : (stores R).ForceLaws where
  val_prim := trivial
  val_closure _ := ⟨trivial, trivial⟩
  enter _ := .of_keeps (.lift hR _) fun _ => trivial
  force _ := .of_keeps (.force hR ..) fun _ => trivial

end

/-! ## Unification -/

/-- A solution is found without a change of the store. -/
theorem solution_eq_ok {fuel : Nat} {g : Globals} {size : Nat} {m : MetaId}
    {params : List Param} {rhs v : Val} {s t : State}
    (h : solution fuel g size m params rhs s = .ok v t) :
    t.metas = s.metas ∧ s.metas.Finds g m v := by
  obtain ⟨body, u, hquote, h⟩ := bind_eq_ok.1 h
  obtain ⟨ms, u', hms, hquote⟩ := bind_eq_ok.1 hquote
  obtain ⟨rfl, rfl⟩ := metas_eq_ok.1 hms
  obtain ⟨hbody, rfl⟩ := lift_eq_ok.1 hquote
  cases hmoved : body.rename m (params.map (·.level)).reverse size 0 with
  | error e =>
    rw [hmoved] at h
    cases h
  | ok moved =>
    rw [hmoved] at h
    obtain ⟨⟨⟩, w, hw, h⟩ := bind_eq_ok.1 h
    obtain ⟨hv, rfl⟩ := lift_eq_ok.1 h
    refine ⟨?_, fuel, size, params, rhs, body, moved, hbody, hmoved, hv⟩
    cases hw
    rfl

section Unify

variable {R : MetaStore → MetaStore → Prop} (hR : MetaStore.Tracks R)

include hR

theorem mismatch_keeps (fuel size : Nat) (a b : Val) : Keeps R (mismatch fuel size a b) :=
  .bind hR (.quote hR ..) fun _ => .bind hR (.quote hR ..) fun _ => .refuse hR _

theorem unifySpines_keeps {unify : Val → Val → Action Unit} {differ : Action Unit}
    (hu : ∀ x y, Keeps R (unify x y)) (hd : Keeps R differ) (sa sb : Spine) :
    Keeps R (unifySpines unify differ sa sb) :=
  unifySpines_of (.pure hR ()) (fun hx hy => .bind hR hx fun _ => hy) hd fun x _ y _ => hu x y

/-- Building a solution leaves the store alone. -/
theorem solution_keeps (fuel : Nat) (g : Globals) (size : Nat) (m : MetaId) (params : List Param)
    (rhs : Val) : Keeps R (solution fuel g size m params rhs) := by
  refine .bind hR (.quote hR ..) fun body => ?_
  split
  · exact .throw hR _
  · exact .bind hR (.emit hR _) fun _ => .lift hR _

end Unify

section Solve

variable {R : MetaStore → MetaStore → Prop} {g : Globals} (hS : MetaStore.TracksSolutions g R)

include hS

/-- A solution is stored right after it was found, in the store that it was found for. -/
theorem solution_setMeta_keeps (fuel size : Nat) (m : MetaId) (params : List Param) (rhs : Val) :
    Keeps R (solution fuel g size m params rhs >>= setMeta m) := by
  constructor
  intro s t h
  rcases returns_bind.1 h with ⟨e, h⟩ | ⟨v, u, hv, h⟩
  · exact (solution_keeps hS.toTracks ..).related (.of_error h)
  · obtain ⟨hu, hfound⟩ := solution_eq_ok hv
    rcases (returns_setMeta h).1 with h | h
    · rw [h, hu]
      exact hS.refl _
    · rw [hu] at h
      exact hS.set hfound h

/-- The unifier keeps every relation of stores that its own changes keep. -/
theorem Discipline.stores_unify : (stores R).UnifyLaws g where
  toWorldLaws := stores_worlds
  toActionLaws := stores_actions hS.toTracks
  toForceLaws := stores_forces hS.toTracks
  val_nat := trivial
  val_fresh _ := trivial
  val_weaken _ _ := trivial
  val_pair _ := ⟨trivial, trivial⟩
  val_spine _ _ _ := trivial
  val_gluedSpine _ _ _ := trivial
  val_metavar _ _ := trivial
  forceMeta _ := .of_keeps (.forceMeta hS.toTracks ..) fun _ => ⟨trivial, fun _ _ _ _ => trivial⟩
  solvable_bool _ := trivial
  eliminate _ _ := .of_keeps (.lift hS.toTracks _) fun _ => trivial
  readBack _ := .of_keeps (.quote hS.toTracks ..) fun _ => trivial
  params _ := .of_keeps (.bind hS.toTracks (.metas hS.toTracks) fun _ => .lift hS.toTracks _)
    fun _ => trivial
  metas := .of_keeps (.metas hS.toTracks) fun _ => trivial
  noteUnify _ _ := .of_keeps (.emitWith hS.toTracks _) fun _ _ _ h => h
  noteSolve _ _ := .of_keeps (.emitWith hS.toTracks _) fun _ => trivial
  noteRoutine _ := .of_keeps (.emit hS.toTracks _) fun _ => trivial
  postpone _ _ := .of_keeps (.postpone hS.toTracks ..) fun _ => trivial
  takePostponed := .of_keeps (.takePostponed hS.toTracks _) fun _ _ _ => ⟨trivial, trivial⟩
  assign _ _ _ := .of_keeps (solution_setMeta_keeps hS ..) fun _ => trivial

/-- Unifying keeps the relation. -/
theorem unify_keeps (fuel : Nat) (mode : Mode) (size : Nat) (a b : Val) :
    Keeps R (unify fuel mode g size a b) :=
  keeps_of_runs True (((Discipline.stores_unify hS).unifier_runs fuel).unify trivial trivial)

/-- Solving keeps the relation. -/
theorem solve_keeps (fuel size : Nat) (m : MetaId) (sp : Spine) (rhs : Val) :
    Keeps R (solve fuel g size m sp rhs) :=
  keeps_of_runs True
    (((Discipline.stores_unify hS).unifier_runs fuel).solve trivial trivial trivial)

theorem retryFor_keeps (fuel : Nat) (m : MetaId) : Keeps R (retryFor fuel g m) :=
  keeps_of_runs True ((Discipline.stores_unify hS).unifier_runs fuel).retryFor

/-- Retrying every postponed problem keeps the relation. -/
theorem retryAll_keeps (fuel : Nat) : Keeps R (retryAll fuel g) :=
  keeps_of_runs True (Discipline.stores_unify hS).retryAll_runs

end Solve

/-! ## Elaboration -/

section

variable {R : MetaStore → MetaStore → Prop}

theorem elaborateHole_keeps (hR : MetaStore.TracksFresh R) (scope : Local) (name : Option Name)
    (search : Bool) (ty : Val) : Keeps R (elaborateHole scope name search ty) := by
  have hT := hR.toTracks
  refine .bind hT (.newMeta hR _) fun term => ?_
  cases name with
  | none => exact .pure hT _
  | some x =>
    refine .bind hT (.get hT) fun _ => .ite (.refuse hT _) ?_
    exact .bind hT (.emitWith hT _) fun _ => .bind hT (.modify hT fun _ => rfl) fun _ => .pure hT _

/-- The elaborator keeps every relation of stores that its own changes keep. -/
theorem Discipline.stores_laws (hR : MetaStore.TracksFresh R) (su : Setup) :
    (stores R).Laws su where
  toWorldLaws := stores_worlds
  toActionLaws := stores_actions hR.toTracks
  toForceLaws := stores_forces hR.toTracks
  val_type := trivial
  val_primType _ := trivial
  val_equation _ _ := ⟨trivial, trivial, trivial, trivial⟩
  val_equationType _ := trivial
  underscore := trivial
  term_type := trivial
  term_nat := trivial
  term_prim := trivial
  term_global := trivial
  term_app _ _ := trivial
  term_bind _ _ _ := trivial
  term_pair _ _ _ := trivial
  term_proj _ := trivial
  term_letIn _ _ _ _ := trivial
  term_elim _ _ _ := trivial
  scope_enterType _ := trivial
  scope_bind _ _ := trivial
  scope_define _ _ _ := trivial
  scope_defineFresh _ _ := trivial
  scope_entry _ _ := ⟨trivial, trivial⟩
  eval _ _ := .of_keeps (.lift hR.toTracks _) fun _ => trivial
  apply _ _ := .of_keeps (.lift hR.toTracks _) fun _ => trivial
  quote _ _ _ := .of_keeps (.quote hR.toTracks ..) fun _ => trivial
  text _ _ := .of_keeps (.text hR.toTracks ..) fun _ => trivial
  motiveTy _ := .of_keeps (.lift hR.toTracks _) fun _ => trivial
  signature _ _ _ := .of_keeps (.lift hR.toTracks _) fun _ => ⟨fun _ _ => trivial, trivial⟩
  note _ _ _ := .of_keeps (.emitWith hR.toTracks _) fun _ => trivial
  tryInstance := .of_keeps (.emit hR.toTracks _) fun _ => trivial
  foundInstance := .of_keeps (.emit hR.toTracks _) fun _ => trivial
  newMeta _ := .of_keeps (.newMeta hR _) fun _ => trivial
  hole _ _ := .of_keeps (elaborateHole_keeps hR ..) fun _ => trivial
  unify _ _ _ := .of_keeps (unify_keeps (hR.solutions _) ..) fun _ => trivial
  definition _ := trivial

end

structure Checker.Keeps (R : MetaStore → MetaStore → Prop) (k : Checker) : Prop where
  check : ∀ scope tm ty, Action.Keeps R (k.check scope tm ty)
  synth : ∀ scope tm, Action.Keeps R (k.synth scope tm)

theorem Checker.Keeps.checkerOk {R : MetaStore → MetaStore → Prop} {k : Checker} (hk : k.Keeps R) :
    (Discipline.stores R).CheckerOk k where
  check _ _ _ := .of_keeps (hk.check ..) fun _ => trivial
  synth _ _ := .of_keeps (hk.synth ..) fun _ => ⟨trivial, trivial⟩

section Elaborate

variable {R : MetaStore → MetaStore → Prop} (hR : MetaStore.TracksFresh R)

include hR

theorem unifyIn_keeps (fuel : Nat) (su : Setup) (scope : Local) (a b : Val) :
    Keeps R (unifyIn fuel su scope a b) :=
  .mapError _ (unify_keeps (hR.solutions _) ..)

theorem newMetaVal_keeps (fuel : Nat) (scope : Local) : Keeps R (newMetaVal fuel scope) :=
  .bind hR.toTracks (.newMeta hR scope) fun _ => .lift hR.toTracks _

theorem instantiate_keeps (fuel : Nat) (scope : Local) (ty : Val) :
    Keeps R (instantiate fuel scope ty) :=
  keeps_of_runs True <| (Discipline.stores_laws hR ⟨{}, .empty⟩).instantiate_runs
    (L := fun _ => True) trivial trivial

theorem subsume_keeps (fuel : Nat) (su : Setup) (scope : Local) (term : Term)
    (found expected : Val) : Keeps R (subsume fuel su scope term found expected) :=
  keeps_of_runs True <|
    (Discipline.stores_laws hR su).subsume_runs (L := fun _ => True) trivial trivial trivial trivial

theorem project_keeps (fuel : Nat) (scope : Local)
    (field : Field) (i : Nat) (term : Term) (ty : Val) :
    Keeps R (project fuel scope field i term ty) :=
  keeps_of_runs True <|
    (Discipline.stores_laws hR ⟨{}, .empty⟩).project_runs (L := fun _ => True) trivial
      trivial trivial

theorem scrutEquation_keeps (fuel : Nat) (su : Setup) (scope : Local) (ty : Val) :
    Keeps R (scrutEquation fuel su scope ty) :=
  keeps_of_runs True <| (Discipline.stores_laws hR su).scrutEquation_runs (L := fun _ => True)
    trivial trivial

section

variable {k : Checker} (hk : k.Keeps R)

include hk

theorem letBinding_keeps (fuel : Nat) (scope : Local) (erased : Bool) (ty : Option Surface)
    (val : Surface) : Keeps R (letBinding fuel k scope erased ty val) :=
  keeps_of_runs False <| (Discipline.stores_laws hR ⟨{}, .empty⟩).letBinding_runs hk.checkerOk
    (L := fun _ => True) trivial (fun _ _ _ _ => trivial) fun _ _ => trivial

theorem synthApp_keeps (fuel : Nat) (su : Setup)
    (scope : Local) (f : Term) (fty : Val) (icit : Icit) (x : Surface) :
    Keeps R (synthApp fuel su k scope f fty icit x) :=
  keeps_of_runs False <| (Discipline.stores_laws hR su).synthApp_runs hk.checkerOk
    (L := fun _ => True) trivial trivial trivial fun _ _ => trivial

theorem elaborateScrut_keeps (fuel : Nat) (su : Setup) (scope : Local) (e : Eliminator)
    (scrut : Surface) : Keeps R (elaborateScrut fuel su k scope e scrut) :=
  keeps_of_runs False <| (Discipline.stores_laws hR su).elaborateScrut_runs hk.checkerOk
    (L := fun _ => True) trivial fun _ _ => trivial

theorem checkAll_keeps (scope : Local) (tms : List Surface) (tys : List Val) :
    Keeps R (checkAll (k.check scope) tms tys) :=
  keeps_of_runs False <| (Discipline.stores_laws hR ⟨{}, .empty⟩).checkAll_runs hk.checkerOk
    (L := fun _ => True) trivial (fun _ _ _ _ => trivial) fun _ _ => trivial

end

/-- With any fuel, the two directions tied together keep the relation. -/
theorem checker_keeps (fuel : Nat) (su : Setup) :
    Checker.Keeps R ⟨check fuel su, synth fuel su⟩ := by
  have hchecker := (Discipline.stores_laws hR su).checker_runs fuel
  constructor
  · intro scope tm ty
    exact keeps_of_runs False
      (hchecker.check (L := fun _ => True) trivial (fun _ _ => trivial) trivial)
  · intro scope tm
    exact keeps_of_runs False (hchecker.synth (L := fun _ => True) trivial fun _ _ => trivial)

/-! ## Instance search -/

/-- Each way to use a candidate is an attempt, and what it attempts keeps the relation. -/
theorem tryDirect_isAttempt (fuel : Nat) (su : Setup) (scope : Local) (goal : Val) (c : Candidate) :
    ∃ x, Keeps R x ∧ tryDirect fuel su scope goal c = attempt x := by
  have hT := hR.toTracks
  exact ⟨_, .bind hT (unify_keeps (hR.solutions _) ..) fun _ => .pure hT _, rfl⟩

/-- Trying a candidate with its implicit arguments instantiated is an attempt. -/
theorem tryApplied_isAttempt (fuel : Nat) (su : Setup) (scope : Local) (goal : Val)
    (c : Candidate) : ∃ x, Keeps R x ∧ tryApplied fuel su scope goal c = attempt x := by
  have hT := hR.toTracks
  refine ⟨_, .bind hT (instantiate_keeps hR ..) fun _ => .ite (.pure hT _) ?_, rfl⟩
  exact .bind hT (unify_keeps (hR.solutions _) ..) fun _ => .pure hT _

/-- Trying a candidate as a function is an attempt. -/
theorem tryFunction_isAttempt (fuel : Nat) (su : Setup) {search : Val → Action (Option Term)}
    (hs : ∀ goal, Keeps R (search goal)) (scope : Local) (goal : Val) (c : Candidate) :
    ∃ x, Keeps R x ∧ tryFunction fuel su search scope goal c = attempt x := by
  have hT := hR.toTracks
  refine ⟨_, .bind hT (instantiate_keeps hR ..) fun _ => .bind hT (.force hT ..) fun v => ?_, rfl⟩
  split
  · refine .ite ?_ (.pure hT _)
    refine .bind hT (newMetaVal_keeps hR ..) fun _ => .bind hT (.lift hT _) fun _ => ?_
    refine .bind hT (unify_keeps (hR.solutions _) ..) fun _ => .bind hT (hs _) fun w => ?_
    cases w with
    | some w =>
      exact .bind hT (.lift hT _) fun _ => .bind hT (unify_keeps (hR.solutions _) ..)
        fun _ => .pure hT _
    | none => exact .pure hT _
  · exact .pure hT _

theorem tryDirect_keeps (fuel : Nat) (su : Setup) (scope : Local) (goal : Val) (c : Candidate) :
    Keeps R (tryDirect fuel su scope goal c) := by
  obtain ⟨x, hx, h⟩ := tryDirect_isAttempt hR fuel su scope goal c
  rw [h]
  exact .attempt hR.toTracks hx

theorem tryApplied_keeps (fuel : Nat) (su : Setup) (scope : Local) (goal : Val) (c : Candidate) :
    Keeps R (tryApplied fuel su scope goal c) := by
  obtain ⟨x, hx, h⟩ := tryApplied_isAttempt hR fuel su scope goal c
  rw [h]
  exact .attempt hR.toTracks hx

theorem tryFunction_keeps (fuel : Nat) (su : Setup) {search : Val → Action (Option Term)}
    (hs : ∀ goal, Keeps R (search goal)) (scope : Local) (goal : Val) (c : Candidate) :
    Keeps R (tryFunction fuel su search scope goal c) := by
  obtain ⟨x, hx, h⟩ := tryFunction_isAttempt hR fuel su hs scope goal c
  rw [h]
  exact .attempt hR.toTracks hx

theorem tryCandidate_keeps (fuel : Nat) (su : Setup) {search : Val → Action (Option Term)}
    (hs : ∀ goal, Keeps R (search goal)) (scope : Local) (goal : Val) (c : Candidate) :
    Keeps R (tryCandidate fuel su search scope goal c) := by
  have hT := hR.toTracks
  refine .bind hT (tryDirect_keeps hR ..) fun r => ?_
  cases r with
  | some t => exact .pure hT _
  | none =>
    refine .bind hT (tryApplied_keeps hR ..) fun r => ?_
    cases r with
    | some t => exact .pure hT _
    | none => exact tryFunction_keeps hR fuel su hs scope goal c

/-- The search for an instance keeps the relation. -/
theorem search_keeps (fuel : Nat) (su : Setup) (scope : Local) (depth : Nat) (goal : Val) :
    Keeps R (search fuel su scope depth goal) :=
  keeps_of_runs True <| (Discipline.stores_laws hR su).search_runs (L := fun _ => True)
    trivial trivial depth

/-- Searching for all instances keeps the relation. -/
theorem searchInstances_keeps (fuel : Nat) (su : Setup) : Keeps R (searchInstances fuel su) := by
  refine .bind hR.toTracks (.get hR.toTracks) fun _ => .forM hR.toTracks (fun hole => ?_) _
  exact keeps_of_runs True <|
    (Discipline.stores_laws hR su).fillHole_runs (L := fun _ => True) trivial trivial trivial

end Elaborate

end Elaborator
