import Elaborator.Proofs.BinderNames.Basic
import Elaborator.Proofs.Discipline.Unify
import Elaborator.Proofs.Renaming
import Elaborator.Proofs.Upholds

/-! # Unification keeps to the names of binders

`Action.Stays` is what is proved of every action: started in a state whose binders have names in
`P`, it ends in such a state, and its answer has a given property. Solutions are the only place
where unification makes binders, one for each parameter of the metavariable. So names are a
discipline of unification (`Discipline.binderNames`). -/

namespace Elaborator

/-! ## States -/

structure Problem.BindersIn (P : Name → Prop) (p : Problem) : Prop where
  lhs : p.lhs.BindersIn P
  rhs : p.rhs.BindersIn P

structure Knowledge.BindersIn (P : Name → Prop) (k : Knowledge) : Prop where
  solved : ∀ m v, k.cells.find? m = some (some v) → v.BindersIn P
  waiting : ∀ m ps, k.postponed.find? m = some ps → ∀ p ∈ ps, p.BindersIn P

/-- Every binder of the types and values of a context has a name in `P`. The names of its variables
do not matter: no binder is named after them. -/
structure Local.BindersIn (P : Name → Prop) (scope : Local) : Prop where
  env : scope.env.BindersIn P
  types : ∀ e ∈ scope.entries, e.ty.BindersIn P

structure Hole.BindersIn (P : Name → Prop) (h : Hole) : Prop where
  scope : h.scope.BindersIn P
  ty : h.ty.BindersIn P
  term : h.term.BindersIn P

/-- Every binder of what is known, or was known at the start of an open transaction, has a name in
`P`, and so have the binders of the holes. -/
abbrev State.BindersIn (P : Name → Prop) (s : State) : Prop :=
  s.Holds (Knowledge.BindersIn P) (Hole.BindersIn P)

namespace Knowledge.BindersIn

variable {P : Name → Prop} {k : Knowledge}

theorem empty : Knowledge.empty.BindersIn P :=
  ⟨fun _ _ hv => (nomatch hv), fun _ _ hps => (nomatch hps)⟩

/-- A cell is made or filled. -/
theorem cell (h : k.BindersIn P) (i : Nat) {o : Option Val} (ho : ∀ v ∈ o, v.BindersIn P) :
    Knowledge.BindersIn P { k with cells := k.cells.insert i o } := by
  refine ⟨fun m w hm => ?_, h.waiting⟩
  simp only [IdMap.find?_insert] at hm
  split at hm
  · exact ho w (by simpa using hm)
  · exact h.solved m w hm

/-- The problems that wait for a metavariable are over the names of the knowledge. -/
theorem waitingFor (h : k.BindersIn P) (i : Nat) :
    ∀ p ∈ (k.postponed.find? i).getD [], p.BindersIn P := by
  cases hw : k.postponed.find? i with
  | none => exact List.forall_mem_nil _
  | some waiting => exact h.waiting i waiting hw

theorem postpone (h : k.BindersIn P) {p : Problem} (hp : p.BindersIn P) (i : Nat) :
    Knowledge.BindersIn P
      { k with postponed := k.postponed.insert i ((k.postponed.find? i).getD [] ++ [p]) } := by
  refine ⟨h.solved, fun m ps hps => ?_⟩
  simp only [IdMap.find?_insert] at hps
  split at hps
  · cases hps
    exact List.forall_mem_append.2 ⟨h.waitingFor i, List.forall_mem_singleton.2 hp⟩
  · exact h.waiting m ps hps

theorem erase (h : k.BindersIn P) (i : Nat) :
    Knowledge.BindersIn P { k with postponed := k.postponed.erase i } := by
  refine ⟨h.solved, fun m ps hps => ?_⟩
  simp only [IdMap.find?_erase] at hps
  split at hps
  · cases hps
  · exact h.waiting m ps hps

end Knowledge.BindersIn

/-- The solutions of a store are what is known now. -/
theorem MetaStore.Always.solvedBindersIn {P : Name → Prop} {ms : MetaStore}
    (h : ms.Always (Knowledge.BindersIn P)) : ms.SolvedBindersIn P :=
  fun m v hv => h.now.solved m.toNat v (Option.join_eq_some_iff.1 hv)

/-! ## Actions -/

namespace Action

variable {P : Name → Prop}

/-- From a state whose binders have names in `P`, the action goes to such a state, and its answer
has the property `Q`. -/
abbrev Stays {α : Type} (P : Name → Prop) (x : Action α) (Q : α → Prop) : Prop :=
  Upholds (State.BindersIn P) x Q

namespace Stays

theorem newMeta (scope : Local) : Stays P (newMeta scope) (Term.BindersIn P) := by
  refine .bind (.freshMeta fun k i hk => hk.cell i ?_) fun m _ =>
    .pure (scope.bindersIn_applyMeta m)
  exact fun _ h => nomatch h

theorem setMeta {m : MetaId} {v : Val} (hv : v.BindersIn P) : Stays P (setMeta m v) anything :=
  Upholds.setMeta fun _ hk => hk.cell m.toNat (by simpa using hv)

theorem postpone {m : MetaId} {p : Problem} (hp : p.BindersIn P) :
    Stays P (postpone m p) anything :=
  Upholds.postpone fun _ hk => hk.postpone hp m.toNat

theorem takePostponed (m : MetaId) :
    Stays P (takePostponed m) (fun ps => ∀ p ∈ ps, p.BindersIn P) := by
  refine (Upholds.takePostponed fun _ hk => hk.erase m.toNat).imp ?_
  rintro ps ⟨k, hk, rfl⟩
  exact hk.waitingFor m.toNat

/-! ### Values under the current solutions -/

variable {fuel : Nat} {v : Val}

theorem forceMeta (hv : v.BindersIn P) : Stays P (forceMeta fuel v) (Val.BindersIn P) :=
  .bind .metas fun _ hms => .lift fun _ => Val.forceMeta_bindersIn hms.solvedBindersIn hv

theorem force (hv : v.BindersIn P) : Stays P (force fuel v) (Val.BindersIn P) :=
  .bind .metas fun _ hms => .lift fun _ => Val.force_bindersIn hms.solvedBindersIn hv

theorem quote {n : Nat} (hv : v.BindersIn P) : Stays P (quote fuel n v) (Term.BindersIn P) :=
  .bind .metas fun _ hms => .lift fun _ => Val.quote_bindersIn hms.solvedBindersIn hv

theorem text {scope : Local} : Stays P (text fuel scope v) anything :=
  .bind .metas fun _ _ => .lift fun _ _ => trivial

theorem eval {env : Env} {t : Term} (henv : env.BindersIn P) (ht : t.BindersIn P) :
    Stays P (t.eval fuel env) (Val.BindersIn P) :=
  .lift fun _ => Term.eval_bindersIn henv ht

theorem apply {c : Closure} {x : Val} (hc : (Val.closure c).BindersIn P) (hx : x.BindersIn P) :
    Stays P (c.apply fuel x) (Val.BindersIn P) :=
  .lift fun _ => Closure.apply_bindersIn hc hx

theorem enter {c : Closure} {n : Nat} (hc : (Val.closure c).BindersIn P) :
    Stays P (c.enter fuel n) (Val.BindersIn P) :=
  .lift fun _ => Closure.enter_bindersIn hc

theorem eliminate {e : Elim} (hv : v.BindersIn P) (he : ∀ u ∈ e.vals, u.BindersIn P) :
    Stays P (v.eliminate fuel e) (Val.BindersIn P) :=
  .lift fun _ => Val.eliminate_bindersIn hv he

end Stays

end Action

/-! ## Solutions -/

section

variable {P : Name → Prop}

/-- A term that is moved into the scope of parameters keeps its binders. -/
theorem Term.rename_binders {m : MetaId} {params : List Level} {size depth : Nat} {t u : Term}
    (h : t.rename m params size depth = .ok u) : u.binders = t.binders := by
  replace h := renamedTo_of_rename h
  induction h with
  | type | global | prim | nat | metavar | bound | param => rfl
  | app _ _ hf hx => simp only [binders, hf, hx]
  | bind _ _ hdom hbody => simp only [binders, hdom, hbody]
  | pair _ _ _ ha hb hs => simp only [binders, ha, hb, hs]
  | proj _ hx => simp only [binders, hx]
  | letIn _ _ _ hty hval hbody => simp only [binders, hty, hval, hbody]
  | elim _ _ length _ hc hs hcs =>
    have hcases := map_eq_map_of_getElem? length hcs
    simp only [binders, bindersAll_eq, List.flatMap_def, hc, hs, hcases]

/-- The binders of a solution's parameters have names that the elaborator makes. -/
theorem Term.abstract_bindersIn (hown : ∀ x : Name, x.IsOwn → P x)
    {params : List Param} {body : Term} (hbody : body.BindersIn P) :
    (Term.abstract params body).BindersIn P := by
  induction params with
  | nil => exact hbody
  | cons p ps ih => exact bindersIn_bind.2 ⟨hown _ (.inr ⟨_, rfl⟩), bindersIn_type, ih⟩

open Elaborator.Action

variable (hown : ∀ x : Name, x.IsOwn → P x) {g : Globals} (hg : g.env.BindersIn P) {fuel : Nat}

include hown hg in
/-- A solution takes its binder names from the right-hand side and from the parameters it abstracts.
-/
theorem solution_stays {size : Nat} {rhs : Val} (hrhs : rhs.BindersIn P) {m : MetaId}
    {params : List Param} : Stays P (solution fuel g size m params rhs) (Val.BindersIn P) := by
  refine .bind (Stays.quote hrhs) fun body hbody => ?_
  split
  · exact .throw
  · next u hu =>
    have hu' : u.BindersIn P := by rwa [Term.BindersIn, Term.rename_binders hu]
    exact .bind .emit fun _ _ => Stays.eval hg (Term.abstract_bindersIn hown hu')

end

/-! ## The discipline -/

open Action

abbrev Discipline.binderNames (P : Name → Prop) : Discipline where
  World := Unit
  Later _ _ := True
  Runs _ _ x Q := Stays P x (Q ())
  Reads _ x Q := Stays P x Q
  NameOk := P
  ValOk _ _ := Val.BindersIn P
  TermOk _ _ := Term.BindersIn P
  ScopeOk _ _ := Local.BindersIn P

section

variable {P : Name → Prop}

theorem Discipline.binderNames_worlds : (binderNames P).WorldLaws where
  refl _ := trivial
  trans _ _ := trivial
  val_later _ hv := hv
  term_later _ ht := ht
  scope_later _ hs := hs

theorem Discipline.binderNames_actions : (binderNames P).ActionLaws where
  pure := Upholds.pure
  bind hx hf := Upholds.bind hx fun a ha => hf () a trivial ha
  read hx hf := Upholds.bind hx hf
  outOfFuel := Upholds.throw
  refuse _ := Upholds.refuse
  mapError _ hx := Upholds.mapError _ hx
  transaction hx hok hsoft hhard := by
    refine Upholds.bind (Upholds.transaction hx) fun r hr => ?_
    cases r with
    | ok a => exact hok () a trivial (hr a rfl)
    | error e =>
      cases he : e.isSoft with
      | true => exact hsoft () e trivial he
      | false =>
        rw [hhard e he]
        exact Upholds.refuse
  attempt hx := Upholds.attempt hx

theorem Discipline.binderNames_forces : (binderNames P).ForceLaws where
  val_prim := Val.bindersIn_prim
  val_closure hc := ⟨(Val.bindersIn_closure.1 hc).1, (Val.bindersIn_closure.1 hc).2.1⟩
  enter hc := Stays.enter hc
  force hv := Stays.force hv

variable (hown : ∀ x : Name, x.IsOwn → P x) {g : Globals} (hg : g.env.BindersIn P) {fuel : Nat}

include hown hg

/-- The unifier brings in no binder name from outside. -/
theorem Discipline.binderNames_unify : (binderNames P).UnifyLaws g where
  toWorldLaws := binderNames_worlds
  toActionLaws := binderNames_actions
  toForceLaws := binderNames_forces
  val_nat := Val.bindersIn_nat
  val_fresh _ := Val.bindersIn_var
  val_weaken _ hv := hv
  val_pair h := ⟨(Val.bindersIn_pair.1 h).1, (Val.bindersIn_pair.1 h).2.1⟩
  val_spine h := Val.bindersIn_neutral.1 h
  val_gluedSpine h := (Val.bindersIn_glued.1 h).2
  val_metavar _ hsp := Val.bindersIn_neutral.2 hsp
  forceMeta hv := (Stays.forceMeta hv).imp fun _ h => ⟨h, fun _ _ _ _ => trivial⟩
  solvable_bool _ := trivial
  eliminate hv he := Stays.eliminate hv he
  readBack hv := (Stays.quote hv).imp fun _ _ => trivial
  params _ := Upholds.bind .metas fun _ _ => .lift fun _ _ => trivial
  metas := Upholds.metas.imp fun _ _ => trivial
  noteUnify _ _ := Upholds.emitWith.imp fun _ _ _ _ h => h
  noteSolve _ _ := Upholds.emitWith
  noteRoutine _ := Upholds.emit
  postpone hlhs hrhs := Stays.postpone ⟨hlhs, hrhs⟩
  takePostponed := (Stays.takePostponed _).imp fun _ hps p hp => ⟨(hps p hp).lhs, (hps p hp).rhs⟩
  assign _ _ hrhs := Upholds.bind (solution_stays hown hg hrhs) fun _ hv => Stays.setMeta hv

/-- Unifying two values over names of `P` leaves every solution over such names. -/
theorem unify_stays {mode : Mode} {size : Nat} {a b : Val} (ha : a.BindersIn P)
    (hb : b.BindersIn P) : Stays P (unify fuel mode g size a b) anything := by
  have hunify : (Discipline.binderNames P).Runs True () (unify fuel mode g size a b)
      fun _ _ => True := ((Discipline.binderNames_unify hown hg).unifier_runs fuel).unify ha hb
  exact hunify

/-- Retrying every postponed problem leaves every solution over names of `P`. -/
theorem retryAll_stays : Stays P (retryAll fuel g) anything := by
  have hretry : (Discipline.binderNames P).Runs True () (retryAll fuel g) fun _ _ => True :=
    (Discipline.binderNames_unify hown hg).retryAll_runs
  exact hretry

end

end Elaborator
