import Elaborator.Proofs.Replay.Snapshots
import Elaborator.Proofs.Scope.Check
import Elaborator.Verify

/-! # What the verifier finds

The verifier has one rule for each form of a term. The lemmas below are these rules: from what the
verifier finds for the parts follows what it finds for the whole (`Verify.Finds`), with whatever
fuel and in whatever state it is run. A part that has to have a certain type only has to have one
that is equal to it (`Verify.Fits`). -/

namespace Elaborator

open Elaborator.Action

/-- The variable that a name means is an entry of the context. -/
theorem Local.Within.entry_lookup {B : Bounds} {L : Nat → Prop} {scope : Local}
    (hs : scope.Within B L) {x : Name} {i : Index} {e : Entry} (hx : scope.lookup x = some (i, e)) :
    scope.entries[i.toNat]? = some e ∧ i.toNat < scope.size := by
  refine ⟨?_, Term.within_var.1 (hs.lookup hx).1⟩
  obtain ⟨⟨e', j⟩, hfind, heq⟩ := Option.map_eq_some_iff.1 hx
  cases heq
  exact List.mem_zipIdx_iff_getElem?.1 (List.mem_of_find?_eq_some hfind)

/-! ## What the verifier finds -/

section

variable {L : Nat → Prop} {v w : Val} {fuel : Nat}

/-- A value that was forced once is forced to the same result in any state. -/
theorem Action.Accepts.force (hv : v.Within .normal L) {ms : MetaStore}
    (h : v.force fuel ms = .ok w) (fuel' : Nat) : Accepts (force fuel' v) (· = w) :=
  Accepts.metas.bind fun ms' _ => .lift fun u hu => Val.force_twice hv fuel fuel' ms ms' w u h hu

/-- A value that was read back once reads back to the same term in any state. -/
theorem Action.Accepts.quote (hv : v.Within .normal L) {ms : MetaStore} {n : Nat} {t : Term}
    (h : v.quote fuel ms false n = .ok t) (fuel' : Nat) : Accepts (quote fuel' n v) (· = t) :=
  Accepts.metas.bind fun _ _ => .lift fun _ hu =>
    (hv.widen Bounds.normal_le_noMetas).quote_unique hu h

theorem Action.Accepts.eval {env : Env} {t : Term} (h : t.eval fuel env = .ok v) (fuel' : Nat) :
    Accepts (liftM (t.eval fuel' env)) (· = v) :=
  .lift fun w hw => Term.eval_twice fuel fuel' env t v w h hw

theorem Action.Accepts.apply {c : Closure} {x : Val} (h : c.apply fuel x = .ok v) (fuel' : Nat) :
    Accepts (liftM (c.apply fuel' x)) (· = v) :=
  .lift fun w hw => Closure.apply_twice fuel fuel' c x v w h hw

/-- The universe is equal to what computes to it. -/
theorem Matches.type {g : Globals} {ty : Val} {ms : MetaStore} (hty : ty.Within .normal L)
    (hforce : ty.force fuel ms = .ok .type) : Matches g L .type ty := by
  -- An unfolded definition ends up here too, with less fuel.
  have hself : ∀ n fuel, Accepts (unify fuel .rigid g n .type .type) anything := by
    intro n fuel
    cases fuel with
    | zero => exact .fault _
    | succ fuel =>
      rw [unify]
      refine (Accepts.forceMeta rfl fuel).bind fun a ha =>
        (Accepts.forceMeta rfl fuel).bind fun b hb => ?_
      rw [ha, hb]
      exact (Accepts.emitWith _).bind fun _ _ => .pure trivial
  intro n hn fuel'
  cases ty with
  | type => exact hself n fuel'
  | glued x sp base =>
    cases fuel' with
    | zero => exact .fault _
    | succ fuel' =>
      rw [unify]
      refine (Accepts.forceMeta rfl fuel').bind fun a ha =>
        (Accepts.forceMeta rfl fuel').bind fun b hb => ?_
      rw [ha, hb]
      refine (Accepts.emitWith _).bind fun _ _ => (Accepts.force hty hforce fuel').bind
        fun w hw => ?_
      rw [hw]
      exact hself n fuel'
  | neutral | closure | pair | nat => cases Val.force_settled hty.isMeta_eq (by simp) hforce

/-- Values that match are found convertible. -/
theorem convertible_accepts {g : Globals} (h : Matches g L v w) {scope : Local}
    (hs : scope.Within .normal L) (fuel : Nat) : Accepts (convertible fuel g scope v w) anything :=
  (h scope.size hs.lt_size fuel).mapError _

end

/-- Whenever the verifier returns, it has found this type. -/
def Verify.Finds (g : Globals) (scope : Local) (t : Term) (ty : Val) : Prop :=
  ∀ fuel, Accepts (Verify.infer fuel g scope t) (fun r => r.1 = ty)

/-- Whenever the verifier returns, it has found a type that is equal to this one. -/
structure Verify.Fits (g : Globals) (L : Nat → Prop) (scope : Local) (t : Term) (ty : Val) :
    Prop where
  found : ∃ found, Matches g L found ty ∧ Verify.Finds g scope t found

/-- A part that the verifier compares with the type it has to have. -/
theorem Verify.Fits.accepts {α : Type} {g : Globals} {L : Nat → Prop}
    {scope : Local} {t : Term} {ty : Val} (h : Verify.Fits g L scope t ty)
    (hs : scope.Within .normal L) (fuel : Nat) {Q : α → Prop} {f : Val × Erased → Action α}
    (hf : ∀ r, Accepts (convertible fuel g scope r.1 ty) anything → Accepts (f r) Q) :
    Accepts (Verify.infer fuel g scope t >>= f) Q := by
  obtain ⟨found, hmatch, hfinds⟩ := h.found
  refine (hfinds fuel).bind fun r hr => hf r ?_
  rw [hr]
  exact convertible_accepts hmatch hs fuel

/-! ## Rules of the verifier -/

namespace Verify.Finds

variable {g : Globals} {L : Nat → Prop} {scope : Local} {fuel : Nat} {ms : MetaStore}

theorem type : Finds g scope .type .type := fun _ => .pure rfl

theorem nat (n : Nat) : Finds g scope (.nat n) (.prim .nat) := fun _ => .pure rfl

theorem prim (p : Prim) : Finds g scope (.prim p) p.type := fun _ => .pure rfl

/-- The verifier finds the type of an application that the elaborator accepted. -/
theorem app {f x : Term} {icit : Icit} {fty v ty : Val} {c : Closure} (hs : scope.Within .normal L)
    (hf : Finds g scope f fty) (hfty : fty.Within .normal L)
    (hforce : fty.force fuel ms = .ok (.closure c)) (hkind : c.binder.kind = .pi icit)
    (hx : Fits g L (scope.enterIf (c.binder.erased || icit == .impl)) x c.dom)
    (hv : x.eval fuel scope.env = .ok v) (hty : c.apply fuel v = .ok ty) :
    Finds g scope (.app f icit x) ty := by
  intro fuel'
  have hruntime : (!(!c.binder.erased && icit == .expl)) = (c.binder.erased || icit == .impl) := by
    cases c.binder.erased <;> cases icit <;> rfl
  rw [Verify.infer]
  refine (hf fuel').bind fun r hr => ?_
  obtain ⟨found, ef⟩ := r
  cases hr
  refine (Accepts.force hfty hforce fuel').bind fun w hw => ?_
  rw [hw]
  dsimp only
  rw [if_pos hkind, hruntime]
  refine hx.accepts (hs.enterIf _) fuel' fun r hr => hr.bind fun _ _ => ?_
  refine (Accepts.eval hv fuel').bind fun w hw => ?_
  rw [hw]
  refine (Accepts.apply hty fuel').bind fun w hw => .pure hw

/-- The verifier finds the type of a function that the elaborator accepted. -/
theorem lam {dom body tbty : Term} {icit : Icit} {erased : Bool} {x : Name} {vdom bty pi : Val}
    {K : Nat → Prop} (hs : scope.Within .normal L) (hdom : Fits g L scope.enterType dom .type)
    (hvdom : dom.eval fuel scope.env = .ok vdom)
    (hbody : Finds g (scope.bind x vdom (erased || icit == .impl) false) body bty)
    (hbty : bty.Within .normal K)
    (htbty : bty.quote fuel ms false (scope.bind x vdom (erased || icit == .impl) false).size =
      .ok tbty) (hpi : (Term.bind ⟨.pi icit, x, erased⟩ dom tbty).eval fuel scope.env = .ok pi) :
    Finds g scope (.bind ⟨.lam icit, x, erased⟩ dom body) pi := by
  intro fuel'
  rw [Verify.infer]
  refine hdom.accepts hs.enterType fuel' fun r hr => hr.bind fun _ _ => ?_
  refine (Accepts.eval hvdom fuel').bind fun w hw => ?_
  rw [hw]
  refine (hbody fuel').bind fun r hr => ?_
  obtain ⟨found, eb⟩ := r
  cases hr
  refine (Accepts.quote hbty htbty fuel').bind fun w hw => ?_
  rw [hw]
  exact (Accepts.eval hpi fuel').bind fun w hw => .pure hw

/-- A function type or a pair type. -/
theorem binderType {dom body : Term} {b : Binder} {vdom : Val} (hs : scope.Within .normal L)
    (hb : b.kind.isLam = false) (hdom : Fits g L scope.enterType dom .type)
    (hvdom : dom.eval fuel scope.env = .ok vdom) (hvdomWithin : vdom.Within .normal L)
    (hbody : Fits g (fun l => L l ∨ l = scope.size)
      (scope.enterType.bind b.name vdom false false) body .type) :
    Finds g scope (.bind b dom body) .type := by
  intro fuel'
  rw [Verify.infer]
  refine hdom.accepts hs.enterType fuel' fun r hr => hr.bind fun _ _ => ?_
  refine (Accepts.eval hvdom fuel').bind fun w hw => ?_
  rw [hw]
  have hinner := hs.enterType.bind hvdomWithin b.name false false
  split
  · next icit hkind =>
    rw [hkind] at hb
    cases hb
  · exact hbody.accepts hinner fuel' fun r hr => hr.bind fun _ _ => .pure rfl

/-- The verifier finds the type of a local definition that the elaborator accepted. -/
theorem letIn {ty val body : Term} {x : Name} {erased : Bool} {vty v bty : Val}
    (hs : scope.Within .normal L) (hty : Fits g L scope.enterType ty .type)
    (hvty : ty.eval fuel scope.env = .ok vty) (hval : Fits g L (scope.enterIf erased) val vty)
    (hv : val.eval fuel scope.env = .ok v)
    (hbody : Finds g (scope.define x vty erased v) body bty) :
    Finds g scope (.letIn x erased ty val body) bty := by
  intro fuel'
  rw [Verify.infer]
  refine hty.accepts hs.enterType fuel' fun r hr => hr.bind fun _ _ => ?_
  refine (Accepts.eval hvty fuel').bind fun w hw => ?_
  rw [hw]
  refine hval.accepts (hs.enterIf erased) fuel' fun r hr => hr.bind fun _ _ => ?_
  refine (Accepts.eval hv fuel').bind fun w hw => ?_
  rw [hw]
  refine (hbody fuel').bind fun r hr => ?_
  obtain ⟨found, eb⟩ := r
  exact .pure hr

theorem fst {x : Term} {xty : Val} {c : Closure} (hx : Finds g scope x xty)
    (hxty : xty.Within .normal L) (hforce : xty.force fuel ms = .ok (.closure c))
    (hkind : c.binder.kind = .sigma) (herased : (c.binder.erased && !scope.inType) = false) :
    Finds g scope (.proj x .fst) c.dom := by
  intro fuel'
  rw [Verify.infer]
  refine (hx fuel').bind fun r hr => ?_
  obtain ⟨found, ex⟩ := r
  cases hr
  refine (Accepts.force hxty hforce fuel').bind fun w hw => ?_
  rw [hw]
  dsimp only
  rw [if_pos hkind, herased]
  exact .pure rfl

/-- The verifier finds the type of a second component, which mentions the first one. -/
theorem snd {x : Term} {xty v ty : Val} {c : Closure} (hx : Finds g scope x xty)
    (hxty : xty.Within .normal L) (hforce : xty.force fuel ms = .ok (.closure c))
    (hkind : c.binder.kind = .sigma) (hv : (Term.proj x .fst).eval fuel scope.env = .ok v)
    (hty : c.apply fuel v = .ok ty) : Finds g scope (.proj x .snd) ty := by
  intro fuel'
  rw [Verify.infer]
  refine (hx fuel').bind fun r hr => ?_
  obtain ⟨found, ex⟩ := r
  cases hr
  refine (Accepts.force hxty hforce fuel').bind fun w hw => ?_
  rw [hw]
  dsimp only
  rw [if_pos hkind]
  refine (Accepts.eval hv fuel').bind fun w hw => ?_
  rw [hw]
  exact (Accepts.apply hty fuel').bind fun w hw => .pure hw

/-- The verifier finds the type of a variable where the mode allows it. -/
theorem var {x : Name} {i : Index} {e : Entry} (hs : scope.Within .normal L)
    (hx : scope.lookup x = some (i, e)) (herased : (e.erased && !scope.inType) = false) :
    Finds g scope (.var i) e.ty := by
  intro fuel'
  obtain ⟨hentry, hi⟩ := hs.entry_lookup hx
  rw [Verify.infer, Verify.inferVar]
  refine (Accepts.lift fun _ hb => hb).bind fun bound hbound => ?_
  obtain ⟨-, rfl⟩ := inScope_eq_ok_iff.1 hbound
  rw [hentry, decide_eq_true (Nat.succ_le_of_lt hi)]
  dsimp only
  rw [herased]
  cases e.erased with
  | true => exact .pure rfl
  | false => exact .pure rfl

theorem global {x : Name} {d : Definition} (hx : g.find? x = some d)
    (herased : (d.erased && !scope.inType) = false) : Finds g scope (.global x) d.ty := by
  intro fuel'
  rw [Verify.infer, Verify.inferGlobal, hx]
  dsimp only
  rw [herased]
  exact .pure rfl

end Verify.Finds

/-- The scrutinee has the type that the eliminator asks for, or it proves an equation between values
of one type. -/
inductive Verify.Scrutinee (g : Globals) (L : Nat → Prop) (scope : Local) (e : Eliminator)
    (scrut : Term) : Option Equation → Prop
  | plain {ty : Val} (scrutTy : e.scrutTy? = some ty) (fits : Verify.Fits g L scope scrut ty) :
      Scrutinee g L scope e scrut none
  | equation {ty v : Val} {q : Equation} {fuel : Nat} {ms : MetaStore} (scrutTy : e.scrutTy? = none)
      (finds : Verify.Finds g scope scrut ty) (within : ty.Within .normal L)
      (force : ty.force fuel ms = .ok v) (states : Equation.ofType? v = some q)
      (sides : Matches g L q.lhsTy q.rhsTy) :
      Scrutinee g L scope e scrut (some q)

section

variable {g : Globals} {L : Nat → Prop} {scope : Local} (hs : scope.Within .normal L)

include hs

/-- Cases that fit their types one by one are accepted together. -/
theorem Verify.inferCases_accepts {cases : List Term} {tys : List Val}
    (h : ∀ p ∈ cases.zip tys, Verify.Fits g L scope p.1 p.2) (fuel : Nat) :
    Accepts (Verify.inferCases fuel g scope cases tys) anything := by
  induction cases generalizing tys with
  | nil =>
    rw [Verify.inferCases]
    · exact .pure trivial
    · exact fun _ _ _ _ h => nomatch h
  | cons t ts ih =>
    cases tys with
    | nil =>
      rw [Verify.inferCases]
      · exact .pure trivial
      · exact fun _ _ _ _ _ h => nomatch h
    | cons ty tys =>
      obtain ⟨ht, hts⟩ := List.forall_mem_cons.1 h
      rw [Verify.inferCases]
      refine ht.accepts hs fuel fun r hr => hr.bind fun _ _ => ?_
      exact (ih hts).bind fun _ _ => .pure trivial

/-- The verifier finds the type of an eliminator whose scrutinee, motive and cases fit. -/
theorem Verify.Finds.elim {e : Eliminator} {motive scrut : Term} {cases : List Term}
    {q : Option Equation} {motiveTy vmotive vscrut : Val} {sig : Signature} {fuel : Nat}
    (hlength : cases.length = e.numCases) (hscrut : Verify.Scrutinee g L scope e scrut q)
    (hmotiveTy : e.motiveTy q = .ok motiveTy)
    (hmotive : Verify.Fits g L scope.enterType motive motiveTy)
    (hvmotive : motive.eval fuel scope.env = .ok vmotive)
    (hvscrut : scrut.eval fuel scope.env = .ok vscrut)
    (hsig : e.signature fuel vmotive vscrut q = .ok sig)
    (hcases : ∀ p ∈ cases.zip sig.caseTys, Verify.Fits g L scope p.1 p.2) :
    Verify.Finds g scope (.elim e motive scrut cases) sig.result := by
  intro fuel'
  rw [Verify.infer, if_neg (not_not.2 hlength)]
  rcases hscrut with ⟨hty, hfits⟩ | ⟨hty, hfinds, hwithin, hforce, hq, hsides⟩
  -- Once the equation is known, if there is one, the rest is the same for all eliminators.
  on_goal 1 =>
    refine hfits.accepts hs fuel' fun r hr => ?_
    rw [hty]
    refine hr.bind fun _ _ => (Accepts.pure (Q := (· = none)) rfl).bind fun _ hq' => ?_
  on_goal 2 =>
    refine (hfinds fuel').bind fun r hr => ?_
    obtain ⟨found, es⟩ := r
    cases hr
    rw [hty]
    refine (Accepts.force hwithin hforce fuel').bind fun w hw => ?_
    rw [hw, hq]
    refine (convertible_accepts hsides hs fuel').bind fun _ _ => ?_
    refine (Accepts.pure (Q := (· = some _)) rfl).bind fun _ hq' => ?_
  all_goals
    rw [hq']
    refine hmotive.accepts hs.enterType fuel' fun r hr => ?_
    refine (Accepts.lift fun _ h => h).bind fun w hw => ?_
    obtain rfl := Except.ok.inj (hmotiveTy.symm.trans hw)
    refine hr.bind fun _ _ => (Accepts.eval hvmotive fuel').bind fun w hw => ?_
    rw [hw]
    refine (Accepts.eval hvscrut fuel').bind fun w hw => ?_
    rw [hw]
    refine (Accepts.lift fun _ h => h).bind fun w hw => ?_
    obtain rfl := e.signature_twice fuel fuel' vmotive vscrut _ sig w hsig hw
    exact (Verify.inferCases_accepts hs hcases fuel').bind fun _ _ => .pure rfl

end

end Elaborator
