import Elaborator.Proofs.Run
import Elaborator.Proofs.Scope.Basic
import Elaborator.Verify

/-! # Verification in types and outside of them

A term that leaves no trace at run time may use erased variables, erased globals and erased
components of pairs. That is all the verifier asks the local context for when it looks whether it is
in a type: the switch only ever turns a refusal into an answer. So whatever the verifier accepts
outside of types it accepts in a type as well, and it finds the same type and leaves the same of the
term (`verify_inType`).

The two runs are compared part by part (`Action.AnsweredBy`). They go through the same states: each
of them enters types at the same places, from where on they are the same run. -/

namespace Elaborator

namespace Action

variable {α β : Type}

/-- Wherever the first action has an answer, the second one has the same answer and ends in the same
state. -/
structure AnsweredBy (x y : Action α) : Prop where
  run : ∀ {s a t}, x s = .ok a t → y s = .ok a t

namespace AnsweredBy

variable {x y : Action α}

theorem refl (x : Action α) : AnsweredBy x x := ⟨fun h => h⟩

/-- An action that only refuses promises nothing. -/
theorem refuse (e : Error) (y : Action α) : AnsweredBy (refuse e) y := ⟨fun h => by cases h⟩

theorem bind {f k : α → Action β} (h : AnsweredBy x y) (hf : ∀ a, AnsweredBy (f a) (k a)) :
    AnsweredBy (x >>= f) (y >>= k) := by
  constructor
  intro s b t hb
  obtain ⟨a, u, ha, hb⟩ := bind_eq_ok.1 hb
  exact bind_eq_ok.2 ⟨a, u, h.run ha, (hf a).run hb⟩

/-- What is done first is the same. -/
theorem after (x : Action α) {f k : α → Action β} (hf : ∀ a, AnsweredBy (f a) (k a)) :
    AnsweredBy (x >>= f) (x >>= k) :=
  (refl x).bind hf

theorem ite {p : Prop} [Decidable p] {x' y' : Action α} (h : AnsweredBy x y)
    (h' : AnsweredBy x' y') : AnsweredBy (if p then x else x') (if p then y else y') := by
  split
  · exact h
  · exact h'

/-- A check for erased parts refuses less if `inType` is set. -/
theorem unlessErased (erased inType : Bool) {e : Error} (h : AnsweredBy x y) :
    AnsweredBy (if erased && !inType then Action.refuse e else x)
      (if erased && !true then Action.refuse e else y) := by
  rw [Bool.not_true, Bool.and_false, if_neg Bool.false_ne_true]
  split
  · exact .refuse e y
  · exact h

end AnsweredBy

end Action

open Elaborator.Action

namespace Verify

variable {fuel : Nat} {g : Globals}

/-- In every context, what the verifier finds for the term it also finds if the context is in a
type. -/
def Relaxes (fuel : Nat) (g : Globals) (t : Term) : Prop :=
  ∀ scope : Local, AnsweredBy (infer fuel g scope t) (infer fuel g scope.enterType t)

/-- Comparisons do not ask whether they are in a type. -/
theorem convertible_enterIf (scope : Local) (erased : Bool) :
    convertible fuel g (scope.enterIf erased) = convertible fuel g scope := by
  cases erased <;> rfl

/-- A part that is erased or not is accepted in a type where it was accepted outside of one. -/
theorem Relaxes.enterIf {t : Term} (h : Relaxes fuel g t) (scope : Local) (erased : Bool) :
    AnsweredBy (infer fuel g (scope.enterIf erased) t)
      (infer fuel g (scope.enterType.enterIf erased) t) := by
  cases erased with
  | true => exact .refl _
  | false => exact h scope

/-- A variable that is allowed is allowed in a type. -/
theorem inferVar_relaxes (scope : Local) (i : Index) :
    AnsweredBy (inferVar scope i) (inferVar scope.enterType i) := by
  refine .after _ fun bound => ?_
  cases bound with
  | false => exact .refl _
  | true =>
    dsimp only [Local.enterType]
    cases scope.entries[i.toNat]? with
    | none => exact .refl _
    | some entry => exact .unlessErased _ _ (.refl _)

theorem inferGlobal_relaxes (scope : Local) (x : Name) :
    AnsweredBy (inferGlobal g scope x) (inferGlobal g scope.enterType x) := by
  unfold inferGlobal
  cases g.find? x with
  | none => exact .refl _
  | some d => exact .unlessErased _ _ (.refl _)

theorem inferCases_relaxes {ts : List Term} (hts : ∀ t ∈ ts, Relaxes fuel g t) (scope : Local)
    (tys : List Val) :
    AnsweredBy (inferCases fuel g scope ts tys) (inferCases fuel g scope.enterType ts tys) := by
  induction ts generalizing tys with
  | nil => exact .refl _
  | cons t ts ih =>
    obtain ⟨ht, hts⟩ := List.forall_mem_cons.1 hts
    cases tys with
    | nil => exact .refl _
    | cons ty tys =>
      rw [inferCases, inferCases]
      exact (ht scope).bind fun r => .after _ fun _ => (ih hts tys).bind fun _ => .refl _

/-- An application that is accepted is accepted in a type, when its parts are. -/
theorem infer_app_relaxes {f x : Term} {icit : Icit} (hf : Relaxes fuel g f)
    (hx : Relaxes fuel g x) : Relaxes fuel g (.app f icit x) := by
  intro scope
  rw [infer, infer]
  refine (hf scope).bind fun rf => .after _ fun v => ?_
  cases v with
  | closure c =>
    refine .ite ?_ (.refl _)
    simp only [convertible_enterIf]
    exact (hx.enterIf scope _).bind fun rx => .refl _
  | type | neutral | glued | pair | nat => exact .refl _

theorem infer_bind_relaxes {b : Binder} {dom body : Term} (hbody : Relaxes fuel g body) :
    Relaxes fuel g (.bind b dom body) := by
  intro scope
  rw [infer, infer]
  refine .after _ fun r => .after _ fun _ => .after _ fun vdom => ?_
  obtain ⟨kind, x, erased⟩ := b
  cases kind with
  | lam icit =>
    exact (hbody (scope.bind x vdom (erased || icit == .impl) false)).bind fun r => .refl _
  | pi | sigma => exact .refl _

theorem infer_pair_relaxes {a b sigma : Term} (ha : Relaxes fuel g a) (hb : Relaxes fuel g b) :
    Relaxes fuel g (.pair a b sigma) := by
  intro scope
  rw [infer, infer]
  refine .after _ fun r => .after _ fun _ => .after _ fun vs => .after _ fun v => ?_
  cases v with
  | closure c =>
    refine .ite ?_ (.refl _)
    simp only [convertible_enterIf]
    refine (ha.enterIf scope _).bind fun ra => .after _ fun _ => .after _ fun va =>
      .after _ fun expected => ?_
    exact (hb scope).bind fun rb => .refl _
  | type | neutral | glued | pair | nat => exact .refl _

theorem infer_proj_relaxes {x : Term} {p : Proj} (hx : Relaxes fuel g x) :
    Relaxes fuel g (.proj x p) := by
  intro scope
  rw [infer, infer]
  refine (hx scope).bind fun r => .after _ fun v => ?_
  cases v with
  | closure c =>
    refine .ite ?_ (.refl _)
    cases p with
    | fst => exact .unlessErased _ _ (.refl _)
    | snd => exact .refl _
  | type | neutral | glued | pair | nat => exact .refl _

theorem infer_letIn_relaxes {x : Name} {erased : Bool} {ty val body : Term}
    (hval : Relaxes fuel g val) (hbody : Relaxes fuel g body) :
    Relaxes fuel g (.letIn x erased ty val body) := by
  intro scope
  rw [infer, infer]
  refine .after _ fun r => .after _ fun _ => .after _ fun vty => ?_
  simp only [convertible_enterIf]
  refine (hval.enterIf scope erased).bind fun rval => .after _ fun _ => .after _ fun v => ?_
  exact (hbody (scope.define x vty erased v)).bind fun rbody => .refl _

/-- An eliminator that is accepted is accepted in a type, when its scrutinee and its cases are. -/
theorem infer_elim_relaxes {e : Eliminator} {motive scrut : Term} {cs : List Term}
    (hs : Relaxes fuel g scrut) (hcs : ∀ c ∈ cs, Relaxes fuel g c) :
    Relaxes fuel g (.elim e motive scrut cs) := by
  intro scope
  rw [infer, infer]
  refine .ite (.refl _) ((hs scope).bind fun rs => ?_)
  -- Whatever the equation of the scrutinee is, the motive and the cases come next.
  have rest (q : Option Equation) :
      AnsweredBy
        (do
          let r ← infer fuel g scope.enterType motive
          convertible fuel g scope.enterType r.1 (← e.motiveTy q)
          let vmotive ← motive.eval fuel scope.env
          let vscrut ← scrut.eval fuel scope.env
          let sig ← e.signature fuel vmotive vscrut q
          let ecs ← inferCases fuel g scope cs sig.caseTys
          return (sig.result, eraseElim e rs.2 ecs))
        (do
          let r ← infer fuel g scope.enterType motive
          convertible fuel g scope.enterType r.1 (← e.motiveTy q)
          let vmotive ← motive.eval fuel scope.env
          let vscrut ← scrut.eval fuel scope.env
          let sig ← e.signature fuel vmotive vscrut q
          let ecs ← inferCases fuel g scope.enterType cs sig.caseTys
          return (sig.result, eraseElim e rs.2 ecs)) := by
    refine .after _ fun r => .after _ fun _ => .after _ fun _ => .after _ fun vmotive =>
      .after _ fun vscrut => ?_
    exact .after _ fun sig => (inferCases_relaxes hcs scope _).bind fun _ => .refl _
  cases e.scrutTy? with
  | some ty => exact .after (convertible fuel g scope rs.1 ty) fun _ => rest none
  | none =>
    refine .after (force fuel rs.1) fun v => ?_
    cases Equation.ofType? v with
    | some q => exact .after (convertible fuel g scope q.lhsTy q.rhsTy) fun _ => rest (some q)
    | none => exact .refl _

/-- The verifier finds in a type what it finds outside of types. -/
theorem infer_relaxes (t : Term) : Relaxes fuel g t := by
  induction t with
  | type | metavar | prim | nat =>
    intro scope
    rw [infer, infer]
    exact .refl _
  | var i =>
    intro scope
    rw [infer, infer]
    exact inferVar_relaxes scope i
  | global x =>
    intro scope
    rw [infer, infer]
    exact inferGlobal_relaxes scope x
  | app f icit x hf hx => exact infer_app_relaxes hf hx
  | bind b dom body _ hbody => exact infer_bind_relaxes hbody
  | pair a b sigma ha hb _ => exact infer_pair_relaxes ha hb
  | proj x p hx => exact infer_proj_relaxes hx
  | letIn x erased ty val body _ hval hbody => exact infer_letIn_relaxes hval hbody
  | elim e motive scrut cs _ hs hcs => exact infer_elim_relaxes hs hcs

end Verify

/-- **What is accepted at run time is accepted in types.** If the verifier accepts a term that may
not use erased globals, it accepts it where it may. It finds the same type, leaves the same of the
term and ends in the same state. -/
theorem verify_inType {fuel : Nat} {g : Globals} {t : Term} {s u : State} {ty : Val} {e : Erased}
    (h : verify fuel g false t s = .ok (ty, e) u) : verify fuel g true t s = .ok (ty, e) u :=
  (Verify.infer_relaxes t (Local.empty g)).run h

/-- In `\(x : Nat). let erased z : Nat = x in (\{A : Type}. \(y : A). y) {Nat} x` the erased
definition and the implicit argument are looked at in a type by both runs, and the other parts by
one of them only. -/
theorem verify_inType_mixed :
    let t : Term :=
  .bind ⟨.lam .expl, "x", false⟩ (.prim .nat) <| .letIn "z" true (.prim .nat) (.var ⟨0⟩) <|
      .app (.app (.bind ⟨.lam .impl, "A", false⟩ .type <|
        .bind ⟨.lam .expl, "y", false⟩ (.var ⟨0⟩) (.var ⟨0⟩)) .impl (.prim .nat)) .expl (.var ⟨1⟩)
    let e : Erased := .abs "x" <| .app (.abs "y" (.var 0)) (.var 0)
    ∃ ty u, verify 12 .empty false t .empty = .ok (ty, e) u ∧ verify 12 .empty true t .empty =
      .ok (ty, e) u := by
  intro t e
  have h : ∃ ty u, verify 12 .empty false t .empty = .ok (ty, e) u := ⟨_, _, rfl⟩
  obtain ⟨ty, u, h⟩ := h
  exact ⟨ty, u, h, verify_inType h⟩

end Elaborator
