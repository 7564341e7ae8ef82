import Elaborator.Proofs.Renumber.Check
import Elaborator.Verify

/-! # Verification at different numbers

The verifier makes no metavariables, so it does not matter which number is next. On a renumbered
term it finds the renumbered type, and what is left at run time is the same, because a metavariable
leaves nothing: it is refused. -/

namespace Elaborator

open Elaborator.Action

section

variable {d k : Nat} {g : Globals} (hg : g.MetaFree) {fuel : Nat}

include hg in
theorem convertible_tracks (fuel : Nat) (scope : Local) (a b : Val) :
    Tracks d k id (convertible fuel g scope a b)
      (convertible fuel g (scope.renumber d) (a.renumber d) (b.renumber d)) := by
  rw [convertible, convertible, Local.names_renumber, Local.size_renumber]
  exact .mapError (Error.withNames_renumber scope.names)
    (unify_tracks hg fuel .rigid scope.size a b)

namespace Verify

abbrev renumberFound (d : Nat) : Val × Erased → Val × Erased := Prod.map (Val.renumber d) id

/-- The verifier finds the renumbered type for the renumbered term, and the same is left. -/
def Renumbers (d k fuel : Nat) (g : Globals) (t : Term) : Prop :=
  ∀ scope : Local, Tracks d k (renumberFound d) (infer fuel g scope t)
    (infer fuel g (scope.renumber d) (t.renumber d))

/-- The runtime index of a variable does not depend on metavariables. -/
theorem runtimeIndex_renumber (scope : Local) (i : Index) :
    runtimeIndex (scope.renumber d) i = runtimeIndex scope i := by
  rw [runtimeIndex, runtimeIndex, Local.entries_renumber, ← List.map_take, List.filter_map,
    List.length_map]
  rfl

theorem inferVar_tracks (scope : Local) (i : Index) :
    Tracks d k (renumberFound d) (inferVar scope i) (inferVar (scope.renumber d) i) := by
  rw [inferVar, inferVar, Local.size_renumber, Local.entries_renumber, List.getElem?_map,
    runtimeIndex_renumber]
  refine Tracks.bind (f := id) (.lift (id_map _).symm) fun bound => ?_
  cases bound with
  | false => exact .refuse rfl
  | true =>
    cases scope.entries[i.toNat]? with
    | none => exact .refuse rfl
    | some entry => exact .ite (.refuse rfl) (.ite (.pure rfl) (.pure rfl))

include hg

theorem inferGlobal_tracks (scope : Local) (x : Name) :
    Tracks d k (renumberFound d) (inferGlobal g scope x) (inferGlobal g (scope.renumber d) x) := by
  rw [inferGlobal, inferGlobal]
  cases hx : g.find? x with
  | none => exact .refuse rfl
  | some e =>
    refine .ite (.refuse rfl) (.pure ?_)
    exact congrArg (Prod.mk · _) (hg.find?_ty_renumber d hx).symm

/-- Checking the cases of an eliminator tracks when checking each one does. -/
theorem inferCases_tracks {ts : List Term} (hts : ∀ t ∈ ts, Renumbers d k fuel g t) (scope : Local)
    (tys : List Val) : Tracks d k id (inferCases fuel g scope ts tys)
      (inferCases fuel g (scope.renumber d) (Term.renumberAll d ts)
        (tys.map (Val.renumber d))) := by
  induction ts generalizing tys with
  | nil => exact .pure rfl
  | cons t ts ih =>
    obtain ⟨ht, hts⟩ := List.forall_mem_cons.1 hts
    cases tys with
    | nil => exact .pure rfl
    | cons ty tys =>
      refine (ht scope).bind fun r => (convertible_tracks hg fuel scope r.1 ty).bind fun _ => ?_
      exact (ih hts tys).bind fun es => .pure rfl

theorem infer_app_renumbers {f x : Term} {icit : Icit} (hf : Renumbers d k fuel g f)
    (hx : Renumbers d k fuel g x) : Renumbers d k fuel g (.app f icit x) := by
  intro scope
  rw [Term.renumber, infer, infer]
  refine (hf scope).bind fun rf => (Tracks.force fuel rf.1).bind fun v => ?_
  cases v with
  | closure c =>
    rw [Val.renumber_closure]
    refine .ite ?_ (.ite (.refuseText (fun _ => rfl) fuel scope rf.1) ?_)
    · dsimp only
      rw [← Local.enterIf_renumber]
      refine (hx _).bind fun rx => (convertible_tracks hg fuel _ rx.1 c.dom).bind fun _ => ?_
      exact (Tracks.evalIn fuel scope x).bind fun v =>
        (Tracks.apply fuel c v).bind fun ty => .pure rfl
    · exact .refuseClosure (fun _ => rfl) fuel scope c
  | type | neutral | glued | pair | nat => exact .refuseText (fun _ => rfl) fuel scope _

theorem infer_bind_renumbers {b : Binder} {dom body : Term} (hdom : Renumbers d k fuel g dom)
    (hbody : Renumbers d k fuel g body) : Renumbers d k fuel g (.bind b dom body) := by
  intro scope
  rw [Term.renumber, infer, infer]
  simp only [← Local.enterType_renumber]
  refine (hdom scope.enterType).bind fun r =>
    (convertible_tracks hg fuel scope.enterType r.1 .type).bind fun _ => ?_
  refine (Tracks.evalIn fuel scope dom).bind fun vdom => ?_
  simp only [← Local.bind_renumber, Local.size_renumber]
  obtain ⟨kind, x, erased⟩ := b
  cases kind with
  | lam icit =>
    refine (hbody _).bind fun r => (Tracks.quote fuel _ r.1).bind fun bodyTy => ?_
    exact (Tracks.evalIn fuel scope (.bind ⟨.pi icit, x, erased⟩ dom bodyTy)).bind
      fun pi => .pure rfl
  | pi | sigma =>
    exact (hbody _).bind fun r => (convertible_tracks hg fuel _ r.1 .type).bind fun _ => .pure rfl

theorem infer_pair_renumbers {a b sigma : Term} (ha : Renumbers d k fuel g a)
    (hb : Renumbers d k fuel g b) (hs : Renumbers d k fuel g sigma) :
    Renumbers d k fuel g (.pair a b sigma) := by
  intro scope
  rw [Term.renumber, infer, infer]
  simp only [← Local.enterType_renumber]
  refine (hs scope.enterType).bind fun r =>
    (convertible_tracks hg fuel scope.enterType r.1 .type).bind fun _ => ?_
  refine (Tracks.evalIn fuel scope sigma).bind fun vs => (Tracks.force fuel vs).bind fun v => ?_
  cases v with
  | closure c =>
    rw [Val.renumber_closure]
    refine .ite ?_ (.refuseClosure (fun _ => rfl) fuel scope c)
    rw [← Local.enterIf_renumber]
    refine (ha _).bind fun ra => (convertible_tracks hg fuel _ ra.1 c.dom).bind fun _ => ?_
    refine (Tracks.evalIn fuel scope a).bind fun va =>
      (Tracks.apply fuel c va).bind fun expected => ?_
    exact (hb scope).bind fun rb => (convertible_tracks hg fuel scope rb.1 expected).bind
      fun _ => .pure rfl
  | type | neutral | glued | pair | nat => exact .refuseText (fun _ => rfl) fuel scope _

omit hg in
theorem infer_proj_renumbers {x : Term} {p : Proj} (hx : Renumbers d k fuel g x) :
    Renumbers d k fuel g (.proj x p) := by
  intro scope
  rw [Term.renumber, infer, infer]
  refine (hx scope).bind fun r => (Tracks.force fuel r.1).bind fun v => ?_
  cases v with
  | closure c =>
    rw [Val.renumber_closure]
    refine .ite ?_ (.refuseClosure (fun _ => rfl) fuel scope c)
    cases p with
    | fst => exact .ite (.refuse rfl) (.pure rfl)
    | snd =>
      refine (Tracks.evalIn fuel scope (.proj x .fst)).bind fun fst => ?_
      exact (Tracks.apply fuel c fst).bind fun ty => .pure rfl
  | type | neutral | glued | pair | nat => exact .refuseText (fun _ => rfl) fuel scope _

theorem infer_letIn_renumbers {x : Name} {erased : Bool} {ty val body : Term}
    (hty : Renumbers d k fuel g ty) (hval : Renumbers d k fuel g val)
    (hbody : Renumbers d k fuel g body) : Renumbers d k fuel g (.letIn x erased ty val body) := by
  intro scope
  rw [Term.renumber, infer, infer]
  simp only [← Local.enterType_renumber, ← Local.enterIf_renumber]
  refine (hty scope.enterType).bind fun r =>
    (convertible_tracks hg fuel scope.enterType r.1 .type).bind fun _ => ?_
  refine (Tracks.evalIn fuel scope ty).bind fun vty => (hval _).bind fun rv => ?_
  refine (convertible_tracks hg fuel _ rv.1 vty).bind fun _ =>
    (Tracks.evalIn fuel scope val).bind fun v => ?_
  exact (hbody (scope.define x vty erased v)).bind fun rb => .pure rfl

/-- What the verifier does with an elimination once it knows the equation of the scrutinee, if it is
one. -/
theorem inferMotive_tracks (e : Eliminator) {motive : Term} (scrut : Term) {cs : List Term}
    (hm : Renumbers d k fuel g motive) (hcs : ∀ t ∈ cs, Renumbers d k fuel g t)
    (scope : Local) (es : Erased) (q : Option Equation) :
    Tracks d k (renumberFound d)
      (do
        let found ← infer fuel g scope.enterType motive
        convertible fuel g scope.enterType found.1 (← e.motiveTy q)
        let vmotive ← motive.eval fuel scope.env
        let vscrut ← scrut.eval fuel scope.env
        let sig ← e.signature fuel vmotive vscrut q
        let ecs ← inferCases fuel g scope cs sig.caseTys
        return (sig.result, eraseElim e es ecs))
      (do
        let found ← infer fuel g (scope.renumber d).enterType (motive.renumber d)
        convertible fuel g (scope.renumber d).enterType found.1
          (← e.motiveTy (q.map (Equation.renumber d)))
        let vmotive ← (motive.renumber d).eval fuel (scope.renumber d).env
        let vscrut ← (scrut.renumber d).eval fuel (scope.renumber d).env
        let sig ← e.signature fuel vmotive vscrut (q.map (Equation.renumber d))
        let ecs ← inferCases fuel g (scope.renumber d) (Term.renumberAll d cs) sig.caseTys
        return (sig.result, eraseElim e es ecs)) := by
  refine (hm scope.enterType).bind fun r => (Tracks.lift (e.motiveTy_renumber q)).bind
    fun motiveTy => ?_
  refine (convertible_tracks hg fuel scope.enterType r.1 motiveTy).bind fun _ => ?_
  refine (Tracks.evalIn fuel scope motive).bind fun vmotive => (Tracks.evalIn fuel scope scrut).bind
    fun vscrut => ?_
  refine (Tracks.lift (e.signature_renumber vmotive vscrut q)).bind fun sig => ?_
  exact (inferCases_tracks hg hcs scope sig.caseTys).bind fun es => .pure rfl

theorem infer_elim_renumbers {e : Eliminator} {motive scrut : Term} {cs : List Term}
    (hm : Renumbers d k fuel g motive) (hs : Renumbers d k fuel g scrut)
    (hcs : ∀ t ∈ cs, Renumbers d k fuel g t) : Renumbers d k fuel g (.elim e motive scrut cs) := by
  intro scope
  have hlength : (Term.renumberAll d cs).length = cs.length := by simp
  rw [Term.renumber, infer, infer, hlength]
  refine .ite (.refuse rfl) ((hs scope).bind fun rs => ?_)
  have hrest := inferMotive_tracks hg e scrut hm hcs scope rs.2
  cases he : e.scrutTy? with
  | some ty =>
    have hconv := convertible_tracks (d := d) (k := k) hg fuel scope rs.1 ty
    rw [e.scrutTy?_renumber he] at hconv
    exact hconv.bind fun _ => hrest none
  | none =>
    refine (Tracks.force fuel rs.1).bind fun v => ?_
    rw [Equation.ofType?_renumber]
    cases Equation.ofType? v with
    | some q =>
      exact (convertible_tracks hg fuel scope q.lhsTy q.rhsTy).bind fun _ => hrest (some q)
    | none =>
      refine (Tracks.text fuel scope rs.1).bind fun s => ?_
      exact InStep.bind (R := fun _ _ => False) (.refuse rfl) fun _ _ h => h.elim

/-- The verifier takes the same steps at other numbers. -/
theorem infer_renumbers (fuel : Nat) (t : Term) : Renumbers d k fuel g t := by
  induction t with
  | type => exact fun _ => .pure rfl
  | var i => exact fun scope => inferVar_tracks scope i
  | global x => exact fun scope => inferGlobal_tracks hg scope x
  | metavar m => exact fun _ => .refuse rfl
  | prim p => exact fun _ => .pure (congrArg (Prod.mk · _) p.type_renumber.symm)
  | nat n => exact fun _ => .pure rfl
  | app f icit x hf hx => exact infer_app_renumbers hg hf hx
  | bind b dom body hdom hbody => exact infer_bind_renumbers hg hdom hbody
  | pair a b sigma ha hb hs => exact infer_pair_renumbers hg ha hb hs
  | proj x p hx => exact infer_proj_renumbers hx
  | letIn x erased ty val body hty hval hbody => exact infer_letIn_renumbers hg hty hval hbody
  | elim e motive scrut cs hm hs hcs => exact infer_elim_renumbers hg hm hs hcs

end Verify

include hg

/-- Verifying a term without metavariables takes the same course in a renumbered state. -/
theorem verify_tracks (erased : Bool) {t : Term} (ht : t.metaOccurrences = []) :
    Tracks d k (Verify.renumberFound d) (verify fuel g erased t) (verify fuel g erased t) := by
  have hinfer := Verify.infer_renumbers (d := d) (k := k) hg fuel t ((Local.empty g).enterIf erased)
  rw [hg.enterIf_empty_renumber, Term.renumber_of_metaFree ht] at hinfer
  exact hinfer

theorem sameType_tracks (a : Val) {b : Val} (hb : b.Fixed) :
    Tracks d k id (sameType fuel g a b) (sameType fuel g (a.renumber d) b) := by
  have hconv := convertible_tracks (d := d) (k := k) hg fuel (Local.empty g) a b
  rw [hg.empty_renumber d, hb d] at hconv
  exact hconv

end

end Elaborator
