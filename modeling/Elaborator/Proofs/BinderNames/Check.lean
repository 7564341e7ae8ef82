import Elaborator.Proofs.BinderNames.Unify
import Elaborator.Proofs.Discipline.Check

/-! # Elaboration keeps to the names of binders

A binder of an elaborated term is written in the surface term, or it is taken from a type: a
function without annotation may get the name of the type's binder, an implicit function is put
around a term under the name of the type's binder, and so is a motive that is left out. So names are
a discipline of elaboration, too (`Discipline.binderNames_laws`). -/

namespace Elaborator

open Elaborator.Action

/-! ## Contexts -/

structure Globals.BindersIn (P : Name → Prop) (g : Globals) : Prop where
  env : g.env.BindersIn P
  types : ∀ e ∈ g.map.entries, e.2.ty.BindersIn P

namespace Local.BindersIn

variable {P : Name → Prop} {scope : Local}

theorem empty {g : Globals} (hg : g.BindersIn P) : (Local.empty g).BindersIn P :=
  ⟨hg.env, List.forall_mem_nil _⟩

theorem enterType (h : scope.BindersIn P) : scope.enterType.BindersIn P := ⟨h.env, h.types⟩

theorem enterIf (h : scope.BindersIn P) (erased : Bool) : (scope.enterIf erased).BindersIn P := by
  cases erased with
  | false => exact h
  | true => exact h.enterType

theorem bind (h : scope.BindersIn P) {ty : Val} (hty : ty.BindersIn P) {x : Name}
    {erased inserted : Bool} : (scope.bind x ty erased inserted).BindersIn P :=
  ⟨h.env.push Val.bindersIn_var, List.forall_mem_cons.2 ⟨hty, h.types⟩⟩

theorem define (h : scope.BindersIn P) {ty v : Val} (hty : ty.BindersIn P)
    (hv : v.BindersIn P) {x : Name} {erased : Bool} : (scope.define x ty erased v).BindersIn P :=
  ⟨h.env.push hv, List.forall_mem_cons.2 ⟨hty, h.types⟩⟩

end Local.BindersIn

def TypedBindersIn (P : Name → Prop) (r : Term × Val) : Prop := r.1.BindersIn P ∧ r.2.BindersIn P

/-! ## The discipline -/

section

variable {P : Name → Prop}

/-- A hole keeps the binder names of its scope and its type. -/
theorem elaborateHole_stays {scope : Local} (hs : scope.BindersIn P) {ty : Val}
    (hty : ty.BindersIn P) {name : Option Name} {search : Bool} :
    Stays P (elaborateHole scope name search ty) (Term.BindersIn P) := by
  refine .bind (Stays.newMeta scope) fun term hterm => ?_
  cases name with
  | none => exact .pure hterm
  | some x =>
    refine .bind .get fun _ _ => .ite (fun _ => .refuse) fun _ => .bind .emitWith fun _ _ => ?_
    refine .bind (.modify fun s hw => ⟨hw.metas, ?_⟩) fun _ _ => .pure hterm
    exact List.forall_mem_append.2 ⟨hw.holes, List.forall_mem_singleton.2 ⟨hs, hty, hterm⟩⟩

/-- The elaborator keeps to names that the source binds and to the names it makes itself. -/
theorem Discipline.binderNames_laws (hown : ∀ x : Name, x.IsOwn → P x) {su : Setup}
    (hg : su.globals.BindersIn P) : (binderNames P).Laws su where
  toWorldLaws := binderNames_worlds
  toActionLaws := binderNames_actions
  toForceLaws := binderNames_forces
  toValLaws := .of_supports (Prim.bindersIn_supports hown)
  underscore := hown _ (by simp [Name.IsOwn])
  term_type := Term.bindersIn_type
  term_nat := Term.bindersIn_nat
  term_prim := Term.bindersIn_prim
  term_global := Term.bindersIn_global
  term_app hf hx := Term.bindersIn_app.2 ⟨hf, hx⟩
  term_bind hx hdom hbody := Term.bindersIn_bind.2 ⟨hx, hdom, hbody⟩
  term_pair ha hb hs := Term.bindersIn_pair.2 ⟨ha, hb, hs⟩
  term_proj hx := Term.bindersIn_proj.2 hx
  term_letIn hx hty hval hbody := Term.bindersIn_letIn.2 ⟨hx, hty, hval, hbody⟩
  term_elim hm hs hcs := Term.bindersIn_elim.2 ⟨hm, hs, hcs⟩
  scope_enterType hs := hs.enterType
  scope_bind hs hty := hs.bind hty
  scope_define hs hty hv := hs.define hty hv
  scope_defineFresh hs hty := hs.define hty Val.bindersIn_var
  scope_entry hs he := ⟨Term.bindersIn_var, hs.types _ (List.fst_mem_of_mem_zipIdx he)⟩
  eval hs ht := Stays.eval hs.env ht
  apply hc hx := Stays.apply hc hx
  quote _ hv _ := Stays.quote hv
  text _ _ := Stays.text
  motiveTy hq := Upholds.lift ((Prim.bindersIn_supports hown).motiveTy hq)
  signature hm hs hq := Upholds.lift ((Prim.bindersIn_supports hown).signature hm hs hq)
  note _ _ _ := Upholds.emitWith
  tryInstance := Upholds.emit
  foundInstance := Upholds.emit
  newMeta _ := Stays.newMeta _
  hole hs hty := elaborateHole_stays hs hty
  unify _ ha hb := unify_stays hown hg.env ha hb
  definition hd := hg.types _ (Globals.mem_of_find? hd)

/-- A binder of a term that is found, or of its type, is one of the surface term, the context or the
definitions. -/
theorem synth_stays (hown : ∀ x : Name, x.IsOwn → P x) {su : Setup} (hg : su.globals.BindersIn P)
    {scope : Local} (hs : scope.BindersIn P) {tm : Surface} (htm : tm.BindersIn P) {fuel : Nat} :
    Stays P (synth fuel su scope tm) (TypedBindersIn P) := by
  let L := fun l => l < scope.size
  show (Discipline.binderNames P).Runs False () (synth fuel su scope tm) fun u =>
    Discipline.TypedOk _ u L scope.size
  exact ((Discipline.binderNames_laws hown hg).checker_runs fuel).synth hs htm

/-- A search for instances brings in no binder name from outside. -/
theorem searchInstances_stays (hown : ∀ x : Name, x.IsOwn → P x) {su : Setup}
    (hg : su.globals.BindersIn P) {fuel : Nat} : Stays P (searchInstances fuel su) anything := by
  refine .bind .get fun _ hw => .forM fun h hh => ?_
  have hh := hw.holes h (List.mem_filter.1 hh).1
  let L := fun l => l < h.scope.size
  show (Discipline.binderNames P).Runs True () (fillHole fuel su h) fun _ _ => True
  exact (Discipline.binderNames_laws hown hg).fillHole_runs (L := L) hh.scope hh.ty hh.term

end

end Elaborator
