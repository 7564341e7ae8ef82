import Elaborator.Proofs.Discipline.Check
import Elaborator.Proofs.Scope.Unify

/-! # Elaboration stays in scope

Both directions of elaboration, and the search for instances, keep the state in bounds. A term that
is found in a context is scoped at its size, and its type mentions only levels of the context. So
scopes are a discipline of elaboration, too (`Discipline.scopes_laws`). -/

namespace Elaborator

open Elaborator.Action

section

variable {B : Bounds} {old : List Event} {L : Nat → Prop} {scope : Local}

/-- A hole is elaborated to a term of its scope. -/
theorem elaborateHole_safe (hB : ∀ m, B.metas m) (hs : scope.Within B L) {ty : Val}
    (hty : ty.Within B L) (name : Option Name) (search : Bool) :
    Safe B (Hole.Within B) old (elaborateHole scope name search ty) (Term.Within B scope.size) := by
  refine .bind (.newMeta hB hs) fun term hterm => ?_
  cases name with
  | none => exact .pure hterm
  | some x =>
    refine .bind .get fun _ _ => .ite (fun _ => .refuse _) fun _ => ?_
    refine .bind (.emitWith fun ms hms => .of_describe fun fuel => ?_) fun _ _ => ?_
    · exact (Event.Shown.scopeText hms hs hty fuel).bind fun _ _ => .pure trivial
    · refine .bind (.modify fun s hw => ⟨hw.metas, ?_, hw.log⟩) fun _ _ => .pure hterm
      exact List.forall_mem_append.2 ⟨hw.holes, List.forall_mem_singleton.2 ⟨⟨L, hs, hty⟩, hterm⟩⟩

/-- What is noted about a type of a context can be shown. -/
theorem Event.Concerns.shown {ty : Val} {e : MetaStore → Event} (h : Event.Concerns scope ty e)
    (hs : scope.Within B L) (hty : ty.Within B L) {ms : MetaStore} (hms : ms.Within B) :
    (e ms).Shown := by
  refine .of_describe fun fuel => ?_
  have htext := Event.Shown.scopeText hms hs hty fuel
  cases h with
  | check | apply | insertImplicits => exact htext.bind fun _ _ => .pure trivial
  | checkScope | synthScope =>
    exact (Local.describe_safely hms.solvedWithin hs fuel).bind fun _ _ => .pure trivial
  | synth term => exact (Term.text_safely _ _).bind fun _ _ => htext.bind fun _ _ => .pure trivial

/-- The elaborator keeps every value and term in the scope it is for. -/
theorem Discipline.scopes_laws (hB : ∀ m, B.metas m) {su : Setup} (hg : su.globals.Within B) :
    (scopes B old).Laws su where
  toWorldLaws := scopes_worlds
  toActionLaws := scopes_actions
  toForceLaws := scopes_forces
  toValLaws := .of_supports Prim.within_supports
  underscore := trivial
  term_type := Term.within_type
  term_nat := Term.within_nat
  term_prim := Term.within_prim
  term_global := Term.within_global
  term_app hf hx := Term.within_app.2 ⟨hf, hx⟩
  term_bind _ hdom hbody := Term.within_bind.2 ⟨hdom, hbody⟩
  term_pair ha hb hs := Term.within_pair.2 ⟨ha, hb, hs⟩
  term_proj hx := Term.within_proj.2 hx
  term_letIn _ hty hval hbody := Term.within_letIn.2 ⟨hty, hval, hbody⟩
  term_elim hm hs hcs := Term.within_elim.2 ⟨hm, hs, hcs⟩
  scope_enterType hs := hs.enterType
  scope_bind hs hty := hs.bind hty _ _ _
  scope_define hs hty hv := hs.define hty hv _ _
  scope_defineFresh hs hty := hs.defineFresh hty _ _
  scope_entry := by
    intro _ L scope e i hs he
    have hi : i < scope.entries.length := by simpa using List.snd_lt_of_mem_zipIdx he
    rw [hs.telescope.length_eq] at hi
    exact ⟨Term.within_var.2 hi, hs.telescope.types _ (List.fst_mem_of_mem_zipIdx he)⟩
  eval hs ht := Safe.lift (Term.eval_safely hs.env ht _)
  apply hc hx := Safe.lift (Closure.apply_safely hc hx _)
  quote hs hv hn := Safe.quote hv (fun l hl => Nat.lt_of_lt_of_le (hs.lt_size l hl) hn) _
  text hs hv := Safe.text hs hv _
  motiveTy hq := Safe.lift (Prim.within_supports.motiveTy hq)
  signature hm hs hq := Safe.lift (Prim.within_supports.signature hm hs hq)
  note hs hty he := Safe.emitWith fun _ hms => he.shown hs hty hms
  tryInstance :=
    Safe.emit (.of_describe fun _ => (Term.text_safely _ _).bind fun _ _ => .pure trivial)
  foundInstance :=
    Safe.emit (.of_describe fun _ => (Term.text_safely _ _).bind fun _ _ => .pure trivial)
  newMeta hs := Safe.newMeta hB hs
  hole hs hty := elaborateHole_safe hB hs hty _ _
  unify hs ha hb := unify_safe hg.env (hs.val ha) (hs.val hb) _ .solving
  definition hd := (hg.types _ (Globals.mem_of_find? hd)).of_closed

/-- A term that is found is in scope, and its type mentions only levels of the context. -/
theorem synth_safe (hB : ∀ m, B.metas m) {su : Setup} (hg : su.globals.Within B)
    (hs : scope.Within B L) (fuel : Nat) (tm : Surface) :
    Safe B (Hole.Within B) old (synth fuel su scope tm) fun r =>
      r.1.Within B scope.size ∧ r.2.Within B L := by
  show (Discipline.scopes B old).Runs False () (synth fuel su scope tm) fun u =>
    Discipline.TypedOk _ u L scope.size
  exact ((Discipline.scopes_laws hB hg).checker_runs fuel).synth hs fun _ _ => trivial

/-- A search for instances keeps within its bounds. -/
theorem searchInstances_safe (hB : ∀ m, B.metas m) {su : Setup} (hg : su.globals.Within B)
    (fuel : Nat) : Safe B (Hole.Within B) old (searchInstances fuel su) anything := by
  refine .bind .get fun _ hw => .forM fun h hh => ?_
  obtain ⟨⟨L, hs, hty⟩, hterm⟩ := hw.holes h (List.mem_filter.1 hh).1
  show (Discipline.scopes B old).Runs True () (fillHole fuel su h) fun _ _ => True
  exact (Discipline.scopes_laws hB hg).fillHole_runs hs hty hterm

end

end Elaborator
