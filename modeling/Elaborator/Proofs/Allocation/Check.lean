import Elaborator.Proofs.Allocation.Unify
import Elaborator.Proofs.Discipline.Check

/-! # Elaboration mentions what was made

Both directions of elaboration, and the search for instances, only ever put metavariables into terms
and types that they have just made or that were in a type before. So elaboration keeps to the
discipline of allocation, as unification does.

What is tried in a transaction meets no holes. So the holes of a term, which are filled last, still
mention metavariables that are there. -/

namespace Elaborator

open Elaborator.Action

/-! ## Contexts and types of primitives -/

section

variable {A : MetaId → Prop}

structure Globals.Among (A : MetaId → Prop) (g : Globals) : Prop where
  env : g.env.Among A
  types : ∀ e ∈ g.map.entries, e.2.ty.Among A

namespace Local.Among

variable {scope : Local}

theorem empty {g : Globals} (hg : g.Among A) : (Local.empty g).Among A :=
  ⟨hg.env, List.forall_mem_nil _⟩

theorem enterType (h : scope.Among A) : scope.enterType.Among A := ⟨h.env, h.types⟩

theorem enterIf (h : scope.Among A) (erased : Bool) : (scope.enterIf erased).Among A := by
  cases erased with
  | false => exact h
  | true => exact h.enterType

theorem define (h : scope.Among A) {ty v : Val} (hty : ty.Among A) (hv : v.Among A) (x : Name)
    (erased : Bool) : (scope.define x ty erased v).Among A :=
  ⟨h.env.push hv, List.forall_mem_cons.2 ⟨hty, h.types⟩⟩

theorem bind (h : scope.Among A) {ty : Val} (hty : ty.Among A) (x : Name) (erased inserted : Bool) :
    (scope.bind x ty erased inserted).Among A :=
  ⟨h.env.push Val.among_var, List.forall_mem_cons.2 ⟨hty, h.types⟩⟩

end Local.Among

/-- Types of primitives and signatures of eliminators mention no metavariable of their own. -/
theorem Prim.among_supports :
    Prim.Supports anything (fun _ => Term.Among A) (Val.Among A) Yields where
  name _ _ := trivial
  term_type := Term.among_type
  term_prim := Term.among_prim
  term_var _ := Term.among_var
  term_app hf hx := Term.among_app.2 ⟨hf, hx⟩
  term_pi _ hdom hbody := Term.among_bind.2 ⟨hdom, hbody⟩
  val_type := Val.among_type
  val_prim := Val.among_prim
  val_nat := Val.among_nat
  val_pi _ hdom hlocals hbody :=
    Val.among_closure.2 ⟨hdom, hlocals, fun _ _ _ h => (nomatch h), hbody⟩
  val_apps p args _ hargs := Val.among_neutral.2 ⟨nofun, Spine.forall_vals_apps.2 hargs⟩
  val_spine hv := (Val.among_neutral.1 hv).2
  ok h _ ha := Except.ok.inj ha ▸ h
  bind hr hk b hb := by
    obtain ⟨a, ha, hb⟩ := bind_ok hb
    exact hk a (hr a ha) b hb
  missingIndices _ h := nomatch h
  apply hv hx _ h := Val.apply_among hv hx h

end

/-! ## The discipline -/

def TypedAmong (A : MetaId → Prop) (r : Term × Val) : Prop := r.1.Among A ∧ r.2.Among A

section

variable {old : List Event} {quiet : Prop} {s : State} {su : Setup} {scope : Local}

/-- A hole stays with the metavariables of its context. -/
theorem elaborateHole_allocates (hs : scope.Among s.metas.Made) {ty : Val}
    (hty : ty.Among s.metas.Made) (name : Option Name) (search : Bool) :
    Allocates old False s (elaborateHole scope name search ty) fun t =>
      Term.Among t.metas.Made := by
  refine .bind (.newMeta scope) fun t term hst hterm => ?_
  cases name with
  | none => exact .pure hterm
  | some x =>
    refine .bindGet ?_
    show Allocates old False t (if _ then _ else _) _
    split
    · exact .reject _
    · refine .bindEmitWith
        (.bind (Q := fun t _ => term.Among t.metas.Made) ?_ fun _ _ _ h => .pure h)
      refine .of_step rfl ⟨.refl _, fun h hh => ?_⟩ fun hw => ⟨⟨hw.metas, hw.log⟩, hterm⟩
      rcases List.mem_append.1 hh with hh | hh
      · exact .inl hh
      · rw [List.mem_singleton.1 hh]
        exact .inr ⟨id, hs.mono hst, hty.mono hst, hterm⟩

theorem Discipline.allocation_reads : (allocation old).EvalLaws where
  eval hs ht _ _ := .lift fun _ hv => Term.eval_among hs.env ht hv
  apply hc hx _ _ := .lift fun _ hv => Closure.apply_among hc hx hv
  quote _ hv _ := by
    rintro s rfl
    exact .quote hv
  text _ _ _ _ := .look fun _ _ _ => trivial
  motiveTy hq _ _ := .lift (Prim.among_supports.motiveTy hq)
  signature hm hs hq _ _ := .lift (Prim.among_supports.signature hm hs hq)

/-- The elaborator allocates over global definitions that mention no metavariable. -/
theorem Discipline.allocation_laws (hg : su.globals.Among fun _ => False) :
    (allocation old).Laws su where
  toWorldLaws := allocation_worlds
  toActionLaws := allocation_actions
  toForceLaws := allocation_forces
  toEvalLaws := allocation_reads
  toValLaws := .of_supports Prim.among_supports
  underscore := trivial
  term_type := Term.among_type
  term_nat := Term.among_nat
  term_prim := Term.among_prim
  term_global := Term.among_global
  term_app hf hx := Term.among_app.2 ⟨hf, hx⟩
  term_bind _ hdom hbody := Term.among_bind.2 ⟨hdom, hbody⟩
  term_pair ha hb hs := Term.among_pair.2 ⟨ha, hb, hs⟩
  term_proj hx := Term.among_proj.2 hx
  term_letIn _ hty hval hbody := Term.among_letIn.2 ⟨hty, hval, hbody⟩
  term_elim hm hs hcs := Term.among_elim.2 ⟨hm, hs, hcs⟩
  scope_enterType hs := hs.enterType
  scope_bind hs hty := hs.bind hty _ _ _
  scope_define hs hty hv := hs.define hty hv _ _
  scope_defineFresh hs hty := hs.define hty Val.among_var _ _
  scope_entry hs he := ⟨Term.among_var, hs.types _ (List.fst_mem_of_mem_zipIdx he)⟩
  note _ _ _ _ _ := .emitWith fun _ => trivial
  tryInstance _ _ := .emit fun _ => trivial
  foundInstance _ _ := .emit fun _ => trivial
  newMeta _ _ _ := .newMeta _
  hole hs hty := by
    rintro s rfl
    exact elaborateHole_allocates (s := s) hs hty _ _
  unify _ ha hb := by
    rintro s rfl
    exact unify_allocates hg.env ha hb
  definition hd := (hg.types _ (Globals.mem_of_find? hd)).mono fun _ => False.elim

/-- A term that is found, and its type, mention only what was made. -/
theorem synth_allocates (hg : su.globals.Among fun _ => False)
    (hs : scope.Among s.metas.Made) (fuel : Nat) (tm : Surface) :
    Allocates old False s (synth fuel su scope tm) fun t => TypedAmong t.metas.Made := by
  let L := fun l => l < scope.size
  have hsynth : (Discipline.allocation old).Runs False s.current (synth fuel su scope tm)
      fun t => Discipline.TypedOk _ t L scope.size :=
    ((Discipline.allocation_laws hg).checker_runs fuel).synth hs fun _ _ => trivial
  exact hsynth s rfl

/-- A search for instances fills the holes with terms over made metavariables. -/
theorem searchInstances_allocates (hg : su.globals.Among fun _ => False)
    (hholes : ∀ h ∈ s.holes, h.Among s.metas.Made) (fuel : Nat) :
    Allocates old quiet s (searchInstances fuel su) whatever := by
  refine .bindGet (.forM fun h hh t hst => ?_)
  have hh := (hholes h (List.mem_filter.1 hh).1).mono hst
  let L := fun l => l < h.scope.size
  have hfill : (Discipline.allocation old).Runs quiet t.current (fillHole fuel su h) whatever :=
    (Discipline.allocation_laws hg).fillHole_runs (L := L) hh.scope hh.ty hh.term
  exact hfill t rfl

end

end Elaborator
