import Elaborator.Elaborate
import Elaborator.Proofs.Allocation.Check
import Elaborator.Proofs.Scope.Elaborate

/-! # Internal errors

The store refuses to solve a metavariable that was never made or that has a solution, with an
internal error. An elaboration starts with an empty store and mentions only what it has made, so the
first error does not come up. The second one does (`elaborate_solves_twice`), but there is only one
way to it (`internal_error_resolves`). -/

namespace Elaborator

open Elaborator.Action

section

variable {old : List Event} {quiet : Prop} {s : State}

/-- Definitions without metavariables are among whatever set of metavariables is asked for. -/
theorem Globals.Ground.among {g : Globals} (hg : g.Ground) (A : MetaId → Prop) : g.Among A := by
  refine ⟨⟨List.forall_mem_nil _, fun x v hv => ?_⟩, fun e he => (hg e he).2.among⟩
  obtain ⟨d, hd, rfl⟩ := Globals.global?_env hv
  exact (hg (x, d) (Globals.mem_of_find? hd)).1.among

/-- The last phase of elaborating allocates. -/
theorem finish_allocates (fuel : Nat) (scope : Local) (term : Term) {ty : Val}
    (hty : ty.Among s.metas.Made) : Allocates old quiet s (finish fuel scope term ty) whatever := by
  refine .bindMetas ?_
  show Allocates old quiet s (if _ then _ else _) _
  split
  · exact .reject _
  · refine .bindLift fun term _ => .bindQuote hty fun ty _ => ?_
    refine .bind (Q := whatever) (.bindGet (.lift fun _ _ => trivial)) fun t holes _ _ => ?_
    show Allocates old quiet t (if _ then _ else _) _
    split
    · exact .reject _
    · split
      · exact .reject _
      · exact .bindLift fun _ _ => .pure trivial

/-- An elaboration forgets the metavariables of the one before, so nothing is asked of the state it
starts in. -/
theorem elaborate_allocates {su : Setup} (hg : su.globals.Ground) (fuel : Nat) (erased : Bool)
    (tm : Surface) {e : Error} {t : State}
    (h : elaborate fuel su erased tm s = .error (.error e) t) : e.Excused s.log t := by
  have hgm := hg.among fun _ => False
  let start : State := { s with metas := s.metas.reset, holes := [] }
  have hstart : start.Allocated s.log := ⟨.reset _, List.suffix_refl _⟩
  have hscope : ((Local.empty su.globals).enterIf erased).Among start.metas.Made :=
    (Local.Among.empty (hg.among _)).enterIf erased
  suffices hrest : Allocates s.log False start (do
      let r ← synth fuel su ((Local.empty su.globals).enterIf erased) tm
      retryAll fuel su.globals
      searchInstances fuel su
      retryAll fuel su.globals
      finish fuel ((Local.empty su.globals).enterIf erased) r.1 r.2) whatever
        from (hrest.error hstart h).2.2
  refine .bindExtends (synth_allocates hgm hscope fuel tm) fun u r hsu hr => ?_
  have hholes := hsu.holesAmong (List.forall_mem_nil _)
  refine .bindExtends (retryAll_allocates hgm.env) fun w _ huw _ => ?_
  refine .bind (searchInstances_allocates hgm (huw.holesAmong hholes) fuel) fun y _ hwy _ => ?_
  refine .bind (retryAll_allocates hgm.env) fun z _ hyz _ => ?_
  exact finish_allocates fuel _ _ (hr.2.mono (huw.metas.mono.trans (hwy.trans hyz)))

end

/-- **Internal errors have one cause.** Let the definitions be closed and free of metavariables. An
internal error of an elaboration, or of unification from a store and two values that mention only
metavariables that were made, says that a metavariable was solved twice. It never says that one was
not made. And the metavariable was to be solved by `True` or `False`, which is how a stuck case
analysis is inverted, at a time when it already had a solution. -/
theorem internal_error_resolves (su : Setup) (hg : su.globals.Ground) (fuel : Nat) (s : State) :
    (∀ erased tm e t text, elaborate fuel su erased tm s = .error (.error e) t →
      e.inner = .internal text →
      ∃ m, text = "meta " ++ .metavar m ++ " solved twice" ∧ t.Resolves s.log m) ∧
    ∀ size a b e t text, s.metas.Allocated → a.Among s.metas.Made → b.Among s.metas.Made →
      unify fuel .solving su.globals size a b s = .error (.error e) t → e.inner = .internal text →
      ∃ m, text = "meta " ++ .metavar m ++ " solved twice" ∧ t.Resolves s.log m := by
  constructor
  · intro erased tm e t text hrun
    exact elaborate_allocates hg fuel erased tm hrun text
  · intro size a b e t text hms ha hb hrun
    have hunify : Allocates s.log True s (unify fuel .solving su.globals size a b) whatever :=
      unify_allocates (hg.among _).env ha hb
    exact (hunify.error ⟨hms, List.suffix_refl _⟩ hrun).2.2 text

/-- `elimBool (\_. Bool) ?0 ?0 False = True` is inverted: in the branch for `True`, `?0 = True` is
solved, and then `?0` is to be solved again. -/
theorem internal_error_resolves_inverted :
    ∃ s t : State, s = { State.empty with metas := MetaStore.empty.fresh.2 } ∧
      unify 9 .solving .empty 0
        (.neutral (.metavar ⟨0⟩)
          [.cases .bool (.closure ⟨⟨.lam .expl, "_", false⟩, .prim .bool, .empty, .prim .bool⟩)
          [.metavar ⟨0⟩, .prim .false]]) (.prim .true) s =
        .error (.error (.internal ("meta " ++ .metavar ⟨0⟩ ++ " solved twice"))) t ∧
      ∃ m, t.Resolves s.log m := by
  obtain ⟨s, t, hs, hrun⟩ : ∃ s t : State,
      s = { State.empty with metas := MetaStore.empty.fresh.2 } ∧
      unify 9 .solving .empty 0
        (.neutral (.metavar ⟨0⟩)
          [.cases .bool (.closure ⟨⟨.lam .expl, "_", false⟩, .prim .bool, .empty, .prim .bool⟩)
          [.metavar ⟨0⟩, .prim .false]]) (.prim .true) s =
        .error (.error (.internal ("meta " ++ .metavar ⟨0⟩ ++ " solved twice"))) t :=
    ⟨_, _, rfl, rfl⟩
  have hallocated : s.metas.Allocated := hs ▸ (MetaStore.Allocated.reset .empty).fresh
  have hmade : ∀ m, Head.metavar ⟨0⟩ = .metavar m → s.metas.Made m := by
    rintro _ ⟨⟩
    exact hs ▸ rfl
  have hmotive : (Val.closure ⟨⟨.lam .expl, "_", false⟩, .prim .bool, .empty, .prim .bool⟩).Among
      s.metas.Made :=
    Val.among_closure.2
      ⟨Val.among_prim, List.forall_mem_nil _, fun _ _ _ h => (nomatch h), Term.among_prim⟩
  have hscrut : (Val.metavar ⟨0⟩).Among s.metas.Made :=
    Val.among_neutral.2 ⟨hmade, List.forall_mem_nil _⟩
  have hcause :=
    fun hleft => (internal_error_resolves ⟨{}, .empty⟩ (List.forall_mem_nil _) 9 s).2 0 _ _ _ t _
    hallocated hleft Val.among_prim hrun rfl
  obtain ⟨m, -, hm⟩ := hcause (Val.among_neutral.2 ⟨hmade, List.forall_mem_cons.2 ⟨hmotive,
    List.forall_mem_cons.2 ⟨hscrut, List.forall_mem_singleton.2 Val.among_prim⟩⟩⟩)
  exact ⟨s, t, hs, hrun, m, hm⟩

/-- An elaboration can end with an internal error: the hole in `let b : Bool = _ in (ReflHEq : HEq
{Bool} {Bool} (elimBool (\_. Bool) b b False) True)` is solved twice. -/
theorem elaborate_solves_twice :
    ∃ e t, elaborate 12 ⟨{}, .empty⟩ false
      (.letIn false "b" (some (.var "Bool")) (.hole none false)
        (.ann (.var "ReflHEq")
          (.app (.app (.app (.app (.var "HEq") .impl (.var "Bool")) .impl (.var "Bool")) .expl
            (.elim .bool (some (.abs .expl false "_" (some (.var "Bool")) (.var "Bool"))) (.var "b")
              [.var "b", .var "False"])) .expl (.var "True")))) .empty = .error (.error e) t ∧
      e.inner = .internal ("meta " ++ .metavar ⟨0⟩ ++ " solved twice") :=
  internalError?_eq_some (by decide +kernel)

end Elaborator
