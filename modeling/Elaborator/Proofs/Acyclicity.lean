import Mathlib.Order.WellFounded
import Elaborator.Proofs.Invariant
import Elaborator.Proofs.Scope.Elaborate
import Elaborator.Proofs.Transactions

/-! # Solutions do not depend on themselves

A solution may mention other metavariables, which may be solved later by solutions that mention
others again. The occurs check looks at one right-hand side only, and it looks for one metavariable
only. That no chain of solutions ever comes back to where it started
(`MetaStore.Reachable.closed_acyclic`) has another reason: a right-hand side is read back before it
becomes a solution, and what is read back mentions unsolved metavariables only
(`Val.quote_unsolved`). So whatever occurs in a solution is solved later than the solution is found.
A new solution leads nowhere, and the chains that lead to it end there.

Undoing a transaction takes solutions back, but it goes back to solutions among which there was no
cycle either. -/

namespace Elaborator

/-! ## Metavariables in values -/

/-- A metavariable occurs in a value: at a head, in the values of a spine or of a pair, in the type
of a variable or in the body of a closure, or in a value that the closure or a folded global holds.
Of the globals that a closure holds, only those that its body mentions matter. -/
inductive Val.Mentions (q : MetaId) : Val → Prop
  | head {sp : Spine} : Mentions q (.neutral (.metavar q) sp)
  | spine {h : Head} {sp : Spine} {v : Val} (mem : v ∈ Spine.vals sp) (hq : Mentions q v) :
      Mentions q (.neutral h sp)
  | gluedSpine {x : Name} {sp : Spine} {base v : Val} (mem : v ∈ Spine.vals sp)
      (hq : Mentions q v) : Mentions q (.glued x sp base)
  | gluedBase {x : Name} {sp : Spine} {base : Val} (hq : Mentions q base) :
      Mentions q (.glued x sp base)
  | dom {c : Closure} (hq : Mentions q c.dom) : Mentions q (.closure c)
  | body {c : Closure} (hq : q ∈ c.body.metaOccurrences) : Mentions q (.closure c)
  | local {c : Closure} {v : Val} (mem : v ∈ c.env.locals) (hq : Mentions q v) :
      Mentions q (.closure c)
  | global {c : Closure} {x : Name} {v : Val} (mem : x ∈ c.body.globals)
      (found : c.env.global? x = some v) (hq : Mentions q v) : Mentions q (.closure c)
  | fst {a b s : Val} (hq : Mentions q a) : Mentions q (.pair a b s)
  | snd {a b s : Val} (hq : Mentions q b) : Mentions q (.pair a b s)
  | sigma {a b s : Val} (hq : Mentions q s) : Mentions q (.pair a b s)

/-- What occurs in a value is in its bounds. -/
theorem Val.Within.metas_of_mentions {B : Bounds} {L : Nat → Prop} {v : Val} {q : MetaId}
    (h : v.Within B L) (hq : v.Mentions q) : B.metas q := by
  induction hq generalizing L with
  | head => exact (within_neutral.1 h).1
  | spine mem _ ih => exact ih ((within_neutral.1 h).2.2 _ mem)
  | gluedSpine mem _ ih => exact ih ((within_glued.1 h).2.2 _ mem)
  | gluedBase _ ih => exact ih (within_glued.1 h).2.1
  | dom _ ih => exact ih (within_closure.1 h).1
  | body hq => exact (within_closure.1 h).2.2.2 q hq
  | «local» mem _ ih => exact ih ((within_closure.1 h).2.1.locals _ mem)
  | global mem found _ ih => exact ih ((within_closure.1 h).2.1.closed _ mem _ found)
  | fst _ ih => exact ih (within_pair.1 h).1
  | snd _ ih => exact ih (within_pair.1 h).2.1
  | sigma _ ih => exact ih (within_pair.1 h).2.2

/-! ## What is read back is unsolved -/

def Knowledge.solution? (k : Knowledge) (m : MetaId) : Option Val := (k.cells.find? m.toNat).join

def Knowledge.unsolved (k : Knowledge) : Bounds :=
  ⟨fun m => k.solution? m = none, fun _ _ => True, False⟩

section

variable {ms : MetaStore} {fuel n : Nat} {full : Bool}

/-- The head of a neutral value whose metavariable has no solution reads back to a term that
mentions unsolved metavariables only. -/
theorem Head.quote_unsolved {h : Head} {t : Term} (hopen : ∀ m, h = .metavar m → ms.lookup m = none)
    (hq : h.quote n = .ok t) : t.Within ms.now.unsolved n := by
  cases h with
  | var l =>
    obtain ⟨i, hi, rfl⟩ := map_ok hq
    obtain ⟨-, hle, hi⟩ := Level.toIndex_eq_ok_iff.1 hi
    exact Term.within_var.2 (by omega)
  | prim p =>
    cases hq
    exact Term.within_prim
  | metavar m =>
    cases hq
    exact Term.within_metavar.2 (hopen m rfl)

/-- A spine reads back within bounds when its head and every value along it do. -/
theorem Spine.quote_within {B : Bounds} {quote : Val → Except Fault Term}
    {head t : Term} {sp : Spine} (hq : ∀ v t, quote v = .ok t → t.Within B n) (hh : head.Within B n)
    (h : Spine.quote quote head sp = .ok t) : t.Within B n := by
  have hclosed : Term.EliminationClosed (Term.Within B n) :=
    ⟨fun hf hx => Term.within_app.2 ⟨hf, hx⟩, fun hx => Term.within_proj.2 hx,
      fun hm hs hcs => Term.within_elim.2 ⟨hm, hs, hcs⟩⟩
  exact Spine.quote_of (P := fun _ => True) hclosed (fun v t _ => hq v t) hh (fun _ _ => trivial) h

/-- Reading back leaves no variable out of scope and no solved metavariable, whatever value is
read. -/
theorem Val.quote_unsolved {v : Val} {t : Term} (h : v.quote fuel ms full n = .ok t) :
    t.Within ms.now.unsolved n := by
  induction fuel generalizing v n t with
  | zero => cases h
  | succ fuel ih =>
    obtain ⟨w, hw, h⟩ := bind_ok h
    cases w with
    | type =>
      cases h
      exact Term.within_type
    | nat k =>
      cases h
      exact Term.within_nat
    | neutral head sp =>
      -- The value was forced before its form was looked at.
      obtain ⟨u, hu, h⟩ := bind_ok h
      have hopen : ∀ m, head = .metavar m → ms.lookup m = none := by
        rintro m rfl
        exact Val.forceMeta_unsolved hw
      exact Spine.quote_within (fun _ _ => ih) (Head.quote_unsolved hopen hu) h
    | glued x sp base =>
      cases full with
      | true =>
        obtain ⟨u, -, h⟩ := bind_ok h
        exact ih h
      | false => exact Spine.quote_within (fun _ _ => ih) Term.within_global h
    | closure c =>
      obtain ⟨dom, hdom, h⟩ := bind_ok h
      obtain ⟨entered, -, h⟩ := bind_ok h
      obtain ⟨body, hbody, h⟩ := bind_ok h
      cases h
      exact Term.within_bind.2 ⟨ih hdom, ih hbody⟩
    | pair a b s =>
      obtain ⟨ta, ha, h⟩ := bind_ok h
      obtain ⟨tb, hb, h⟩ := bind_ok h
      obtain ⟨ts, hs, h⟩ := bind_ok h
      cases h
      exact Term.within_pair.2 ⟨ih ha, ih hb, ih hs⟩

end

/-- A solution that unification finds is closed and mentions neither a solved metavariable nor the
one it is for. -/
theorem MetaStore.Finds.within {g : Globals} (hg : g.Ground) {ms : MetaStore} {m : MetaId} {v : Val}
    (h : ms.Finds g m v) : v.Within (ms.now.unsolved.without m) noLevels := by
  obtain ⟨fuel, size, params, rhs, body, moved, hbody, hmoved, hv⟩ := h
  have hclosed := Term.abstract_rename_within (Val.quote_unsolved hbody) hmoved
  have hbounds : Bounds.noMetas.Le (ms.now.unsolved.without m) :=
    ⟨fun _ => False.elim, fun _ _ => id, id⟩
  exact (Term.eval_safely (hg.within hbounds).env hclosed fuel).answer v hv

/-! ## The order of the solutions -/

namespace Knowledge

/-- Both metavariables are solved, and `q` occurs in the solution of `p`. -/
def OccursIn (k : Knowledge) (q p : MetaId) : Prop :=
  ∃ v w, k.solution? p = some v ∧ v.Mentions q ∧ k.solution? q = some w

/-- Solutions are closed, and following what occurs in them comes to an end. -/
structure Orderly (k : Knowledge) : Prop where
  closed : ∀ m v, k.solution? m = some v → v.Within .all noLevels
  ends : WellFounded k.OccursIn

namespace Orderly

variable {k k' : Knowledge}

theorem empty : Knowledge.empty.Orderly where
  closed _ _ hv := nomatch hv
  ends := ⟨fun _ => ⟨_, fun _ ⟨_, _, hv, _⟩ => nomatch hv⟩⟩

/-- No new solutions. -/
theorem of_fewer (h : k.Orderly)
    (hfewer : ∀ m v, k'.solution? m = some v → k.solution? m = some v) : k'.Orderly where
  closed m v hv := h.closed m v (hfewer m v hv)
  ends := by
    refine Subrelation.wf ?_ h.ends
    rintro q p ⟨v, w, hv, hq, hw⟩
    exact ⟨v, w, hfewer p v hv, hq, hfewer q w hw⟩

/-- A new cell has no solution. -/
theorem make (h : k.Orderly) (i : Nat) : Orderly { k with cells := k.cells.insert i none } := by
  refine h.of_fewer fun m v hv => ?_
  simp only [solution?, IdMap.find?_insert] at hv
  split at hv
  · cases hv
  · exact hv

/-- A metavariable is solved by a value that mentions only others, which are unsolved. Nothing that
is solved occurs in it, so every chain that leads to it ends there. -/
theorem solve (h : k.Orderly) {m : MetaId} {v : Val}
    (hv : v.Within (k.unsolved.without m) noLevels) :
    Orderly { k with cells := k.cells.insert m.toNat (some v) } := by
  set k' : Knowledge := { k with cells := k.cells.insert m.toNat (some v) }
  have hsolution (n : MetaId) : k'.solution? n = if n = m then some v else k.solution? n := by
    by_cases hn : n = m
    · simp [k', solution?, hn]
    · have hne : n.toNat ≠ m.toNat := fun h => hn (by cases n; cases m; simpa using h)
      simp [k', solution?, hn, hne]
  -- What occurs in the new solution is unsolved and is not `m`, so it is still unsolved.
  have hlast (q : MetaId) : ¬ k'.OccursIn q m := by
    rintro ⟨u, w, hu, hq, hw⟩
    rw [hsolution, if_pos rfl] at hu
    cases hu
    obtain ⟨hunsolved, hqm⟩ := hv.metas_of_mentions hq
    rw [hsolution, if_neg hqm, hunsolved] at hw
    cases hw
  refine ⟨fun n w hw => ?_, ⟨fun p => ?_⟩⟩
  · rw [hsolution] at hw
    split at hw
    · cases hw
      exact hv.widen ⟨fun _ _ => trivial, fun _ _ => id, id⟩
    · exact h.closed n w hw
  · -- Along the old order: a step is an old one, or it leads to `m`, where nothing follows.
    induction p using h.ends.induction with
    | h p ih =>
      refine ⟨p, fun q hq => ?_⟩
      by_cases hqm : q = m
      · exact ⟨q, fun r hr => absurd (hqm ▸ hr) (hlast r)⟩
      · have hpm : p ≠ m := fun hpm => hlast q (hpm ▸ hq)
        obtain ⟨u, w, hu, hmentions, hw⟩ := hq
        rw [hsolution, if_neg hpm] at hu
        rw [hsolution, if_neg hqm] at hw
        exact ih q ⟨u, w, hu, hmentions, hw⟩

end Orderly

end Knowledge

namespace MetaStore

/-- Unification over closed definitions without metavariables keeps the solutions in order, also
those that an open transaction can go back to. -/
theorem tracksSolutions_orderly {g : Globals} (hg : g.Ground) :
    TracksSolutions g fun s t => s.Always Knowledge.Orderly → t.Always Knowledge.Orderly where
  refl _ := id
  trans hst htu hs := htu (hst hs)
  postpone _ _ _ hs := hs.of_now rfl (hs.now.of_fewer fun _ _ => id)
  takePostponed _ _ hs := hs.of_now rfl (hs.now.of_fewer fun _ _ => id)
  pop hst hu hs := (hst hs.push).pop hu
  discard hst hu hs := (hst hs.push).discard hu
  set := by
    intro s t m v hfound hset hs
    obtain ⟨-, hnow, hsaved, -⟩ := set_eq_ok_iff.1 hset
    refine hs.of_now hsaved ?_
    rw [hnow]
    exact hs.now.solve (hfound.within hg)

/-- The stores that come about by making metavariables, by calls of unification, and by opening,
undoing and closing transactions. The values that are unified may be any; the definitions are closed
and mention no metavariables. -/
inductive Reachable : MetaStore → Prop
  | empty : Reachable .empty
  | fresh {s : MetaStore} (h : s.Reachable) : Reachable s.fresh.2
  | push {s : MetaStore} (h : s.Reachable) : Reachable s.push
  | pop {s t : MetaStore} (h : s.Reachable) (run : s.pop = .ok t) : Reachable t
  | discard {s t : MetaStore} (h : s.Reachable) (run : s.discard = .ok t) : Reachable t
  | unify {s t : State} {fuel : Nat} {mode : Mode} {g : Globals} {size : Nat} {a b : Val}
      (h : s.metas.Reachable) (hg : g.Ground) (run : (unify fuel mode g size a b).Returns s t) :
      Reachable t.metas
  | solve {s t : State} {fuel : Nat} {g : Globals} {size : Nat} {m : MetaId} {sp : Spine}
      {rhs : Val} (h : s.metas.Reachable) (hg : g.Ground)
      (run : (solve fuel g size m sp rhs).Returns s t) : Reachable t.metas
  | retryFor {s t : State} {fuel : Nat} {g : Globals} {m : MetaId} (h : s.metas.Reachable)
      (hg : g.Ground) (run : (retryFor fuel g m).Returns s t) : Reachable t.metas
  | retryAll {s t : State} {fuel : Nat} {g : Globals} (h : s.metas.Reachable) (hg : g.Ground)
      (run : (retryAll fuel g).Returns s t) : Reachable t.metas

/-- Solutions mention only metavariables made before them, in every knowledge a reachable store has.
-/
theorem Reachable.orderly {s : MetaStore} (h : s.Reachable) : s.Always Knowledge.Orderly := by
  induction h with
  | empty => exact List.forall_mem_singleton.2 .empty
  | @fresh s _ ih => exact ih.of_now rfl (ih.now.make s.next)
  | push _ ih => exact ih.push
  | pop _ run ih => exact ih.pop run
  | discard _ run ih => exact ih.discard run
  | unify _ hg run ih => exact (unify_keeps (tracksSolutions_orderly hg) ..).related run ih
  | solve _ hg run ih => exact (solve_keeps (tracksSolutions_orderly hg) ..).related run ih
  | retryFor _ hg run ih => exact (retryFor_keeps (tracksSolutions_orderly hg) ..).related run ih
  | retryAll _ hg run ih => exact (retryAll_keeps (tracksSolutions_orderly hg) ..).related run ih

/-- **Solutions are closed and acyclic.** In every store that unification can reach, each solution
is a closed value, and no solved metavariable comes back to itself by going from a metavariable to
those that occur in its solution. -/
theorem Reachable.closed_acyclic {s : MetaStore} (h : s.Reachable) :
    (∀ m v, s.lookup m = some v → v.Within .all noLevels) ∧ ∀ m,
      ¬ Relation.TransGen s.now.OccursIn m m := by
  have horderly := h.orderly.now
  refine ⟨horderly.closed, fun m hm => ?_⟩
  exact horderly.ends.transGen.irrefl.irrefl m hm

/-- The solution of `?0` mentions `?1`, and `?1` is solved after it. -/
theorem closed_acyclic_chain :
    ∃ s : MetaStore, s.Reachable ∧ s.now.OccursIn ⟨1⟩ ⟨0⟩ ∧
      (∀ m v, s.lookup m = some v → v.Within .all noLevels) ∧ ∀ m,
        ¬ Relation.TransGen s.now.OccursIn m m := by
  have hmade : MetaStore.empty.fresh.2.fresh.2.Reachable := .fresh (.fresh .empty)
  have run : Action.Returns
    (Elaborator.unify 9 .solving .empty 0 (.pair (.metavar ⟨0⟩) (.metavar ⟨1⟩) .type)
      (.pair (.pair (.metavar ⟨1⟩) (.nat 0) .type) .type .type))
      { State.empty with metas := MetaStore.empty.fresh.2.fresh.2 } _ := .of_ok rfl
  have hreachable := Reachable.unify hmade .empty run
  exact ⟨_, hreachable, ⟨_, _, rfl, .fst .head, rfl⟩, hreachable.closed_acyclic⟩

end MetaStore

end Elaborator
