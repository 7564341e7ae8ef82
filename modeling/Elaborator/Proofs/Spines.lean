import Mathlib.Data.List.Forall2
import Elaborator.Proofs.Scope.Basic
import Elaborator.Unify

/-! # Comparing spines

Two spines are compared by comparing the values in them one after the other, so whatever holds of
each of these comparisons and carries over to sequences holds of the whole. It is stated for two
runs side by side (`Action.Sequential`); a property of single actions (`Action.unifySpines_of`) is a
relation that does not look at the second one. -/

namespace Elaborator

def BoolSplit.vals (s : BoolSplit) : List Val :=
  Spine.vals s.init ++ s.cases ++ Spine.vals s.trailing.toList

theorem BoolSplit.forall_vals {P : Val → Prop} {s : BoolSplit} :
    (∀ v ∈ s.vals, P v) ↔
      (∀ v ∈ Spine.vals s.init, P v) ∧ (∀ c ∈ s.cases, P c) ∧
        ∀ e ∈ s.trailing, ∀ v ∈ e.vals, P v := by
  simp only [vals, List.forall_mem_append, and_assoc]
  refine and_congr_right fun _ => and_congr_right fun _ => ?_
  cases s.trailing <;> simp [Spine.vals]

/-- They are inside the spine that the case analysis was found in. -/
theorem BoolSplit.of?_vals {sp : Spine} {s : BoolSplit} (h : BoolSplit.of? sp = some s)
    {P : Val → Prop} (hsp : ∀ v ∈ Spine.vals sp, P v) : ∀ v ∈ s.vals, P v := by
  refine forall_vals.2 ?_
  unfold BoolSplit.of? at h
  split at h
  · cases h
    obtain ⟨hcases, hinit⟩ := List.forall_mem_append.1 hsp
    exact ⟨hinit, (List.forall_mem_cons.1 hcases).2, by simp⟩
  · cases h
    obtain ⟨harg, hrest⟩ := List.forall_mem_append.1 hsp
    obtain ⟨hcases, hinit⟩ := List.forall_mem_append.1 hrest
    exact ⟨hinit, (List.forall_mem_cons.1 hcases).2, by simpa using harg⟩
  · cases h

namespace Action

/-- A relation between actions without answers that sequences respect. -/
structure Sequential (J : Action Unit → Action Unit → Prop) : Prop where
  done : J (pure ()) (pure ())
  andThen : ∀ {x x' y y'}, J x x' → J y y' → J (x >>= fun _ => y) (x' >>= fun _ => y')

namespace Sequential

variable {J : Action Unit → Action Unit → Prop} (hJ : Sequential J) {u w : Val → Val → Action Unit}
  {differ d : Action Unit}

include hJ

/-- Lists are unified by related actions when their members are. -/
theorem unifyAll {xs ys : List Val} (hu : ∀ x ∈ xs, ∀ y ∈ ys, J (u x y) (w x y)) :
    J (unifyAll u xs ys) (unifyAll w xs ys) := by
  induction xs generalizing ys with
  | nil => exact hJ.done
  | cons x xs ih =>
    cases ys with
    | nil => exact hJ.done
    | cons y ys =>
      refine hJ.andThen (hu x List.mem_cons_self y List.mem_cons_self) (ih fun a ha b hb => ?_)
      exact hu a (List.mem_cons_of_mem _ ha) b (List.mem_cons_of_mem _ hb)

/-- Eliminations are unified by related actions when their values are. -/
theorem unifyElim (hd : J differ d) {e f : Elim}
    (hu : ∀ x ∈ e.vals, ∀ y ∈ f.vals, J (u x y) (w x y)) :
    J (unifyElim u differ e f) (unifyElim w d e f) := by
  cases e with
  | app i x =>
    cases f with
    | app j y =>
      simp only [Elaborator.unifyElim]
      split
      · exact hu x List.mem_cons_self y List.mem_cons_self
      · exact hd
    | proj | cases => exact hd
  | proj p =>
    cases f with
    | proj q =>
      simp only [Elaborator.unifyElim]
      split
      · exact hJ.done
      · exact hd
    | app | cases => exact hd
  | cases e m cs =>
    cases f with
    | cases f k ds =>
      simp only [Elaborator.unifyElim]
      split
      · refine hJ.andThen (hu m List.mem_cons_self k List.mem_cons_self)
          (hJ.unifyAll fun x hx y hy => ?_)
        exact hu x (List.mem_cons_of_mem _ hx) y (List.mem_cons_of_mem _ hy)
      · exact hd
    | app | proj => exact hd

/-- Every value of one spine that is compared with one of the other is covered by the hypothesis. -/
theorem unifySpines (hd : J differ d) {sa sb : Spine}
    (hu : ∀ x ∈ Spine.vals sa, ∀ y ∈ Spine.vals sb, J (u x y) (w x y)) :
    J (unifySpines u differ sa sb) (unifySpines w d sa sb) := by
  have helims : J (unifyElims u differ sa sb) (unifyElims w d sa sb) := by
    induction sa generalizing sb with
    | nil => exact hJ.done
    | cons e sa ih =>
      cases sb with
      | nil => exact hJ.done
      | cons f sb =>
        refine hJ.andThen (hJ.unifyElim hd fun x hx y hy => ?_) (ih fun x hx y hy => ?_)
        · exact hu x (List.mem_append_left _ hx) y (List.mem_append_left _ hy)
        · exact hu x (List.mem_append_right _ hx) y (List.mem_append_right _ hy)
  unfold Elaborator.unifySpines
  split
  · exact helims
  · exact hd

end Sequential

/-- A property of single actions that sequences have if their parts do. -/
theorem unifySpines_of {J : Action Unit → Prop} (done : J (pure ()))
    (andThen : ∀ {x y}, J x → J y → J (x >>= fun _ => y)) {u : Val → Val → Action Unit}
    {differ : Action Unit} (hd : J differ) {sa sb : Spine}
    (hu : ∀ x ∈ Spine.vals sa, ∀ y ∈ Spine.vals sb, J (u x y)) : J (unifySpines u differ sa sb) :=
  Sequential.unifySpines (J := fun x _ => J x) (w := u) (d := differ) ⟨done, andThen⟩ hd hu

end Action

inductive Elim.Alike (R : Val → Val → Prop) : Elim → Elim → Prop
  | app {icit : Icit} {x y : Val} (arg : R x y) : Alike R (.app icit x) (.app icit y)
  | proj {p : Proj} : Alike R (.proj p) (.proj p)
  | cases {e : Eliminator} {m k : Val} {cs ds : List Val} (motive : R m k)
      (cases : List.Forall₂ R cs ds) : Alike R (.cases e m cs) (.cases e k ds)

namespace Action

section

variable {J : Action Unit → Prop} (done : J (pure ()))
  (andThen : ∀ {x y}, J x → J y → J (x >>= fun _ => y)) {R : Val → Val → Prop}
  {u : Val → Val → Action Unit} {differ : Action Unit} (hu : ∀ x y, R x y → J (u x y))

include done andThen hu

theorem unifyAll_alike {xs ys : List Val} (h : List.Forall₂ R xs ys) : J (unifyAll u xs ys) := by
  induction h with
  | nil => exact done
  | cons h _ ih => exact andThen (hu _ _ h) ih

theorem unifyElim_alike {e f : Elim} (h : e.Alike R f) : J (unifyElim u differ e f) := by
  cases h with
  | app h =>
    rw [unifyElim, if_pos rfl]
    exact hu _ _ h
  | proj =>
    rw [unifyElim, if_pos rfl]
    exact done
  | cases hm hcs =>
    rw [unifyElim, if_pos ⟨rfl, hcs.length_eq⟩]
    exact andThen (hu _ _ hm) (unifyAll_alike done andThen hu hcs)

/-- Spines of the same form never come to a difference, so only the values in them matter. -/
theorem unifySpines_alike {sa sb : Spine} (h : List.Forall₂ (Elim.Alike R) sa sb) :
    J (unifySpines u differ sa sb) := by
  have helims : J (unifyElims u differ sa sb) := by
    induction h with
    | nil => exact done
    | cons h _ ih => exact andThen (unifyElim_alike done andThen hu h) ih
  rw [unifySpines, if_pos h.length_eq]
  exact helims

end

end Action

end Elaborator
