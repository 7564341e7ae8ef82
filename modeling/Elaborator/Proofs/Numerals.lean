import Elaborator.Proofs.Fuel.Unify
import Elaborator.Proofs.Modes.Looking
import Elaborator.Proofs.NormalForm.Idempotence

/-! # Comparing numerals

A number can be written in many ways: as a literal, as the successor of another numeral, as a global
that is defined as a numeral, or as a metavariable that was solved by one (`Val.Numeral`). The forms
may be nested in any way.

Unification finds out whether two numerals denote the same number, in both modes. It forces the
heads of both sides first, which leaves a constructor or a global (`Val.Shown`). A global is
unfolded to a constructor, at last on both sides. Two constructors are equal, or they differ, or
their predecessors are compared, which may change sides: the literal comes first. So the sum of both
numbers goes down (`Val.Numeral.decided`). -/

namespace Elaborator

open Filter Elaborator.Action

/-! ## Numerals -/

/-- The value denotes this number, under the definitions `g` and the solutions of `ms`. -/
inductive Val.Numeral (g : Globals) (ms : MetaStore) : Val → Nat → Prop
  | nat (n : Nat) : Numeral g ms (.nat n) n
  | succ {v : Val} {n : Nat} (pred : Numeral g ms v n) :
      Numeral g ms (.neutral (.prim .succ) [.app .expl v]) (n + 1)
  | global {x : Name} {v : Val} {n : Nat} (stored : (g.find? x).map (·.val) = some v)
      (value : Numeral g ms v n) : Numeral g ms (.glued x [] v) n
  | metavar {m : MetaId} {v : Val} {n : Nat} (solved : ms.lookup m = some v)
      (solution : Numeral g ms v n) : Numeral g ms (.neutral (.metavar m) []) n

inductive Val.Constructed (g : Globals) (ms : MetaStore) : Val → Nat → Prop
  | nat (n : Nat) : Constructed g ms (.nat n) n
  | succ {v : Val} {n : Nat} (pred : v.Numeral g ms n) :
      Constructed g ms (.neutral (.prim .succ) [.app .expl v]) (n + 1)

/-- The numerals whose head is forced. A global unfolds to a numeral that begins with a
constructor. -/
inductive Val.Shown (g : Globals) (ms : MetaStore) : Val → Nat → Prop
  | constructed {v : Val} {n : Nat} (h : v.Constructed g ms n) : Shown g ms v n
  | global {x : Name} {v c : Val} {n : Nat} (stored : (g.find? x).map (·.val) = some v)
      (value : v.Numeral g ms n) (h : c.Constructed g ms n)
      (unfolds : ∀ᶠ fuel in atTop, (Val.glued x [] v).force fuel ms = .ok c) :
      Shown g ms (.glued x [] v) n

section

variable {g : Globals} {ms : MetaStore} {v w : Val} {n : Nat}

/-- A numeral denotes one number only. -/
theorem Val.Numeral.unique {k : Nat} (h : v.Numeral g ms n) (h' : v.Numeral g ms k) : n = k := by
  induction h generalizing k with
  | nat n =>
    cases h'
    rfl
  | succ _ ih =>
    cases h' with
    | succ h' => rw [ih h']
  | global stored _ ih =>
    cases h' with
    | global stored' h' => exact ih h'
  | metavar solved _ ih =>
    cases h' with
    | metavar solved' h' =>
      rw [solved] at solved'
      cases solved'
      exact ih h'

/-- A numeral whose head is forced stays as it is when it is forced again. -/
theorem Val.Shown.forceMeta (h : w.Shown g ms n) :
    ∀ᶠ fuel in atTop, w.forceMeta fuel ms = .ok w := by
  refine eventually_of_add 1 (.of_forall fun fuel => ?_)
  cases h with
  | constructed h => cases h <;> rfl
  | global => rfl

/-- What is forced to a shown numeral unfolds to a constructor. -/
theorem Val.Shown.unfolds (h : w.Shown g ms n)
    (hv : ∀ᶠ fuel in atTop, v.forceMeta fuel ms = .ok w) :
    ∃ c, c.Constructed g ms n ∧ ∀ᶠ fuel in atTop, v.force fuel ms = .ok c := by
  cases h with
  | constructed h =>
    refine ⟨w, h, eventually_of_add 1 ?_⟩
    filter_upwards [hv] with fuel hv
    cases v with
    | glued x sp base =>
      -- A global is not forced to a constructor.
      obtain rfl := Val.forceMeta_settled rfl hv
      cases h
    | type | neutral | closure | pair | nat =>
      rw [Val.force, hv]
      · cases h <;> rfl
      · simp
  | @global x d c _ _ _ h unfolds =>
    refine ⟨c, h, eventually_of_add 1 ?_⟩
    filter_upwards [hv, unfolds, (tendsto_add_atTop_nat 1).eventually unfolds] with fuel hv
      unfolds unfolds'
    cases v with
    | glued y sp base =>
      rw [← Val.forceMeta_settled rfl hv]
      exact unfolds'
    | type | neutral | closure | pair | nat =>
      rw [Val.force, hv]
      · exact unfolds
      · simp

/-- Every numeral forces to one whose head is forced, given enough fuel. -/
theorem Val.Numeral.shown (h : v.Numeral g ms n) :
    ∃ w, w.Shown g ms n ∧ ∀ᶠ fuel in atTop, v.forceMeta fuel ms = .ok w := by
  induction h with
  | nat n =>
    have hshown : (Val.nat n).Shown g ms n := .constructed (.nat n)
    exact ⟨_, hshown, hshown.forceMeta⟩
  | succ pred _ =>
    have hshown := Val.Shown.constructed (.succ pred)
    exact ⟨_, hshown, hshown.forceMeta⟩
  | global stored value ih =>
    obtain ⟨w, hw, hforced⟩ := ih
    obtain ⟨c, hc, hunfolds⟩ := hw.unfolds hforced
    have hshown : Val.Shown g ms _ _ := .global stored value hc (eventually_of_add 1 hunfolds)
    exact ⟨_, hshown, hshown.forceMeta⟩
  | metavar solved _ ih =>
    obtain ⟨w, hw, hforced⟩ := ih
    refine ⟨w, hw, eventually_of_add 1 ?_⟩
    filter_upwards [hforced] with fuel hforced
    rw [Val.forceMeta, solved]
    exact hforced

theorem Val.Constructed.numeral (h : v.Constructed g ms n) : v.Numeral g ms n := by
  cases h with
  | nat => exact .nat n
  | succ pred => exact .succ pred

/-- A numeral can be read back in every scope: there are no variables in it. -/
theorem Val.Numeral.quotes (h : v.Numeral g ms n) (size : Nat) :
    ∀ᶠ fuel in atTop, ∃ t, v.quote fuel ms false size = .ok t := by
  induction n using Nat.strongRecOn generalizing v with
  | ind n ih =>
    obtain ⟨w, hw, hforced⟩ := h.shown
    refine eventually_of_add 1 ?_
    cases hw with
    | constructed hw =>
      cases hw with
      | nat =>
        filter_upwards [hforced] with fuel hforced
        rw [Val.quote, hforced]
        exact ⟨_, rfl⟩
      | succ pred =>
        filter_upwards [hforced, ih _ (Nat.lt_succ_self _) pred] with fuel hforced hpred
        obtain ⟨t, ht⟩ := hpred
        refine ⟨.app (.prim .succ) .expl t, ?_⟩
        rw [Val.quote, hforced]
        show Spine.quote _ (.prim .succ) [.app .expl _] = _
        rw [Spine.quote, Spine.quote, ht]
        rfl
    | global =>
      filter_upwards [hforced] with fuel hforced
      rw [Val.quote, hforced]
      exact ⟨_, rfl⟩

end

/-! ## Deciding -/

namespace Action

variable {α : Type} {p : Prop} {size : Nat} {s t : State}

/-- Run from `s`, the action says whether `p` holds. It has an answer if so, and otherwise the error
that two values of a scope of this size are not equal. Nothing but events is added to the state. -/
inductive Decides (p : Prop) (size : Nat) (x : Action Unit) (s : State) : Prop
  | holds {t : State} (h : p) (run : x s = .ok () t) (looked : s.Looked t)
  | fails {t : State} {lhs rhs : Term} (h : ¬ p)
      (run : x s = .error (.error (.conversion size lhs rhs none)) t) (looked : s.Looked t)

namespace Decides

/-- Deciding depends on the run of the action only. -/
theorem of_run_eq {x y : Action Unit} (h : Decides p size y s) (hxy : x s = y s) :
    Decides p size x s := by
  cases h with
  | holds h hrun hlooked => exact .holds h (hxy.trans hrun) hlooked
  | fails h hrun hlooked => exact .fails h (hxy.trans hrun) hlooked

theorem answer (h : p) : Decides p size (pure ()) s := .holds h rfl (.refl s)

/-- Looking at the state first does not change what is decided. -/
theorem after {x : Action α} {f : α → Action Unit} {a : α} (hx : x s = .ok a t)
    (hlooked : s.Looked t) (h : Decides p size (f a) t) : Decides p size (x >>= f) s := by
  cases h with
  | holds h hrun hlooked' => exact .holds h ((bind_of_ok hx).trans hrun) (hlooked.trans hlooked')
  | fails h hrun hlooked' => exact .fails h ((bind_of_ok hx).trans hrun) (hlooked.trans hlooked')

end Decides

end Action

section

variable (mode : Mode) (g : Globals) (ms : MetaStore) (size : Nat) (p : Prop) (a b : Val)

/-- With this much fuel, unification says whether `p` holds, from every state with the store
`ms`. -/
def Val.DecidedBy (fuel : Nat) : Prop :=
  ∀ s : State, s.metas = ms → Decides p size (unify fuel mode g size a b) s

def Val.Decided : Prop := ∀ᶠ fuel in atTop, Val.DecidedBy mode g ms size p a b fuel

/-- What is left to do for the forced values `a` and `b` says whether `p` holds. -/
inductive Comparison.Decides (fuel : Nat) : Comparison → Prop
  | equal (h : p) : Decides fuel .equal
  | mismatch {t u : Term} (h : ¬ p) (left : a.quote fuel ms false size = .ok t)
      (right : b.quote fuel ms false size = .ok u) : Decides fuel .mismatch
  | numeral {n : Nat} {pred : Val} (rest : Val.DecidedBy mode g ms size p (.nat n) pred fuel) :
      Decides fuel (.numeral n pred)
  | succs {v w : Val} (rest : Val.DecidedBy mode g ms size p v w fuel) :
      Decides fuel (.spines [.app .expl v] [.app .expl w])
  | sameGlobal (h : p) : Decides fuel (.sameGlobal [] [])
  | unfoldLeft {c : Val} (unfolds : a.force fuel ms = .ok c)
      (rest : Val.DecidedBy mode g ms size p c b fuel) : Decides fuel .unfoldLeft
  | unfoldRight {c : Val} (unfolds : b.force fuel ms = .ok c)
      (rest : Val.DecidedBy mode g ms size p a c fuel) : Decides fuel .unfoldRight

def Val.HeadsDecided : Prop :=
  ∀ᶠ fuel in atTop, (Comparison.of mode a b).Decides mode g ms size p a b fuel

end

section

variable {mode : Mode} {g : Globals} {ms : MetaStore} {size : Nat} {p q : Prop} {a b a' b' : Val}

theorem Val.DecidedBy.of_iff {fuel : Nat} (h : Val.DecidedBy mode g ms size p a b fuel)
    (hpq : p ↔ q) : Val.DecidedBy mode g ms size q a b fuel := by
  rwa [← propext hpq]

/-- One step of unification: force the heads, compare them and do what is left to do. -/
theorem Comparison.Decides.unify {fuel : Nat} {s : State} (ha : a.forceMeta fuel s.metas = .ok a')
    (hb : b.forceMeta fuel s.metas = .ok b')
    (h : (Comparison.of mode a' b').Decides mode g s.metas size p a' b' fuel) :
    Action.Decides p size (unify (fuel + 1) mode g size a b) s := by
  let t : State := { s with log := .unify s.metas size a' b' :: s.log }
  have hlooked : s.Looked t := ⟨rfl, rfl, List.suffix_cons _ _⟩
  refine .after (forceMeta_of_ok ha) (.refl s)
    (.after (forceMeta_of_ok hb) (.refl s) (.after (t := t) rfl hlooked ?_))
  generalize Comparison.of mode a' b' = c at h ⊢
  cases h with
  | equal h => exact .answer h
  | mismatch h left right =>
    exact .after (quote_of_ok left) (.refl t)
      (.after (quote_of_ok right) (.refl t) (.fails h rfl (.refl t)))
  | numeral rest => exact rest t rfl
  | succs rest =>
    simp only [unifySpines, unifyElims, unifyElim, if_true, List.length_singleton, bind_pure_unit]
    exact rest t rfl
  | sameGlobal h =>
    -- There is nothing to compare in the transaction, so it is closed as it was opened.
    exact .after (a := .ok ()) (t := t) rfl (.refl t) (.answer h)
  | unfoldLeft unfolds rest => exact .after (force_of_ok unfolds) (.refl t) (rest t rfl)
  | unfoldRight unfolds rest => exact .after (force_of_ok unfolds) (.refl t) (rest t rfl)

/-- A decision about the forced heads is one about the values themselves, given enough fuel. -/
theorem Val.HeadsDecided.decided (h : Val.HeadsDecided mode g ms size p a' b')
    (ha : ∀ᶠ fuel in atTop, a.forceMeta fuel ms = .ok a')
    (hb : ∀ᶠ fuel in atTop, b.forceMeta fuel ms = .ok b') : Val.Decided mode g ms size p a b := by
  refine eventually_of_add 1 ?_
  filter_upwards [ha, hb, h] with fuel ha hb h
  rintro s rfl
  exact h.unify ha hb

/-! ## Comparing numerals -/

section

variable {m n : Nat}
  (ih : ∀ {v w : Val} {i j : Nat}, i + j < m + n → v.Numeral g ms i → w.Numeral g ms j →
  Val.Decided mode g ms size (i = j) v w)

include ih

/-- Two constructors. Unless one of them is zero or both are literals, their predecessors are
compared, which have a smaller sum. -/
theorem Val.Constructed.headsDecided (ha : a.Constructed g ms m) (hb : b.Constructed g ms n) :
    Val.HeadsDecided mode g ms size (m = n) a b := by
  have differ (h : m ≠ n) (hc : Comparison.of mode a b = .mismatch) :
      Val.HeadsDecided mode g ms size (m = n) a b := by
    filter_upwards [ha.numeral.quotes size, hb.numeral.quotes size] with fuel hleft hright
    obtain ⟨t, ht⟩ := hleft
    obtain ⟨u, hu⟩ := hright
    rw [hc]
    exact .mismatch h ht hu
  cases ha with
  | nat =>
    cases hb with
    | nat =>
      by_cases h : m = n
      · have hc : Comparison.of mode (.nat m) (.nat n) = .equal := if_pos h
        refine .of_forall fun fuel => ?_
        rw [hc]
        exact .equal h
      · exact differ h (if_neg h)
    | @succ v k pred =>
      cases m with
      | zero => exact differ (Nat.succ_ne_zero k).symm (by cases mode <;> rfl)
      | succ m =>
        have hc : Comparison.of mode (.nat (m + 1)) (.neutral (.prim .succ) [.app .expl v]) =
            .numeral m v := by
          cases mode <;> rfl
        filter_upwards [ih (by omega) (.nat m) pred] with fuel h
        rw [hc]
        exact .numeral (h.of_iff Nat.succ_inj.symm)
  | @succ v k pred =>
    cases hb with
    | nat =>
      cases n with
      | zero => exact differ (Nat.succ_ne_zero k) (by cases mode <;> rfl)
      | succ n =>
        -- The literal comes first from here on.
        have hc : Comparison.of mode (.neutral (.prim .succ) [.app .expl v]) (.nat (n + 1)) =
            .numeral n v := by
          cases mode <;> rfl
        filter_upwards [ih (by omega) (.nat n) pred] with fuel h
        rw [hc]
        exact .numeral (h.of_iff (eq_comm.trans Nat.succ_inj.symm))
    | @succ w l pred' =>
      have hc : Comparison.of mode (.neutral (.prim .succ) [.app .expl v])
          (.neutral (.prim .succ) [.app .expl w]) = .spines [.app .expl v] [.app .expl w] := by
        cases mode <;> rfl
      filter_upwards [ih (by omega) pred pred'] with fuel h
      rw [hc]
      exact .succs (h.of_iff Nat.succ_inj.symm)

/-- A constructor and anything: a global on the right is unfolded. -/
theorem Val.Constructed.headsDecided_shown (ha : a.Constructed g ms m) (hb : b.Shown g ms n) :
    Val.HeadsDecided mode g ms size (m = n) a b := by
  cases hb with
  | constructed hb => exact ha.headsDecided ih hb
  | @global x v c _ stored value hc unfolds =>
    have hof : Comparison.of mode a (.glued x [] v) = .unfoldRight := by
      cases ha with
      | nat => rfl
      | succ => cases mode <;> rfl
    have hforced := (Val.Shown.constructed ha).forceMeta
    have hrest := (ha.headsDecided ih hc).decided hforced (Val.Shown.constructed hc).forceMeta
    filter_upwards [unfolds, hrest] with fuel unfolds hrest
    rw [hof]
    exact .unfoldRight unfolds hrest

/-- Two forced numerals: a global on the left is unfolded, unless the same global is on the
right. -/
theorem Val.Shown.headsDecided (ha : a.Shown g ms m) (hb : b.Shown g ms n) :
    Val.HeadsDecided mode g ms size (m = n) a b := by
  cases ha with
  | constructed ha => exact ha.headsDecided_shown ih hb
  | @global x v c _ stored value hc unfolds =>
    -- When the names differ, or the right-hand side is no name, the definition on the left unfolds.
    have unfold (hof : Comparison.of mode (.glued x [] v) b = .unfoldLeft) :
        Val.HeadsDecided mode g ms size (m = n) (.glued x [] v) b := by
      have hrest :=
        (hc.headsDecided_shown ih hb).decided (Val.Shown.constructed hc).forceMeta hb.forceMeta
      filter_upwards [unfolds, hrest] with fuel unfolds hrest
      rw [hof]
      exact .unfoldLeft unfolds hrest
    cases hb with
    | constructed hb =>
      refine unfold ?_
      cases hb with
      | nat => rfl
      | succ => cases mode <;> rfl
    | @global y w _ _ stored' value' =>
      by_cases hxy : x = y
      · subst hxy
        obtain rfl := Option.some.inj (stored.symm.trans stored')
        refine .of_forall fun fuel => ?_
        have hof : Comparison.of mode (.glued x [] v) (.glued x [] v) = .sameGlobal [] [] :=
          if_pos rfl
        rw [hof]
        exact .sameGlobal (value.unique value')
      · exact unfold (if_neg hxy)

end

/-- By induction on the sum of the two numbers. -/
theorem Val.Numeral.decided {a b : Val} {m n : Nat} (ha : a.Numeral g ms m)
    (hb : b.Numeral g ms n) : Val.Decided mode g ms size (m = n) a b := by
  obtain ⟨a', hashown, haforced⟩ := ha.shown
  obtain ⟨b', hbshown, hbforced⟩ := hb.shown
  refine Val.HeadsDecided.decided (Val.Shown.headsDecided ?_ hashown hbshown) haforced hbforced
  intro v w i j hlt hv hw
  exact hv.decided hw
termination_by m + n

end

/-- **Unification decides equality of numerals.** Let two values denote numbers, in any mixture of
literals, successors, globals and solved metavariables. In both modes and in every scope,
unification with enough fuel has an answer if the numbers are equal and the error that the values
are not equal if they differ. With any fuel, it does the same or runs out of fuel: there is no
overflow, however large the numbers are. The store is left alone. -/
theorem unify_numerals {g : Globals} {s : State} {a b : Val} {m n : Nat}
    (ha : a.Numeral g s.metas m) (hb : b.Numeral g s.metas n) (mode : Mode) (size : Nat) :
    (∃ enough, ∀ fuel ≥ enough, Decides (m = n) size (unify fuel mode g size a b) s) ∧
    ∀ fuel, (∃ t, unify fuel mode g size a b s = .error (.fault .outOfFuel) t) ∨
      Decides (m = n) size (unify fuel mode g size a b) s := by
  have hdecided : Val.Decided mode g s.metas size (m = n) a b := ha.decided hb
  obtain ⟨enough, h⟩ := eventually_atTop.1 hdecided
  refine ⟨⟨enough, fun fuel hfuel => h fuel hfuel s rfl⟩, fun fuel => ?_⟩
  -- The run with less fuel starves, or it ends like the one with more.
  have hlong := h (max fuel enough) (Nat.le_max_right _ _) s rfl
  have hends := ((unifiesLonger g (Nat.le_max_left fuel enough)).unify mode size a b).ends s
  generalize hr : unify fuel mode g size a b s = r at hends
  generalize hq : unify (max fuel enough) mode g size a b s = q at hends
  cases hends with
  | starved t => exact .inl ⟨t, rfl⟩
  | same => exact .inr (hlong.of_run_eq (hr.trans hq.symm))
  | error he =>
    cases he
    exact .inr (hlong.of_run_eq (hr.trans hq.symm))

/-- Let `k` be the largest literal. With `x = k` and `?0` solved by `S x`, the numerals `S k` and
`?0` denote the same number, which is too large for a literal, and `x` denotes another one. -/
theorem unify_numerals_mixed :
    let k : Nat := numeralLimit - 1
    let g : Globals := .insert .empty "x" ⟨.nat k, .nat k, .prim .nat, false, none⟩
    let x : Val := .glued "x" [] (.nat k)
    let succ (v : Val) : Val := .neutral (.prim .succ) [.app .expl v]
    ∃ s : State, s.metas.lookup ⟨0⟩ = some (succ x) ∧ (succ (.nat k)).Numeral g s.metas (k + 1) ∧
      (Val.metavar ⟨0⟩).Numeral g s.metas (k + 1) ∧ x.Numeral g s.metas k ∧
      ∀ mode size,
        (∃ fuel t, unify fuel mode g size (succ (.nat k)) (.metavar ⟨0⟩) s = .ok () t ∧
          t.metas = s.metas) ∧ ∃ fuel lhs rhs t, unify fuel mode g size x (.metavar ⟨0⟩) s =
          .error (.error (.conversion size lhs rhs none)) t ∧ t.metas = s.metas := by
  intro k g x succ
  obtain ⟨s, -, hsolved⟩ : ∃ s : State,
      setMeta ⟨0⟩ (succ x) { State.empty with metas := MetaStore.empty.fresh.2 } = .ok () s ∧
      s.metas.lookup ⟨0⟩ = some (succ x) := ⟨_, rfl, rfl⟩
  have hx : x.Numeral g s.metas k := .global rfl (.nat k)
  have hleft : (succ (.nat k)).Numeral g s.metas (k + 1) := .succ (.nat k)
  have hright : (Val.metavar ⟨0⟩).Numeral g s.metas (k + 1) := .metavar hsolved (.succ hx)
  refine ⟨s, hsolved, hleft, hright, hx, fun mode size => ⟨?_, ?_⟩⟩
  · obtain ⟨fuel, h⟩ := (unify_numerals hleft hright mode size).1
    cases h fuel (Nat.le_refl fuel) with
    | holds _ hrun hlooked => exact ⟨fuel, _, hrun, hlooked.metas⟩
    | fails h => exact absurd rfl h
  · obtain ⟨fuel, h⟩ := (unify_numerals hx hright mode size).1
    cases h fuel (Nat.le_refl fuel) with
    | holds h => exact absurd h.symm (Nat.succ_ne_self k)
    | fails _ hrun hlooked => exact ⟨fuel, _, _, _, hrun, hlooked.metas⟩

end Elaborator
