import Elaborator.Proofs.Modes.Convertible
import Elaborator.Proofs.Modes.Ground

/-! # Unifying convertible values

Unification does what conversion does until a metavariable meets something else than itself: then
conversion goes on by extensionality or by unfolding a global, and unification tries to solve the
metavariable. There is no solution, because a metavariable occurs in all that it is convertible to.
So unification does not accept all that conversion accepts (`unify_refuses_convertible`). But it has
no other reason to refuse convertible values, and in particular it does not find that they differ,
unless it solves something on the way (`unify_convertible`). There are only two ways to come to
that: a case analysis of an unknown boolean is tried out with both constants, or a global hides the
metavariable. -/

namespace Elaborator

open Elaborator.Action

/-! ## Unification beside conversion -/

def Val.IsSplit : Val → Prop
  | .neutral (.metavar _) sp => (BoolSplit.of? sp).isSome
  | _ => False

def Event.MeetsSplit : Event → Prop
  | .unify _ _ a b => a.IsSplit ∨ b.IsSplit
  | _ => False

section

variable {N M : Event → Prop} {σ : MetaId → Option Val} {g : Globals}

/-- Two spines that are convertible. -/
theorem unifySpines_beside {fuel f size : Nat}
    (ih : ∀ x y, Barring N σ (Answers M σ (unify f .rigid g size x y))
      (unify fuel .solving g size x y) anything (Error.Refused σ)) (a b : Val) (sa sb : Spine) :
    Barring N σ (Answers M σ (unifySpines (unify f .rigid g size) (mismatch f size a b) sa sb))
      (unifySpines (unify fuel .solving g size) (mismatch fuel size a b) sa sb) anything
        (Error.Refused σ) := by
  refine (Sequential.unifySpines
    (J := fun x y => Barring M σ True x (fun _ => Answers M σ x) anything ∧
    Barring N σ (Answers M σ x) y anything (Error.Refused σ)) ⟨?_, ?_⟩ ⟨?_, ?_⟩ fun x _ y _ => ?_).2
  · exact ⟨(Barring.pure (Q := anything) fun _ => trivial).answers, .pure fun _ => trivial⟩
  · intro x x' y y' hx hy
    have hxy : Barring M σ True (x >>= fun _ => y)
        (fun _ => Answers M σ x ∧ Answers M σ y) anything :=
      hx.1.bind fun _ => hy.1.imp (fun _ => trivial) (fun h _ hy => ⟨h.2, hy⟩) fun _ _ => id
    refine ⟨hxy.answers, ?_⟩
    exact (hx.2.given fun h => (h.elim hxy).1).bind fun _ => hy.2.given fun h => (h.1.elim hxy).2
  · exact (Barring.imp (mismatch_barring ..) id (fun _ _ => id) fun _ _ _ => trivial).answers
      (Q := anything)
  · exact (mismatch_barring ..).imp id (fun _ _ => id) fun h => absurd h not_answers_mismatch
  · exact ⟨(unify_rigid_answers ..).imp id (fun _ _ => id) fun _ _ _ => trivial, ih x y⟩

/-- Events of the kind `N` in unification and of the kind `M` in conversion are barred. So no
solution is found: that would be an event of the kind `N`, or a metavariable can be seen to occur in
all that it is convertible to. -/
def BarsSolutions (N M : Event → Prop) : Prop :=
  (∀ e, Event.IsSolved e → N e) ∨ (∀ e, Event.MeetsSplit e → N e) ∧ ∀ e, Event.MeetsGlobal e → M e

/-- One of two convertible values is a metavariable that is to be solved with the other one. -/
theorem solve_beside (hN : BarsSolutions N M) {fuel f size : Nat}
    {a b a' b' rhs : Val} {m : MetaId} {sp : Spine}
    (hc : Comparison.of .solving a' b' = .solve m sp rhs) :
    Barring N σ (((Answers M σ (unify f .rigid g size a b) ∧ a.ForcesTo σ a') ∧ b.ForcesTo σ b') ∧
      ∃ ms, ¬ N (.unify ms size a' b')) (solve fuel g size m sp rhs) anything
        (Error.Refused σ) := by
  have general := (unifiesUnsolving σ g fuel).solve size m sp rhs
  rcases hN with hN | ⟨hN, hM⟩
  · exact (general.mono hN).given fun h => Comparison.unsolved_of_solve hc h.1.1.2 h.1.2
  · cases hsp : BoolSplit.of? sp with
    | some split =>
      -- A stuck case analysis was barred when the two sides were compared.
      have hsplit : Val.IsSplit (.neutral (.metavar m) sp) := Option.isSome_of_eq_some hsp
      refine .unreached general.follows fun ⟨_, ms, hquiet⟩ => hquiet (hN _ ?_)
      obtain ⟨-, ⟨rfl, -⟩ | ⟨-, rfl⟩⟩ := Comparison.of_eq_solve hc
      · exact .inl hsplit
      · exact .inr hsplit
    | none =>
      cases fuel with
      | zero => exact .fault _
      | succ fuel =>
        -- The rigid run accepts only if the metavariable occurs in the other side, and then it is
        -- not solved.
        refine solve_barring hsp (fun h => Comparison.unsolved_of_solve hc h.1.1.2 h.1.2)
          (fun h => .inr fun t ht => ?_) ((unifiesUnsolving σ g fuel).retryFor m).follows
        obtain ⟨⟨⟨hanswers, ha⟩, hb⟩, -⟩ := h
        obtain ⟨-, ⟨rfl, rfl⟩ | ⟨rfl, rfl⟩⟩ := Comparison.of_eq_solve hc
        · exact Answers.occurs hM hanswers ht (.inl ⟨ha, hb⟩)
        · exact Answers.occurs hM hanswers ht (.inr ⟨ha, hb⟩)

/-- The spines of a global that is compared with itself. A soft error means that conversion found a
difference there, too, and went on with what the global stands for. -/
theorem sameGlobal_beside (hN : BarsSolutions N M) {fuel f size : Nat}
    (ih : ∀ x y, Barring N σ (Answers M σ (unify f .rigid g size x y))
      (unify fuel .solving g size x y) anything
      (Error.Refused σ)) {a b : Val}
    {sa sb : Spine} (hc : Comparison.of .rigid a b = .sameGlobal sa sb) :
    Barring N σ ((∃ ms, ¬ M (.unify ms size a b)) ∧
      Comparison.Converts M σ g f size a b (.sameGlobal sa sb))
      (unifySpines (unify fuel .solving g size) (mismatch fuel size a b) sa sb) anything fun e =>
        e.Refused σ ∨ e.Differs ∧
          ∀ w u, a.UnfoldsTo σ w → b.UnfoldsTo σ u → Answers M σ (unify f .rigid g size w u) := by
  by_cases hanswers : Answers M σ (unifySpines (unify f .rigid g size) (mismatch f size a b) sa sb)
  · exact (unifySpines_beside ih a b sa sb).imp (fun _ => hanswers) (fun _ _ => id) fun _ _ => .inl
  · have general :=
      unifySpines_barring ((unifiesUnsolving σ g fuel).unify .solving size) fuel size a b sa sb
    rcases hN with hN | ⟨-, hM⟩
    · refine (general.mono hN).imp (fun _ => trivial) (fun _ _ => id) fun h e he => ?_
      have hunfold := h.2.resolve_left hanswers
      exact he.elim (fun hdiffers => .inr ⟨hdiffers, hunfold⟩) .inl
    · refine .unreached general.follows fun ⟨⟨ms, hquiet⟩, _⟩ => hquiet (hM _ (Or.inl ?_))
      have hcmp := Compares.of .rigid a b
      rw [hc] at hcmp
      cases hcmp with
      | sameGlobal => trivial

/-- Where conversion has an answer, a unification that solves nothing can only refuse a metavariable
its solution. -/
theorem unify_beside (hN : BarsSolutions N M) (fuel f size : Nat) (a b : Val) :
    Barring N σ (Answers M σ (unify f .rigid g size a b)) (unify fuel .solving g size a b) anything
      (Error.Refused σ) := by
  induction fuel generalizing f size a b with
  | zero => exact .fault _
  | succ fuel ih =>
    cases f with
    | zero =>
      -- Without fuel the rigid run has no answer.
      exact .unreached ((unifiesUnsolving σ g (fuel + 1)).unify .solving size a b).follows
        not_answers_fault
    | succ f =>
      refine (Barring.forceMeta fuel a).bind fun a' => (Barring.forceMeta fuel b).bind fun b' => ?_
      refine (Barring.emitWith _).bind fun _ => ?_
      by_cases hsolve : ∃ m sp rhs, Comparison.of .solving a' b' = .solve m sp rhs
      · obtain ⟨m, sp, rhs, hc⟩ := hsolve
        rw [hc]
        exact solve_beside hN hc
      · -- In all other cases both modes go on with the same parts.
        rw [Comparison.of_solving fun m sp rhs hc => hsolve ⟨m, sp, rhs, hc⟩]
        refine Barring.given (P := (∃ ms, ¬ M (.unify ms size a' b')) ∧
          (Comparison.of .rigid a' b').Converts M σ g f size a' b') ?_
          fun h => Comparison.converts h.1.1.1 h.1.1.2 h.1.2
        cases hc : Comparison.of .rigid a' b' with
        | solve m sp rhs => exact absurd hc Comparison.of_rigid_ne_solve
        | equal => exact .pure fun _ => trivial
        | mismatch => exact (mismatch_barring ..).imp id (fun _ _ => id) fun h => h.2.elim
        | binders c d =>
          refine Barring.bind (Q := anything) ?_ fun _ => ?_
          · by_cases hlam : c.binder.kind.isLam = true
            · simp only [hlam, if_true]
              exact .pure fun _ => trivial
            · simp only [hlam]
              exact (ih f size c.dom d.dom).given fun h => h.2.1 (by simpa using hlam)
          · refine (Barring.lift fun _ _ h => h).bind fun x =>
              (Barring.lift fun _ _ h => h).bind fun y => ?_
            exact (ih f (size + 1) x y).given fun h => h.1.1.1.2.2 fuel x y h.1.2 h.2
        | pairs x y z w =>
          exact ((ih f size x z).given fun h => h.2.1).bind fun _ =>
            (ih f size y w).given fun h => h.1.2.2
        | numeral n pred => exact (ih f size (.nat n) pred).given And.right
        | spines sa sb => exact (unifySpines_beside (ih f size) a' b' sa sb).given And.right
        | expandFun c v =>
          refine (Barring.lift fun _ _ h => h).bind fun x =>
            (Barring.lift fun _ _ h => h).bind fun y => ?_
          exact (ih f (size + 1) x y).given fun h => h.1.1.2 fuel x y h.1.2 h.2
        | expandPair x y v =>
          refine (Barring.lift fun _ _ h => h).bind fun fst => ?_
          refine ((ih f size x fst).given fun h => h.1.2.1 fuel fst h.2).bind fun _ => ?_
          refine (Barring.lift fun _ _ h => h).bind fun snd => ?_
          exact (ih f size y snd).given fun h => h.1.1.1.2.2 fuel snd h.2
        | sameGlobal sa sb =>
          refine (sameGlobal_beside hN (ih f size) hc).transaction.bind fun r => ?_
          cases r with
          | ok _ => exact .pure fun _ => trivial
          | error e =>
            by_cases hsoft : e.isSoft = true
            · simp only [hsoft, if_true]
              refine (Barring.force fuel a').bind fun w => (Barring.force fuel b').bind fun u => ?_
              refine (ih f size w u).given fun h => ?_
              rcases h.1.1.2 with ⟨_, hr, -⟩ | ⟨_, ⟨⟩, hrefused | ⟨-, hunfold⟩⟩
              · cases hr
              · exact absurd (hrefused.isSoft_eq.symm.trans hsoft) Bool.false_ne_true
              · exact hunfold w u h.1.2 h.2
            · simp only [hsoft]
              refine .refuse fun h => ?_
              rcases h.2 with ⟨_, hr, -⟩ | ⟨_, ⟨⟩, hrefused | ⟨hdiffers, -⟩⟩
              · cases hr
              · exact hrefused
              · exact absurd hdiffers.isSoft_eq hsoft
        | unfoldLeft =>
          exact (Barring.force fuel a').bind fun w => (ih f size w b').given fun h => h.1.2 w h.2
        | unfoldRight =>
          exact (Barring.force fuel b').bind fun w => (ih f size a' w).given fun h => h.1.2 w h.2

end

/-- **Unification of convertible values.** If conversion accepts two values, unifying them in the
same state, whenever it returns, either accepts them as well, with no new solutions, or refuses an
unsolved metavariable its solution because the metavariable occurs in it, needs another variable or
is applied to the same variable twice. It finds a solution on the way only if it met a case analysis
of an unknown boolean, or if conversion met a global. In particular it does not find that the values
differ unless it solved something before. -/
theorem unify_convertible {s s' t : State} {g : Globals} {f fuel size : Nat} {a b : Val}
    (hconv : unify f .rigid g size a b s = .ok () s')
    (hrun : (unify fuel .solving g size a b).Returns s t) :
    (unify fuel .solving g size a b s = .ok () t ∧ t.metas.lookup = s.metas.lookup) ∨
      (∃ e m, unify fuel .solving g size a b s = .error (.error e) t ∧ e.Refuses m ∧
        s.metas.lookup m = none) ∨
      s.Notes Event.IsSolved t ∧ (s.Notes Event.MeetsSplit t ∨ s.Notes Event.MeetsGlobal s') := by
  by_cases hsolves : s.Notes Event.IsSolved t ∧
    (s.Notes Event.MeetsSplit t ∨ s.Notes Event.MeetsGlobal s')
  · exact .inr (.inr hsolves)
  · obtain ⟨N, M, hbars, hN, hM⟩ : ∃ N M, BarsSolutions N M ∧ ¬ s.Notes N t ∧ ¬ s.Notes M s' := by
      by_cases hsolved : s.Notes Event.IsSolved t
      · obtain ⟨hsplit, hglobal⟩ := not_or.1 fun hmet => hsolves ⟨hsolved, hmet⟩
        exact ⟨_, _, .inr ⟨fun _ => id, fun _ => id⟩, hsplit, hglobal⟩
      · exact ⟨_, fun _ => False, .inl fun _ => id, hsolved, fun ⟨_, _, _, _, h⟩ => h⟩
    have hanswers : Answers M s.metas.lookup (unify f .rigid g size a b) :=
      ⟨s, (), s', rfl, hconv, hM⟩
    have hbeside := unify_beside (σ := s.metas.lookup) (g := g) hbars fuel f size a b
    rcases hrun with ⟨⟨⟩, hok⟩ | ⟨e, herror⟩
    · exact .inl ⟨hok, (hbeside.ok hanswers rfl hok hN).1⟩
    · obtain ⟨m, hm, he⟩ := hbeside.error hanswers rfl herror hN
      exact .inr (.inl ⟨e, m, herror, he, hm⟩)

/-- `?0 3` and `λ x. ?0 3 x` are convertible. Unification cannot solve `?0` yet, and postpones the
problem. -/
theorem unify_convertible_postponed :
    ∃ s t : State, s = { State.empty with metas := MetaStore.empty.fresh.2 } ∧
      unify 9 .solving .empty 0 (.neutral (.metavar ⟨0⟩) [.app .expl (.nat 3)])
        (.closure ⟨⟨.lam .expl, ⟨"x"⟩, false⟩, .type, Globals.empty.env,
          .app (.app (.metavar ⟨0⟩) .expl (.nat 3)) .expl (.var ⟨0⟩)⟩) s = .ok () t ∧
      t.metas.hasPostponed = true ∧ t.metas.lookup = s.metas.lookup := by
  obtain ⟨s, u, t, hs, hconv, hrun, hpostponed, hlog⟩ : ∃ s u t : State,
      s = { State.empty with metas := MetaStore.empty.fresh.2 } ∧
      unify 9 .rigid .empty 0 (.neutral (.metavar ⟨0⟩) [.app .expl (.nat 3)])
        (.closure ⟨⟨.lam .expl, ⟨"x"⟩, false⟩, .type, Globals.empty.env,
          .app (.app (.metavar ⟨0⟩) .expl (.nat 3)) .expl (.var ⟨0⟩)⟩) s = .ok () u ∧
      unify 9 .solving .empty 0 (.neutral (.metavar ⟨0⟩) [.app .expl (.nat 3)])
        (.closure ⟨⟨.lam .expl, ⟨"x"⟩, false⟩, .type, Globals.empty.env,
          .app (.app (.metavar ⟨0⟩) .expl (.nat 3)) .expl (.var ⟨0⟩)⟩) s = .ok () t ∧
      t.metas.hasPostponed = true ∧ ∀ e ∈ t.log, ¬ e.IsSolved :=
    ⟨_, _, _, rfl, rfl, rfl, rfl,
      fun e h => by rcases h with _ | ⟨_, _ | ⟨_, _ | ⟨_, ⟨⟩⟩⟩⟩ <;> exact id⟩
  rcases unify_convertible hconv (.of_ok hrun) with
    ⟨-, hlookup⟩ | ⟨e, m, herror, -⟩ | ⟨⟨events, e, hlogged, he, hsolved⟩, -⟩
  · exact ⟨s, t, hs, hrun, hpostponed, hlookup⟩
  · cases hrun.symm.trans herror
  · exact absurd hsolved (hlog e (hlogged ▸ List.mem_append_left _ he))

/-- `?0` and `λ x. ?0 x` are convertible, but unification does not accept them: `?0` occurs in what
would solve it. -/
theorem unify_refuses_convertible :
    ∃ s : State, s = { State.empty with metas := MetaStore.empty.fresh.2 } ∧
      s.metas.hasPostponed = false ∧ (∃ t, unify 9 .rigid .empty 0 (.metavar ⟨0⟩)
        (.closure ⟨⟨.lam .expl, ⟨"x"⟩, false⟩, .type, Globals.empty.env,
          .app (.metavar ⟨0⟩) .expl (.var ⟨0⟩)⟩) s = .ok () t) ∧
      ∃ t, unify 9 .solving .empty 0 (.metavar ⟨0⟩)
        (.closure ⟨⟨.lam .expl, ⟨"x"⟩, false⟩, .type, Globals.empty.env,
          .app (.metavar ⟨0⟩) .expl (.var ⟨0⟩)⟩) s = .error (.error (.occurs ⟨0⟩)) t :=
  ⟨_, rfl, rfl, ⟨_, rfl⟩, _, rfl⟩

/-- `if ?0 then $0 else $1` is convertible to its expansion to a function. Trying out `true`,
unification solves `?0` in the body of the function and then once more. -/
example :
    ∃ (a b : Val) (s : State),
      a = .neutral (.metavar ⟨0⟩) [.cases .bool .type [.fresh 0, .fresh 1]] ∧
      b = .closure
        ⟨⟨.lam .expl, ⟨"x"⟩, false⟩, .type, Globals.empty.env.push a,
          .app (.var ⟨1⟩) .expl (.var ⟨0⟩)⟩ ∧
      s = { State.empty with metas := MetaStore.empty.fresh.2 } ∧
      (unify 20 .rigid .empty 2 a b).run' s = some () ∧
        ((unify 20 .solving .empty 2 a b).internalError? s).isSome :=
  ⟨_, _, _, rfl, rfl, rfl, by decide +kernel, by decide +kernel⟩

end Elaborator
