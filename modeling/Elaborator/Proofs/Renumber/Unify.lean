import Elaborator.Proofs.Renumber.State
import Elaborator.Unify

/-! # Unification at different numbers

Unification looks at the number of a metavariable in two ways only: it asks whether two
metavariables are the same, and it retries problems in the order of the numbers they wait for. Both
are kept by renumbering, so two runs on renumbered values take the same steps (`unifiesRenumbered`).
Solutions are evaluated over the globals, which therefore must not change. -/

namespace Elaborator

open Elaborator.Action

/-! ## Comparisons -/

def Comparison.renumber (d : Nat) : Comparison → Comparison
  | .equal => .equal
  | .mismatch => .mismatch
  | .binders c c' => .binders (c.renumber d) (c'.renumber d)
  | .pairs x y z w => .pairs (x.renumber d) (y.renumber d) (z.renumber d) (w.renumber d)
  | .numeral n pred => .numeral n (pred.renumber d)
  | .spines sa sb => .spines (sa.map (Elim.renumber d)) (sb.map (Elim.renumber d))
  | .solve m sp rhs => .solve (m.renumber d) (sp.map (Elim.renumber d)) (rhs.renumber d)
  | .expandFun c v => .expandFun (c.renumber d) (v.renumber d)
  | .expandPair x y v => .expandPair (x.renumber d) (y.renumber d) (v.renumber d)
  | .sameGlobal sa sb => .sameGlobal (sa.map (Elim.renumber d)) (sb.map (Elim.renumber d))
  | .unfoldLeft => .unfoldLeft
  | .unfoldRight => .unfoldRight

namespace Comparison

variable {d : Nat}

/-- Renumbered neutral values are compared as they were before. -/
theorem ofNeutrals_renumber (mode : Mode) (h : Head) (sa : Spine) (k : Head) (sb : Spine) :
    ofNeutrals mode (h.renumber d) (sa.map (Elim.renumber d)) (k.renumber d)
      (sb.map (Elim.renumber d)) = (ofNeutrals mode h sa k sb).renumber d := by
  simp only [ofNeutrals, Head.renumber_inj]
  by_cases hhk : h = k
  · simp [hhk, renumber]
  · simp only [hhk, if_false, List.length_map]
    cases mode with
    | rigid => rfl
    | solving =>
      cases h with
      | metavar m =>
        cases k with
        | metavar n =>
          simp only [Head.renumber_metavar]
          split <;> simp [renumber]
        | var | prim => simp [renumber]
      | var | prim => cases k <;> simp [renumber]

theorem ofLiteral_renumber (n : Nat) (h : Head) (sp : Spine) :
    ofLiteral n (h.renumber d) (sp.map (Elim.renumber d)) = (ofLiteral n h sp).renumber d := by
  cases n with
  | zero => rfl
  | succ n =>
    cases h with
    | var | metavar => rfl
    | prim p =>
      cases sp with
      | nil => cases p <;> rfl
      | cons e sp =>
        cases e with
        | app icit x => cases p <;> cases sp <;> cases icit <;> rfl
        | proj | cases => cases p <;> cases sp <;> rfl

theorem ofNeutral_renumber (mode : Mode) (h : Head) (sp : Spine) (v : Val) (unfold : Comparison)
    (hu : unfold.renumber d = unfold) :
    ofNeutral mode (h.renumber d) (sp.map (Elim.renumber d)) (v.renumber d) unfold =
      (ofNeutral mode h sp v unfold).renumber d := by
  have hrigid : ofNeutral .rigid (h.renumber d) (sp.map (Elim.renumber d)) (v.renumber d) unfold =
      (ofNeutral .rigid h sp v unfold).renumber d := by
    cases v with
    | nat n => exact ofLiteral_renumber n h sp
    | closure c => by_cases hc : c.binder.kind.isLam <;> simp [ofNeutral, hc, renumber]
    | pair a b s => simp [ofNeutral, renumber]
    | glued x sp base => exact hu.symm
    | type | neutral => rfl
  cases mode with
  | rigid => exact hrigid
  | solving =>
    cases h with
    | metavar m => rfl
    | var | prim => exact hrigid

theorem ofGlued_renumber (g v : Val) (unfold : Comparison) (hu : unfold.renumber d = unfold) :
    ofGlued (g.renumber d) (v.renumber d) unfold = (ofGlued g v unfold).renumber d := by
  cases v with
  | closure c =>
    by_cases hc : c.binder.kind.isLam
    · simp [ofGlued, hc, renumber]
    · simp [ofGlued, hc, hu]
  | pair a b s => rfl
  | type | neutral | glued | nat => exact hu.symm

/-- The comparison takes the same rule at other numbers. -/
theorem of_renumber (mode : Mode) (a b : Val) :
    of mode (a.renumber d) (b.renumber d) = (of mode a b).renumber d := by
  have neutralLeft := fun h sa => ofNeutral_renumber (d := d) mode h sa b .unfoldRight rfl
  have neutralRight := fun k sb => ofNeutral_renumber (d := d) mode k sb a .unfoldLeft rfl
  have gluedLeft := fun x sa u => ofGlued_renumber (d := d) (.glued x sa u) b .unfoldLeft rfl
  have gluedRight := fun y sb w => ofGlued_renumber (d := d) (.glued y sb w) a .unfoldRight rfl
  cases a with
  | neutral h sa =>
    cases b with
    | neutral k sb => simpa [of] using ofNeutrals_renumber mode h sa k sb
    | type | glued | closure | pair | nat => simpa [of] using neutralLeft h sa
  | glued x sa u =>
    cases b with
    | neutral k sb => simpa [of] using neutralRight k sb
    | glued y sb w => by_cases hxy : x = y <;> simp [of, hxy, renumber]
    | type | closure | pair | nat => simpa [of] using gluedLeft x sa u
  | closure c =>
    cases b with
    | neutral k sb => simpa [of] using neutralRight k sb
    | glued y sb w => simpa [of] using gluedRight y sb w
    | closure c' =>
      by_cases hcc : c.binder.kind = c'.binder.kind ∧ c.binder.erased = c'.binder.erased <;>
        simp [of, hcc, renumber]
    | type | pair | nat => simp [of, renumber]
  | nat m =>
    cases b with
    | neutral k sb => simpa [of] using neutralRight k sb
    | glued y sb w => simpa [of] using gluedRight y sb w
    | nat n => by_cases hmn : m = n <;> simp [of, hmn, renumber]
    | type | closure | pair => simp [of, renumber]
  | type | pair =>
    cases b with
    | neutral k sb => simpa [of] using neutralRight k sb
    | glued y sb w => simpa [of] using gluedRight y sb w
    | type | closure | pair | nat => simp [of, renumber]

end Comparison

/-! ## Solutions -/

inductive Agrees {α β : Type} (d : Nat) (f : α → β) : Except Failure α → Except Failure β → Prop
  | ok {a : α} {b : β} (h : b = f a) : Agrees d f (.ok a) (.ok b)
  | error {e e' : Failure} (h : e' = e.renumber d) : Agrees d f (.error e) (.error e')

theorem Agrees.bind {α β γ δ : Type} {d : Nat} {f : α → β} {g : γ → δ} {r : Except Failure α}
    {q : Except Failure β} {k : α → Except Failure γ} {l : β → Except Failure δ}
    (h : Agrees d f r q) (hk : ∀ a, Agrees d g (k a) (l (f a))) :
    Agrees d g (r >>= k) (q >>= l) := by
  cases h with
  | @ok a b h => exact h ▸ hk a
  | error h => exact .error h

namespace Term

variable {d : Nat}

/-- A term is moved into the scope of parameters, or it is refused for the same reason. -/
theorem rename_renumber (m : MetaId) (params : List Level) (size depth : Nat) (t : Term) :
    Agrees d (renumber d) (t.rename m params size depth)
      ((t.renumber d).rename (m.renumber d) params size depth) := by
  induction t generalizing depth with
  | type | global | prim | nat => exact .ok rfl
  | var i =>
    simp only [renumber, rename]
    split
    · exact .ok rfl
    · cases Index.toLevel ⟨i.toNat - depth⟩ size with
      | error f => exact .error rfl
      | ok l =>
        dsimp only
        cases params.idxOf? l with
        | some k => exact .ok rfl
        | none => exact .error rfl
  | metavar n =>
    simp only [renumber, rename, MetaId.renumber_inj]
    split
    · exact .error rfl
    · exact .ok rfl
  | app f icit x hf hx => exact (hf depth).bind fun f => (hx depth).bind fun x => .ok rfl
  | bind b dom body hd hb =>
    exact (hd depth).bind fun dom => (hb (depth + 1)).bind fun body => .ok rfl
  | pair a b s ha hb hs =>
    exact (ha depth).bind fun a => (hb depth).bind fun b => (hs depth).bind fun s => .ok rfl
  | proj x p hx => exact (hx depth).bind fun x => .ok rfl
  | letIn x erased ty val body ht hv hb =>
    exact (ht depth).bind fun ty => (hv depth).bind fun val =>
      (hb (depth + 1)).bind fun body => .ok rfl
  | elim e motive s cs hm hs hcs =>
    have hall : Agrees d (List.map (renumber d)) (renameAll m params size depth cs)
        (renameAll (m.renumber d) params size depth (cs.map (renumber d))) := by
      induction cs with
      | nil => exact .ok rfl
      | cons c cs ih =>
        obtain ⟨hc, hcs⟩ := List.forall_mem_cons.1 hcs
        exact (hc depth).bind fun c => (ih hcs).bind fun cs => .ok rfl
    rw [renumber, renumberAll_eq]
    exact (hm depth).bind fun m => (hs depth).bind fun s => hall.bind fun cs => .ok (by simp)

@[simp] theorem abstract_renumber (params : List Param) (body : Term) :
    (abstract params body).renumber d = abstract params (body.renumber d) := by
  induction params with
  | nil => rfl
  | cons p params ih =>
    show (Term.lam _ _ _ (abstract params body)).renumber d =
      Term.lam _ _ _ (abstract params (body.renumber d))
    rw [← ih]
    rfl

end Term

def BoolSplit.renumber (d : Nat) (s : BoolSplit) : BoolSplit :=
  ⟨s.init.map (Elim.renumber d), s.cases.map (Val.renumber d), s.trailing.map (Elim.renumber d)⟩

theorem BoolSplit.of?_renumber {d : Nat} (sp : Spine) :
    BoolSplit.of? (sp.map (Elim.renumber d)) = (BoolSplit.of? sp).map (BoolSplit.renumber d) := by
  rcases sp with _ | ⟨e, sp⟩
  · rfl
  · cases e with
    | proj p => rfl
    | cases e m cs => cases e <;> simp [BoolSplit.of?, BoolSplit.renumber]
    | app icit x =>
      rcases sp with _ | ⟨e, sp⟩
      · rfl
      · cases e with
        | app | proj => rfl
        | cases e m cs => cases e <;> simp [BoolSplit.of?, BoolSplit.renumber]

theorem BoolSplit.branch_renumber {d : Nat} (fuel : Nat) (s : BoolSplit) (case : Val) :
    (s.renumber d).branch fuel (case.renumber d) = Val.renumber d <$> s.branch fuel case := by
  obtain ⟨init, cs, trailing⟩ := s
  cases trailing with
  | none => rfl
  | some e => exact Val.eliminate_renumber case e

/-! ## The parts of unification -/

section

variable {d k : Nat}

theorem mismatch_tracks (fuel n : Nat) (a b : Val) :
    Tracks d k id (mismatch fuel n a b) (mismatch fuel n (a.renumber d) (b.renumber d)) :=
  (Tracks.quote fuel n a).bind fun _ => (Tracks.quote fuel n b).bind fun _ => .refuse rfl

section

variable {u u' : Val → Val → Action Unit} {differ differ' : Action Unit}
  (hu : ∀ x y, Tracks d k id (u x y) (u' (x.renumber d) (y.renumber d)))
  (hdiffer : Tracks d k id differ differ')

include hu

theorem unifyAll_tracks (xs ys : List Val) :
    Tracks d k id (unifyAll u xs ys)
      (unifyAll u' (xs.map (Val.renumber d)) (ys.map (Val.renumber d))) := by
  induction xs generalizing ys with
  | nil => exact .pure rfl
  | cons x xs ih =>
    cases ys with
    | nil => exact .pure rfl
    | cons y ys => exact (hu x y).bind fun _ => ih ys

include hdiffer

theorem unifyElim_tracks (e f : Elim) :
    Tracks d k id (unifyElim u differ e f)
      (unifyElim u' differ' (e.renumber d) (f.renumber d)) := by
  cases e with
  | app i x =>
    cases f with
    | app j y => exact .ite (hu x y) hdiffer
    | proj | cases => exact hdiffer
  | proj p =>
    cases f with
    | proj q => exact .ite (.pure rfl) hdiffer
    | app | cases => exact hdiffer
  | cases e m cs =>
    cases f with
    | cases f n ds =>
      simp only [Elim.renumber_cases, unifyElim, List.length_map]
      exact .ite ((hu m n).bind fun _ => unifyAll_tracks hu cs ds) hdiffer
    | app | proj => exact hdiffer

theorem unifySpines_tracks (sa sb : Spine) :
    Tracks d k id (unifySpines u differ sa sb)
      (unifySpines u' differ' (sa.map (Elim.renumber d)) (sb.map (Elim.renumber d))) := by
  have helims : ∀ sa sb : Spine, Tracks d k id (unifyElims u differ sa sb)
      (unifyElims u' differ' (sa.map (Elim.renumber d)) (sb.map (Elim.renumber d))) := by
    intro sa
    induction sa with
    | nil => exact fun _ => .pure rfl
    | cons e sa ih =>
      intro sb
      cases sb with
      | nil => exact .pure rfl
      | cons f sb => exact (unifyElim_tracks hu hdiffer e f).bind fun _ => ih sb
  simp only [unifySpines, List.length_map]
  exact .ite (helims sa sb) hdiffer

end

theorem postponeProblem_tracks (n : Nat) (m : MetaId) (sp : Spine) (rhs : Val) :
    Tracks d k id (postponeProblem n m sp rhs)
      (postponeProblem n (m.renumber d) (sp.map (Elim.renumber d)) (rhs.renumber d)) := by
  have hpostpone := Tracks.postpone (d := d) (k := k) m ⟨n, .neutral (.metavar m) sp, rhs⟩
  rw [Problem.renumber, Val.renumber_neutral] at hpostpone
  exact hpostpone

/-- The branches are tried in the same order, and the same one is chosen. -/
theorem chooseBranch_tracks {fit fit' : Val → Prim → Action Unit} (fuel : Nat) (m : MetaId)
    (split : BoolSplit) (hfit : ∀ v p, Tracks d k id (fit v p) (fit' (v.renumber d) p))
    (branches : List (Val × Prim)) : Tracks d k id (chooseBranch fuel m split fit branches)
      (chooseBranch fuel (m.renumber d) (split.renumber d) fit'
        (branches.map (Prod.map (Val.renumber d) id))) := by
  induction branches with
  | nil => exact .pure rfl
  | cons branch branches ih =>
    obtain ⟨case, constant⟩ := branch
    refine (Tracks.lift (split.branch_renumber fuel case)).bind fun v => ?_
    refine (hfit v constant).transaction.bind fun r q hrq => ?_
    cases hrq with
    | ok h => exact (Tracks.emit _ _).bind fun _ => .pure rfl
    | error h =>
      simp only [Error.isSoft_renumber]
      exact .ite ((Tracks.emit _ _).bind fun _ => ih) (.refuse rfl)

/-- The solution for a renumbered right-hand side is the renumbered solution. -/
theorem solution_tracks {g : Globals} (hg : g.env.renumber d = g.env) (fuel n : Nat) (m : MetaId)
    (params : List Param) (rhs : Val) :
    Tracks d k (Val.renumber d) (solution fuel g n m params rhs)
      (solution fuel g n (m.renumber d) params (rhs.renumber d)) := by
  refine (Tracks.quote fuel n rhs).bind fun body => ?_
  have hrename := body.rename_renumber (d := d) m (params.map (·.level)).reverse n 0
  generalize body.rename m (params.map (·.level)).reverse n 0 = r at hrename ⊢
  generalize (body.renumber d).rename (m.renumber d) (params.map (·.level)).reverse n 0 =
    q at hrename ⊢
  cases hrename with
  | @ok t _ h =>
    subst h
    refine (Tracks.emit _ _).bind fun _ => Tracks.lift ?_
    rw [← Term.abstract_renumber, ← Term.eval_renumber, hg]
  | error h => exact ⟨fun _ _ hs => .error h hs⟩

/-! ## The recursion -/

structure UnifiesRenumbered (d k : Nat) (g : Globals) (fuel : Nat) : Prop where
  unify : ∀ (mode : Mode) (n : Nat) (a b : Val),
    Tracks d k id (unify fuel mode g n a b) (unify fuel mode g n (a.renumber d) (b.renumber d))
  solve : ∀ (n : Nat) (m : MetaId) (sp : Spine) (rhs : Val),
    Tracks d k id (solve fuel g n m sp rhs)
      (solve fuel g n (m.renumber d) (sp.map (Elim.renumber d)) (rhs.renumber d))
  retryFor : ∀ m : MetaId, Tracks d k id (retryFor fuel g m) (retryFor fuel g (m.renumber d))

variable {g : Globals} {fuel : Nat}

/-- Unification tracks with one more unit of fuel when the calls underneath do. -/
theorem unify_succ_tracks (ih : UnifiesRenumbered d k g fuel) (mode : Mode) (n : Nat) (a b : Val) :
    Tracks d k id (unify (fuel + 1) mode g n a b)
      (unify (fuel + 1) mode g n (a.renumber d) (b.renumber d)) := by
  simp only [unify]
  refine (Tracks.forceMeta fuel a).bind fun a => (Tracks.forceMeta fuel b).bind fun b => ?_
  refine (Tracks.emitWith _ _).bind fun _ => ?_
  rw [Comparison.of_renumber]
  cases Comparison.of mode a b with
  | equal => exact .pure rfl
  | mismatch => exact mismatch_tracks fuel n a b
  | binders c c' =>
    have hdoms : Tracks d k id
        (if c.binder.kind.isLam then pure () else unify fuel mode g n c.dom c'.dom)
        (if c.binder.kind.isLam then pure ()
          else unify fuel mode g n (c.dom.renumber d) (c'.dom.renumber d)) :=
      .ite (.pure rfl) (ih.unify mode n c.dom c'.dom)
    refine hdoms.bind fun _ => (Tracks.lift (c.enter_renumber n)).bind fun x => ?_
    exact (Tracks.lift (c'.enter_renumber n)).bind fun y => ih.unify mode (n + 1) x y
  | pairs x y z w => exact (ih.unify mode n x z).bind fun _ => ih.unify mode n y w
  | numeral m pred => exact ih.unify mode n (.nat m) pred
  | spines sa sb => exact unifySpines_tracks (ih.unify mode n) (mismatch_tracks fuel n a b) sa sb
  | solve m sp rhs => exact ih.solve n m sp rhs
  | expandFun c v =>
    refine (Tracks.lift (c.enter_renumber n)).bind fun x => ?_
    exact (Tracks.lift (v.eliminate_app_renumber c.binder.kind.icit (.fresh n))).bind fun y =>
      ih.unify mode (n + 1) x y
  | expandPair x y v =>
    refine (Tracks.lift (v.eliminate_proj_renumber .fst)).bind fun fst =>
      (ih.unify mode n x fst).bind fun _ => ?_
    exact (Tracks.lift (v.eliminate_proj_renumber .snd)).bind fun snd => ih.unify mode n y snd
  | sameGlobal sa sb =>
    have hspines := unifySpines_tracks (ih.unify mode n) (mismatch_tracks fuel n a b) sa sb
    refine hspines.transaction.bind fun r q hrq => ?_
    cases hrq with
    | ok h => exact .pure rfl
    | error h =>
      dsimp only
      rw [Error.isSoft_renumber]
      refine .ite ?_ (.refuse rfl)
      exact (Tracks.force fuel a).bind fun a => (Tracks.force fuel b).bind fun b =>
        ih.unify mode n a b
  | unfoldLeft => exact (Tracks.force fuel a).bind fun a => ih.unify mode n a b
  | unfoldRight => exact (Tracks.force fuel b).bind fun b => ih.unify mode n a b

/-- Solving tracks with one more unit of fuel when the calls underneath do. -/
theorem solve_succ_tracks (hg : g.env.renumber d = g.env)
    (ih : UnifiesRenumbered d k g fuel) (n : Nat) (m : MetaId) (sp : Spine) (rhs : Val) :
    Tracks d k id (solve (fuel + 1) g n m sp rhs)
      (solve (fuel + 1) g n (m.renumber d) (sp.map (Elim.renumber d)) (rhs.renumber d)) := by
  simp only [solve]
  refine (Tracks.emitWith _ _).bind fun _ => ?_
  rw [BoolSplit.of?_renumber]
  cases BoolSplit.of? sp with
  | some split =>
    have hcases : (split.renumber d).cases.zip [Prim.true, .false] =
        (split.cases.zip [Prim.true, .false]).map (Prod.map (Val.renumber d) id) :=
          List.zip_map_left ..
    dsimp only [Option.map_some]
    rw [hcases]
    refine Tracks.bind (f := id) (chooseBranch_tracks fuel m split (fun v p => ?_) _)
      fun chosen => ?_
    · exact (ih.unify .solving n v rhs).bind fun _ => ih.solve n m split.init (.prim p)
    · cases chosen with
      | true => exact .pure rfl
      | false => exact postponeProblem_tracks n m sp rhs
  | none =>
    refine InStep.metas.bind fun ms ms' h => ?_
    rw [Spine.params?_renumber h.follows]
    refine Tracks.bind (f := id) (Tracks.lift (id_map _).symm) fun params => ?_
    cases params with
    | none => exact postponeProblem_tracks n m sp rhs
    | some params =>
      refine .ite ?_ (.refuse rfl)
      refine (solution_tracks hg fuel n m params rhs).bind fun v => ?_
      exact (Tracks.setMeta m v).bind fun _ => ih.retryFor m

theorem retryFor_succ_tracks (ih : UnifiesRenumbered d k g fuel) (m : MetaId) :
    Tracks d k id (retryFor (fuel + 1) g m) (retryFor (fuel + 1) g (m.renumber d)) := by
  refine (Tracks.takePostponed m).bind fun problems => ?_
  rw [List.isEmpty_map, List.length_map]
  refine Tracks.bind (f := id) (.ite (.pure rfl) (Tracks.emit _ _)) fun _ => ?_
  exact Tracks.forM fun p _ => ih.unify .solving p.size p.lhs p.rhs

/-- Unification takes the same steps on renumbered values. -/
theorem unifiesRenumbered (hg : g.env.renumber d = g.env) (fuel : Nat) :
    UnifiesRenumbered d k g fuel := by
  induction fuel with
  | zero => exact ⟨fun _ _ _ _ => .fault _, fun _ _ _ _ => .fault _, fun _ => .fault _⟩
  | succ fuel ih => exact ⟨unify_succ_tracks ih, solve_succ_tracks hg ih, retryFor_succ_tracks ih⟩

/-! ## Trying problems again -/

theorem retryRounds_tracks (hg : g.env.renumber d = g.env) (fuel rounds : Nat) :
    Tracks d k id (retryRounds fuel g rounds) (retryRounds fuel g rounds) := by
  induction rounds with
  | zero => exact .fault _
  | succ rounds ih =>
    refine InStep.metas.bind fun before before' h => ?_
    rw [h.hasPostponed_eq, h.postponedMetas_eq, h.unsolved_length]
    refine .ite ?_ (.pure rfl)
    refine (Tracks.forM fun m _ => (unifiesRenumbered hg fuel).retryFor m).bind fun _ => ?_
    refine InStep.metas.bind fun after after' h' => ?_
    rw [h'.unsolved_length]
    exact .ite ih (.pure rfl)

/-- Retrying every postponed problem takes the same course in a renumbered state. -/
theorem retryAll_tracks (hg : g.env.renumber d = g.env) (fuel : Nat) :
    Tracks d k id (retryAll fuel g) (retryAll fuel g) := by
  refine InStep.metas.bind fun ms ms' h => ?_
  rw [h.unsolved_length]
  exact retryRounds_tracks hg fuel _

end

end Elaborator
