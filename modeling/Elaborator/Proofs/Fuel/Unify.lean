import Elaborator.Proofs.Fuel.Eval
import Elaborator.Unify

/-! # More fuel for unification

Actions with more fuel go through the same states: either the first one runs out of fuel, or both
end in the same state with the same answer or failure (`Action.GoesOn`). Errors are compared by a
relation of their own, since some callers put places around them; unification itself finds the same
error (`unifiesLonger`).

The notes that are written down on the way do not depend on the fuel either, so whole states are
equal. -/

namespace Elaborator

namespace Action

variable {α β : Type} {E : Error → Error → Prop}

/-- How the ends of two runs go together: the first one is out of fuel, or both are the same up to
`E` in an error. -/
inductive Continued (E : Error → Error → Prop) :
    EStateM.Result Failure State α → EStateM.Result Failure State α → Prop
  | starved (s : State) (r : EStateM.Result Failure State α) :
      Continued E (.error (.fault .outOfFuel) s) r
  | same (r : EStateM.Result Failure State α) : Continued E r r
  | error {e e' : Error} (h : E e e') (s : State) :
      Continued E (.error (.error e) s) (.error (.error e') s)

/-- From every state, the first action runs out of fuel, or the second one ends like it, with errors
related by `E`. -/
structure GoesOn (E : Error → Error → Prop) (x y : Action α) : Prop where
  ends : ∀ s, Continued E (x s) (y s)

namespace GoesOn

variable {x y : Action α}

theorem refl (x : Action α) : GoesOn E x x := ⟨fun s => .same (x s)⟩

theorem starved (y : Action α) : GoesOn E (throw (.fault .outOfFuel)) y :=
  ⟨fun s => .starved s (y s)⟩

/-- If both find the same error, it does not matter how errors are compared. -/
theorem of_eq (h : GoesOn Eq x y) : GoesOn E x y := by
  constructor
  intro s
  have hends := h.ends s
  generalize x s = u at hends ⊢
  generalize y s = v at hends ⊢
  cases hends with
  | starved => exact .starved _ _
  | same => exact .same _
  | error h => exact h ▸ .same _

/-- A sequence goes on when its first action does and the rest does on every answer. -/
theorem bind {f g : α → Action β} (h : GoesOn E x y) (hf : ∀ a, GoesOn E (f a) (g a)) :
    GoesOn E (x >>= f) (y >>= g) := by
  constructor
  intro s
  have hends := h.ends s
  show Continued E (EStateM.bind x f s) (EStateM.bind y g s)
  unfold EStateM.bind
  generalize x s = u at hends ⊢
  generalize y s = v at hends ⊢
  cases hends with
  | starved => exact .starved _ _
  | error h => exact .error h _
  | same =>
    cases u with
    | ok a t => exact (hf a).ends t
    | error e t => exact .same _

/-- What is done first is the same. -/
theorem after (x : Action α) {f g : α → Action β} (hf : ∀ a, GoesOn E (f a) (g a)) :
    GoesOn E (x >>= f) (x >>= g) :=
  (refl x).bind hf

theorem lift {r q : Except Fault α} (h : Prolongs r q) : GoesOn E (liftM r) (liftM q) := by
  cases h with
  | starved => exact .starved _
  | same => exact .refl _

theorem ite {c : Prop} [Decidable c] {x' y' : Action α} (h : GoesOn E x y) (h' : GoesOn E x' y') :
    GoesOn E (if c then x else x') (if c then y else y') := by
  split
  · exact h
  · exact h'

theorem mapError {f : Error → Error} (hf : ∀ e e', E e e' → E (f e) (f e')) (h : GoesOn E x y) :
    GoesOn E (mapError f x) (mapError f y) := by
  constructor
  intro s
  have hends := h.ends s
  unfold Action.mapError
  generalize x s = u at hends ⊢
  generalize y s = v at hends ⊢
  cases hends with
  | starved => exact .starved _ _
  | same => exact .same _
  | error h => exact .error (hf _ _ h) _

theorem forM {f g : α → Action Unit} (h : ∀ a, GoesOn E (f a) (g a)) (as : List α) :
    GoesOn E (as.forM f) (as.forM g) := by
  induction as with
  | nil => exact .refl _
  | cons a as ih => exact (h a).bind fun _ => ih

/-! ### Actions whose errors are caught -/

/-- Catching an error needs the two sides to fail with the same one, since it is looked at. -/
theorem catchError (h : GoesOn Eq x y) : GoesOn E (catchError x) (catchError y) := by
  constructor
  intro s
  have hends := h.ends s
  unfold Action.catchError
  generalize x s = u at hends ⊢
  generalize y s = v at hends ⊢
  cases hends with
  | starved => exact .starved _ _
  | same => exact .same _
  | error h => exact h ▸ .same _

/-- A transaction needs the two sides to fail with the same error, since it decides what is rolled
back. -/
theorem transaction (h : GoesOn Eq x y) : GoesOn E (transaction x) (transaction y) :=
  after push fun _ => h.catchError.bind fun _ => .refl _

theorem attempt {x y : Action (Option α)} (h : GoesOn Eq x y) : GoesOn E (attempt x) (attempt y) :=
  after push fun _ => h.catchError.bind fun _ => .refl _

/-! ### Values under the current solutions -/

section

variable {fuel fuel' : Nat} (h : fuel ≤ fuel')

include h

theorem forceMeta (v : Val) : GoesOn E (forceMeta fuel v) (forceMeta fuel' v) :=
  after metas fun ms => .lift (Val.forceMeta_prolongs ms h v)

theorem force (v : Val) : GoesOn E (force fuel v) (force fuel' v) :=
  after metas fun ms => .lift (Val.force_prolongs ms h v)

theorem quote (n : Nat) (v : Val) : GoesOn E (quote fuel n v) (quote fuel' n v) :=
  after metas fun ms => .lift (Val.quote_prolongs ms h false n v)

theorem text (scope : Local) (v : Val) : GoesOn E (text fuel scope v) (text fuel' scope v) :=
  after metas fun ms => .lift (Local.text_prolongs ms h scope v)

end

end GoesOn

end Action

open Elaborator.Action

/-! ## The parts of unification -/

section

variable {E : Error → Error → Prop} {fuel fuel' : Nat}

theorem mismatch_goesOn (h : fuel ≤ fuel') (n : Nat) (a b : Val) :
    GoesOn E (mismatch fuel n a b) (mismatch fuel' n a b) :=
  (GoesOn.quote h n a).bind fun _ => (GoesOn.quote h n b).bind fun _ => .refl _

section

variable {u u' : Val → Val → Action Unit} {differ differ' : Action Unit}
  (hu : ∀ x y, GoesOn E (u x y) (u' x y)) (hdiffer : GoesOn E differ differ')

include hu

theorem unifyAll_goesOn (xs ys : List Val) : GoesOn E (unifyAll u xs ys) (unifyAll u' xs ys) := by
  induction xs generalizing ys with
  | nil => exact .refl _
  | cons x xs ih =>
    cases ys with
    | nil => exact .refl _
    | cons y ys => exact (hu x y).bind fun _ => ih ys

include hdiffer

theorem unifyElim_goesOn (e f : Elim) :
    GoesOn E (unifyElim u differ e f) (unifyElim u' differ' e f) := by
  cases e with
  | app i x =>
    cases f with
    | app j y => exact .ite (hu x y) hdiffer
    | proj | cases => exact hdiffer
  | proj p =>
    cases f with
    | proj q => exact .ite (.refl _) hdiffer
    | app | cases => exact hdiffer
  | cases e m cs =>
    cases f with
    | cases f n ds => exact .ite ((hu m n).bind fun _ => unifyAll_goesOn hu cs ds) hdiffer
    | app | proj => exact hdiffer

theorem unifySpines_goesOn (sa sb : Spine) :
    GoesOn E (unifySpines u differ sa sb) (unifySpines u' differ' sa sb) := by
  have helims : ∀ sa sb : Spine,
      GoesOn E (unifyElims u differ sa sb) (unifyElims u' differ' sa sb) := by
    intro sa
    induction sa with
    | nil => exact fun _ => .refl _
    | cons e sa ih =>
      intro sb
      cases sb with
      | nil => exact .refl _
      | cons f sb => exact (unifyElim_goesOn hu hdiffer e f).bind fun _ => ih sb
  exact .ite (helims sa sb) hdiffer

end

/-- The same branch is chosen. -/
theorem chooseBranch_goesOn (h : fuel ≤ fuel') {fit fit' : Val → Prim → Action Unit} (m : MetaId)
    (split : BoolSplit) (hfit : ∀ v p, GoesOn Eq (fit v p) (fit' v p))
    (branches : List (Val × Prim)) :
    GoesOn E (chooseBranch fuel m split fit branches)
      (chooseBranch fuel' m split fit' branches) := by
  induction branches with
  | nil => exact .refl _
  | cons branch branches ih =>
    refine (GoesOn.lift (BoolSplit.branch_prolongs h split branch.1)).bind fun v => ?_
    refine (hfit v branch.2).transaction.bind fun r => ?_
    cases r with
    | ok => exact .refl _
    | error e => exact .ite (.after _ fun _ => ih) (.refl _)

/-- Building a solution with more fuel goes on in the same way. -/
theorem solution_goesOn (h : fuel ≤ fuel') (g : Globals) (n : Nat) (m : MetaId)
    (params : List Param) (rhs : Val) :
    GoesOn E (solution fuel g n m params rhs) (solution fuel' g n m params rhs) := by
  refine (GoesOn.quote h n rhs).bind fun body => ?_
  cases body.rename m (params.map (·.level)).reverse n 0 with
  | error e => exact .refl _
  | ok t => exact .after _ fun _ => .lift (Term.eval_prolongs h g.env _)

/-! ## The recursion -/

structure UnifiesLonger (g : Globals) (fuel fuel' : Nat) : Prop where
  unify : ∀ (mode : Mode) (n : Nat) (a b : Val),
    GoesOn Eq (unify fuel mode g n a b) (unify fuel' mode g n a b)
  solve : ∀ (n : Nat) (m : MetaId) (sp : Spine) (rhs : Val),
    GoesOn Eq (solve fuel g n m sp rhs) (solve fuel' g n m sp rhs)
  retryFor : ∀ m : MetaId, GoesOn Eq (retryFor fuel g m) (retryFor fuel' g m)

variable {g : Globals}

/-- Unifying with one more unit of fuel on both sides goes on when all the calls underneath do. -/
theorem unify_succ_goesOn (h : fuel ≤ fuel') (ih : UnifiesLonger g fuel fuel') (mode : Mode)
    (n : Nat) (a b : Val) :
    GoesOn Eq (unify (fuel + 1) mode g n a b) (unify (fuel' + 1) mode g n a b) := by
  simp only [unify]
  refine (GoesOn.forceMeta h a).bind fun a => (GoesOn.forceMeta h b).bind fun b =>
    .after _ fun _ => ?_
  have henter : ∀ c : Closure,
      GoesOn Eq (liftM (c.enter fuel n) : Action Val) (liftM (c.enter fuel' n)) :=
    fun c => .lift (Closure.enter_prolongs h c n)
  have heliminate : ∀ v e,
      GoesOn Eq (liftM (Val.eliminate fuel v e) : Action Val) (liftM (v.eliminate fuel' e)) :=
    fun v e => .lift (Val.eliminate_prolongs h v e)
  have hspines := unifySpines_goesOn (ih.unify mode n) (mismatch_goesOn h n a b)
  cases Comparison.of mode a b with
  | equal => exact .refl _
  | mismatch => exact mismatch_goesOn h n a b
  | binders c c' =>
    refine GoesOn.bind (.ite (.refl _) (ih.unify mode n c.dom c'.dom)) fun _ => ?_
    exact (henter c).bind fun x => (henter c').bind fun y => ih.unify mode (n + 1) x y
  | pairs x y z w => exact (ih.unify mode n x z).bind fun _ => ih.unify mode n y w
  | numeral m pred => exact ih.unify mode n (.nat m) pred
  | spines sa sb => exact hspines sa sb
  | solve m sp rhs => exact ih.solve n m sp rhs
  | expandFun c v =>
    exact (henter c).bind fun x => (heliminate v _).bind fun y => ih.unify mode (n + 1) x y
  | expandPair x y v =>
    refine (heliminate v _).bind fun fst => (ih.unify mode n x fst).bind fun _ => ?_
    exact (heliminate v _).bind fun snd => ih.unify mode n y snd
  | sameGlobal sa sb =>
    refine (hspines sa sb).transaction.bind fun r => ?_
    cases r with
    | ok => exact .refl _
    | error e =>
      refine .ite ?_ (.refl _)
      exact (GoesOn.force h a).bind fun a => (GoesOn.force h b).bind fun b => ih.unify mode n a b
  | unfoldLeft => exact (GoesOn.force h a).bind fun a => ih.unify mode n a b
  | unfoldRight => exact (GoesOn.force h b).bind fun b => ih.unify mode n a b

/-- Solving with one more unit of fuel on both sides goes on when all the calls underneath do. -/
theorem solve_succ_goesOn (h : fuel ≤ fuel')
    (ih : UnifiesLonger g fuel fuel') (n : Nat) (m : MetaId) (sp : Spine) (rhs : Val) :
    GoesOn Eq (solve (fuel + 1) g n m sp rhs) (solve (fuel' + 1) g n m sp rhs) := by
  simp only [solve]
  refine .after _ fun _ => ?_
  cases BoolSplit.of? sp with
  | some split =>
    refine GoesOn.bind (chooseBranch_goesOn h m split (fun v p => ?_) _) fun chosen => .refl _
    exact (ih.unify .solving n v rhs).bind fun _ => ih.solve n m split.init (.prim p)
  | none =>
    refine .after metas fun ms => (GoesOn.lift (Spine.params?_prolongs ms h sp)).bind
      fun params => ?_
    cases params with
    | none => exact .refl _
    | some params =>
      refine .ite ?_ (.refl _)
      exact (solution_goesOn h g n m params rhs).bind fun v => .after _ fun _ => ih.retryFor m

/-- Retrying with one more unit of fuel on both sides goes on when all the calls underneath do. -/
theorem retryFor_succ_goesOn (ih : UnifiesLonger g fuel fuel') (m : MetaId) :
    GoesOn Eq (retryFor (fuel + 1) g m) (retryFor (fuel' + 1) g m) :=
  .after _ fun problems => .after _ fun _ =>
    .forM (fun p => ih.unify .solving p.size p.lhs p.rhs) problems

/-- More fuel changes nothing in a unification that ends. -/
theorem unifiesLonger (g : Globals) (h : fuel ≤ fuel') : UnifiesLonger g fuel fuel' := by
  induction fuel generalizing fuel' with
  | zero => exact ⟨fun _ _ _ _ => .starved _, fun _ _ _ _ => .starved _, fun _ => .starved _⟩
  | succ fuel ih =>
    obtain ⟨fuel', rfl⟩ := Nat.exists_eq_add_of_le' (Nat.le_trans (Nat.le_add_left 1 fuel) h)
    have hle := Nat.le_of_succ_le_succ h
    exact ⟨unify_succ_goesOn hle (ih hle), solve_succ_goesOn hle (ih hle),
      retryFor_succ_goesOn (ih hle)⟩

end

end Elaborator
