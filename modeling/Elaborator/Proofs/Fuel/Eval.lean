import Elaborator.Primitive
import Elaborator.Proofs.Scope.Eval
import Elaborator.Unify.Solution

/-! # More fuel for evaluation

Fuel bounds the depth of a computation and decides nothing else: with more of it a computation ends
in the same way, with the same answer or the same fault, unless it had run out of fuel (`Prolongs`).
One lemma per function that works on values; the three that evaluate are done together, by induction
on the smaller amount of fuel (`evaluatesLonger`). -/

namespace Elaborator

/-- The first computation runs out of fuel, or the second one ends in the same way. -/
inductive Prolongs {α : Type} : Except Fault α → Except Fault α → Prop
  | starved (y : Except Fault α) : Prolongs (.error .outOfFuel) y
  | same (x : Except Fault α) : Prolongs x x

namespace Prolongs

variable {α β : Type} {x y : Except Fault α}

theorem bind {f g : α → Except Fault β} (h : Prolongs x y) (hf : ∀ a, Prolongs (f a) (g a)) :
    Prolongs (x >>= f) (y >>= g) := by
  cases h with
  | starved => exact .starved _
  | same =>
    cases x with
    | error e => exact .same _
    | ok a => exact hf a

theorem map {f : α → β} (h : Prolongs x y) : Prolongs (f <$> x) (f <$> y) := by
  cases h with
  | starved => exact .starved _
  | same => exact .same _

theorem mapM {f g : α → Except Fault β} (h : ∀ a, Prolongs (f a) (g a)) (as : List α) :
    Prolongs (as.mapM f) (as.mapM g) := by
  induction as with
  | nil => exact .same _
  | cons a as ih =>
    rw [List.mapM_cons, List.mapM_cons]
    exact (h a).bind fun b => ih.bind fun bs => .same _

theorem ite {c : Prop} [Decidable c] {x' y' : Except Fault α} (h : Prolongs x y)
    (h' : Prolongs x' y') : Prolongs (if c then x else x') (if c then y else y') := by
  split
  · exact h
  · exact h'

/-- An answer stays. -/
theorem ok {a : α} (h : Prolongs x y) (hx : x = .ok a) : y = .ok a := by
  cases h with
  | starved => cases hx
  | same => exact hx

end Prolongs

/-! ## Evaluation -/

structure EvaluatesLonger (fuel fuel' : Nat) : Prop where
  eval : ∀ (env : Env) (t : Term), Prolongs (t.eval fuel env) (t.eval fuel' env)
  eliminate : ∀ (v : Val) (e : Elim), Prolongs (v.eliminate fuel e) (v.eliminate fuel' e)
  reduce : ∀ (e : Eliminator) (scrut motive : Val) (cases : List Val),
    Prolongs (Val.reduce fuel e scrut motive cases) (Val.reduce fuel' e scrut motive cases)

section

variable {fuel fuel' : Nat}

/-- Evaluating with one more unit of fuel on both sides prolongs when all the calls underneath do.
-/
theorem Term.eval_succ_prolongs (ih : EvaluatesLonger fuel fuel') (env : Env) (t : Term) :
    Prolongs (t.eval (fuel + 1) env) (t.eval (fuel' + 1) env) := by
  cases t with
  | type | var | global | metavar | prim | nat => exact .same _
  | app f icit x =>
    exact (ih.eval env f).bind fun vf => (ih.eval env x).bind fun vx =>
      ih.eliminate vf (.app icit vx)
  | bind b dom body => exact (ih.eval env dom).bind fun vdom => .same _
  | pair a b s =>
    exact (ih.eval env a).bind fun va => (ih.eval env b).bind fun vb =>
      (ih.eval env s).bind fun vs => .same _
  | proj x p => exact (ih.eval env x).bind fun vx => ih.eliminate vx (.proj p)
  | letIn x erased ty val body => exact (ih.eval env val).bind fun v => ih.eval (env.push v) body
  | elim e motive scrut cases =>
    refine (ih.eval env scrut).bind fun vscrut => (ih.eval env motive).bind fun vmotive => ?_
    exact (Prolongs.mapM (ih.eval env) cases).bind fun vcases =>
      ih.eliminate vscrut (.cases e vmotive vcases)

theorem Val.eliminate_succ_prolongs (ih : EvaluatesLonger fuel fuel') (v : Val) (e : Elim) :
    Prolongs (v.eliminate (fuel + 1) e) (v.eliminate (fuel' + 1) e) := by
  cases e with
  | app icit x =>
    cases v with
    | closure c => exact ih.eval (c.env.push x) c.body
    | neutral h sp =>
      by_cases hb : (Elim.app icit x).Blocked h sp
      · rw [Val.eliminate_neutral_app hb, Val.eliminate_neutral_app hb]
        exact .same _
      · obtain ⟨rfl, rfl, rfl, n, rfl⟩ := not_not.1 hb
        exact .same (succNat n)
    | type | glued | pair | nat => exact .same _
  | proj p =>
    cases v with
    | neutral h sp =>
      rw [Val.eliminate_neutral_proj, Val.eliminate_neutral_proj]
      exact .same _
    | pair => cases p <;> exact .same _
    | type | glued | closure | nat => exact .same _
  | cases e motive cases =>
    -- Only the case analysis itself recurses; what is done with its result is the same.
    cases v with
    | glued => exact .same _
    | neutral h sp =>
      rw [Val.eliminate_neutral_cases, Val.eliminate_neutral_cases]
      exact (ih.reduce e (.neutral h sp) motive cases).map
    | type | closure | pair | nat => exact (ih.reduce e _ motive cases).bind fun o => .same _

theorem Val.reduce_succ_prolongs (ih : EvaluatesLonger fuel fuel') (e : Eliminator)
    (scrut motive : Val) (cases : List Val) :
    Prolongs (Val.reduce (fuel + 1) e scrut motive cases)
      (Val.reduce (fuel' + 1) e scrut motive cases) := by
  simp only [Val.reduce]
  cases Reduction.of e scrut with
  | select | stuck => exact .same _
  | step pred =>
    refine (ih.eliminate pred (.cases .nat motive cases)).bind fun previous => ?_
    refine (Prolongs.same (caseAt cases 1)).bind fun step => ?_
    exact (ih.eliminate step (.app .expl pred)).bind fun stepped =>
      (ih.eliminate stepped (.app .expl previous)).map

/-- More fuel prolongs every run of the evaluator: it ends the same way, unless it had run out. -/
theorem evaluatesLonger (h : fuel ≤ fuel') : EvaluatesLonger fuel fuel' := by
  induction fuel generalizing fuel' with
  | zero => exact ⟨fun _ _ => .starved _, fun _ _ => .starved _, fun _ _ _ _ => .starved _⟩
  | succ fuel ih =>
    obtain ⟨fuel', rfl⟩ := Nat.exists_eq_add_of_le' (Nat.le_trans (Nat.le_add_left 1 fuel) h)
    have hle := ih (Nat.le_of_succ_le_succ h)
    exact ⟨Term.eval_succ_prolongs hle, Val.eliminate_succ_prolongs hle,
      Val.reduce_succ_prolongs hle⟩

end

section

variable {fuel fuel' : Nat} (h : fuel ≤ fuel')

include h

theorem Term.eval_prolongs (env : Env) (t : Term) : Prolongs (t.eval fuel env) (t.eval fuel' env) :=
  (evaluatesLonger h).eval env t

theorem Val.eliminate_prolongs (v : Val) (e : Elim) :
    Prolongs (v.eliminate fuel e) (v.eliminate fuel' e) :=
  (evaluatesLonger h).eliminate v e

theorem Val.apply_prolongs (f x : Val) : Prolongs (f.apply fuel x) (f.apply fuel' x) :=
  Val.eliminate_prolongs h f (.app .expl x)

theorem Val.applySpine_prolongs (v : Val) (sp : Spine) :
    Prolongs (v.applySpine fuel sp) (v.applySpine fuel' sp) := by
  induction sp with
  | nil => exact .same _
  | cons e sp ih => exact ih.bind fun w => Val.eliminate_prolongs h w e

theorem Closure.apply_prolongs (c : Closure) (x : Val) :
    Prolongs (c.apply fuel x) (c.apply fuel' x) :=
  Term.eval_prolongs h (c.env.push x) c.body

theorem Closure.enter_prolongs (c : Closure) (n : Nat) :
    Prolongs (c.enter fuel n) (c.enter fuel' n) :=
  Closure.apply_prolongs h c (.fresh n)

theorem BoolSplit.branch_prolongs (split : BoolSplit) (case : Val) :
    Prolongs (split.branch fuel case) (split.branch fuel' case) := by
  obtain ⟨init, cases, trailing⟩ := split
  cases trailing with
  | none => exact .same _
  | some e => exact Val.eliminate_prolongs h case e

theorem Eliminator.signature_prolongs (e : Eliminator) (motive scrut : Val) (q : Option Equation) :
    Prolongs (e.signature fuel motive scrut q) (e.signature fuel' motive scrut q) := by
  have happly := Val.apply_prolongs h
  have hcases : Prolongs (e.caseTys fuel motive q) (e.caseTys fuel' motive q) := by
    cases e with
    | void => exact .same _
    | bool => exact (happly _ _).bind fun t => (happly _ _).bind fun f => .same _
    | nat => exact (happly _ _).bind fun z => .same _
    | heq =>
      cases q with
      | none => exact .same _
      | some q => exact (happly _ _).bind fun p => (happly _ _).bind fun r => .same _
  have hresult : Prolongs (e.resultTy fuel motive scrut q) (e.resultTy fuel' motive scrut q) := by
    cases e with
    | void | bool | nat => exact happly _ _
    | heq =>
      cases q with
      | none => exact happly _ _
      | some q => exact (happly _ _).bind fun p => happly p scrut
  exact hcases.bind fun caseTys => hresult.bind fun result => .same _

end

/-! ## Forcing and reading back -/

section

variable {fuel fuel' : Nat} (ms : MetaStore)

theorem Val.forceMeta_prolongs (h : fuel ≤ fuel') (v : Val) :
    Prolongs (v.forceMeta fuel ms) (v.forceMeta fuel' ms) := by
  induction fuel generalizing fuel' v with
  | zero => exact .starved _
  | succ fuel ih =>
    obtain ⟨fuel', rfl⟩ := Nat.exists_eq_add_of_le' (Nat.le_trans (Nat.le_add_left 1 fuel) h)
    have hle := Nat.le_of_succ_le_succ h
    cases v with
    | neutral k sp =>
      cases k with
      | metavar m =>
        simp only [Val.forceMeta]
        cases ms.lookup m with
        | none => exact .same _
        | some solution => exact (Val.applySpine_prolongs hle solution sp).bind fun w => ih hle w
      | var | prim => exact .same _
    | type | glued | closure | pair | nat => exact .same _

theorem Val.force_prolongs (h : fuel ≤ fuel') (v : Val) :
    Prolongs (v.force fuel ms) (v.force fuel' ms) := by
  induction fuel generalizing fuel' v with
  | zero => exact .starved _
  | succ fuel ih =>
    obtain ⟨fuel', rfl⟩ := Nat.exists_eq_add_of_le' (Nat.le_trans (Nat.le_add_left 1 fuel) h)
    have hle := Nat.le_of_succ_le_succ h
    cases v with
    | glued x sp base => exact (Val.applySpine_prolongs hle base sp).bind fun w => ih hle w
    | type | neutral | closure | pair | nat =>
      refine (Val.forceMeta_prolongs ms hle _).bind fun w => ?_
      cases w with
      | glued x sp base => exact ih hle (.glued x sp base)
      | type | neutral | closure | pair | nat => exact .same _

theorem Spine.quote_prolongs {quote quote' : Val → Except Fault Term}
    (h : ∀ v, Prolongs (quote v) (quote' v)) (head : Term) (sp : Spine) :
    Prolongs (Spine.quote quote head sp) (Spine.quote quote' head sp) := by
  induction sp with
  | nil => exact .same _
  | cons e sp ih =>
    cases e with
    | app icit x => exact ih.bind fun t => (h x).bind fun u => .same _
    | proj p => exact ih.bind fun t => .same _
    | cases e motive cases =>
      exact ih.bind fun t => (h motive).bind fun m => (Prolongs.mapM h cases).bind fun cs => .same _

/-- Reading back with more fuel gives the same term, unless the fuel had run out. -/
theorem Val.quote_prolongs (h : fuel ≤ fuel') (full : Bool) (n : Nat) (v : Val) :
    Prolongs (v.quote fuel ms full n) (v.quote fuel' ms full n) := by
  induction fuel generalizing fuel' n v with
  | zero => exact .starved _
  | succ fuel ih =>
    obtain ⟨fuel', rfl⟩ := Nat.exists_eq_add_of_le' (Nat.le_trans (Nat.le_add_left 1 fuel) h)
    have hle := Nat.le_of_succ_le_succ h
    refine (Val.forceMeta_prolongs ms hle v).bind fun w => ?_
    cases w with
    | type | nat => exact .same _
    | neutral k sp =>
      exact (Prolongs.same (k.quote n)).bind fun head => Spine.quote_prolongs (ih hle n) head sp
    | glued x sp base =>
      refine .ite ?_ (Spine.quote_prolongs (ih hle n) (.global x) sp)
      exact (Val.force_prolongs ms hle (.glued x sp base)).bind fun w => ih hle n w
    | closure c =>
      refine (ih hle n c.dom).bind fun dom => (Closure.enter_prolongs hle c n).bind fun body => ?_
      exact (ih hle (n + 1) body).bind fun body => .same _
    | pair a b s =>
      exact (ih hle n a).bind fun a => (ih hle n b).bind fun b => (ih hle n s).bind fun s => .same _

theorem Local.text_prolongs (h : fuel ≤ fuel') (scope : Local) (v : Val) :
    Prolongs (scope.text fuel ms v) (scope.text fuel' ms v) :=
  (Val.quote_prolongs ms h false _ v).bind fun _ => .same _

theorem Spine.params?_prolongs (h : fuel ≤ fuel') (sp : Spine) :
    Prolongs (Spine.params? fuel ms sp) (Spine.params? fuel' ms sp) := by
  induction sp with
  | nil => exact .same _
  | cons e sp ih =>
    refine ih.bind fun ps => ?_
    cases ps with
    | none => exact .same _
    | some ps =>
      cases e with
      | app icit x => exact (Val.force_prolongs ms h x).bind fun w => .same _
      | proj | cases => exact .same _

end

end Elaborator
