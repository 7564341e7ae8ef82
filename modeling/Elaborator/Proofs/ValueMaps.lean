import Elaborator.Proofs.Scope.Eval

/-! # Maps that evaluation respects

Evaluation takes values apart and puts them together. It never asks which variable or which
metavariable a value is stuck on, and it does not open a global. A map that replaces these and
leaves the form of values as it is (`EvalMap`) may therefore be applied before an evaluation or
after it, with the same answer or the same fault (`EvalMap.commutes`). -/

namespace Elaborator

/-! ## Maps of values -/

def Head.map (level : Level → Level) (metavar : MetaId → MetaId) : Head → Head
  | .var l => .var (level l)
  | .prim p => .prim p
  | .metavar m => .metavar (metavar m)

def Elim.map (f : Val → Val) : Elim → Elim
  | .app icit x => .app icit (f x)
  | .proj p => .proj p
  | .cases e motive cs => .cases e (f motive) (cs.map f)

def Env.map (f g : Val → Val) (env : Env) : Env :=
  ⟨env.globals.map fun e => (e.1, g e.2), env.locals.map f⟩

section

variable {f g : Val → Val} {env : Env}

theorem Env.local?_map (i : Index) : (env.map f g).local? i = (env.local? i).map f :=
  List.getElem?_map ..

theorem Env.global?_map (x : Name) : (env.map f g).global? x = (env.global? x).map g := by
  obtain ⟨globals, locals⟩ := env
  induction globals with
  | nil => rfl
  | cons e globals ih =>
    obtain ⟨y, v⟩ := e
    simp only [Env.global?, Env.map, List.map_cons, List.lookup_cons] at ih ⊢
    cases x == y with
    | true => rfl
    | false => exact ih

theorem Env.size_map : (env.map f g).size = env.size := List.length_map ..

end

/-- A map of values and terms that keeps their form. -/
structure EvalMap where
  val : Val → Val
  term : Term → Term
  level : Level → Level
  metavar : MetaId → MetaId
  base : Val → Val
  val_type : val .type = .type
  val_nat : ∀ n, val (.nat n) = .nat n
  val_neutral : ∀ h sp, val (.neutral h sp) = .neutral (h.map level metavar) (sp.map (Elim.map val))
  val_glued : ∀ x sp b, val (.glued x sp b) = .glued x (sp.map (Elim.map val)) (base b)
  val_closure : ∀ c,
    val (.closure c) = .closure ⟨c.binder, val c.dom, c.env.map val base, term c.body⟩
  val_pair : ∀ a b s, val (.pair a b s) = .pair (val a) (val b) (val s)
  term_type : term .type = .type
  term_var : ∀ i, term (.var i) = .var i
  term_global : ∀ x, term (.global x) = .global x
  term_metavar : ∀ m, term (.metavar m) = .metavar (metavar m)
  term_prim : ∀ p, term (.prim p) = .prim p
  term_nat : ∀ n, term (.nat n) = .nat n
  term_app : ∀ f icit x, term (.app f icit x) = .app (term f) icit (term x)
  term_bind : ∀ b dom body, term (.bind b dom body) = .bind b (term dom) (term body)
  term_pair : ∀ a b s, term (.pair a b s) = .pair (term a) (term b) (term s)
  term_proj : ∀ x p, term (.proj x p) = .proj (term x) p
  term_letIn : ∀ x erased ty v body,
    term (.letIn x erased ty v body) = .letIn x erased (term ty) (term v) (term body)
  term_elim : ∀ e m s cs, term (.elim e m s cs) = .elim e (term m) (term s) (cs.map term)

attribute [simp] EvalMap.val_type EvalMap.val_nat EvalMap.val_neutral EvalMap.val_glued
  EvalMap.val_closure
  EvalMap.val_pair EvalMap.term_type EvalMap.term_var EvalMap.term_global EvalMap.term_metavar
    EvalMap.term_prim
  EvalMap.term_nat EvalMap.term_app EvalMap.term_bind EvalMap.term_pair EvalMap.term_proj
    EvalMap.term_letIn
  EvalMap.term_elim

/-- What goes on with a mapped answer has a mapped answer again. -/
theorem bind_map_eq {ε α β γ δ : Type} {f : α → γ} {g : β → δ} {x : Except ε α} {y : Except ε γ}
    {k : α → Except ε β} {l : γ → Except ε δ} (hy : y = f <$> x)
    (hk : ∀ a, x = .ok a → l (f a) = g <$> k a) : y >>= l = g <$> (x >>= k) := by
  subst hy
  cases x with
  | error e => rfl
  | ok a => exact hk a rfl

/-- A walk through a mapped list gives the mapped answers. -/
theorem mapM_map_of_mem {ε α β γ δ : Type} {f : α → Except ε β}
    {g : γ → Except ε δ} {p : α → γ} {q : β → δ} {xs : List α} (h : ∀ x ∈ xs, g (p x) = q <$> f x) :
    (xs.map p).mapM g = List.map q <$> xs.mapM f := by
  induction xs with
  | nil => rfl
  | cons x xs ih =>
    obtain ⟨hx, hxs⟩ := List.forall_mem_cons.1 h
    simp [hx, ih hxs]

namespace EvalMap

variable (F : EvalMap) {fuel : Nat}

/-! ## Single steps -/

def reduction : Reduction → Reduction
  | .select k => .select k
  | .step pred => .step (F.val pred)
  | .stuck => .stuck

/-- Which reduction applies is not affected by a map of values. -/
theorem reduction_of (e : Eliminator) (v : Val) :
    Reduction.of e (F.val v) = F.reduction (Reduction.of e v) := by
  cases v with
  | type => cases e <;> simp [Reduction.of, reduction]
  | glued x sp base => cases e <;> simp [Reduction.of, reduction]
  | closure c => cases e <;> simp [Reduction.of, reduction]
  | pair a b s => cases e <;> simp [Reduction.of, reduction]
  | nat n => cases e <;> cases n <;> simp [Reduction.of, reduction]
  | neutral h sp =>
    rw [F.val_neutral]
    cases h with
    | var l => cases e <;> rfl
    | metavar m => cases e <;> rfl
    | prim p =>
      cases sp with
      | nil => cases e <;> cases p <;> rfl
      | cons e₁ sp =>
        cases sp with
        | nil => cases e <;> cases p <;> cases e₁ <;> rfl
        | cons e₂ sp => cases e <;> cases p <;> cases e₁ <;> cases sp <;> rfl

theorem succNat (n : Nat) : F.val <$> succNat n = succNat n := by
  unfold Elaborator.succNat
  split
  · simp
  · rfl

theorem caseAt (cs : List Val) (k : Nat) : caseAt (cs.map F.val) k = F.val <$> caseAt cs k := by
  simp only [Elaborator.caseAt, List.getElem?_map]
  cases cs[k]? <;> rfl

/-- A map makes no literal, so what does not compute still does not. -/
theorem blocked_app {h : Head} {sp : Spine} {icit : Icit} {x : Val}
    (hb : (Elim.app icit x).Blocked h sp) :
    (Elim.app icit (F.val x)).Blocked (h.map F.level F.metavar) (sp.map (Elim.map F.val)) := by
  rintro ⟨hh, hsp, hicit, n, hx⟩
  refine hb ⟨?_, List.map_eq_nil_iff.1 hsp, hicit, n, ?_⟩
  · cases h <;> cases hh
    rfl
  · cases x with
    | nat k => rwa [F.val_nat] at hx
    | type | neutral | glued | closure | pair => simp at hx

/-! ## Evaluation -/

structure Commutes (fuel : Nat) : Prop where
  eval : ∀ (env : Env) (t : Term), (F.term t).eval fuel (env.map F.val F.base) =
    F.val <$> t.eval fuel env
  eliminate : ∀ (v : Val) (e : Elim), (F.val v).eliminate fuel (e.map F.val) =
    F.val <$> v.eliminate fuel e
  reduce : ∀ (e : Eliminator) (scrut motive : Val) (cs : List Val),
    Val.reduce fuel e (F.val scrut) (F.val motive) (cs.map F.val) =
      Option.map F.val <$> Val.reduce fuel e scrut motive cs

variable {F}

/-- Evaluation commutes with a map of values, when the evaluator with less fuel does. -/
theorem eval_step (ih : F.Commutes fuel) (env : Env) (t : Term) :
    (F.term t).eval (fuel + 1) (env.map F.val F.base) = F.val <$> t.eval (fuel + 1) env := by
  have happ (v : Val) (icit : Icit) (x : Val) := ih.eliminate v (.app icit x)
  have hproj (v : Val) (p : Proj) := ih.eliminate v (.proj p)
  have hcases (v : Val) (e : Eliminator) (m : Val) (cs : List Val) := ih.eliminate v (.cases e m cs)
  simp only [Elim.map] at happ hproj hcases
  cases t with
  | var i =>
    simp only [term_var, Term.eval, Env.local?_map, Env.size_map]
    cases env.local? i <;> rfl
  | global x =>
    simp only [term_global, Term.eval, Env.global?_map]
    cases env.global? x <;> simp
  | type | prim | nat => simp [Term.eval, Val.prim, Head.map]
  | metavar m => simp [Term.eval, Val.metavar, Head.map]
  | app f icit x => simp [Term.eval, ih.eval, happ]
  | bind b dom body => simp [Term.eval, ih.eval]
  | pair a b s => simp [Term.eval, ih.eval]
  | proj x p => simp [Term.eval, ih.eval, hproj]
  | letIn x erased ty val body =>
    have hbody (v : Val) : (F.term body).eval fuel ((env.map F.val F.base).push (F.val v)) =
        F.val <$> body.eval fuel (env.push v) := ih.eval (env.push v) body
    simp [Term.eval, ih.eval, hbody]
  | elim e m s cs =>
    have hall := mapM_map_of_mem fun c (_ : c ∈ cs) => ih.eval env c
    simp [Term.eval, ih.eval, hcases, hall]

/-- Reduction commutes with a map of values, when the evaluator with less fuel does. -/
theorem reduce_step (ih : F.Commutes fuel) (e : Eliminator) (scrut motive : Val) (cs : List Val) :
    Val.reduce (fuel + 1) e (F.val scrut) (F.val motive) (cs.map F.val) =
      Option.map F.val <$> Val.reduce (fuel + 1) e scrut motive cs := by
  have happ (v x : Val) := ih.eliminate v (.app .expl x)
  have hcases (v : Val) := ih.eliminate v (.cases .nat motive cs)
  simp only [Elim.map] at happ hcases
  simp only [Val.reduce, F.reduction_of]
  cases Reduction.of e scrut with
  | select k => simp [reduction, F.caseAt]
  | stuck => rfl
  | step pred => simp [reduction, hcases, happ, F.caseAt]

/-- Elimination commutes with a map of values, when the evaluator with less fuel does. -/
theorem eliminate_step (ih : F.Commutes fuel) (v : Val) (e : Elim) :
    (F.val v).eliminate (fuel + 1) (e.map F.val) = F.val <$> v.eliminate (fuel + 1) e := by
  cases e with
  | app icit x =>
    cases v with
    | closure c =>
      rw [F.val_closure]
      exact ih.eval (c.env.push x) c.body
    | neutral h sp =>
      rw [F.val_neutral]
      by_cases hb : (Elim.app icit x).Blocked h sp
      · rw [Val.eliminate_neutral_app hb]
        refine (Val.eliminate_neutral_app (F.blocked_app hb)).trans ?_
        simp [Elim.map]
      · obtain ⟨rfl, rfl, rfl, n, rfl⟩ := not_not.1 hb
        simp only [Elim.map, F.val_nat]
        exact (F.succNat n).symm
    | type | glued | pair | nat => simp [Elim.map, Val.eliminate]
  | proj p =>
    cases v with
    | pair a b s => cases p <;> simp [Elim.map, Val.eliminate]
    | neutral h sp =>
      rw [F.val_neutral, Elim.map, Val.eliminate_neutral_proj, Val.eliminate_neutral_proj]
      simp [Elim.map]
    | type | glued | closure | nat => simp [Elim.map, Val.eliminate]
  | cases e m cs =>
    have hreduce := ih.reduce e v m cs
    -- Either the case analysis computes, or it is added to the spine of what is stuck.
    cases v with
    | glued x sp base => simp [Elim.map, Val.eliminate]
    | neutral h sp =>
      rw [F.val_neutral] at hreduce ⊢
      rw [Elim.map, Val.eliminate_neutral_cases, Val.eliminate_neutral_cases, hreduce]
      cases Val.reduce fuel e (.neutral h sp) m cs with
      | error f => rfl
      | ok o => cases o <;> simp [Elim.map]
    | type | closure | pair | nat =>
      simp only [val_type, val_closure, val_pair, val_nat] at hreduce ⊢
      simp only [Elim.map, Val.eliminate, hreduce]
      generalize Val.reduce fuel e _ m cs = r
      cases r with
      | error f => rfl
      | ok o => cases o <;> rfl

variable (F)

/-- **Evaluation commutes with the map.** -/
theorem commutes (fuel : Nat) : F.Commutes fuel := by
  induction fuel with
  | zero => exact ⟨fun _ _ => rfl, fun _ _ => rfl, fun _ _ _ _ => rfl⟩
  | succ fuel ih => exact ⟨eval_step ih, eliminate_step ih, reduce_step ih⟩

/-- Applying a value to a spine commutes with a map of values. -/
theorem applySpine (fuel : Nat) (v : Val) (sp : Spine) :
    (F.val v).applySpine fuel (sp.map (Elim.map F.val)) = F.val <$> v.applySpine fuel sp := by
  induction sp with
  | nil => rfl
  | cons e sp ih => simp [Val.applySpine, ih, (F.commutes fuel).eliminate]

end EvalMap

end Elaborator
