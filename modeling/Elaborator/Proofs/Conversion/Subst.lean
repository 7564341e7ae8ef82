import Elaborator.Proofs.Scope.Basic

/-! # Substitution in core terms

Evaluation never substitutes: it keeps the values of variables in an environment. To say what a
value stands for, and what it means that two terms are equal, substitution is needed after all.
There are three functions:

* `Term.relabel` replaces variables by variables,
* `Term.subst` replaces variables by terms,
* `Term.expand` replaces variables by terms and each `let` by its body, at the value of the
variable.

Replacements are functions on indices. The lemmas say how one traversal follows another, each under
a pointwise hypothesis, so that no equality of functions is needed. -/

namespace Elaborator

namespace Term

/-! ## The traversals -/

def lift (ξ : Nat → Nat) : Nat → Nat
  | 0 => 0
  | i + 1 => ξ i + 1

mutual

def relabel : (Nat → Nat) → Term → Term
  | ξ, .var i => .var ⟨ξ i.toNat⟩
  | _, .type => .type
  | _, .global x => .global x
  | _, .metavar m => .metavar m
  | _, .prim p => .prim p
  | _, .nat n => .nat n
  | ξ, .app f icit x => .app (f.relabel ξ) icit (x.relabel ξ)
  | ξ, .bind b dom body => .bind b (dom.relabel ξ) (body.relabel (lift ξ))
  | ξ, .pair a b s => .pair (a.relabel ξ) (b.relabel ξ) (s.relabel ξ)
  | ξ, .proj x p => .proj (x.relabel ξ) p
  | ξ, .letIn x erased ty val body =>
    .letIn x erased (ty.relabel ξ) (val.relabel ξ) (body.relabel (lift ξ))
  | ξ, .elim e motive scrut cases =>
    .elim e (motive.relabel ξ) (scrut.relabel ξ) (relabelAll ξ cases)

def relabelAll : (Nat → Nat) → List Term → List Term
  | _, [] => []
  | ξ, t :: ts => t.relabel ξ :: relabelAll ξ ts

end

def shift (t : Term) : Term := t.relabel (· + 1)

def cons (t : Term) (σ : Nat → Term) : Nat → Term
  | 0 => t
  | i + 1 => σ i

def up (σ : Nat → Term) : Nat → Term := cons (.var ⟨0⟩) fun i => (σ i).shift

def self (i : Nat) : Term := .var ⟨i⟩

mutual

def subst : (Nat → Term) → Term → Term
  | σ, .var i => σ i.toNat
  | _, .type => .type
  | _, .global x => .global x
  | _, .metavar m => .metavar m
  | _, .prim p => .prim p
  | _, .nat n => .nat n
  | σ, .app f icit x => .app (f.subst σ) icit (x.subst σ)
  | σ, .bind b dom body => .bind b (dom.subst σ) (body.subst (up σ))
  | σ, .pair a b s => .pair (a.subst σ) (b.subst σ) (s.subst σ)
  | σ, .proj x p => .proj (x.subst σ) p
  | σ, .letIn x erased ty val body => .letIn x erased (ty.subst σ) (val.subst σ) (body.subst (up σ))
  | σ, .elim e motive scrut cases => .elim e (motive.subst σ) (scrut.subst σ) (substAll σ cases)

def substAll : (Nat → Term) → List Term → List Term
  | _, [] => []
  | σ, t :: ts => t.subst σ :: substAll σ ts

end

def inst (body x : Term) : Term := body.subst (cons x self)

mutual

/-- Replaces each variable `i` by the term `σ i` and unfolds every `let`. -/
def expand : (Nat → Term) → Term → Term
  | σ, .var i => σ i.toNat
  | _, .type => .type
  | _, .global x => .global x
  | _, .metavar m => .metavar m
  | _, .prim p => .prim p
  | _, .nat n => .nat n
  | σ, .app f icit x => .app (f.expand σ) icit (x.expand σ)
  | σ, .bind b dom body => .bind b (dom.expand σ) (body.expand (up σ))
  | σ, .pair a b s => .pair (a.expand σ) (b.expand σ) (s.expand σ)
  | σ, .proj x p => .proj (x.expand σ) p
  | σ, .letIn _ _ _ val body => body.expand (cons (val.expand σ) σ)
  | σ, .elim e motive scrut cases => .elim e (motive.expand σ) (scrut.expand σ) (expandAll σ cases)

def expandAll : (Nat → Term) → List Term → List Term
  | _, [] => []
  | σ, t :: ts => t.expand σ :: expandAll σ ts

end

theorem relabelAll_eq (ξ : Nat → Nat) (ts : List Term) : relabelAll ξ ts = ts.map (relabel ξ) := by
  induction ts with
  | nil => rfl
  | cons t ts ih => rw [List.map_cons, ← ih, relabelAll]

theorem substAll_eq (σ : Nat → Term) (ts : List Term) : substAll σ ts = ts.map (subst σ) := by
  induction ts with
  | nil => rfl
  | cons t ts ih => rw [List.map_cons, ← ih, substAll]

theorem expandAll_eq (σ : Nat → Term) (ts : List Term) : expandAll σ ts = ts.map (expand σ) := by
  induction ts with
  | nil => rfl
  | cons t ts ih => rw [List.map_cons, ← ih, expandAll]

/-! ## One traversal after another -/

/-- Two relabellings are one. -/
theorem relabel_relabel (t : Term) {ξ ζ θ : Nat → Nat} (h : ∀ i, ζ (ξ i) = θ i) :
    (t.relabel ξ).relabel ζ = t.relabel θ := by
  have hlift {ξ ζ θ : Nat → Nat} (h : ∀ i, ζ (ξ i) = θ i) : ∀ i, lift ζ (lift ξ i) = lift θ i := by
    intro i
    cases i with
    | zero => rfl
    | succ i => exact congrArg (· + 1) (h i)
  induction t generalizing ξ ζ θ with
  | type | global | metavar | prim | nat => rfl
  | var i => simp only [relabel, h]
  | app f icit x hf hx => simp only [relabel, hf h, hx h]
  | bind b dom body hdom hbody => simp only [relabel, hdom h, hbody (hlift h)]
  | pair a b s ha hb hs => simp only [relabel, ha h, hb h, hs h]
  | proj x p hx => simp only [relabel, hx h]
  | letIn x erased ty val body hty hval hbody => simp only [relabel, hty h, hval h, hbody (hlift h)]
  | elim e m s cs hm hs hcs =>
    simp only [relabel, relabelAll_eq, List.map_map, hm h, hs h]
    exact congrArg _ (List.map_congr_left fun c hc => hcs c hc h)

/-- A relabelled variable is replaced by what stands for its new name. -/
theorem relabel_subst (t : Term) {ξ : Nat → Nat} {σ τ : Nat → Term} (h : ∀ i, σ (ξ i) = τ i) :
    (t.relabel ξ).subst σ = t.subst τ := by
  have hup {ξ : Nat → Nat} {σ τ : Nat → Term} (h : ∀ i, σ (ξ i) = τ i) : ∀ i,
      up σ (lift ξ i) = up τ i := by
    intro i
    cases i with
    | zero => rfl
    | succ i => exact congrArg shift (h i)
  induction t generalizing ξ σ τ with
  | type | global | metavar | prim | nat => rfl
  | var i => simp only [relabel, subst, h]
  | app f icit x hf hx => simp only [relabel, subst, hf h, hx h]
  | bind b dom body hdom hbody => simp only [relabel, subst, hdom h, hbody (hup h)]
  | pair a b s ha hb hs => simp only [relabel, subst, ha h, hb h, hs h]
  | proj x p hx => simp only [relabel, subst, hx h]
  | letIn x erased ty val body hty hval hbody =>
    simp only [relabel, subst, hty h, hval h, hbody (hup h)]
  | elim e m s cs hm hs hcs =>
    simp only [relabel, subst, relabelAll_eq, substAll_eq, List.map_map, hm h, hs h]
    exact congrArg _ (List.map_congr_left fun c hc => hcs c hc h)

/-- Relabelling below a binder commutes with shifting. -/
theorem shift_relabel_lift (t : Term) (ξ : Nat → Nat) :
    t.shift.relabel (lift ξ) = (t.relabel ξ).shift := by
  rw [shift, shift, relabel_relabel t fun _ => rfl, relabel_relabel t fun _ => rfl]
  rfl

/-- What stands for a variable is relabelled after a substitution. -/
theorem subst_relabel (t : Term) {σ τ : Nat → Term} {ξ : Nat → Nat}
    (h : ∀ i, (σ i).relabel ξ = τ i) : (t.subst σ).relabel ξ = t.subst τ := by
  have hup {σ τ : Nat → Term} {ξ : Nat → Nat} (h : ∀ i, (σ i).relabel ξ = τ i) :
      ∀ i, (up σ i).relabel (lift ξ) = up τ i := by
    intro i
    cases i with
    | zero => rfl
    | succ i => exact (shift_relabel_lift _ ξ).trans (congrArg shift (h i))
  induction t generalizing σ τ ξ with
  | type | global | metavar | prim | nat => rfl
  | var i => exact h _
  | app f icit x hf hx => simp only [relabel, subst, hf h, hx h]
  | bind b dom body hdom hbody => simp only [relabel, subst, hdom h, hbody (hup h)]
  | pair a b s ha hb hs => simp only [relabel, subst, ha h, hb h, hs h]
  | proj x p hx => simp only [relabel, subst, hx h]
  | letIn x erased ty val body hty hval hbody =>
    simp only [relabel, subst, hty h, hval h, hbody (hup h)]
  | elim e m s cs hm hs hcs =>
    simp only [relabel, subst, relabelAll_eq, substAll_eq, List.map_map, hm h, hs h]
    exact congrArg _ (List.map_congr_left fun c hc => hcs c hc h)

/-- Substitution below a binder commutes with shifting. -/
theorem shift_subst_up (t : Term) (σ : Nat → Term) : t.shift.subst (up σ) = (t.subst σ).shift := by
  rw [shift, relabel_subst t fun _ => rfl]
  exact (subst_relabel t fun _ => rfl).symm

/-- Two substitutions are one. -/
theorem subst_subst (t : Term) (σ τ : Nat → Term) :
    (t.subst σ).subst τ = t.subst fun i => (σ i).subst τ := by
  have hup (σ τ : Nat → Term) : (fun i => (up σ i).subst (up τ)) = up fun i => (σ i).subst τ := by
    funext i
    cases i with
    | zero => rfl
    | succ i => exact shift_subst_up (σ i) τ
  induction t generalizing σ τ with
  | type | var | global | metavar | prim | nat => rfl
  | app f icit x hf hx => simp only [subst, hf, hx]
  | bind b dom body hdom hbody => simp only [subst, hdom, hbody, hup]
  | pair a b s ha hb hs => simp only [subst, ha, hb, hs]
  | proj x p hx => simp only [subst, hx]
  | letIn x erased ty val body hty hval hbody => simp only [subst, hty, hval, hbody, hup]
  | elim e m s cs hm hs hcs =>
    simp only [subst, substAll_eq, List.map_map, hm, hs]
    exact congrArg _ (List.map_congr_left fun c hc => hcs c hc σ τ)

theorem up_self : up self = self := by
  funext i
  cases i <;> rfl

/-- Replacing variables by themselves changes nothing. -/
theorem subst_self (t : Term) : t.subst self = t := by
  induction t with
  | type | var | global | metavar | prim | nat => rfl
  | app f icit x hf hx => rw [subst, hf, hx]
  | bind b dom body hdom hbody => rw [subst, up_self, hdom, hbody]
  | pair a b s ha hb hs => rw [subst, ha, hb, hs]
  | proj x p hx => rw [subst, hx]
  | letIn x erased ty val body hty hval hbody => rw [subst, up_self, hty, hval, hbody]
  | elim e m s cs hm hs hcs =>
    rw [subst, substAll_eq, hm, hs, List.map_congr_left hcs, List.map_id']

/-- A relabelling is a substitution. -/
theorem relabel_eq_subst (t : Term) (ξ : Nat → Nat) :
    t.relabel ξ = t.subst fun i => self (ξ i) := by
  have h : (t.subst self).relabel ξ = t.subst fun i => self (ξ i) := subst_relabel t fun _ => rfl
  rwa [subst_self] at h

/-- The variable that a shifted term does not mention can be replaced by anything. -/
theorem shift_inst (t x : Term) : t.shift.inst x = t := by
  have h : t.shift.subst (cons x self) = t.subst self := relabel_subst t fun _ => rfl
  rwa [subst_self] at h

theorem cons_comp (f : Term → Term) (t : Term) (σ : Nat → Term) :
    (fun i => f (cons t σ i)) = cons (f t) fun i => f (σ i) := by
  funext i
  cases i <;> rfl

/-- The body of a binder, after a substitution below it, for a value of its variable. -/
theorem subst_up_inst (body x : Term) (σ : Nat → Term) :
    (body.subst (up σ)).inst x = body.subst (cons x σ) := by
  rw [inst, subst_subst, up, cons_comp]
  exact congrArg (fun τ => body.subst (cons x τ)) (funext fun i => shift_inst (σ i) x)

/-! ## Expansion -/

/-- Only the variables in scope are replaced. -/
theorem expand_congr {t : Term} {n : Nat} (ht : t.Scoped n) {σ τ : Nat → Term}
    (h : ∀ i < n, σ i = τ i) : t.expand σ = t.expand τ := by
  have hcons {n : Nat} {σ τ : Nat → Term} {a b : Term} (hab : a = b) (h : ∀ i < n, σ i = τ i) :
      ∀ i < n + 1, cons a σ i = cons b τ i := by
    intro i hi
    cases i with
    | zero => exact hab
    | succ i => exact h i (Nat.lt_of_succ_lt_succ hi)
  induction t generalizing n σ τ with
  | type | global | metavar | prim | nat => rfl
  | var i => exact h _ ht
  | app f icit x hf hx => rw [expand, expand, hf ht.1 h, hx ht.2 h]
  | bind b dom body hdom hbody =>
    have hup : ∀ i < n + 1, up σ i = up τ i := hcons rfl fun i hi => congrArg shift (h i hi)
    rw [expand, expand, hdom ht.1 h, hbody ht.2 hup]
  | pair a b s ha hb hs => rw [expand, expand, ha ht.1 h, hb ht.2.1 h, hs ht.2.2 h]
  | proj x p hx => rw [expand, expand, hx ht h]
  | letIn x erased ty val body hty hval hbody =>
    exact hbody ht.2.2 (hcons (hval ht.2.1 h) h)
  | elim e m s cs hm hs hcs =>
    rw [expand, expand, expandAll_eq, expandAll_eq, hm ht.1 h, hs ht.2.1 h]
    exact congrArg _ (List.map_congr_left fun c hc => hcs c hc (scopedAll_iff.1 ht.2.2 c hc) h)

/-- Substituting in an expanded term is substituting in what stands for its variables. -/
theorem expand_subst (t : Term) (σ τ : Nat → Term) :
    (t.expand σ).subst τ = t.expand fun i => (σ i).subst τ := by
  have hup (σ τ : Nat → Term) : (fun i => (up σ i).subst (up τ)) = up fun i => (σ i).subst τ := by
    refine (cons_comp _ _ _).trans (congrArg (cons _) ?_)
    funext i
    exact shift_subst_up _ τ
  induction t generalizing σ τ with
  | type | var | global | metavar | prim | nat => rfl
  | app f icit x hf hx => simp only [expand, subst, hf, hx]
  | bind b dom body hdom hbody => simp only [expand, subst, hdom, hbody, hup]
  | pair a b s ha hb hs => simp only [expand, subst, ha, hb, hs]
  | proj x p hx => simp only [expand, subst, hx]
  | letIn x erased ty val body hty hval hbody =>
    simp only [expand, hbody, cons_comp (subst τ), hval]
  | elim e m s cs hm hs hcs =>
    simp only [expand, subst, expandAll_eq, substAll_eq, List.map_map, hm, hs]
    exact congrArg _ (List.map_congr_left fun c hc => hcs c hc σ τ)

/-- Relabelling an expanded term is relabelling what stands for its variables. -/
theorem expand_relabel (t : Term) (σ : Nat → Term) (ξ : Nat → Nat) :
    (t.expand σ).relabel ξ = t.expand fun i => (σ i).relabel ξ := by
  rw [relabel_eq_subst, expand_subst]
  exact congrArg (t.expand ·) (funext fun i => (relabel_eq_subst _ ξ).symm)

/-- The body of a binder, expanded below it, for a value of its variable. -/
theorem expand_up_inst (body x : Term) (σ : Nat → Term) :
    (body.expand (up σ)).inst x = body.expand (cons x σ) := by
  rw [inst, expand_subst, up, cons_comp]
  exact congrArg (fun τ => body.expand (cons x τ)) (funext fun i => shift_inst (σ i) x)

end Term

end Elaborator
