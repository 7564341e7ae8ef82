import Elaborator.Primitive
import Elaborator.Proofs.Scope.Basic

/-! # Types of the primitives

The types of the primitives are made of a few forms of values and terms, and those around an
elimination are computed from its parts by applying them. So what holds of these forms and carries
over to applications (`Prim.Supports`) holds of all of them.

What is to be known of a computation differs: that its answer has a property, or also that it does
not fail in a certain way. It is left open, as a judgement `J`. -/

namespace Elaborator

abbrev Yields {α : Type} (r : Except Fault α) (P : α → Prop) : Prop := ∀ a, r = .ok a → P a

structure Equation.All (V : Val → Prop) (q : Equation) : Prop where
  lhsTy : V q.lhsTy
  rhsTy : V q.rhsTy
  lhs : V q.lhs
  rhs : V q.rhs

theorem Spine.forall_vals_apps {P : Val → Prop} {args : List (Icit × Val)} :
    (∀ v ∈ Spine.vals (args.map fun a => .app a.1 a.2), P v) ↔ ∀ a ∈ args, P a.2 := by
  induction args with
  | nil => simp [Spine.vals]
  | cons a args ih =>
    rw [List.forall_mem_cons, ← ih]
    simp [Spine.vals, Elim.vals]

def Prim.binders : List Name := [.underscore, "A", "B", "a", "b", "m"]

/-- A property of values that the types of the primitives are made from. It goes with a property of
the names of binders and one of the terms in a scope of a given size. -/
structure Prim.Supports (N : Name → Prop) (T : Nat → Term → Prop) (V : Val → Prop)
    (J : {α : Type} → Except Fault α → (α → Prop) → Prop) : Prop where
  name : ∀ x ∈ Prim.binders, N x
  term_type : ∀ {n}, T n .type
  term_prim : ∀ {n p}, T n (.prim p)
  term_var : ∀ {n i}, i < n → T n (.var ⟨i⟩)
  term_app : ∀ {n f icit x}, T n f → T n x → T n (.app f icit x)
  term_pi : ∀ {n icit x dom body}, N x → T n dom → T (n + 1) body → T n (.pi icit x dom body)
  val_type : V .type
  val_prim : ∀ {p}, V (.prim p)
  val_nat : ∀ {n}, V (.nat n)
  val_pi : ∀ {icit x dom locals body}, N x → V dom → (∀ v ∈ locals, V v) →
    T (locals.length + 1) body → V (piVal icit x dom locals body)
  /-- A successor may compute, other primitives are stuck on their arguments. -/
  val_apps : ∀ (p : Prim) (args : List (Icit × Val)), p ≠ .succ → (∀ a ∈ args, V a.2) →
    V (.neutral (.prim p) (args.map fun a => .app a.1 a.2))
  val_spine : ∀ {h sp}, V (.neutral h sp) → ∀ v ∈ Spine.vals sp, V v
  ok : ∀ {α : Type} {P : α → Prop} {a : α}, P a → J (.ok a) P
  bind : ∀ {α β : Type} {P : α → Prop} {Q : β → Prop} {r : Except Fault α}
    {k : α → Except Fault β}, J r P → (∀ a, P a → J (k a) Q) → J (r >>= k) Q
  missingIndices : ∀ {α : Type} {P : α → Prop}, J (.error .missingIndices : Except Fault α) P
  apply : ∀ {v x fuel}, V v → V x → J (v.apply fuel x) V

namespace Prim.Supports

variable {N : Name → Prop} {T : Nat → Term → Prop} {V : Val → Prop}
  {J : {α : Type} → Except Fault α → (α → Prop) → Prop} (h : Prim.Supports N T V J)

include h

theorem arrow {n : Nat} {dom cod : Term} (hdom : T n dom) (hcod : T (n + 1) cod) :
    T n (.arrow dom cod) :=
  h.term_pi (h.name _ (by simp [binders])) hdom hcod

theorem heqTerm {n : Nat} {a b x y : Term} (ha : T n a) (hb : T n b) (hx : T n x) (hy : T n y) :
    T n (heqTerm a b x y) :=
  h.term_app (h.term_app (h.term_app (h.term_app h.term_prim ha) hb) hx) hy

/-- The type of every primitive has the property. -/
theorem primType (p : Prim) : V p.type := by
  have var {n i : Nat} (hi : i < n) : T n (.var ⟨i⟩) := h.term_var hi
  cases p with
  | void | unitType | bool | nat => exact h.val_type
  | unit | true | false => exact h.val_prim
  | succ =>
    exact h.val_pi (h.name _ (by simp [binders])) h.val_prim (List.forall_mem_nil _) h.term_prim
  | heq =>
    refine h.val_pi (h.name _ (by simp [binders])) h.val_type (List.forall_mem_nil _) ?_
    refine h.term_pi (h.name _ (by simp [binders])) h.term_type ?_
    exact h.arrow (var (by simp)) (h.arrow (var (by simp)) h.term_type)
  | refl =>
    refine h.val_pi (h.name _ (by simp [binders])) h.val_type (List.forall_mem_nil _) ?_
    refine h.term_pi (h.name _ (by simp [binders])) (var (by simp)) ?_
    exact h.heqTerm (var (by simp)) (var (by simp)) (var (by simp)) (var (by simp))

/-! ## Equations -/

/-- An equation read off a type has the property of that type. -/
theorem equation {ty : Val} {q : Equation} (hty : V ty) (hq : Equation.ofType? ty = some q) :
    q.All V := by
  unfold Equation.ofType? at hq
  split at hq
  · cases hq
    have hvals := h.val_spine hty
    simp only [Spine.vals, List.flatMap_cons, Elim.vals, List.flatMap_nil, List.singleton_append,
      List.forall_mem_cons] at hvals
    obtain ⟨hrhs, hlhs, hrhsTy, hlhsTy, -⟩ := hvals
    exact ⟨hlhsTy, hrhsTy, hlhs, hrhs⟩
  · cases hq

theorem equationType {q : Equation} (hq : q.All V) : V q.type :=
  h.val_apps .heq [(.expl, q.rhs), (.expl, q.lhs), (.impl, q.rhsTy), (.impl, q.lhsTy)] (by simp)
    (by simp [hq.lhs, hq.rhs, hq.lhsTy, hq.rhsTy])

/-- The proof by reflexivity of an equation has the property of its sides. -/
theorem reflexivity {q : Equation} (hq : q.All V) :
    V (.neutral (.prim .refl) [.app .impl q.lhs, .app .impl q.lhsTy]) :=
  h.val_apps .refl [(.impl, q.lhs), (.impl, q.lhsTy)] (by simp) (by simp [hq.lhs, hq.lhsTy])

/-! ## Eliminators -/

variable {e : Eliminator} {q : Option Equation} {motive scrut : Val} {fuel : Nat}

theorem scrutTy {ty : Val} (hty : e.scrutTy? = some ty) : V ty := by
  cases e <;> cases hty <;> exact h.val_prim

/-- The type of a motive has the property of the equation that the scrutinee proves. -/
theorem motiveTy (hq : ∀ p ∈ q, p.All V) : J (e.motiveTy q) V := by
  unfold Eliminator.motiveTy
  split
  · next p =>
    have hp := hq p rfl
    refine h.ok (h.val_pi (h.name _ (by simp [binders])) hp.lhsTy (by simp [hp.lhs, hp.lhsTy]) ?_)
    refine h.arrow (h.heqTerm ?_ ?_ ?_ ?_) h.term_type <;> exact h.term_var (by simp)
  · split
    · next ty hty =>
      have hw : V ty := h.scrutTy hty
      exact h.ok (h.val_pi (h.name _ (by simp [binders])) hw
        (List.forall_mem_singleton.2 hw) h.term_type)
    · exact h.missingIndices

/-- The types of the cases have the property of the motive. -/
theorem caseTys (hm : V motive) (hq : ∀ p ∈ q, p.All V) :
    J (e.caseTys fuel motive q) fun tys => ∀ ty ∈ tys, V ty := by
  unfold Eliminator.caseTys
  split
  · exact h.ok (List.forall_mem_nil _)
  · refine h.bind (h.apply hm h.val_prim) fun t ht => h.bind (h.apply hm h.val_prim) fun f hf => ?_
    exact h.ok (List.forall_mem_cons.2 ⟨ht, List.forall_mem_singleton.2 hf⟩)
  · refine h.bind (h.apply hm h.val_nat) fun z hz => h.ok ?_
    refine List.forall_mem_cons.2 ⟨hz, List.forall_mem_singleton.2 ?_⟩
    refine h.val_pi (h.name _ (by simp [binders])) h.val_prim (List.forall_mem_singleton.2 hm) ?_
    refine h.arrow (h.term_app (h.term_var ?_) (h.term_var ?_))
      (h.term_app (h.term_var ?_) (h.term_app h.term_prim (h.term_var ?_))) <;> simp
  · next p =>
    have hp := hq p rfl
    refine h.bind (h.apply hm hp.lhs) fun v hv => h.bind (h.apply hv (h.reflexivity hp))
      fun w hw => ?_
    exact h.ok (List.forall_mem_singleton.2 hw)
  · exact h.missingIndices

/-- The type of an eliminator has the property of its motive and its scrutinee. -/
theorem resultTy (hm : V motive) (hs : V scrut) (hq : ∀ p ∈ q, p.All V) :
    J (e.resultTy fuel motive scrut q) V := by
  unfold Eliminator.resultTy
  split
  · next p => exact h.bind (h.apply hm (hq p rfl).rhs) fun v hv => h.apply hv hs
  · exact h.apply hm hs

/-- The types around an elimination have the property if its parts do. -/
theorem signature (hm : V motive) (hs : V scrut) (hq : ∀ p ∈ q, p.All V) :
    J (e.signature fuel motive scrut q) fun sig => (∀ ty ∈ sig.caseTys, V ty) ∧ V sig.result :=
  h.bind (h.caseTys hm hq) fun _ htys => h.bind (h.resultTy hm hs hq) fun _ hresult =>
    h.bind (h.motiveTy hq) fun _ _ => h.ok ⟨htys, hresult⟩

end Prim.Supports

end Elaborator
