import Elaborator.Proofs.Conversion.Basic
import Elaborator.Proofs.Invariant

/-! # Evaluation and reading back compute along equalities

Whatever is done with values, the result stands for a term that is equal to the one before:
evaluation, elimination, forcing and reading back. It does not matter which equality is meant, as
long as it is a congruence that has the rules of computation (`Computes`). It does not matter either
what is asked of the values, as long as it keeps them in their scope and evaluation keeps it
(`ScopeInvariant`). What a metavariable is equal to, and a global that is unfolded, is asked for
where it is looked up. -/

namespace Elaborator

/-! ## Equalities -/

/-- An equality of terms in scopes of each size: an equivalence, which respects the forms of terms
that values stand for and has the rules of computation. -/
structure Computes (C : Nat → Term → Term → Prop) : Prop where
  refl : ∀ {n} t, C n t t
  symm : ∀ {n s t}, C n s t → C n t s
  trans : ∀ {n s t u}, C n s t → C n t u → C n s u
  app : ∀ {n f f' x x' icit}, C n f f' → C n x x' → C n (.app f icit x) (.app f' icit x')
  bind : ∀ {n b dom dom' body body'}, C n dom dom' → C (n + 1) body body' →
    C n (.bind b dom body) (.bind b dom' body')
  pair : ∀ {n a a' b b' s s'}, C n a a' → C n b b' → C n s s' → C n (.pair a b s) (.pair a' b' s')
  proj : ∀ {n x x' p}, C n x x' → C n (.proj x p) (.proj x' p)
  elim : ∀ {n e m m' s s' cs cs'}, C n m m' → C n s s' → List.Forall₂ (C n) cs cs' →
    C n (.elim e m s cs) (.elim e m' s' cs')
  reduce : ∀ {n s t}, s.Reduces t → C n s t

/-- Equality in a scope and in every larger one. Below a binder a replacement is shifted, so
equality in one scope is not enough for two replacements to give equal terms. -/
def Lasting (C : Nat → Term → Term → Prop) (n : Nat) (s t : Term) : Prop :=
  ∀ j, C (n + j) (s.relabel (· + j)) (t.relabel (· + j))

section

variable {C : Nat → Term → Term → Prop} {n : Nat}

theorem Lasting.here {s t : Term} (h : Lasting C n s t) : C n s t := by
  have h0 := h 0
  simp only [Nat.add_zero] at h0
  rwa [Term.relabel_eq_subst, Term.relabel_eq_subst, Term.subst_self, Term.subst_self] at h0

theorem Lasting.add {s t : Term} (h : Lasting C n s t) (j : Nat) :
    Lasting C (n + j) (s.relabel (· + j)) (t.relabel (· + j)) := by
  intro i
  have hadd (l : Nat) : l + j + i = l + (j + i) := Nat.add_assoc l j i
  rw [Term.relabel_relabel s hadd, Term.relabel_relabel t hadd, Nat.add_assoc]
  exact h (j + i)

theorem Lasting.cons {s t : Term} {σ τ : Nat → Term} (h : Lasting C n s t)
    (hσ : ∀ i, Lasting C n (σ i) (τ i)) (i : Nat) :
    Lasting C n (Term.cons s σ i) (Term.cons t τ i) := by
  cases i with
  | zero => exact h
  | succ i => exact hσ i

namespace Computes

variable (hC : Computes C)

include hC

theorem of_eq {s t : Term} (h : s = t) : C n s t := h ▸ hC.refl s

theorem lasting_refl (t : Term) : Lasting C n t t := fun _ => hC.refl _

theorem lasting_up {σ τ : Nat → Term} (hσ : ∀ i, Lasting C n (σ i) (τ i)) (i : Nat) :
    Lasting C (n + 1) (Term.up σ i) (Term.up τ i) :=
  Lasting.cons (hC.lasting_refl _) (fun i => (hσ i).add 1) i

/-- Case analyses are equal if their cases are so one by one. -/
theorem elim_map {α β : Type} {e : Eliminator} {m m' s s' : Term} {xs : List α} {ys : List β}
    {f : α → Term} {f' : β → Term} (hm : C n m m') (hs : C n s s')
    (h : List.Forall₂ (fun x y => C n (f x) (f' y)) xs ys) :
    C n (.elim e m s (xs.map f)) (.elim e m' s' (ys.map f')) :=
  hC.elim hm hs (List.forall₂_map_left_iff.2 (List.forall₂_map_right_iff.2 h))

/-- Equal terms under the same elimination. -/
theorem use {s t : Term} (h : C n s t) (e : Elim) : C n (e.embed n s) (e.embed n t) := by
  cases e with
  | app icit x => exact hC.app h (hC.refl _)
  | proj p => exact hC.proj h
  | cases e m cs => exact hC.elim (hC.refl _) h (List.forall₂_same.2 fun c _ => hC.refl c)

/-- Equal terms under the same spine. -/
theorem useAll {s t : Term} (h : C n s t) (sp : Spine) :
    C n (Spine.embed n s sp) (Spine.embed n t sp) := by
  induction sp with
  | nil => exact h
  | cons e sp ih => exact hC.use ih e

/-- Equal replacements give equal terms. -/
theorem expand {σ τ : Nat → Term} (h : ∀ i, Lasting C n (σ i) (τ i)) (t : Term) :
    C n (t.expand σ) (t.expand τ) := by
  induction t generalizing n σ τ with
  | type | global | metavar | prim | nat => exact hC.refl _
  | var i => exact (h i.toNat).here
  | app f icit x hf hx => exact hC.app (hf h) (hx h)
  | bind b dom body hdom hbody => exact hC.bind (hdom h) (hbody (hC.lasting_up h))
  | pair a b s ha hb hs => exact hC.pair (ha h) (hb h) (hs h)
  | proj x p hx => exact hC.proj (hx h)
  | letIn x erased ty val body hty hval hbody =>
    -- The values of the variable are equal in every larger scope, because the hypothesis about them
    -- says so.
    refine hbody (Lasting.cons (fun j => ?_) h)
    rw [Term.expand_relabel, Term.expand_relabel]
    exact hval fun i => (h i).add j
  | elim e m s cs hm hs hcs =>
    rw [Term.expand, Term.expand, Term.expandAll_eq, Term.expandAll_eq]
    exact hC.elim_map (hm h) (hs h) (List.forall₂_same.2 fun c hc => hcs c hc h)

end Computes

end

/-! ## Values in their scope -/

/-- The variables of an environment stand for the same terms in a larger scope if its values do. -/
theorem Env.embed_relabel {env : Env} {n j : Nat}
    (h : ∀ v ∈ env.locals, (v.embed n).relabel (· + j) = v.embed (n + j)) :
    (fun i => (env.embed n i).relabel (· + j)) = env.embed (n + j) := by
  simp only [Term.relabel_eq_subst] at h ⊢
  exact Env.embed_subst h

/-- A property `P` of the values in scopes of each size that evaluation keeps. The terms that are
evaluated have the property `S`, which does not depend on the size. A value that has the property
stands for the same term in larger scopes. -/
structure ScopeInvariant (P : Nat → Val → Prop) (S : Env → Term → Prop) : Prop where
  steps : ∀ n, EvalInvariant (P n) fun env t => (∀ v ∈ env.locals, P n v) ∧ S env t
  add : ∀ {n v}, P n v → ∀ j, P (n + j) v
  embed_add : ∀ {n v}, P n v → ∀ j, (v.embed n).relabel (· + j) = v.embed (n + j)
  fresh : ∀ n, P (n + 1) (.fresh n)
  dom : ∀ {n c}, P n (.closure c) → P n c.dom
  gluedSpine : ∀ {n x sp base}, P n (.glued x sp base) → ∀ v ∈ Spine.vals sp, P n v

namespace ScopeInvariant

variable {P : Nat → Val → Prop} {S : Env → Term → Prop} (hP : ScopeInvariant P S) {n : Nat}

include hP

theorem locals {c : Closure} (hc : P n (.closure c)) : ∀ v ∈ c.env.locals, P n v :=
  (List.forall_mem_cons.1 ((hP.steps n).apply hc (hP.steps n).type).1).2

/-- Below a binder of the scope, an environment stands for what it stood for. -/
theorem embed_up {env : Env} (h : ∀ v ∈ env.locals, P n v) :
    Term.up (env.embed n) = Term.cons (.self 0) (env.embed (n + 1)) :=
  congrArg (Term.cons (.self 0)) (Env.embed_relabel fun v hv => hP.embed_add (h v hv) 1)

theorem enter {c : Closure} {v : Val} {fuel : Nat} (hc : P n (.closure c))
    (h : c.enter fuel n = .ok v) : P (n + 1) v :=
  (hP.steps (n + 1)).apply_closure (hP.add hc 1) (hP.fresh n) h

end ScopeInvariant

/-- Evaluation shows nothing new. -/
theorem Val.shows_steps (B : Bounds) (L : Nat → Prop) :
    EvalInvariant (Val.Shows B L) fun env t =>
      (∀ v ∈ env.locals, v.Shows B L) ∧ t.Within B env.size where
  type := .type
  nat _ := .nat
  prim _ := .neutral trivial (List.forall_mem_nil _)
  metavar h := .neutral (Term.within_metavar.1 h.2) (List.forall_mem_nil _)
  var h hi := h.1 _ (List.mem_of_getElem? hi)
  global _ _ := .glued (List.forall_mem_nil _)
  part h hu := ⟨h.1, Term.within_of_mem_parts h.2 hu⟩
  body := by
    intro env x erased ty val body v h hv
    refine ⟨List.forall_mem_cons.2 ⟨hv, h.1⟩, ?_⟩
    rw [Env.size_push]
    exact (Term.within_letIn.1 h.2).2.2
  bind h hdom := .closure hdom h.1 (Term.within_bind.1 h.2).2
  apply := by
    intro c x hc hx
    obtain ⟨-, hlocals, hbody⟩ := Val.shows_closure.1 hc
    refine ⟨List.forall_mem_cons.2 ⟨hx, hlocals⟩, ?_⟩
    rw [Env.size_push]
    exact hbody
  pair := Val.shows_pair
  glued hv he := .glued (List.forall_mem_append.2 ⟨he, Val.shows_glued.1 hv⟩)
  neutral := by
    intro h sp e hv he _
    obtain ⟨hh, hsp⟩ := Val.shows_neutral.1 hv
    exact .neutral hh (List.forall_mem_append.2 ⟨he, hsp⟩)
  spine hv := (Val.shows_neutral.1 hv).2

/-- As long as no global is unfolded, it is enough to look at what values show. -/
theorem Val.shows_scopeInvariant (B : Bounds) :
    ScopeInvariant (fun n v => v.Shows B (· < n)) fun env t => t.Within B env.size where
  steps n := Val.shows_steps B (· < n)
  add h j := h.mono fun _ hl => by omega
  embed_add h j := h.embed_add (fun _ hl => hl) j
  fresh n := .neutral (Nat.lt_succ_self n) (List.forall_mem_nil _)
  dom h := (Val.shows_closure.1 h).1
  gluedSpine := Val.shows_glued.1

/-! ## Evaluation -/

theorem caseAt_eq_ok {cs : List Val} {i : Nat} {c : Val} (h : caseAt cs i = .ok c) :
    cs[i]? = some c := by
  unfold caseAt at h
  split at h
  · next w hw =>
    cases h
    exact hw
  · cases h

theorem Val.embedAll_getElem? {cs : List Val} {i : Nat} {c : Val} (h : cs[i]? = some c) (n : Nat) :
    (Val.embedAll n cs)[i]? = some (c.embed n) := by
  rw [Val.embedAll_eq, List.getElem?_map, h]
  rfl

theorem Elim.used_embed (e : Elim) (n : Nat) (t : Term) : t.Used (e.embed n t) := by
  cases e with
  | app => exact .app
  | proj => exact .proj
  | cases => exact .elim

/-- A constructor selects its case. -/
theorem Reduction.select_reduces {e : Eliminator} {scrut motive c : Val} {cs : List Val} {i : Nat}
    (h : Reduction.of e scrut = .select i) (hc : cs[i]? = some c) (n : Nat) :
    ((Elim.cases e motive cs).embed n (scrut.embed n)).Reduces (c.embed n) := by
  unfold Reduction.of at h
  split at h <;> cases h
  · exact .true (Val.embedAll_getElem? hc n)
  · exact .false (Val.embedAll_getElem? hc n)
  · exact .zero (Val.embedAll_getElem? hc n)
  · exact .refl (Elim.used_embed _ n _) (Elim.used_embed _ n _) (Val.embedAll_getElem? hc n)

/-- A successor goes on with its predecessor. -/
theorem Reduction.step_reduces {e : Eliminator} {scrut motive pred c : Val} {cs : List Val}
    (h : Reduction.of e scrut = .step pred) (hc : cs[1]? = some c) (n : Nat) :
    ((Elim.cases e motive cs).embed n (scrut.embed n)).Reduces
      (.app (.app (c.embed n) .expl (pred.embed n)) .expl
        ((Elim.cases .nat motive cs).embed n (pred.embed n))) := by
  unfold Reduction.of at h
  split at h <;> cases h
  · exact .literal (Val.embedAll_getElem? hc n)
  · exact .successor (Val.embedAll_getElem? hc n)

section

variable {C : Nat → Term → Term → Prop} {P : Nat → Val → Prop} {S : Env → Term → Prop}
  {n fuel : Nat}

/-- Computing with this fuel goes along the equality, in all three functions. -/
structure Follows (C : Nat → Term → Term → Prop) (P : Nat → Val → Prop) (S : Env → Term → Prop)
    (fuel : Nat) : Prop where
  eval : ∀ {n : Nat} {env : Env} {t : Term} {v : Val}, (∀ v ∈ env.locals, P n v) → S env t →
    t.eval fuel env = .ok v → C n (t.expand (env.embed n)) (v.embed n)
  eliminate : ∀ {n : Nat} {v w : Val} {e : Elim}, P n v → (∀ u ∈ e.vals, P n u) →
    v.eliminate fuel e = .ok w → C n (e.embed n (v.embed n)) (w.embed n)
  reduce : ∀ {n : Nat} {e : Eliminator} {scrut motive w : Val} {cs : List Val},
    P n scrut → P n motive → (∀ c ∈ cs, P n c) → Val.reduce fuel e scrut motive cs = .ok (some w) →
    C n ((Elim.cases e motive cs).embed n (scrut.embed n)) (w.embed n)

variable (hC : Computes C) (hP : ScopeInvariant P S)

include hC hP

/-- One step of evaluation, given what the steps below it do. -/
theorem Follows.eval_step (ih : Follows C P S fuel) {env : Env} {t : Term} {v : Val}
    (henv : ∀ v ∈ env.locals, P n v) (ht : S env t) (h : t.eval (fuel + 1) env = .ok v) :
    C n (t.expand (env.embed n)) (v.embed n) := by
  have part {u : Term} (hu : u ∈ t.parts) : S env u := ((hP.steps n).part ⟨henv, ht⟩ hu).2
  have keeps {u : Term} {w : Val} (hu : u ∈ t.parts) (hw : u.eval fuel env = .ok w) : P n w :=
    (hP.steps n).eval ⟨henv, part hu⟩ hw
  have follow {u : Term} {w : Val} (hu : u ∈ t.parts) (hw : u.eval fuel env = .ok w) :
      C n (u.expand (env.embed n)) (w.embed n) := ih.eval henv (part hu) hw
  cases t with
  | type | metavar | prim | nat =>
    cases h
    exact hC.refl _
  | var i =>
    rw [Term.eval] at h
    split at h
    · next w hw =>
      cases h
      exact hC.of_eq (Env.embed_eq hw n)
    · cases h
  | global x =>
    rw [Term.eval] at h
    split at h
    · cases h
      exact hC.refl _
    · cases h
  | app f icit x =>
    have hf : f ∈ (Term.app f icit x).parts := by simp [Term.parts]
    have hx : x ∈ (Term.app f icit x).parts := by simp [Term.parts]
    obtain ⟨vf, hvf, h⟩ := bind_ok h
    obtain ⟨vx, hvx, h⟩ := bind_ok h
    have hparts : C n ((Term.app f icit x).expand (env.embed n))
        (.app (vf.embed n) icit (vx.embed n)) :=
      hC.app (follow hf hvf) (follow hx hvx)
    exact hC.trans hparts (ih.eliminate (keeps hf hvf) (Elim.forall_vals_app.2 (keeps hx hvx)) h)
  | bind b dom body =>
    obtain ⟨vdom, hvdom, h⟩ := bind_ok h
    cases h
    -- The body is not touched: the closure keeps it with its environment.
    rw [Val.embed_closure, Term.expand, hP.embed_up henv]
    exact hC.bind (follow (by simp [Term.parts]) hvdom) (hC.refl _)
  | pair a b s =>
    obtain ⟨va, hva, h⟩ := bind_ok h
    obtain ⟨vb, hvb, h⟩ := bind_ok h
    obtain ⟨vs, hvs, h⟩ := bind_ok h
    cases h
    refine hC.pair (follow ?_ hva) (follow ?_ hvb) (follow ?_ hvs) <;> simp [Term.parts]
  | proj x p =>
    have hx : x ∈ (Term.proj x p).parts := by simp [Term.parts]
    obtain ⟨vx, hvx, h⟩ := bind_ok h
    exact hC.trans (hC.proj (follow hx hvx)) (ih.eliminate (keeps hx hvx) (List.forall_mem_nil _) h)
  | letIn x erased ty val body =>
    have hval : val ∈ (Term.letIn x erased ty val body).parts := by simp [Term.parts]
    obtain ⟨w, hw, h⟩ := bind_ok h
    have hPw : P n w := keeps hval hw
    have hlasting : Lasting C n (val.expand (env.embed n)) (w.embed n) := by
      intro j
      rw [Term.expand_relabel, Env.embed_relabel fun v hv => hP.embed_add (henv v hv) j,
        hP.embed_add hPw j]
      exact ih.eval (fun v hv => hP.add (henv v hv) j) (part hval) hw
    have hlet : C n ((Term.letIn x erased ty val body).expand (env.embed n))
        (body.expand ((env.push w).embed n)) := by
      rw [Env.embed_push]
      exact hC.expand (Lasting.cons hlasting fun _ => hC.lasting_refl _) body
    obtain ⟨hpushed, hbody⟩ := (hP.steps n).body ⟨henv, ht⟩ hPw
    exact hC.trans hlet (ih.eval hpushed hbody h)
  | elim e m s cs =>
    have hm : m ∈ (Term.elim e m s cs).parts := by simp [Term.parts]
    have hs : s ∈ (Term.elim e m s cs).parts := by simp [Term.parts]
    have hcs {c : Term} (hc : c ∈ cs) : c ∈ (Term.elim e m s cs).parts := by simp [Term.parts, hc]
    obtain ⟨vs, hvs, h⟩ := bind_ok h
    obtain ⟨vm, hvm, h⟩ := bind_ok h
    obtain ⟨vcs, hvcs, h⟩ := bind_ok h
    have hparts : C n ((Term.elim e m s cs).expand (env.embed n))
        ((Elim.cases e vm vcs).embed n (vs.embed n)) := by
      rw [Term.expand, Term.expandAll_eq, Elim.embed, Val.embedAll_eq]
      exact hC.elim_map (follow hm hvm) (follow hs hvs)
        (mapM_ok hvcs fun c hc w hw => follow (hcs hc) hw)
    have hPcs : ∀ w ∈ vcs, P n w := by
      intro w hw
      obtain ⟨c, hc, hcw⟩ := exists_mem_of_mapM hvcs hw
      exact keeps (hcs hc) hcw
    exact hC.trans hparts
      (ih.eliminate (keeps hs hvs) (Elim.forall_vals_cases.2 ⟨keeps hm hvm, hPcs⟩) h)

/-- The body of a closure for a value of its variable is what the closure applied to the value
reduces to. -/
theorem Closure.embed_app {c : Closure} (hc : P n (.closure c)) (icit : Icit) (x : Val) :
    C n (.app ((Val.closure c).embed n) icit (x.embed n))
      (c.body.expand ((c.env.push x).embed n)) := by
  rw [Val.embed_closure, ← hP.embed_up (hP.locals hc), Env.embed_push, ← Term.expand_up_inst]
  exact hC.reduce .beta

/-- One step of an elimination, given what the steps below it do. -/
theorem Follows.eliminate_step (ih : Follows C P S fuel) {v : Val} {e : Elim} {w : Val} (hv : P n v)
    (he : ∀ u ∈ e.vals, P n u) (h : v.eliminate (fuel + 1) e = .ok w) :
    C n (e.embed n (v.embed n)) (w.embed n) := by
  unfold Val.eliminate at h
  split at h
  · next c icit x =>
    obtain ⟨henv, hbody⟩ := (hP.steps n).apply hv (Elim.forall_vals_app.1 he)
    exact hC.trans (Closure.embed_app hC hP hv icit x) (ih.eval henv hbody h)
  · cases h
    exact hC.reduce .fst
  · cases h
    exact hC.reduce .snd
  · cases h
    exact hC.refl _
  · unfold succNat at h
    split at h <;> cases h
    exact hC.reduce .succ
  · next motive cases _ _ _ =>
    obtain ⟨hm, hcs⟩ := Elim.forall_vals_cases.1 he
    obtain ⟨r, hr, h⟩ := bind_ok h
    -- A stuck case analysis is added to the spine.
    split at h
    · cases h
      exact ih.reduce hv hm hcs hr
    · split at h <;> cases h
      exact hC.refl _
  · cases h
    exact hC.refl _
  · cases h

/-- One step of a reduction, given what the steps below it do. -/
theorem Follows.reduce_step (ih : Follows C P S fuel) {e : Eliminator} {scrut motive : Val}
    {cs : List Val} {w : Val} (hs : P n scrut) (hm : P n motive) (hcs : ∀ c ∈ cs, P n c)
    (h : Val.reduce (fuel + 1) e scrut motive cs = .ok (some w)) :
    C n ((Elim.cases e motive cs).embed n (scrut.embed n)) (w.embed n) := by
  rw [Val.reduce] at h
  split at h
  · next i hr =>
    obtain ⟨c, hc, h⟩ := map_ok h
    cases h
    exact hC.reduce (Reduction.select_reduces hr (caseAt_eq_ok hc) n)
  · -- A step of the recursion: the case for successors is applied to the predecessor, and then to
    -- the result for it.
    next pred hr =>
    have hp : P n pred := (hP.steps n).pred hs hr
    have hall : ∀ u ∈ (Elim.cases .nat motive cs).vals, P n u := Elim.forall_vals_cases.2 ⟨hm, hcs⟩
    obtain ⟨previous, hprevious, h⟩ := bind_ok h
    obtain ⟨step, hstep, h⟩ := bind_ok h
    obtain ⟨stepped, hstepped, h⟩ := bind_ok h
    obtain ⟨u, hu, h⟩ := map_ok h
    cases h
    have hcase := caseAt_eq_ok hstep
    have hPstep := hcs step (List.mem_of_getElem? hcase)
    have hPprevious := (hP.steps n).eliminate hp hall hprevious
    have hPstepped := (hP.steps n).eliminate hPstep (Elim.forall_vals_app.2 hp) hstepped
    have hfun := ih.eliminate hPstep (Elim.forall_vals_app.2 hp) hstepped
    have harg := ih.eliminate hp hall hprevious
    refine hC.trans (hC.reduce (Reduction.step_reduces hr hcase n)) (hC.trans (hC.app hfun harg) ?_)
    exact ih.eliminate hPstepped (Elim.forall_vals_app.2 hPprevious) hu
  · cases h

/-- What a run of the evaluator gives is related to what it starts from, for every amount of fuel.
-/
theorem follows (fuel : Nat) : Follows C P S fuel := by
  induction fuel with
  | zero =>
    constructor
    · intro n env t v _ _ h
      cases h
    · intro n v w e _ _ h
      cases h
    · intro n e scrut motive w cs _ _ _ h
      cases h
  | succ fuel ih =>
    exact ⟨Follows.eval_step hC hP ih, Follows.eliminate_step hC hP ih,
      Follows.reduce_step hC hP ih⟩

/-- Applying a value to a spine follows the term built from the two embeddings. -/
theorem Val.applySpine_follows {v w : Val} {sp : Spine} (hv : P n v)
    (hsp : ∀ u ∈ Spine.vals sp, P n u) (h : v.applySpine fuel sp = .ok w) :
    C n (Spine.embed n (v.embed n) sp) (w.embed n) := by
  induction sp generalizing w with
  | nil =>
    cases h
    exact hC.refl _
  | cons e sp ih =>
    obtain ⟨he, htail⟩ := List.forall_mem_append.1 hsp
    obtain ⟨u, hu, h⟩ := bind_ok h
    have hPu : P n u := (hP.steps n).applySpine hv htail hu
    exact hC.trans (hC.use (ih htail hu) e) ((follows hC hP fuel).eliminate hPu he h)

omit hC hP in
/-- The variable that is bound next is the innermost one of the larger scope. -/
theorem Val.embed_fresh (n : Nat) : (Val.fresh n).embed (n + 1) = .self 0 := by
  show Term.self (n + 1 - 1 - n) = .self 0
  rw [Nat.add_sub_cancel, Nat.sub_self]

/-- Entering a closure gives its body below the binder. -/
theorem Closure.enter_follows {c : Closure} {v : Val} (hc : P n (.closure c))
    (h : c.enter fuel n = .ok v) :
    C (n + 1) (c.body.expand (Term.cons (.self 0) (c.env.embed (n + 1)))) (v.embed (n + 1)) := by
  obtain ⟨henv, hbody⟩ := (hP.steps (n + 1)).apply (hP.add hc 1) (hP.fresh n)
  rw [← Val.embed_fresh, ← Env.embed_push]
  exact (follows hC hP fuel).eval henv hbody h

/-! ## Forcing -/

variable {ms : MetaStore}
  (hsolved : ∀ {n m sp u}, P n (.neutral (.metavar m) sp) → ms.lookup m = some u →
    P n u ∧ C n (.metavar m) (u.embed n))

include hsolved

omit hC in
theorem ScopeInvariant.forceMeta {v w : Val} (hv : P n v) (h : v.forceMeta fuel ms = .ok w) :
    P n w :=
  (hP.steps n).forceMeta (fun _ _ _ hm hu => (hsolved hm hu).1) hv h

/-- Forcing the solved head of a value keeps it related to what it was. -/
theorem Val.forceMeta_follows {v w : Val} (hv : P n v) (h : v.forceMeta fuel ms = .ok w) :
    C n (v.embed n) (w.embed n) := by
  induction fuel generalizing v with
  | zero => cases h
  | succ fuel ih =>
    unfold Val.forceMeta at h
    split at h
    · next m sp =>
      split at h
      · next u hu =>
        have hsp := (hP.steps n).spine hv
        obtain ⟨hPu, hmu⟩ := hsolved hv hu
        obtain ⟨x, hx, h⟩ := bind_ok h
        have hPx := (hP.steps n).applySpine hPu hsp hx
        exact hC.trans (hC.useAll hmu sp)
          (hC.trans (Val.applySpine_follows hC hP hPu hsp hx) (ih hPx h))
      · cases h
        exact hC.refl _
    · cases h
      exact hC.refl _

/-- Where globals are unfolded, their values have to be in their scope and equal to them. -/
theorem Val.force_follows
    (hunfold : ∀ {n x sp base}, P n (.glued x sp base) → P n base ∧ C n (.global x) (base.embed n))
    {v w : Val} (hv : P n v) (h : v.force fuel ms = .ok w) :
    P n w ∧ C n (v.embed n) (w.embed n) := by
  induction fuel generalizing v with
  | zero => cases h
  | succ fuel ih =>
    unfold Val.force at h
    split at h
    · next x sp base =>
      have hsp := hP.gluedSpine hv
      obtain ⟨hPb, hxb⟩ := hunfold hv
      obtain ⟨u, hu, h⟩ := bind_ok h
      obtain ⟨hPw, huw⟩ := ih ((hP.steps n).applySpine hPb hsp hu) h
      exact ⟨hPw, hC.trans (hC.useAll hxb sp)
        (hC.trans (Val.applySpine_follows hC hP hPb hsp hu) huw)⟩
    · obtain ⟨u, hu, h⟩ := bind_ok h
      have hPu := hP.forceMeta hsolved hv hu
      have hvu := Val.forceMeta_follows hC hP hsolved hv hu
      split at h
      · obtain ⟨hPw, huw⟩ := ih hPu h
        exact ⟨hPw, hC.trans hvu huw⟩
      · cases h
        exact ⟨hPu, hvu⟩

/-! ## Reading back -/

omit hC hP hsolved in
theorem Head.quote_eq_ok {h : Head} {t : Term} (ht : h.quote n = .ok t) : t = h.embed n := by
  cases h with
  | var l =>
    obtain ⟨i, hi, rfl⟩ := map_ok ht
    obtain ⟨-, -, hi⟩ := Level.toIndex_eq_ok_iff.1 hi
    exact congrArg Term.var (Index.ext hi)
  | prim p =>
    cases ht
    rfl
  | metavar m =>
    cases ht
    rfl

omit hP hsolved in
/-- A spine reads back to a term related to its embedding when its head and its values do. -/
theorem Spine.quote_follows {quote : Val → Except Fault Term} {head head' t : Term} {sp : Spine}
    (hq : ∀ v ∈ Spine.vals sp, ∀ u, quote v = .ok u → C n (u.expand .self) (v.embed n))
    (hhead : C n (head.expand .self) head') (h : Spine.quote quote head sp = .ok t) :
    C n (t.expand .self) (Spine.embed n head' sp) := by
  induction sp generalizing t with
  | nil =>
    cases h
    exact hhead
  | cons e sp ih =>
    obtain ⟨he, htail⟩ := List.forall_mem_append.1 hq
    cases e with
    | app icit x =>
      obtain ⟨u, hu, h⟩ := bind_ok h
      obtain ⟨w, hw, h⟩ := bind_ok h
      cases h
      exact hC.app (ih htail hu) (Elim.forall_vals_app.1 he w hw)
    | proj p =>
      obtain ⟨u, hu, h⟩ := bind_ok h
      cases h
      exact hC.proj (ih htail hu)
    | cases e m cs =>
      obtain ⟨hm, hcs⟩ := Elim.forall_vals_cases.1 he
      obtain ⟨u, hu, h⟩ := bind_ok h
      obtain ⟨w, hw, h⟩ := bind_ok h
      obtain ⟨ts, hts, h⟩ := bind_ok h
      cases h
      rw [Term.expand, Term.expandAll_eq]
      show C n _ (.elim e (m.embed n) (Spine.embed n head' sp) (Val.embedAll n cs))
      rw [Val.embedAll_eq]
      refine hC.elim_map (hm w hw) (ih htail hu) (List.Forall₂.flip ?_)
      exact mapM_ok hts fun c hc t ht => hcs c hc t ht

/-- A value that is read back is equal to the term. -/
theorem Val.quote_follows {full : Bool}
    (hunfold : full = true → ∀ {n x sp base}, P n (.glued x sp base) →
      P n base ∧ C n (.global x) (base.embed n))
    {v : Val} {t : Term} (hv : P n v) (h : v.quote fuel ms full n = .ok t) :
    C n (t.expand .self) (v.embed n) := by
  induction fuel generalizing v n t with
  | zero => cases h
  | succ fuel ih =>
    rw [Val.quote] at h
    obtain ⟨w, hw, h⟩ := bind_ok h
    have hPw := hP.forceMeta hsolved hv hw
    -- It is enough to relate the term to the forced value.
    refine hC.trans ?_ (hC.symm (Val.forceMeta_follows hC hP hsolved hv hw))
    split at h
    · cases h
      exact hC.refl _
    · cases h
      exact hC.refl _
    · next hd sp =>
      obtain ⟨head, hhead, h⟩ := bind_ok h
      rw [Head.quote_eq_ok hhead] at h
      refine Spine.quote_follows hC (fun v hv u hu => ih ((hP.steps n).spine hPw v hv) hu) ?_ h
      cases hd <;> exact hC.refl _
    · next x sp base =>
      split at h
      · next hfull =>
        obtain ⟨u, hu, h⟩ := bind_ok h
        obtain ⟨hPu, hwu⟩ := Val.force_follows hC hP hsolved (hunfold hfull) hPw hu
        exact hC.trans (ih hPu h) (hC.symm hwu)
      · exact Spine.quote_follows hC (fun v hv u hu => ih (hP.gluedSpine hPw v hv) hu) (hC.refl _) h
    · next c =>
      obtain ⟨dom, hdom, h⟩ := bind_ok h
      obtain ⟨body, hbody, h⟩ := bind_ok h
      obtain ⟨u, hu, h⟩ := bind_ok h
      cases h
      rw [Val.embed_closure, Term.expand, Term.up_self]
      refine hC.bind (ih (hP.dom hPw) hdom) ?_
      exact hC.trans (ih (hP.enter hPw hbody) hu) (hC.symm (Closure.enter_follows hC hP hPw hbody))
    · obtain ⟨ha, hb, hs⟩ := (hP.steps n).pair.1 hPw
      obtain ⟨ta, hta, h⟩ := bind_ok h
      obtain ⟨tb, htb, h⟩ := bind_ok h
      obtain ⟨ts, hts, h⟩ := bind_ok h
      cases h
      exact hC.pair (ih ha hta) (ih hb htb) (ih hs hts)

end

end Elaborator
