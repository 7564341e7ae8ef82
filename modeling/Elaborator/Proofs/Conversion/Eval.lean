import Elaborator.Proofs.Conversion.Computes

/-! # Evaluation and reading back make equal terms

Equality of core terms has the rules of computation, so evaluation (`Term.eval_conv`), forcing
(`Val.force_conv`) and reading back (`Val.quote_conv`) compute along it. The values have to be in
their scope, and a value that stands for a global has to be the one that the globals give it
(`Globals.bounds`); both is kept by the functions themselves. -/

namespace Elaborator

/-- Metavariables are not bounded, and a global may only stand for its value. -/
def Globals.bounds (g : Globals) : Bounds := ⟨anything, fun x v => g.env.global? x = some v, False⟩

/-! ## Equality has the rules of computation -/

section

variable {g : Globals} {k : Knowledge} {E : Problem → Prop} {n fuel : Nat}

/-- Conversion is closed under every rule that a run of the evaluator uses. -/
theorem Conv.computes (g : Globals) (k : Knowledge) (E : Problem → Prop) :
    Computes (Conv g k E) where
  refl := .refl
  symm := .symm
  trans := .trans
  app := .app
  bind := .bind rfl rfl
  pair := .pair
  proj := .proj
  elim hm hs hcs := .elim hm hs hcs.length_eq fun _ _ _ => rel_of_getElem? hcs
  reduce := .reduce

/-- Equal terms under the same elimination. -/
theorem Conv.use {s t : Term} (h : Conv g k E n s t) (e : Elim) :
    Conv g k E n (e.embed n s) (e.embed n t) :=
  (Conv.computes g k E).use h e

end

/-! ## Values in bounds are in their scope -/

/-- The term is in bounds, and so are the globals that it refers to in the environment. -/
structure Term.WithinIn (B : Bounds) (env : Env) (t : Term) : Prop where
  bound : ∀ x ∈ t.globals, ∀ v, env.global? x = some v → B.globals x v
  closed : ∀ x ∈ t.globals, ∀ v, env.global? x = some v → v.Within B noLevels
  term : t.Within B env.size

theorem Env.Within.withinIn {B : Bounds} {L : Nat → Prop} {env : Env} {t : Term}
    (henv : env.Within B L (· ∈ t.globals)) (ht : t.Within B env.size) : t.WithinIn B env :=
  ⟨henv.bound, henv.closed, ht⟩

/-- Being within bounds at a depth is carried along by evaluation. -/
theorem Val.within_scopeInvariant (B : Bounds) :
    ScopeInvariant (fun n v => v.Within B (· < n)) fun env t => t.WithinIn B env where
  steps n :=
    { type := .type
      nat := fun _ => .nat
      prim := fun _ => Val.within_prim
      metavar := fun h => Val.within_metavar.2 (Term.within_metavar.1 h.2.term)
      var := fun h hi => h.1 _ (List.mem_of_getElem? hi)
      global := by
        intro env x v h hx
        have hmem : x ∈ (Term.global x).globals := List.mem_singleton_self x
        exact .glued (h.2.bound x hmem v hx) (h.2.closed x hmem v hx) (List.forall_mem_nil _)
      part := by
        intro env t u h hu
        refine ⟨h.1, fun x hx => h.2.bound x ?_, fun x hx => h.2.closed x ?_,
          Term.within_of_mem_parts h.2.term hu⟩ <;> exact Term.globals_of_mem_parts hu hx
      body := by
        intro env x erased ty val body v h hv
        have hmem {y : Name} (hy : y ∈ body.globals) :
            y ∈ (Term.letIn x erased ty val body).globals :=
          List.mem_append_right _ hy
        refine ⟨List.forall_mem_cons.2 ⟨hv, h.1⟩, fun y hy => h.2.bound y (hmem hy),
          fun y hy => h.2.closed y (hmem hy), ?_⟩
        rw [Env.size_push]
        exact (Term.within_letIn.1 h.2.term).2.2
      bind := by
        intro env b dom body vdom h hdom
        have hmem {y : Name} (hy : y ∈ body.globals) : y ∈ (Term.bind b dom body).globals :=
          List.mem_append_right _ hy
        exact .closure hdom h.1 (fun y hy => h.2.bound y (hmem hy))
          (fun y hy => h.2.closed y (hmem hy)) (Term.within_bind.1 h.2.term).2
      apply := by
        intro c x hc hx
        obtain ⟨-, henv, hbody⟩ := Val.within_closure.1 hc
        refine ⟨List.forall_mem_cons.2 ⟨hx, henv.locals⟩, henv.bound, henv.closed, ?_⟩
        rw [Env.size_push]
        exact hbody
      pair := Val.within_pair
      glued := by
        intro x sp base e hv he
        obtain ⟨hx, hb, hsp⟩ := Val.within_glued.1 hv
        exact .glued hx hb (Spine.within_cons.2 ⟨he, hsp⟩)
      neutral := by
        intro h sp e hv he hblocked
        obtain ⟨hh, hb, hsp⟩ := Val.within_neutral.1 hv
        exact .neutral hh (fun hc => ⟨hblocked, hb hc⟩) (Spine.within_cons.2 ⟨he, hsp⟩)
      spine := fun hv => (Val.within_neutral.1 hv).2.2 }
  add h j := h.mono fun _ hl => by omega
  embed_add h j := h.embed_add (fun _ hl => hl) j
  fresh n := Val.within_var.2 (Nat.lt_succ_self n)
  dom h := (Val.within_closure.1 h).1
  gluedSpine h := (Val.within_glued.1 h).2.2

/-! ## Evaluation, forcing and reading back -/

section

variable {g : Globals} {k : Knowledge} {E : Problem → Prop} {n fuel : Nat}

/-- A term with its variables replaced is equal to its value. -/
theorem Term.eval_conv {env : Env} {t : Term} {v : Val}
    (henv : env.Within g.bounds (· < n) (· ∈ t.globals)) (ht : t.Within g.bounds env.size)
    (h : t.eval fuel env = .ok v) : Conv g k E n (t.expand (env.embed n)) (v.embed n) :=
  (follows (Conv.computes g k E) (Val.within_scopeInvariant g.bounds) fuel).eval henv.locals
    (henv.withinIn ht) h

/-- Eliminating a value gives a value convertible to the elimination of its embedding. -/
theorem Val.eliminate_conv {v w : Val} {e : Elim} (hv : v.Within g.bounds (· < n))
    (he : e.Within g.bounds (· < n)) (h : v.eliminate fuel e = .ok w) :
    Conv g k E n (e.embed n (v.embed n)) (w.embed n) :=
  (follows (Conv.computes g k E) (Val.within_scopeInvariant g.bounds) fuel).eliminate hv he h

/-- Entering a closure gives its body below the binder. -/
theorem Closure.enter_conv {c : Closure} {v : Val} (hc : (Val.closure c).Within g.bounds (· < n))
    (h : c.enter fuel n = .ok v) :
    Conv g k E (n + 1) (c.body.expand (Term.cons (.self 0) (c.env.embed (n + 1))))
      (v.embed (n + 1)) :=
  Closure.enter_follows (Conv.computes g k E) (Val.within_scopeInvariant g.bounds) hc h

variable {ms : MetaStore}

/-- A metavariable is equal to its solution. -/
theorem Conv.lookup {m : MetaId} {v : Val} (h : ms.lookup m = some v) :
    Conv g ms.now E n (.metavar m) (v.embed n) :=
  .solved (Option.join_eq_some_iff.1 h)

/-- A solution that is looked up is in bounds, and the metavariable is equal to it. -/
theorem Conv.solution (hms : ms.SolvedWithin g.bounds) {m : MetaId} {sp : Spine} {u : Val}
    (hm : (Val.neutral (.metavar m) sp).Within g.bounds (· < n)) (hu : ms.lookup m = some u) :
    u.Within g.bounds (· < n) ∧ Conv g ms.now E n (.metavar m) (u.embed n) :=
  ⟨(hms m u (Val.within_neutral.1 hm).1 hu).of_closed, .lookup hu⟩

/-- A global that is unfolded is in bounds, and equal to what it stands for. -/
theorem Conv.unfolding {x : Name} {sp : Spine} {base : Val}
    (h : (Val.glued x sp base).Within g.bounds (· < n)) :
    base.Within g.bounds (· < n) ∧ Conv g k E n (.global x) (base.embed n) := by
  obtain ⟨hx, hb, -⟩ := Val.within_glued.1 h
  exact ⟨hb.of_closed, .unfold hx⟩

/-- Forcing the solved head of a value gives a convertible value. -/
theorem Val.forceMeta_conv (hms : ms.SolvedWithin g.bounds) {v w : Val}
    (hv : v.Within g.bounds (· < n)) (h : v.forceMeta fuel ms = .ok w) :
    Conv g ms.now E n (v.embed n) (w.embed n) :=
  Val.forceMeta_follows (Conv.computes g ms.now E) (Val.within_scopeInvariant g.bounds)
    (Conv.solution hms) hv h

/-- Forcing a value, definitions included, gives a convertible value. -/
theorem Val.force_conv (hms : ms.SolvedWithin g.bounds) {v w : Val} (hv : v.Within g.bounds (· < n))
    (h : v.force fuel ms = .ok w) : Conv g ms.now E n (v.embed n) (w.embed n) :=
  (Val.force_follows (Conv.computes g ms.now E) (Val.within_scopeInvariant g.bounds)
    (Conv.solution hms) Conv.unfolding hv h).2

/-- A value that is read back is equal to the term, whether globals are unfolded or not. -/
theorem Val.quote_conv (hms : ms.SolvedWithin g.bounds) {v : Val} {t : Term} {full : Bool}
    (hv : v.Within g.bounds (· < n)) (h : v.quote fuel ms full n = .ok t) :
    Conv g ms.now E n (t.expand .self) (v.embed n) :=
  Val.quote_follows (Conv.computes g ms.now E) (Val.within_scopeInvariant g.bounds)
    (Conv.solution hms) (fun _ => Conv.unfolding) hv h

end

end Elaborator
