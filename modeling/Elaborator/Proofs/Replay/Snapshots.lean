import Mathlib.Data.Option.Basic
import Elaborator.Proofs.Replay.ReadBack
import Elaborator.Proofs.Scope.Elaborate

/-! # The same computation over other globals

A value holds the globals of the environment it was made in. If the same term is evaluated again
after the definitions have changed, the result is another value, which holds other globals. But
evaluation never looks at the value of a global, and reading back does so only on demand. So if the
globals that the term mentions are related (by `E`), the two values have the same form throughout
(`Val.Like`), and they are read back as the same term (`Val.Like.quote`). -/

namespace Elaborator

/-! ## Values of the same form -/

/-- Two values that are equal up to the globals that they hold. Where the same global occurs in
both, the values that it unfolds to are related by `E`. -/
inductive Val.Like (E : Name → Val → Val → Prop) : Val → Val → Prop
  | type : Like E .type .type
  | nat {n : Nat} : Like E (.nat n) (.nat n)
  | neutral {h : Head} {sa sb : Spine} (spines : List.Forall₂ (Elim.Alike (Like E)) sa sb) :
      Like E (.neutral h sa) (.neutral h sb)
  | glued {x : Name} {sa sb : Spine} {a b : Val} (bases : E x a b)
      (spines : List.Forall₂ (Elim.Alike (Like E)) sa sb) : Like E (.glued x sa a) (.glued x sb b)
  | closure {b : Binder} {dom dom' : Val} {env env' : Env} {body : Term} (doms : Like E dom dom')
      (locals : List.Forall₂ (Like E) env.locals env'.locals)
      (globals : ∀ x ∈ body.globals, ∀ v w, env.global? x = some v →
        env'.global? x = some w → E x v w) :
      Like E (.closure ⟨b, dom, env, body⟩) (.closure ⟨b, dom', env', body⟩)
  | pair {a b s x y z : Val} (fst : Like E a x) (snd : Like E b y) (sigma : Like E s z) :
      Like E (.pair a b s) (.pair x y z)

structure Env.Like (E : Name → Val → Val → Prop) (G : Name → Prop) (env env' : Env) : Prop where
  locals : List.Forall₂ (Val.Like E) env.locals env'.locals
  globals : ∀ x, G x → ∀ v w, env.global? x = some v → env'.global? x = some w → E x v w

inductive Reduction.Alike (R : Val → Val → Prop) : Reduction → Reduction → Prop
  | select {k : Nat} : Alike R (.select k) (.select k)
  | step {x y : Val} (pred : R x y) : Alike R (.step x) (.step y)
  | stuck : Alike R .stuck .stuck

/-- Two runs through lists of related elements agree if they do so at each step. -/
theorem Concur.mapM₂ {ε α β α' β' : Type} {P : α → β → Prop} {R : α' → β' → Prop}
    {f : α → Except ε α'} {g : β → Except ε β'} {xs : List α} {ys : List β}
    (h : List.Forall₂ P xs ys) (hfg : ∀ x y, P x y → Concur R (f x) (g y)) :
    Concur (List.Forall₂ R) (xs.mapM f) (ys.mapM g) := by
  induction h with
  | nil => exact .pure .nil
  | cons hxy _ ih =>
    rw [List.mapM_cons, List.mapM_cons]
    exact (hfg _ _ hxy).bind fun a b hab => ih.bind fun as bs habs => .pure (.cons hab habs)

section

variable {E : Name → Val → Val → Prop} {G F : Name → Prop} {env env' : Env} {v w : Val}

namespace Env.Like

theorem narrow (h : Env.Like E G env env') (hFG : ∀ x, F x → G x) : Env.Like E F env env' :=
  ⟨h.locals, fun x hx => h.globals x (hFG x hx)⟩

theorem push (h : Env.Like E G env env') (hvw : v.Like E w) :
    Env.Like E G (env.push v) (env'.push w) :=
  ⟨.cons hvw h.locals, h.globals⟩

end Env.Like

/-- Like values reduce in the same way. -/
theorem Reduction.of_like (h : v.Like E w) (e : Eliminator) :
    (Reduction.of e v).Alike (Val.Like E) (Reduction.of e w) := by
  cases h with
  | type | glued | closure | pair => cases e <;> exact .stuck
  | @nat n =>
    cases e with
    | nat =>
      cases n with
      | zero => exact .select
      | succ n => exact .step .nat
    | void | bool | heq => exact .stuck
  | @neutral p sa sb spines =>
    cases p with
    | var | metavar => cases e <;> exact .stuck
    | prim p =>
      -- The constructors of an eliminated type have at most two arguments.
      cases spines with
      | nil => cases e <;> cases p <;> constructor
      | cons h₁ spines =>
        cases spines with
        | nil =>
          cases h₁ with
          | app arg =>
            cases e with
            | nat =>
              cases p with
              | succ => exact .step arg
              | _ => exact .stuck
            | void | bool | heq => cases p <;> exact .stuck
          | proj | cases => cases e <;> cases p <;> exact .stuck
        | cons h₂ spines =>
          cases spines with
          | nil => cases h₁ <;> cases e <;> cases p <;> constructor
          | cons => cases h₁ <;> cases e <;> cases p <;> exact .stuck

theorem succNat_like (n : Nat) : Concur (Val.Like E) (succNat n) (succNat n) := by
  unfold succNat
  split
  · exact .ok .nat
  · exact .errorLeft

/-- Alike cases give alike results. -/
theorem caseAt_like {cs ds : List Val} (h : List.Forall₂ (Val.Like E) cs ds) (k : Nat) :
    Concur (Val.Like E) (caseAt cs k) (caseAt ds k) := by
  induction h generalizing k with
  | nil => exact .errorLeft
  | cons hcd _ ih =>
    cases k with
    | zero => exact .ok hcd
    | succ k => exact ih k

theorem Env.Like.local?_like (h : Env.Like E G env env') (i : Index) :
    Option.Rel (Val.Like E) (env.local? i) (env'.local? i) := by
  have key : ∀ {xs ys : List Val} (k : Nat), List.Forall₂ (Val.Like E) xs ys →
      Option.Rel (Val.Like E) xs[k]? ys[k]? := by
    intro xs ys k hxy
    induction hxy generalizing k with
    | nil => exact .none
    | cons hab _ ih =>
      cases k with
      | zero => exact .some hab
      | succ k => exact ih k
  exact key i.toNat h.locals

theorem forall₂_imp_of_mem {α β : Type} {R S : α → β → Prop} {xs : List α} {ys : List β}
    (h : List.Forall₂ R xs ys) (hRS : ∀ x ∈ xs, ∀ y, R x y → S x y) : List.Forall₂ S xs ys := by
  induction h with
  | nil => exact .nil
  | @cons x y _ _ hxy _ ih =>
    obtain ⟨hx, hxs⟩ := List.forall_mem_cons.1 hRS
    exact .cons (hx y hxy) (ih hxs)

/-- Related parts of alike spines may be related in another way. -/
theorem Spine.alike_imp {R S : Val → Val → Prop} {sa sb : Spine}
    (h : List.Forall₂ (Elim.Alike R) sa sb) (hRS : ∀ v ∈ Spine.vals sa, ∀ w, R v w → S v w) :
    List.Forall₂ (Elim.Alike S) sa sb := by
  induction h with
  | nil => exact .nil
  | cons hef _ ih =>
    obtain ⟨he, hsa⟩ := List.forall_mem_append.1 hRS
    refine .cons ?_ (ih hsa)
    cases hef with
    | @app icit x y hxy => exact .app (he x (by simp [Elim.vals]) y hxy)
    | proj => exact .proj
    | @cases e m k cs ds hm hcs =>
      obtain ⟨hm', hcs'⟩ := List.forall_mem_cons.1 he
      exact .cases (hm' k hm) (forall₂_imp_of_mem hcs hcs')

/-! ## Evaluation -/

structure EvaluatesLike (E : Name → Val → Val → Prop) (fuel : Nat) : Prop where
  eval : ∀ (fuel' : Nat) {env env' : Env} (t : Term), Env.Like E (· ∈ t.globals) env env' →
    Concur (Val.Like E) (t.eval fuel env) (t.eval fuel' env')
  eliminate : ∀ (fuel' : Nat) {v w : Val} {e f : Elim}, v.Like E w → e.Alike (Val.Like E) f →
    Concur (Val.Like E) (v.eliminate fuel e) (w.eliminate fuel' f)
  reduce : ∀ (fuel' : Nat) (e : Eliminator) {v w m k : Val} {cs ds : List Val}, v.Like E w →
    m.Like E k → List.Forall₂ (Val.Like E) cs ds →
    Concur (Option.Rel (Val.Like E)) (Val.reduce fuel e v m cs) (Val.reduce fuel' e w k ds)

variable {fuel fuel' : Nat}

/-- Evaluating in like environments gives like values, when the evaluator with less fuel does. -/
theorem Term.eval_like_step (ih : EvaluatesLike E fuel) {t : Term}
    (h : Env.Like E (· ∈ t.globals) env env') :
    Concur (Val.Like E) (t.eval (fuel + 1) env) (t.eval (fuel' + 1) env') := by
  cases t with
  | type => exact .ok .type
  | metavar m => exact .ok (.neutral .nil)
  | prim p => exact .ok (.neutral .nil)
  | nat n => exact .ok .nat
  | var i =>
    have hlocal := h.local?_like i
    simp only [Term.eval]
    generalize env.local? i = v, env'.local? i = w at hlocal ⊢
    cases hlocal with
    | none => exact .errorLeft
    | some hvw => exact .ok hvw
  | global x =>
    simp only [Term.eval]
    cases hv : env.global? x with
    | none => exact .errorLeft
    | some v =>
      cases hw : env'.global? x with
      | none => exact .errorRight
      | some w => exact .ok (.glued (h.globals x (by simp [Term.globals]) v w hv hw) .nil)
  | app f icit x =>
    refine (ih.eval fuel' f (h.narrow ?_)).bind fun vf wf hf => (ih.eval fuel' x (h.narrow ?_)).bind
      fun vx wx hx => ?_
    · simp +contextual [Term.globals]
    · simp +contextual [Term.globals]
    · exact ih.eliminate fuel' hf (.app hx)
  | bind b dom body =>
    refine (ih.eval fuel' dom (h.narrow ?_)).bind fun vdom wdom hdom => .pure ?_
    · simp +contextual [Term.globals]
    · exact .closure hdom h.locals fun x hx => h.globals x (by simp [Term.globals, hx])
  | pair a b s =>
    refine (ih.eval fuel' a (h.narrow ?_)).bind fun va wa ha => (ih.eval fuel' b (h.narrow ?_)).bind
        fun vb wb hb =>
      (ih.eval fuel' s (h.narrow ?_)).bind fun vs ws hs => .pure (.pair ha hb hs)
    all_goals simp +contextual [Term.globals]
  | proj x p => exact (ih.eval fuel' x h).bind fun vx wx hx => ih.eliminate fuel' hx .proj
  | letIn x erased ty val body =>
    refine (ih.eval fuel' val (h.narrow ?_)).bind fun v w hvw =>
      ih.eval fuel' body ((h.narrow ?_).push hvw)
    all_goals simp +contextual [Term.globals]
  | elim e m s cs =>
    have hparts : ∀ t, t = s ∨ t = m ∨ t ∈ cs → Env.Like E (· ∈ t.globals) env env' := by
      intro t ht
      refine h.narrow fun x hx => ?_
      simp only [Term.globals, Term.globalsAll_eq, List.mem_append, List.mem_flatMap]
      grind
    refine (ih.eval fuel' s (hparts s (by simp))).bind fun vs ws hs => ?_
    refine (ih.eval fuel' m (hparts m (by simp))).bind fun vm wm hm => ?_
    have hcs : Concur (List.Forall₂ (Val.Like E)) (cs.mapM (Term.eval fuel env))
        (cs.mapM (Term.eval fuel' env')) :=
      .mapM₂ (P := fun c d => c = d ∧ c ∈ cs) (List.forall₂_same.2 fun c hc => ⟨rfl, hc⟩)
          fun c d hcd => by
        obtain ⟨rfl, hc⟩ := hcd
        exact ih.eval fuel' c (hparts c (by simp [hc]))
    exact hcs.bind fun vcs wcs hcs => ih.eliminate fuel' hs (.cases hm hcs)

/-- Reducing like scrutinees gives like values, when the evaluator with less fuel does. -/
theorem Val.reduce_like_step (ih : EvaluatesLike E fuel) (e : Eliminator) {m k : Val}
    {cs ds : List Val} (hvw : v.Like E w) (hm : m.Like E k)
    (hcs : List.Forall₂ (Val.Like E) cs ds) :
    Concur (Option.Rel (Val.Like E)) (Val.reduce (fuel + 1) e v m cs)
      (Val.reduce (fuel' + 1) e w k ds) := by
  have hof := Reduction.of_like hvw e
  simp only [Val.reduce]
  generalize Reduction.of e v = a, Reduction.of e w = b at hof ⊢
  cases hof with
  | select => exact (caseAt_like hcs _).map fun _ _ h => .some h
  | stuck => exact .ok .none
  | step hpred =>
    refine (ih.eliminate fuel' hpred (.cases hm hcs)).bind fun previous _ hprevious => ?_
    refine (caseAt_like hcs 1).bind fun step _ hstep => ?_
    refine (ih.eliminate fuel' hstep (.app hpred)).bind fun stepped _ hstepped => ?_
    exact (ih.eliminate fuel' hstepped (.app hprevious)).map fun _ _ h => .some h

/-- Only a literal is like a literal. -/
theorem Val.Like.nat_iff (hvw : v.Like E w) (n : Nat) : v = .nat n ↔ w = .nat n := by
  cases hvw <;> simp

/-- Eliminating like values gives like values, when the evaluator with less fuel does. -/
theorem Val.eliminate_like_step (ih : EvaluatesLike E fuel) {e f : Elim} (hvw : v.Like E w)
    (hef : e.Alike (Val.Like E) f) :
    Concur (Val.Like E) (v.eliminate (fuel + 1) e) (w.eliminate (fuel' + 1) f) := by
  cases hef with
  | @app icit x y hxy =>
    cases hvw with
    | closure _ locals globals => exact ih.eval fuel' _ ⟨.cons hxy locals, globals⟩
    | glued bases spines => exact .ok (.glued bases (.cons (.app hxy) spines))
    | @neutral h sa sb spines =>
      have hblocked : (Elim.app icit x).Blocked h sa ↔ (Elim.app icit y).Blocked h sb := by
        have hnil : sa = [] ↔ sb = [] := by
          cases spines <;> simp
        simp only [Elim.Blocked, hnil, hxy.nat_iff]
      by_cases hb : (Elim.app icit x).Blocked h sa
      · rw [Val.eliminate_neutral_app hb, Val.eliminate_neutral_app (hblocked.1 hb)]
        exact .ok (.neutral (.cons (.app hxy) spines))
      · obtain ⟨rfl, rfl, rfl, n, rfl⟩ := not_not.1 hb
        cases spines
        cases hxy
        exact succNat_like n
    | type | nat | pair => exact .errorLeft
  | @proj p =>
    cases hvw with
    | pair fst snd =>
      cases p with
      | fst => exact .ok fst
      | snd => exact .ok snd
    | glued bases spines => exact .ok (.glued bases (.cons .proj spines))
    | neutral spines =>
      rw [Val.eliminate_neutral_proj, Val.eliminate_neutral_proj]
      exact .ok (.neutral (.cons .proj spines))
    | type | nat | closure => exact .errorLeft
  | @cases e m k cs ds hm hcs =>
    have hreduce := ih.reduce fuel' e hvw hm hcs
    -- Either the case analysis computes, or it is added to the spine of what is stuck.
    cases hvw with
    | glued bases spines => exact .ok (.glued bases (.cons (.cases hm hcs) spines))
    | neutral spines =>
      rw [Val.eliminate_neutral_cases, Val.eliminate_neutral_cases]
      refine hreduce.map fun o p hop => ?_
      cases hop with
      | some h => exact h
      | none => exact .neutral (.cons (.cases hm hcs) spines)
    | type | nat | closure | pair =>
      refine hreduce.bind fun o p hop => ?_
      cases hop with
      | some h => exact .pure h
      | none => exact .errorLeft

/-- Runs of the evaluator on like inputs give like values, for every amount of fuel on either side.
-/
theorem evaluatesLike (E : Name → Val → Val → Prop) (fuel : Nat) : EvaluatesLike E fuel := by
  induction fuel with
  | zero =>
    exact ⟨fun _ _ _ _ _ => .errorLeft, fun _ _ _ _ _ _ _ => .errorLeft,
      fun _ _ _ _ _ _ _ _ _ _ _ => .errorLeft⟩
  | succ fuel ih =>
    constructor
    · intro fuel' env env' t h
      cases fuel' with
      | zero => exact .errorRight
      | succ fuel' => exact Term.eval_like_step ih h
    · intro fuel' v w e f hvw hef
      cases fuel' with
      | zero => exact .errorRight
      | succ fuel' => exact Val.eliminate_like_step ih hvw hef
    · intro fuel' e v w m k cs ds hvw hm hcs
      cases fuel' with
      | zero => exact .errorRight
      | succ fuel' => exact Val.reduce_like_step ih e hvw hm hcs

/-- A term has alike values over alike environments. -/
theorem Term.eval_like {t : Term} (h : Env.Like E (· ∈ t.globals) env env') (fuel fuel' : Nat) :
    Concur (Val.Like E) (t.eval fuel env) (t.eval fuel' env') :=
  (evaluatesLike E fuel).eval fuel' t h

theorem Val.Like.applySpine {sa sb : Spine} (hvw : v.Like E w)
    (h : List.Forall₂ (Elim.Alike (Val.Like E)) sa sb) (fuel fuel' : Nat) :
    Concur (Val.Like E) (v.applySpine fuel sa) (w.applySpine fuel' sb) := by
  induction h with
  | nil => exact .ok hvw
  | cons hef _ ih => exact ih.bind fun a b hab => (evaluatesLike E fuel).eliminate fuel' hab hef

/-! ## Forcing and reading back

From here on the values have no metavariables, so the knowledge about metavariables does not
matter. -/

variable {L : Nat → Prop}

/-- What is like a value without metavariables is not stuck on one either. -/
theorem Val.Like.isMeta_eq (h : v.Like E w) : w.isMeta = v.isMeta := by
  cases h with
  | @neutral p => cases p <;> rfl
  | type | nat | glued | closure | pair => rfl

/-- Unfolding alike values gives alike values, if the values of a global are alike. -/
theorem Val.Like.force (hE : ∀ x a b, E x a b → a.Like E b) (h : v.Like E w)
    (hv : v.Within .noMetas L) (fuel fuel' : Nat) (ms ms' : MetaStore) :
    Concur (Val.Like E) (v.force fuel ms) (w.force fuel' ms') := by
  induction fuel generalizing v w fuel' with
  | zero => exact .errorLeft
  | succ fuel ih =>
    have hmeta : v.isMeta = false := hv.isMeta_of_metas fun _ => id
    have settled : (∀ x sp base, v ≠ .glued x sp base) → (∀ x sp base, w ≠ .glued x sp base) →
        Concur (Val.Like E) (v.force (fuel + 1) ms) (w.force fuel' ms') := by
      intro hvg hwg a b ha hb
      rw [Val.force_settled hmeta hvg ha, Val.force_settled (h.isMeta_eq.trans hmeta) hwg hb]
      exact h
    cases h with
    | glued bases spines =>
      cases fuel' with
      | zero => exact .errorRight
      | succ fuel' =>
        obtain ⟨-, hb, hs⟩ := Val.within_glued.1 hv
        have hspine := (hE _ _ _ bases).applySpine spines fuel fuel'
        refine (hspine.safely (Val.applySpine_safely hb.of_closed hs fuel)).bind fun a b hab => ?_
        exact ih hab.2 hab.1 fuel'
    | type | nat | neutral | closure | pair =>
      exact settled (fun _ _ _ h => nomatch h) fun _ _ _ h => nomatch h

/-- The same term is read back twice, and each of its globals has related values. -/
def Term.Over (E : Name → Val → Val → Prop) (t u : Term) : Prop :=
  t = u ∧ ∀ x ∈ t.globals, ∃ a b, E x a b

theorem Term.Over.list {ts us : List Term} (h : List.Forall₂ (Term.Over E) ts us) :
    ts = us ∧ ∀ t ∈ ts, ∀ x ∈ t.globals, ∃ a b, E x a b := by
  induction h with
  | nil => simp
  | cons htu _ ih =>
    obtain ⟨rfl, ht⟩ := htu
    obtain ⟨rfl, hts⟩ := ih
    exact ⟨rfl, List.forall_mem_cons.2 ⟨ht, hts⟩⟩

theorem Head.quote_like (h : Head) (n : Nat) : Concur (Term.Over E) (h.quote n) (h.quote n) := by
  intro t u ht hu
  obtain rfl := Except.ok.inj (ht.symm.trans hu)
  refine ⟨rfl, ?_⟩
  cases h with
  | var l =>
    obtain ⟨i, -, rfl⟩ := map_ok ht
    exact List.forall_mem_nil _
  | prim | metavar =>
    cases ht
    exact List.forall_mem_nil _

/-- Like spines read back to the same term when their values do. -/
theorem Spine.quote_like {q q' : Val → Except Fault Term} {sa sb : Spine} {head : Term}
    (hhead : head.Over E head)
    (h : List.Forall₂ (Elim.Alike fun v w => Concur (Term.Over E) (q v) (q' w)) sa sb) :
    Concur (Term.Over E) (Spine.quote q head sa) (Spine.quote q' head sb) := by
  induction h with
  | nil => exact .ok hhead
  | cons hef _ ih =>
    cases hef with
    | app hx =>
      refine ih.bind fun t _ ht => hx.bind fun tx _ hx => .pure ?_
      obtain ⟨rfl, ht⟩ := ht
      obtain ⟨rfl, hx⟩ := hx
      exact ⟨rfl, List.forall_mem_append.2 ⟨ht, hx⟩⟩
    | proj =>
      refine ih.bind fun t _ ht => .pure ?_
      obtain ⟨rfl, ht⟩ := ht
      exact ⟨rfl, ht⟩
    | cases hm hcs =>
      refine ih.bind fun t _ ht => hm.bind fun tm _ hm => (Concur.mapM₂ hcs fun _ _ h => h).bind
        fun ts us hts => .pure ?_
      obtain ⟨rfl, ht⟩ := ht
      obtain ⟨rfl, hm⟩ := hm
      obtain ⟨rfl, hall⟩ := Term.Over.list hts
      refine ⟨rfl, List.forall_mem_append.2 ⟨List.forall_mem_append.2 ⟨hm, ht⟩, ?_⟩⟩
      rw [Term.globalsAll_eq]
      intro x hx
      obtain ⟨t, ht, hx⟩ := List.mem_flatMap.1 hx
      exact hall t ht x hx

/-- **Alike values are read back as the same term**, by two runs with any fuel, whatever is known
about metavariables. With globals unfolded this needs alike values of the globals. -/
theorem Val.Like.quote (h : v.Like E w) (hv : v.Within .noMetas L) (full : Bool)
    (hE : full = true → ∀ x a b, E x a b → a.Like E b) (fuel fuel' n : Nat) (ms ms' : MetaStore) :
    Concur (Term.Over E) (v.quote fuel ms full n) (w.quote fuel' ms' full n) := by
  induction fuel generalizing v w fuel' n L with
  | zero => exact .errorLeft
  | succ fuel ih =>
    cases fuel' with
    | zero => exact .errorRight
    | succ fuel' =>
      rw [Val.quote, Val.quote]
      have hmeta : v.isMeta = false := hv.isMeta_of_metas fun _ => id
      -- There are no metavariables at the head, so both values are read back as they are.
      have hforce : Concur (fun a b => a = v ∧ b = w) (v.forceMeta fuel ms)
          (w.forceMeta fuel' ms') :=
        fun a b ha hb =>
          ⟨Val.forceMeta_settled hmeta ha, Val.forceMeta_settled (h.isMeta_eq.trans hmeta) hb⟩
      refine hforce.bind ?_
      rintro _ _ ⟨rfl, rfl⟩
      have hparts : ∀ {sa sb : Spine}, Spine.Within .noMetas L sa →
          List.Forall₂ (Elim.Alike (Val.Like E)) sa sb → List.Forall₂ (Elim.Alike fun v w =>
            Concur (Term.Over E) (v.quote fuel ms full n) (w.quote fuel' ms' full n)) sa sb :=
        fun hsa hsab => Spine.alike_imp hsab fun v hv w hvw => ih hvw (hsa v hv) fuel' n
      cases h with
      | type => exact .pure ⟨rfl, List.forall_mem_nil _⟩
      | nat => exact .pure ⟨rfl, List.forall_mem_nil _⟩
      | @neutral p sa sb spines =>
        have hs := (Val.within_neutral.1 hv).2.2
        refine (Head.quote_like (E := E) p n).bind ?_
        rintro t _ ⟨rfl, ht⟩
        exact Spine.quote_like ⟨rfl, ht⟩ (hparts hs spines)
      | @glued x sa sb a b bases spines =>
        cases full with
        | true =>
          have hunfold := (Val.Like.glued bases spines).force (hE rfl) hv fuel fuel' ms ms'
          have hms : ms.SolvedWithin .noMetas := fun _ _ h => h.elim
          refine (hunfold.safely (Val.force_safely hms hv fuel)).bind fun u u' hu => ?_
          exact ih hu.2 hu.1 fuel' n
        | false =>
          have hs := (Val.within_glued.1 hv).2.2
          exact Spine.quote_like ⟨rfl, by simpa [Term.globals] using ⟨a, b, bases⟩⟩
            (hparts hs spines)
      | @closure b dom dom' env env' body doms locals globals =>
        refine (ih doms (Val.within_closure.1 hv).1 fuel' n).bind fun tdom _ hdom => ?_
        have henter : Safely (Closure.enter fuel ⟨b, dom, env, body⟩ n)
            (Val.Within .noMetas fun l => L l ∨ l = n) :=
          Closure.enter_safely hv (fun _ hl => .inl hl) (.inr rfl) fuel
        have hbody : Concur (Val.Like E) (Closure.enter fuel ⟨b, dom, env, body⟩ n)
            (Closure.enter fuel' ⟨b, dom', env', body⟩ n) :=
          Term.eval_like ((Env.Like.mk locals globals).push (.neutral .nil)) fuel fuel'
        refine (hbody.safely henter).bind fun u u' hu =>
          (ih hu.2 hu.1 fuel' (n + 1)).bind fun t _ ht => .pure ?_
        obtain ⟨rfl, hdom⟩ := hdom
        obtain ⟨rfl, ht⟩ := ht
        exact ⟨rfl, List.forall_mem_append.2 ⟨hdom, ht⟩⟩
      | pair fst snd sigma =>
        obtain ⟨ha, hb, hs⟩ := Val.within_pair.1 hv
        refine (ih fst ha fuel' n).bind fun ta _ hta => (ih snd hb fuel' n).bind fun tb _ htb =>
          (ih sigma hs fuel' n).bind fun ts _ hts => .pure ?_
        obtain ⟨rfl, hta⟩ := hta
        obtain ⟨rfl, htb⟩ := htb
        obtain ⟨rfl, hts⟩ := hts
        exact ⟨rfl, List.forall_mem_append.2 ⟨List.forall_mem_append.2 ⟨hta, htb⟩, hts⟩⟩

/-! ## A value and itself -/

def SameGround (_ : Name) (a b : Val) : Prop := a = b ∧ a.Ground

theorem Spine.alike_self {R : Val → Val → Prop} {sp : Spine} (h : ∀ v ∈ Spine.vals sp, R v v) :
    List.Forall₂ (Elim.Alike R) sp sp := by
  refine List.forall₂_same.2 fun e he => ?_
  have hparts : ∀ v ∈ e.vals, R v v := fun v hv => h v (List.mem_flatMap.2 ⟨e, he, hv⟩)
  cases e with
  | app icit x => exact .app (hparts x (by simp [Elim.vals]))
  | proj p => exact .proj
  | cases e m cs =>
    obtain ⟨hm, hcs⟩ := List.forall_mem_cons.1 hparts
    exact .cases hm (List.forall₂_same.2 hcs)

/-- A value without metavariables is like itself. -/
theorem Val.Within.like_self (h : v.Within .noMetas L) : v.Like SameGround v := by
  induction h with
  | type => exact .type
  | nat => exact .nat
  | neutral _ _ _ ih => exact .neutral (Spine.alike_self ih)
  | glued _ closed _ _ ih => exact .glued ⟨rfl, closed⟩ (Spine.alike_self ih)
  | @closure L c _ _ _ closed _ ihd ihl _ =>
    obtain ⟨b, dom, env, body⟩ := c
    refine .closure ihd (List.forall₂_same.2 ihl) fun x hx a b ha hb => ?_
    obtain rfl := Option.some.inj (ha.symm.trans hb)
    exact ⟨rfl, closed x hx a ha⟩
  | pair _ _ _ iha ihb ihs => exact .pair iha ihb ihs

/-- A ground value that two sessions share is like itself. -/
theorem SameGround.like {x : Name} {a b : Val} (h : SameGround x a b) : a.Like SameGround b := by
  obtain ⟨rfl, ha⟩ := h
  exact ha.like_self

/-- What has no metavariables is read back in one way only, however often that is done. -/
theorem Val.Within.quote_unique (h : v.Within .noMetas L) {full : Bool} {fuel fuel' n : Nat}
    {ms ms' : MetaStore} {t u : Term} (ht : v.quote fuel ms full n = .ok t)
    (hu : v.quote fuel' ms' full n = .ok u) : t = u :=
  (h.like_self.quote h full (fun _ _ _ _ => SameGround.like) fuel fuel' n ms ms' t u ht hu).1

theorem Bounds.normal_le_noMetas : Bounds.normal.Le .noMetas :=
  ⟨fun _ => id, fun _ _ => id, False.elim⟩

end

end Elaborator
