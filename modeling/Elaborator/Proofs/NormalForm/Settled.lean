import Elaborator.Proofs.Invariant
import Elaborator.Proofs.Replay.Eval

/-! # Values in which nothing is left to compute

Evaluation adds an elimination to a spine only if the elimination does not compute there, and it
never looks at the value of a global. So no neutral value that it makes hides anything that computes
(`Val.Settled`), whatever the globals stand for. Only where globals are unfolded (`full`) do their
values have to be settled as well. -/

namespace Elaborator

/-- No neutral value inside this value computes. Its metavariables satisfy `M` and its globals
satisfy `G`, and if globals are unfolded, the same holds of their values. -/
inductive Val.Settled (M : MetaId → Prop) (G : Name → Prop) (full : Bool) : Val → Prop
  | type : Settled M G full .type
  | nat {n : Nat} : Settled M G full (.nat n)
  | neutral {h : Head} {sp : Spine} (head : ∀ m, h = .metavar m → M m)
      (blocked : Spine.Blocked h sp) (spine : ∀ v ∈ Spine.vals sp, Settled M G full v) :
      Settled M G full (.neutral h sp)
  | glued {x : Name} {sp : Spine} {base : Val} (known : G x)
      (unfolds : full = true → Settled M G full base)
      (spine : ∀ v ∈ Spine.vals sp, Settled M G full v) : Settled M G full (.glued x sp base)
  | closure {c : Closure} (dom : Settled M G full c.dom)
      (locals : ∀ v ∈ c.env.locals, Settled M G full v)
      (known : ∀ x ∈ c.body.globals, ∀ v, c.env.global? x = some v → G x)
      (unfolds : full = true → ∀ x ∈ c.body.globals, ∀ v, c.env.global? x = some v →
        Settled M G full v) (metas : ∀ m ∈ c.body.metaOccurrences, M m) :
          Settled M G full (.closure c)
  | pair {a b s : Val} (fst : Settled M G full a) (snd : Settled M G full b)
      (sigma : Settled M G full s) : Settled M G full (.pair a b s)

/-- A term mentions only what settled values may mention, in an environment of settled values. -/
structure Term.SettledIn (M : MetaId → Prop)
    (G : Name → Prop) (full : Bool) (env : Env) (t : Term) : Prop where
  locals : ∀ v ∈ env.locals, v.Settled M G full
  known : ∀ x ∈ t.globals, ∀ v, env.global? x = some v → G x
  unfolds : full = true → ∀ x ∈ t.globals, ∀ v, env.global? x = some v → v.Settled M G full
  metas : ∀ m ∈ t.metaOccurrences, M m

section

variable {M : MetaId → Prop} {G : Name → Prop} {full : Bool} {env : Env}

namespace Term.SettledIn

variable {t u : Term} {v : Val}

/-- A part of a term mentions no more than the whole. -/
theorem part (h : t.SettledIn M G full env) (hglobals : ∀ x ∈ u.globals, x ∈ t.globals)
    (hmetas : ∀ m ∈ u.metaOccurrences, m ∈ t.metaOccurrences) : u.SettledIn M G full env :=
  ⟨h.locals, fun x hx => h.known x (hglobals x hx), fun hf x hx => h.unfolds hf x (hglobals x hx),
    fun m hm => h.metas m (hmetas m hm)⟩

theorem push (h : t.SettledIn M G full env) (hv : v.Settled M G full) :
    t.SettledIn M G full (env.push v) :=
  ⟨List.forall_mem_cons.2 ⟨hv, h.locals⟩, h.known, h.unfolds, h.metas⟩

end Term.SettledIn

theorem Val.settled_closure {c : Closure} :
    (Val.closure c).Settled M G full ↔
      c.dom.Settled M G full ∧ c.body.SettledIn M G full c.env := by
  constructor
  · rintro ⟨⟩
    exact ⟨‹_›, ‹_›, ‹_›, ‹_›, ‹_›⟩
  · rintro ⟨hdom, hbody⟩
    exact .closure hdom hbody.locals hbody.known hbody.unfolds hbody.metas

theorem Val.settled_neutral {h : Head} {sp : Spine} :
    (Val.neutral h sp).Settled M G full ↔
      (∀ m, h = .metavar m → M m) ∧ Spine.Blocked h sp ∧ ∀ v ∈ Spine.vals sp,
        v.Settled M G full := by
  constructor
  · rintro ⟨⟩
    exact ⟨‹_›, ‹_›, ‹_›⟩
  · rintro ⟨hhead, hblocked, hspine⟩
    exact .neutral hhead hblocked hspine

theorem Val.settled_fresh (l : Nat) : (Val.fresh l).Settled M G full :=
  .neutral (by simp) trivial (List.forall_mem_nil _)

theorem Val.settled_pair {a b s : Val} :
    (Val.pair a b s).Settled M G full ↔
      a.Settled M G full ∧ b.Settled M G full ∧ s.Settled M G full := by
  constructor
  · rintro ⟨⟩
    exact ⟨‹_›, ‹_›, ‹_›⟩
  · rintro ⟨ha, hb, hs⟩
    exact .pair ha hb hs

/-! ## Evaluation keeps values settled -/

/-- A blocked elimination is added to the spine. -/
theorem Val.Settled.snoc {h : Head} {sp : Spine} {e : Elim}
    (hv : (Val.neutral h sp).Settled M G full) (he : ∀ u ∈ e.vals, u.Settled M G full)
    (hb : e.Blocked h sp) : (Val.neutral h (e :: sp)).Settled M G full := by
  obtain ⟨hhead, hblocked, hspine⟩ := Val.settled_neutral.1 hv
  exact .neutral hhead ⟨hb, hblocked⟩ (List.forall_mem_append.2 ⟨he, hspine⟩)

/-- Evaluation gives settled values on settled environments. -/
theorem Val.settled_invariant :
    EvalInvariant (Val.Settled M G full) fun env t => t.SettledIn M G full env where
  type := .type
  nat _ := .nat
  prim _ := .neutral (by simp) trivial (List.forall_mem_nil _)
  metavar h :=
    .neutral (by simpa [Term.metaOccurrences] using h.metas) trivial (List.forall_mem_nil _)
  var h hi := h.locals _ (List.mem_of_getElem? hi)
  global := by
    intro env x v h hx
    have hmem : x ∈ (Term.global x).globals := List.mem_singleton_self x
    exact .glued (h.known x hmem v hx) (fun hf => h.unfolds hf x hmem v hx) (List.forall_mem_nil _)
  part h hu := h.part (fun _ => Term.globals_of_mem_parts hu) fun _ =>
    Term.metaOccurrences_of_mem_parts hu
  body h hv :=
    (h.part (by simp +contextual [Term.globals])
      (by simp +contextual [Term.metaOccurrences])).push hv
  bind h hdom := by
    refine Val.settled_closure.2 ⟨hdom, h.part ?_ ?_⟩
    · simp +contextual [Term.globals]
    · simp +contextual [Term.metaOccurrences]
  apply hc hx := (Val.settled_closure.1 hc).2.push hx
  pair := Val.settled_pair
  glued := by
    rintro x sp base e (_ | _ | _ | ⟨hknown, hunfolds, hspine⟩) he
    exact .glued hknown hunfolds (List.forall_mem_append.2 ⟨he, hspine⟩)
  neutral hv he hb := hv.snoc he hb
  spine hv := (Val.settled_neutral.1 hv).2.2

theorem Term.SettledIn.eval {fuel : Nat} {t : Term} {v : Val} (h : t.SettledIn M G full env)
    (hv : t.eval fuel env = .ok v) : v.Settled M G full :=
  Val.settled_invariant.eval h hv

variable {fuel : Nat}

namespace Val.Settled

variable {v w : Val}

theorem applySpine {sp : Spine} (hv : v.Settled M G full)
    (hsp : ∀ u ∈ Spine.vals sp, u.Settled M G full) (hw : v.applySpine fuel sp = .ok w) :
    w.Settled M G full :=
  Val.settled_invariant.applySpine hv hsp hw

/-- The body of a closure is settled for a variable that is new. -/
theorem enter {c : Closure} {n : Nat} (hc : (Val.closure c).Settled M G full)
    (hw : c.enter fuel n = .ok w) : w.Settled M G full :=
  Val.settled_invariant.apply_closure hc (Val.settled_fresh n) hw

end Val.Settled

/-! ## Forcing

As long as its metavariables have no solution, a settled value is only changed by unfolding
globals. -/

variable {ms : MetaStore} (hM : ∀ m, M m → ms.lookup m = none)

include hM

/-- A settled value has nothing left to force. -/
theorem Val.Settled.forceMeta {v w : Val} (hv : v.Settled M G full)
    (hw : v.forceMeta fuel ms = .ok w) : w = v := by
  cases fuel with
  | zero => cases hw
  | succ fuel =>
    unfold Val.forceMeta at hw
    split at hw
    · next m sp =>
      rw [hM m ((Val.settled_neutral.1 hv).1 m rfl)] at hw
      cases hw
      rfl
    · cases hw
      rfl

theorem Val.Settled.force {v w : Val} (hfull : full = true) (hv : v.Settled M G full)
    (hw : v.force fuel ms = .ok w) : w.Settled M G full := by
  induction fuel generalizing v w with
  | zero => cases hw
  | succ fuel ih =>
    unfold Val.force at hw
    split at hw
    · obtain ⟨u, hu, hw⟩ := bind_ok hw
      cases hv with
      | glued _ hunfolds hspine => exact ih ((hunfolds hfull).applySpine hspine hu) hw
    · obtain ⟨u, hu, hforced⟩ := bind_ok hw
      obtain rfl := hv.forceMeta hM hu
      split at hforced
      · exact ih hv hforced
      · cases hforced
        exact hv

omit hM in
/-- Two ways to go on only have to agree where there is something to go on with. -/
theorem bind_congr_ok {ε α β : Type} {x : Except ε α} {f k : α → Except ε β}
    (h : ∀ a, x = .ok a → f a = k a) : x >>= f = x >>= k := by
  cases x with
  | error e => rfl
  | ok a => exact h a rfl

/-- As long as its metavariables have no solution, it does not matter for reading a settled value
back what else is known. -/
theorem Val.Settled.quote_metas {ms' : MetaStore} (hM' : ∀ m, M m → ms'.lookup m = none) {v : Val}
    (hv : v.Settled M G false) (fuel n : Nat) :
    v.quote fuel ms false n = v.quote fuel ms' false n := by
  induction fuel generalizing n v with
  | zero => rfl
  | succ fuel ih =>
    -- Neither store has a solution for a metavariable at the head, so there is nothing to force.
    have hforce : v.forceMeta fuel ms = v.forceMeta fuel ms' := by
      cases fuel with
      | zero => rfl
      | succ fuel =>
        have hopen (m : MetaId) (sp : Spine) (h : v = .neutral (.metavar m) sp) : M m := by
          subst h
          exact (Val.settled_neutral.1 hv).1 m rfl
        rw [Val.forceMeta_open fun m sp h => hM m (hopen m sp h),
          Val.forceMeta_open fun m sp h => hM' m (hopen m sp h)]
    rw [Val.quote, Val.quote, hforce]
    refine bind_congr_ok fun u hu => ?_
    obtain rfl := hv.forceMeta hM' hu
    cases hv with
    | type | nat => rfl
    | neutral _ _ hspine => simp only [Spine.quote_congr fun x hx => ih (hspine x hx) n]
    | glued _ _ hspine => exact Spine.quote_congr fun x hx => ih (hspine x hx) n
    | @closure c hdom hlocals hknown hunfolds hmetas =>
      simp only [ih hdom n]
      refine bind_congr_ok fun dom _ => bind_congr_ok fun body hbody => ?_
      rw [ih (Val.Settled.enter (.closure hdom hlocals hknown hunfolds hmetas) hbody)]
    | pair ha hb hs => simp only [ih ha n, ih hb n, ih hs n]

end

/-- A closed value without metavariables in which nothing computes is settled, globals unfolded or
not. -/
theorem Val.Within.settled {L : Nat → Prop} {v : Val} {M : MetaId → Prop} {full : Bool}
    (h : v.Within .normal L) : v.Settled M anything full := by
  induction h with
  | type => exact .type
  | nat => exact .nat
  | @neutral L h sp hhead hblocked _ ih =>
    refine .neutral ?_ (hblocked trivial) ih
    rintro m rfl
    exact hhead.elim
  | glued _ _ _ ihbase ihspine => exact .glued trivial (fun _ => ihbase) ihspine
  | closure _ _ _ _ hbody ihdom ihlocals ihglobals =>
    exact .closure ihdom ihlocals (fun _ _ _ _ => trivial) (fun _ => ihglobals) fun m hm =>
      (hbody.2 m hm).elim
  | pair _ _ _ iha ihb ihs => exact .pair iha ihb ihs

end Elaborator
