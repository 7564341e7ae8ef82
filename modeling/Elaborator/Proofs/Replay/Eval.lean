import Elaborator.Proofs.Fuel.Eval
import Elaborator.Proofs.ValueMaps

/-! # Computing again

A type checker that runs after another one computes what the first one computed before, with other
fuel, with other knowledge about metavariables and, below a let-binding, in a scope of another size.
None of this matters: values without metavariables do not look at the knowledge, fuel only decides
whether there is an answer, and the size only decides which level a new variable gets. So two runs
of the same computation agree where both have an answer, up to the levels (`Val.relevel`):
evaluating and forcing commute with replacing levels (`Val.force_relevel`), and with more fuel there
is no other answer. -/

namespace Elaborator

/-! ## Two runs side by side -/

/-- If both computations have an answer, the answers are related. -/
def Concur {ε α β : Type} (R : α → β → Prop) (x : Except ε α) (y : Except ε β) : Prop :=
  ∀ a b, x = .ok a → y = .ok b → R a b

namespace Concur

variable {ε α β α' β' : Type} {R : α → β → Prop} {S : α' → β' → Prop} {x : Except ε α}
  {y : Except ε β}

theorem ok {a : α} {b : β} (h : R a b) : Concur R (.ok a : Except ε α) (.ok b : Except ε β) := by
  rintro _ _ ⟨⟩ ⟨⟩
  exact h

theorem pure {a : α} {b : β} (h : R a b) :
    Concur R (Pure.pure a : Except ε α) (Pure.pure b : Except ε β) := ok h

theorem errorLeft {e : ε} : Concur R (.error e : Except ε α) y := fun _ _ h => nomatch h

theorem errorRight {e : ε} : Concur R x (.error e : Except ε β) := fun _ _ _ h => nomatch h

/-- Two sequences concur when their first parts do and the rest does on related answers. -/
theorem bind {k : α → Except ε α'} {l : β → Except ε β'} (h : Concur R x y)
    (hk : ∀ a b, R a b → Concur S (k a) (l b)) : Concur S (x >>= k) (y >>= l) := by
  cases hx : x with
  | error e => exact errorLeft
  | ok a =>
    cases hy : y with
    | error e => exact errorRight
    | ok b => exact hk a b (h a b hx hy)

theorem map {f : α → α'} {g : β → β'} (h : Concur R x y) (hf : ∀ a b, R a b → S (f a) (g b)) :
    Concur S (f <$> x) (g <$> y) := by
  cases hx : x with
  | error e => exact errorLeft
  | ok a =>
    cases hy : y with
    | error e => exact errorRight
    | ok b => exact ok (hf a b (h a b hx hy))

/-- Two runs that end as a third one, unless they run out of fuel, have the same answer. -/
theorem of_prolongs {x y z : Except Fault α} (hx : Prolongs x z) (hy : Prolongs y z) :
    Concur (fun a b => b = a) x y :=
  fun _ _ ha hb => Except.ok.inj ((hy.ok hb).symm.trans (hx.ok ha))

theorem map_right {f : α → β} {y : Except ε α} (h : Concur (fun a b => b = a) x y) :
    Concur (fun a b => b = f a) x (f <$> y) := by
  cases hy : y with
  | error e => exact errorRight
  | ok b =>
    rintro a _ ha ⟨⟩
    exact congrArg f (h a b ha hy)

/-- What is known about the answer of the first run is kept. -/
theorem safely [ScopeFailure ε] {Q : α → Prop} (h : Concur R x y) (hx : Safely x Q) :
    Concur (fun a b => Q a ∧ R a b) x y :=
  fun a b ha hb => ⟨hx.answer a ha, h a b ha hb⟩

end Concur

/-! ## Other levels -/

def Head.relevel (r : Nat → Nat) : Head → Head
  | .var l => .var ⟨r l.toNat⟩
  | .prim p => .prim p
  | .metavar m => .metavar m

mutual

/-- The value with its levels replaced. Globals are closed and stay as they are. -/
def Val.relevel (r : Nat → Nat) : Val → Val
  | .type => .type
  | .neutral h sp => .neutral (h.relevel r) (Spine.relevel r sp)
  | .glued x sp base => .glued x (Spine.relevel r sp) base
  | .closure ⟨b, dom, ⟨globals, locals⟩, body⟩ =>
    .closure ⟨b, dom.relevel r, ⟨globals, Val.relevelAll r locals⟩, body⟩
  | .pair a b s => .pair (a.relevel r) (b.relevel r) (s.relevel r)
  | .nat n => .nat n

def Spine.relevel (r : Nat → Nat) : List Elim → List Elim
  | [] => []
  | e :: sp => e.relevel r :: Spine.relevel r sp

def Elim.relevel (r : Nat → Nat) : Elim → Elim
  | .app icit x => .app icit (x.relevel r)
  | .proj p => .proj p
  | .cases e motive cases => .cases e (motive.relevel r) (Val.relevelAll r cases)

def Val.relevelAll (r : Nat → Nat) : List Val → List Val
  | [] => []
  | v :: vs => v.relevel r :: Val.relevelAll r vs

end

theorem Val.relevelAll_eq (r : Nat → Nat) (vs : List Val) :
    Val.relevelAll r vs = vs.map (Val.relevel r) := by
  induction vs with
  | nil => rfl
  | cons v vs ih => rw [Val.relevelAll, ih, List.map_cons]

theorem Spine.relevel_eq (r : Nat → Nat) (sp : Spine) :
    Spine.relevel r sp = sp.map (Elim.relevel r) := by
  induction sp with
  | nil => rfl
  | cons e sp ih => rw [Spine.relevel, ih, List.map_cons]

def Env.relevel (r : Nat → Nat) (env : Env) : Env :=
  { env with locals := env.locals.map (Val.relevel r) }

def Closure.relevel (r : Nat → Nat) (c : Closure) : Closure :=
  ⟨c.binder, c.dom.relevel r, c.env.relevel r, c.body⟩

theorem Val.relevel_closure (r : Nat → Nat) (c : Closure) :
    (Val.closure c).relevel r = .closure (c.relevel r) := by
  obtain ⟨b, dom, ⟨globals, locals⟩, body⟩ := c
  rw [Val.relevel, Val.relevelAll_eq]
  rfl

theorem Elim.relevel_cases (r : Nat → Nat) (e : Eliminator) (motive : Val) (cs : List Val) :
    (Elim.cases e motive cs).relevel r = .cases e (motive.relevel r) (cs.map (Val.relevel r)) := by
  rw [Elim.relevel, Val.relevelAll_eq]

/-- Only the levels that a value mentions matter. -/
theorem Spine.relevel_congr {r q : Nat → Nat} {sp : Spine}
    (h : ∀ v ∈ Spine.vals sp, v.relevel r = v.relevel q) :
    Spine.relevel r sp = Spine.relevel q sp := by
  induction sp with
  | nil => rfl
  | cons e sp ih =>
    obtain ⟨he, hsp⟩ := List.forall_mem_append.1 h
    rw [Spine.relevel, Spine.relevel, ih hsp]
    refine congrArg (· :: Spine.relevel q sp) ?_
    cases e with
    | app icit x => exact congrArg (Elim.app icit) (he x (List.mem_singleton_self x))
    | proj p => rfl
    | cases e m cs =>
      obtain ⟨hm, hcs⟩ := List.forall_mem_cons.1 he
      rw [Elim.relevel_cases, Elim.relevel_cases, hm, List.map_congr_left hcs]

/-- Only the levels that a value mentions matter for renaming them. -/
theorem Val.Within.relevel_congr {B : Bounds} {L : Nat → Prop} {r q : Nat → Nat} {v : Val}
    (h : v.Within B L) (hrq : ∀ l, L l → r l = q l) : v.relevel r = v.relevel q := by
  induction h with
  | type | nat => rfl
  | @neutral L h sp hh _ _ ih =>
    rw [Val.relevel, Val.relevel, Spine.relevel_congr fun v hv => ih v hv hrq]
    cases h with
    | var l =>
      exact congrArg (fun l => Val.neutral (.var ⟨l⟩) (Spine.relevel q sp)) (hrq l.toNat hh)
    | prim p => rfl
    | metavar m => rfl
  | glued _ _ _ _ ih => rw [Val.relevel, Val.relevel, Spine.relevel_congr fun v hv => ih v hv hrq]
  | @closure L c _ _ _ _ _ ihd ihl _ =>
    rw [Val.relevel_closure, Val.relevel_closure, Closure.relevel, Closure.relevel,
      ihd hrq, Env.relevel, Env.relevel, List.map_congr_left fun v hv => ihl v hv hrq]
  | pair _ _ _ iha ihb ihs => rw [Val.relevel, Val.relevel, iha hrq, ihb hrq, ihs hrq]

mutual

theorem Val.relevel_id : ∀ v : Val, v.relevel id = v
  | .type => rfl
  | .neutral h sp => by
    rw [Val.relevel, Spine.relevel_id sp]
    cases h <;> rfl
  | .glued x sp base => by rw [Val.relevel, Spine.relevel_id sp]
  | .closure ⟨b, dom, ⟨globals, locals⟩, body⟩ => by
    rw [Val.relevel, Val.relevel_id dom, Val.relevelAll_id locals]
  | .pair a b s => by rw [Val.relevel, Val.relevel_id a, Val.relevel_id b, Val.relevel_id s]
  | .nat n => rfl

theorem Spine.relevel_id : ∀ sp : List Elim, Spine.relevel id sp = sp
  | [] => rfl
  | e :: sp => by rw [Spine.relevel, Elim.relevel_id e, Spine.relevel_id sp]

theorem Elim.relevel_id : ∀ e : Elim, e.relevel id = e
  | .app icit x => by rw [Elim.relevel, Val.relevel_id x]
  | .proj p => rfl
  | .cases e m cs => by rw [Elim.relevel, Val.relevel_id m, Val.relevelAll_id cs]

theorem Val.relevelAll_id : ∀ vs : List Val, Val.relevelAll id vs = vs
  | [] => rfl
  | v :: vs => by rw [Val.relevelAll, Val.relevel_id v, Val.relevelAll_id vs]

end

/-- A value whose levels are not changed stays as it is. -/
theorem Val.Within.relevel_self {B : Bounds} {L : Nat → Prop} {r : Nat → Nat} {v : Val}
    (h : v.Within B L) (hr : ∀ l, L l → r l = l) : v.relevel r = v :=
  (h.relevel_congr hr).trans v.relevel_id

/-- Under a binder, the new variable of one scope becomes that of the other. -/
def underBinder (r : Nat → Nat) (n n' : Nat) : Nat → Nat := fun l => if l = n then n' else r l

theorem underBinder_new (r : Nat → Nat) (n n' : Nat) : underBinder r n n' n = n' := if_pos rfl

theorem underBinder_old {n l : Nat} (r : Nat → Nat) (n' : Nat) (hl : l < n) :
    underBinder r n n' l = r l :=
  if_neg (Nat.ne_of_lt hl)

theorem Val.relevel_fresh (r : Nat → Nat) (n n' : Nat) :
    (Val.fresh n).relevel (underBinder r n n') = .fresh n' :=
  congrArg (fun l => Val.neutral (.var ⟨l⟩) []) (underBinder_new r n n')

/-- A value that does not mention the new level is not affected by where it goes. -/
theorem Val.Within.relevel_underBinder {B : Bounds} {L : Nat → Prop}
    {r : Nat → Nat} {n n' : Nat} {v : Val} (h : v.Within B L) (hL : ∀ l, L l → l < n) :
    v.relevel (underBinder r n n') = v.relevel r :=
  h.relevel_congr fun l hl => underBinder_old r n' (hL l hl)

/-! ## Evaluation -/

theorem Elim.relevel_eq (r : Nat → Nat) (e : Elim) : e.relevel r = e.map (Val.relevel r) := by
  cases e with
  | app | proj => rfl
  | cases e m cs => exact Elim.relevel_cases r e m cs

theorem Spine.relevel_eq_map (r : Nat → Nat) (sp : Spine) :
    Spine.relevel r sp = sp.map (Elim.map (Val.relevel r)) :=
  (Spine.relevel_eq r sp).trans (List.map_congr_left fun e _ => Elim.relevel_eq r e)

theorem Env.relevel_eq_map (r : Nat → Nat) (env : Env) :
    env.relevel r = env.map (Val.relevel r) id := by
  simp [Env.relevel, Env.map]

def Val.releveling (r : Nat → Nat) : EvalMap where
  val := Val.relevel r
  term := id
  level l := ⟨r l.toNat⟩
  metavar := id
  base := id
  val_type := rfl
  val_nat _ := rfl
  val_neutral h sp := by
    rw [Val.relevel, Spine.relevel_eq_map]
    cases h <;> rfl
  val_glued x sp base := by
    rw [Val.relevel, Spine.relevel_eq_map]
    rfl
  val_closure c := by
    rw [Val.relevel_closure, Closure.relevel, Env.relevel_eq_map]
    rfl
  val_pair _ _ _ := rfl
  term_type := rfl
  term_var _ := rfl
  term_global _ := rfl
  term_metavar _ := rfl
  term_prim _ := rfl
  term_nat _ := rfl
  term_app _ _ _ := rfl
  term_bind _ _ _ := rfl
  term_pair _ _ _ := rfl
  term_proj _ _ := rfl
  term_letIn _ _ _ _ _ := rfl
  term_elim e m s cs := congrArg (Term.elim e m s) (List.map_id cs).symm

section

variable (r : Nat → Nat) (fuel fuel' : Nat)

/-- Evaluating in an environment with renamed levels gives the value with renamed levels. -/
theorem Term.eval_relevel (env : Env) (t : Term) :
    t.eval fuel (env.relevel r) = Val.relevel r <$> t.eval fuel env := by
  rw [Env.relevel_eq_map]
  exact ((Val.releveling r).commutes fuel).eval env t

theorem Val.eliminate_relevel (v : Val) (e : Elim) :
    (v.relevel r).eliminate fuel (e.relevel r) = Val.relevel r <$> v.eliminate fuel e := by
  rw [Elim.relevel_eq]
  exact ((Val.releveling r).commutes fuel).eliminate v e

theorem Val.applySpine_relevel (v : Val) (sp : Spine) :
    (v.relevel r).applySpine fuel (Spine.relevel r sp) =
      Val.relevel r <$> v.applySpine fuel sp := by
  rw [Spine.relevel_eq_map]
  exact (Val.releveling r).applySpine fuel v sp

theorem Closure.apply_relevel (c : Closure) (x : Val) :
    (c.relevel r).apply fuel (x.relevel r) = Val.relevel r <$> c.apply fuel x :=
  Term.eval_relevel r fuel (c.env.push x) c.body

/-- Entering a closure gives its body under the binder, in both scopes. -/
theorem Closure.enter_relevel {B : Bounds} {L : Nat → Prop} {c : Closure} {n : Nat}
    (hc : (Val.closure c).Within B L) (hL : ∀ l, L l → l < n) (n' : Nat) :
    (c.relevel r).enter fuel n' = Val.relevel (underBinder r n n') <$> c.enter fuel n := by
  have hsame : (Val.closure c).relevel (underBinder r n n') = (Val.closure c).relevel r :=
    hc.relevel_underBinder hL
  rw [Val.relevel_closure, Val.relevel_closure] at hsame
  have happly := Closure.apply_relevel (underBinder r n n') fuel c (.fresh n)
  rwa [Val.relevel_fresh, Val.closure.inj hsame] at happly

/-! Two amounts of fuel are both at most their maximum, and with that much there is one answer. -/

/-- Evaluation gives the same value with different amounts of fuel, where both are enough. -/
theorem Term.eval_twice (env : Env) (t : Term) : Concur (fun v w => w = v) (t.eval fuel env)
    (t.eval fuel' env) :=
  .of_prolongs (Term.eval_prolongs (Nat.le_max_left ..) env t)
    (Term.eval_prolongs (Nat.le_max_right ..) env t)

/-- Elimination gives the same value with different amounts of fuel, where both are enough. -/
theorem Val.eliminate_twice (v : Val) (e : Elim) :
    Concur (fun v w => w = v) (v.eliminate fuel e) (v.eliminate fuel' e) :=
  .of_prolongs (Val.eliminate_prolongs (Nat.le_max_left ..) v e)
    (Val.eliminate_prolongs (Nat.le_max_right ..) v e)

theorem Val.applySpine_twice (v : Val) (sp : Spine) :
    Concur (fun v w => w = v) (v.applySpine fuel sp) (v.applySpine fuel' sp) :=
  .of_prolongs (Val.applySpine_prolongs (Nat.le_max_left ..) v sp)
    (Val.applySpine_prolongs (Nat.le_max_right ..) v sp)

theorem Closure.apply_twice (c : Closure) (x : Val) :
    Concur (fun v w => w = v) (c.apply fuel x) (c.apply fuel' x) :=
  Term.eval_twice fuel fuel' (c.env.push x) c.body

theorem Val.apply_twice (f x : Val) : Concur (fun v w => w = v) (f.apply fuel x)
    (f.apply fuel' x) :=
  Val.eliminate_twice fuel fuel' f (.app .expl x)

/-- A second run with levels replaced, whatever fuel it is given, agrees with the first one. -/
theorem Val.eliminate_again {r : Nat → Nat} (v : Val) (e : Elim) :
    Concur (fun v w => w = v.relevel r) (v.eliminate fuel e)
      ((v.relevel r).eliminate fuel' (e.relevel r)) := by
  rw [Val.eliminate_relevel]
  exact (Val.eliminate_twice fuel fuel' v e).map_right

end

/-! ## Forcing and reading back -/

/-- No metavariables, and nothing that is left to compute. -/
def Bounds.normal : Bounds := ⟨fun _ => False, fun _ _ => True, True⟩

section

variable {L : Nat → Prop} {v w : Val} {r : Nat → Nat}

/-- Where no metavariables are in bounds, nothing is asked of what is known about them. -/
theorem MetaStore.solvedWithin_normal (ms : MetaStore) : ms.SolvedWithin .normal :=
  fun _ _ h => h.elim

/-- A value in bounds without metavariables is not stuck on one. -/
theorem Val.Within.isMeta_of_metas {B : Bounds} (hB : ∀ m, ¬ B.metas m) (hv : v.Within B L) :
    v.isMeta = false := by
  cases hv with
  | @neutral L h sp hh _ _ =>
    cases h with
    | metavar m => exact (hB m hh).elim
    | var l => rfl
    | prim p => rfl
  | type | nat | glued | closure | pair => rfl

theorem Val.Within.isMeta_eq (hv : v.Within .normal L) : v.isMeta = false :=
  hv.isMeta_of_metas fun _ => id

theorem Val.isMeta_relevel (r : Nat → Nat) (v : Val) : (v.relevel r).isMeta = v.isMeta := by
  cases v with
  | neutral h sp => cases h <;> rfl
  | closure c => rw [Val.relevel_closure]; rfl
  | type | glued | pair | nat => rfl

/-- What is not stuck on a metavariable is not changed by forcing metavariables. -/
theorem Val.forceMeta_settled {fuel : Nat} {ms : MetaStore} (hv : v.isMeta = false)
    (h : v.forceMeta fuel ms = .ok w) : w = v := by
  cases fuel with
  | zero => cases h
  | succ fuel =>
    unfold Val.forceMeta at h
    split at h
    · cases hv
    · cases h
      rfl

/-- A value that is neither a metavariable nor a definition has nothing to force. -/
theorem Val.force_settled {fuel : Nat} {ms : MetaStore} (hv : v.isMeta = false)
    (hg : ∀ x sp base, v ≠ .glued x sp base) (h : v.force fuel ms = .ok w) : w = v := by
  cases fuel with
  | zero => cases h
  | succ fuel =>
    unfold Val.force at h
    split at h
    · next x sp base => exact (hg x sp base rfl).elim
    · cases hm : v.forceMeta fuel ms with
      | error f =>
        rw [hm] at h
        cases h
      | ok u =>
        cases Val.forceMeta_settled hv hm
        rw [hm] at h
        cases v with
        | glued x sp base => exact (hg x sp base rfl).elim
        | type | neutral | closure | pair | nat => exact (Except.ok.inj h).symm

section

variable {B : Bounds} {ms : MetaStore} (hms : ms.SolvedWithin B)

include hms

/-- Solutions are closed, so that other levels make no difference to them. -/
theorem Val.forceMeta_relevel (hv : v.Within B L) (fuel : Nat) :
    (v.relevel r).forceMeta fuel ms = Val.relevel r <$> v.forceMeta fuel ms := by
  induction fuel generalizing v with
  | zero => rfl
  | succ fuel ih =>
    cases v with
    | neutral h sp =>
      cases h with
      | metavar m =>
        obtain ⟨hm, -, hsp⟩ := Val.within_neutral.1 hv
        simp only [Val.relevel, Head.relevel, Val.forceMeta]
        cases hlookup : ms.lookup m with
        | none => rfl
        | some solution =>
          have hclosed := hms m solution hm hlookup
          have happly := Val.applySpine_relevel r fuel solution sp
          rw [hclosed.relevel_self fun _ h => h.elim] at happly
          exact bind_map_eq happly fun w hw =>
            ih ((Val.applySpine_safely hclosed.of_closed hsp fuel).answer w hw)
      | var | prim => rfl
    | closure c =>
      rw [Val.relevel_closure]
      exact congrArg Except.ok (Val.relevel_closure r c).symm
    | type | glued | pair | nat => rfl

/-- Forcing commutes with renaming the levels. -/
theorem Val.force_relevel (hv : v.Within B L) (fuel : Nat) :
    (v.relevel r).force fuel ms = Val.relevel r <$> v.force fuel ms := by
  induction fuel generalizing v with
  | zero => rfl
  | succ fuel ih =>
    have hmeta := Val.forceMeta_relevel (r := r) hms hv fuel
    have hsafe := Val.forceMeta_safely hms hv fuel
    cases v with
    | glued x sp base =>
      obtain ⟨-, hb, hs⟩ := Val.within_glued.1 hv
      have happly := Val.applySpine_relevel r fuel base sp
      rw [hb.relevel_self fun _ h => h.elim] at happly
      exact bind_map_eq happly fun w hw =>
        ih ((Val.applySpine_safely hb.of_closed hs fuel).answer w hw)
    | type | neutral | closure | pair | nat =>
      -- What is not a global may be one after its metavariable is replaced.
      simp only [Val.relevel_closure, Val.relevel] at hmeta ⊢
      refine bind_map_eq hmeta fun w hw => ?_
      have hw := hsafe.answer w hw
      cases w with
      | glued x sp base => exact ih hw
      | closure c =>
        rw [Val.relevel_closure]
        exact congrArg Except.ok (Val.relevel_closure r c).symm
      | type | neutral | pair | nat => rfl

end

/-- What is known about metavariables does not matter if there are none. -/
theorem Val.force_twice (hv : v.Within .normal L) (fuel fuel' : Nat) (ms ms' : MetaStore) :
    Concur (fun w u => u = w) (v.force fuel ms) (v.force fuel' ms') := by
  induction fuel generalizing v fuel' with
  | zero => exact .errorLeft
  | succ fuel ih =>
    cases v with
    | glued x sp base =>
      cases fuel' with
      | zero => exact .errorRight
      | succ fuel' =>
        obtain ⟨-, hb, hs⟩ := Val.within_glued.1 hv
        have hspine := Val.applySpine_twice fuel fuel' base sp
        refine (hspine.safely (Val.applySpine_safely hb.of_closed hs fuel)).bind fun w u hwu => ?_
        rw [hwu.2]
        exact ih hwu.1 fuel'
    | type | neutral | closure | pair | nat =>
      intro w u hw hu
      rw [Val.force_settled hv.isMeta_eq (by simp) hw, Val.force_settled hv.isMeta_eq (by simp) hu]

/-- Forcing a value that is fully evaluated gives the same result at any time, up to the renamed
levels. -/
theorem Val.force_again (hv : v.Within .normal L) (fuel fuel' : Nat) (ms ms' : MetaStore) :
    Concur (fun w u => w.Within .normal L ∧ u = w.relevel r) (v.force fuel ms)
      ((v.relevel r).force fuel' ms') := by
  refine Concur.safely ?_ (Val.force_safely ms.solvedWithin_normal hv fuel)
  rw [Val.force_relevel ms'.solvedWithin_normal hv]
  exact (Val.force_twice hv fuel fuel' ms ms').map_right

/-- Forcing only looks at the solutions. -/
theorem Val.forceMeta_twice {ms ms' : MetaStore} (hms : ms'.lookup = ms.lookup)
    (fuel fuel' : Nat) (v : Val) :
    Concur (fun w u => u = w) (v.forceMeta fuel ms) (v.forceMeta fuel' ms') := by
  induction fuel generalizing v fuel' with
  | zero => exact .errorLeft
  | succ fuel ih =>
    by_cases hv : v.isMeta = true
    · cases fuel' with
      | zero => exact .errorRight
      | succ fuel' =>
        obtain ⟨m, sp, rfl⟩ : ∃ m sp, v = .neutral (.metavar m) sp := by
          unfold Val.isMeta at hv
          split at hv
          · exact ⟨_, _, rfl⟩
          · cases hv
        simp only [Val.forceMeta, hms]
        cases ms.lookup m with
        | none => exact .ok rfl
        | some solution =>
          refine (Val.applySpine_twice fuel fuel' solution sp).bind fun w u huw => ?_
          rw [huw]
          exact ih fuel' w
    · intro w u hw hu
      rw [Bool.not_eq_true] at hv
      rw [Val.forceMeta_settled hv hw, Val.forceMeta_settled hv hu]

/-- Forcing looks at nothing of the store but the solutions. -/
theorem Val.force_twice_of_lookup {ms ms' : MetaStore} (hms : ms'.lookup = ms.lookup)
    (fuel fuel' : Nat) (v : Val) :
    Concur (fun w u => u = w) (v.force fuel ms) (v.force fuel' ms') := by
  induction fuel generalizing v fuel' with
  | zero => exact .errorLeft
  | succ fuel ih =>
    cases fuel' with
    | zero => exact .errorRight
    | succ fuel' =>
      cases v with
      | glued x sp base =>
        refine (Val.applySpine_twice fuel fuel' base sp).bind fun w u huw => ?_
        rw [huw]
        exact ih fuel' w
      | type | neutral | closure | pair | nat =>
        -- What is not a global may be one after its metavariable is replaced.
        refine (Val.forceMeta_twice hms fuel fuel' _).bind fun w u huw => ?_
        rw [huw]
        cases w with
        | glued x sp base => exact ih fuel' _
        | type | neutral | closure | pair | nat => exact .ok rfl

/-! ## Types around an elimination -/

namespace Eliminator

variable (fuel fuel' : Nat) (e : Eliminator) (motive scrut : Val) (q : Option Equation)

theorem caseTys_twice : Concur (fun a b => b = a) (e.caseTys fuel motive q)
    (e.caseTys fuel' motive q) := by
  have happly := Val.apply_twice fuel fuel'
  cases e with
  | void => exact .ok rfl
  | bool =>
    refine (happly motive (.prim .true)).bind fun t _ ht => ?_
    refine (happly motive (.prim .false)).bind fun f _ hf => .pure ?_
    rw [ht, hf]
  | nat =>
    refine (happly motive (.nat 0)).bind fun z _ hz => .pure ?_
    rw [hz]
  | heq =>
    cases q with
    | none => exact .errorLeft
    | some q =>
      refine (happly motive q.lhs).bind fun p _ hp => ?_
      rw [hp]
      refine (happly p _).bind fun t _ ht => .pure ?_
      rw [ht]

theorem resultTy_twice :
    Concur (fun a b => b = a) (e.resultTy fuel motive scrut q)
      (e.resultTy fuel' motive scrut q) := by
  have happly := Val.apply_twice fuel fuel'
  unfold resultTy
  split
  · next q =>
    refine (happly motive q.rhs).bind fun p _ hp => ?_
    rw [hp]
    exact happly p scrut
  · exact happly motive scrut

/-- The signature of an eliminator does not depend on the fuel, where there is enough. -/
theorem signature_twice :
    Concur (fun a b => b = a) (e.signature fuel motive scrut q)
      (e.signature fuel' motive scrut q) := by
  refine (caseTys_twice fuel fuel' e motive q).bind fun tys _ htys => ?_
  refine (resultTy_twice fuel fuel' e motive scrut q).bind fun result _ hresult => ?_
  rw [htys, hresult]
  exact fun a b ha hb => Except.ok.inj (hb.symm.trans ha)

end Eliminator

end

end Elaborator
