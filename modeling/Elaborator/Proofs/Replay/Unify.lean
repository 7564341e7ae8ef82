import Elaborator.Proofs.Replay.Eval
import Elaborator.Proofs.Scope.Unify

/-! # Comparing again

Without metavariables there is nothing to solve, so unification only compares, and it comes to the
same verdict whenever it is run: with other fuel, in another state, in the rigid mode or in the
solving one, and in a scope of another size (`unifiesAlike`). Only faults are left out: a run that
is given too little fuel says nothing. -/

namespace Elaborator

namespace Action

variable {α β α' β' : Type} {R : α → β → Prop} {S : α' → β' → Prop}

/-- How the ends of two runs go together: there are two answers, which are related, or two soft
errors, unless one of the runs ends with a fault. -/
inductive Ends (R : α → β → Prop) :
    EStateM.Result Failure State α → EStateM.Result Failure State β → Prop
  | ok {a : α} {b : β} {s t : State} (h : R a b) : Ends R (.ok a s) (.ok b t)
  | error {e f : Error} {s t : State} (left : e.isSoft) (right : f.isSoft) :
      Ends R (.error (.error e) s) (.error (.error f) t)
  | faultLeft {f : Fault} {s : State} {y : EStateM.Result Failure State β} :
      Ends R (.error (.fault f) s) y
  | faultRight {f : Fault} {t : State} {x : EStateM.Result Failure State α} :
      Ends R x (.error (.fault f) t)

/-- The two actions end alike, from whatever states they are run. -/
structure Mirrors (R : α → β → Prop) (x : Action α) (y : Action β) : Prop where
  ends : ∀ s t, Ends R (x s) (y t)

def unrelated : α → β → Prop := fun _ _ => True

namespace Mirrors

variable {x : Action α} {y : Action β}

theorem pure {a : α} {b : β} (h : R a b) : Mirrors R (pure a) (pure b) := ⟨fun _ _ => .ok h⟩

theorem refuse {e f : Error} (he : e.isSoft) (hf : f.isSoft) : Mirrors R (refuse e) (refuse f) :=
  ⟨fun _ _ => .error he hf⟩

theorem faultLeft (f : Fault) : Mirrors R (throw (.fault f)) y := ⟨fun _ _ => .faultLeft⟩

theorem faultRight (f : Fault) : Mirrors R x (throw (.fault f)) := ⟨fun _ _ => .faultRight⟩

/-- Two sequences mirror each other when their first actions do and the rest does on related
answers. -/
theorem bind {f : α → Action α'} {g : β → Action β'} (hx : Mirrors R x y)
    (hf : ∀ a b, R a b → Mirrors S (f a) (g b)) : Mirrors S (x >>= f) (y >>= g) := by
  constructor
  intro s t
  have hends := hx.ends s t
  show Ends S (EStateM.bind x f s) (EStateM.bind y g t)
  unfold EStateM.bind
  generalize x s = u at hends ⊢
  generalize y t = v at hends ⊢
  cases hends with
  | ok h => exact (hf _ _ h).ends _ _
  | error he hf => exact .error he hf
  | faultLeft => exact .faultLeft
  | faultRight =>
    cases u with
    | ok a u => exact .faultRight
    | error e u => exact .faultRight

/-- Two computations without state that agree. -/
theorem lift {r : Except Fault α} {q : Except Fault β} (h : Concur R r q) :
    Mirrors R (liftM r) (liftM q) := by
  constructor
  intro s t
  cases r with
  | error f => exact .faultLeft
  | ok a =>
    cases q with
    | error f => exact .faultRight
    | ok b => exact .ok (h a b rfl rfl)

/-- Two actions that never refuse. -/
theorem of_ne_error (hx : ∀ s e t, x s ≠ .error (.error e) t)
    (hy : ∀ s e t, y s ≠ .error (.error e) t) : Mirrors unrelated x y := by
  constructor
  intro s t
  cases hxs : x s with
  | error e u =>
    cases e with
    | error e => exact (hx s e u hxs).elim
    | fault f => exact .faultLeft
  | ok a u =>
    cases hyt : y t with
    | error e v =>
      cases e with
      | error e => exact (hy t e v hyt).elim
      | fault f => exact .faultRight
    | ok b v => exact .ok trivial

theorem emitWith (e f : MetaStore → Event) : Mirrors unrelated (emitWith e) (emitWith f) :=
  ⟨fun _ _ => .ok trivial⟩

theorem metas : Mirrors unrelated metas metas := ⟨fun _ _ => .ok trivial⟩

inductive Caught (R : α → β → Prop) : Except Error α → Except Error β → Prop
  | ok {a : α} {b : β} (h : R a b) : Caught R (.ok a) (.ok b)
  | error {e f : Error} (left : e.isSoft) (right : f.isSoft) : Caught R (.error e) (.error f)

/-- Transactions mirror each other, including what they catch. -/
theorem transaction (hx : Mirrors R x y) : Mirrors (Caught R) (transaction x) (transaction y) := by
  have hcatch : Mirrors (Caught R) (catchError x) (catchError y) := by
    constructor
    intro s t
    have hends := hx.ends s t
    unfold catchError
    generalize x s = u at hends ⊢
    generalize y t = v at hends ⊢
    cases hends with
    | ok h => exact .ok (.ok h)
    | error he hf => exact .ok (.error he hf)
    | faultLeft => exact .faultLeft
    | faultRight => exact .faultRight
  have hpush : Mirrors unrelated Action.push Action.push :=
    of_ne_error (fun _ _ _ => push_ne_error) fun _ _ _ => push_ne_error
  have hpop : Mirrors unrelated Action.pop Action.pop :=
    of_ne_error (fun _ _ _ => pop_ne_error) fun _ _ _ => pop_ne_error
  have hdiscard : Mirrors unrelated Action.discard Action.discard :=
    of_ne_error (fun _ _ _ => discard_ne_error) fun _ _ _ => discard_ne_error
  refine hpush.bind fun _ _ _ => hcatch.bind fun p q hpq => ?_
  cases hpq with
  | ok h => exact hdiscard.bind fun _ _ _ => pure (.ok h)
  | error he hf => exact hpop.bind fun _ _ _ => pure (.error he hf)

/-! ### Values without metavariables -/

variable {L : Nat → Prop} {v : Val} {r : Nat → Nat}

theorem forceMeta (hv : v.Within .normal L) (fuel fuel' : Nat) :
    Mirrors (fun w u => w = v ∧ u = v.relevel r) (forceMeta fuel v)
      (forceMeta fuel' (v.relevel r)) := by
  refine bind metas fun ms ms' _ => lift fun w u hw hu => ?_
  have hmeta : (v.relevel r).isMeta = false := (Val.isMeta_relevel r v).trans hv.isMeta_eq
  exact ⟨Val.forceMeta_settled hv.isMeta_eq hw, Val.forceMeta_settled hmeta hu⟩

theorem force (hv : v.Within .normal L) (fuel fuel' : Nat) :
    Mirrors (fun w u => w.Within .normal L ∧ u = w.relevel r) (force fuel v)
      (force fuel' (v.relevel r)) :=
  bind metas fun ms ms' _ => lift (Val.force_again hv fuel fuel' ms ms')

end Mirrors

end Action

open Elaborator.Action

/-! ## Comparisons -/

def Comparison.relevel (r : Nat → Nat) : Comparison → Comparison
  | .equal => .equal
  | .mismatch => .mismatch
  | .binders c d => .binders (c.relevel r) (d.relevel r)
  | .pairs a b c d => .pairs (a.relevel r) (b.relevel r) (c.relevel r) (d.relevel r)
  | .numeral n pred => .numeral n (pred.relevel r)
  | .spines sa sb => .spines (Spine.relevel r sa) (Spine.relevel r sb)
  | .solve m sp rhs => .solve m (Spine.relevel r sp) (rhs.relevel r)
  | .expandFun c v => .expandFun (c.relevel r) (v.relevel r)
  | .expandPair a b v => .expandPair (a.relevel r) (b.relevel r) (v.relevel r)
  | .sameGlobal sa sb => .sameGlobal (Spine.relevel r sa) (Spine.relevel r sb)
  | .unfoldLeft => .unfoldLeft
  | .unfoldRight => .unfoldRight

section

variable {K : Nat → Prop} {r : Nat → Nat} {h k : Head} {mode mode' : Mode}

def Separates (K : Nat → Prop) (r : Nat → Nat) : Prop := ∀ l m, K l → K m → r l = r m → l = m

/-- A renaming that keeps the levels of two heads apart makes them equal only if they were. -/
theorem Head.relevel_inj (hr : Separates K r) (hh : h.Within .normal K) (hk : k.Within .normal K) :
    h.relevel r = k.relevel r ↔ h = k := by
  refine ⟨fun heq => ?_, congrArg _⟩
  cases h with
  | metavar m => exact hh.elim
  | prim p =>
    cases k <;> cases heq
    rfl
  | var l =>
    cases k with
    | metavar m => exact hk.elim
    | prim p => cases heq
    | var m =>
      have hlm : r l.toNat = r m.toNat := congrArg Level.toNat (Head.var.inj heq)
      exact congrArg (fun i => Head.var ⟨i⟩) (hr l.toNat m.toNat hh hk hlm)

theorem Head.Within.relevel (hh : h.Within .normal K) : (h.relevel r).Within .normal anything := by
  cases h with
  | metavar m => exact hh
  | var | prim => trivial

namespace Comparison

/-- Without metavariables, two neutral values are compared if they have the same head. -/
theorem ofNeutrals_settled (hh : h.Within .normal K) (hk : k.Within .normal K) (sa sb : Spine) :
    ofNeutrals mode h sa k sb = if h = k then .spines sa sb else .mismatch := by
  unfold ofNeutrals
  split
  · rfl
  · cases mode with
    | rigid => rfl
    | solving =>
      cases h with
      | metavar m => exact hh.elim
      | var l => cases k with
        | metavar m => exact hk.elim
        | var | prim => rfl
      | prim p => cases k with
        | metavar m => exact hk.elim
        | var | prim => rfl

/-- A head without a metavariable is compared in the same way in every mode. -/
theorem ofNeutral_settled (hh : h.Within .normal K) (sp : Spine) (v : Val) (unfold : Comparison) :
    ofNeutral mode h sp v unfold = ofNeutral .rigid h sp v unfold := by
  cases mode with
  | rigid => rfl
  | solving =>
    cases h with
    | metavar m => exact hh.elim
    | var | prim => rfl

theorem ofLiteral_relevel (n : Nat) (h : Head) (sp : Spine) :
    ofLiteral n (h.relevel r) (Spine.relevel r sp) = (ofLiteral n h sp).relevel r := by
  cases n with
  | zero => rfl
  | succ n =>
    cases h with
    | var | metavar => rfl
    | prim p =>
      cases sp with
      | nil => cases p <;> rfl
      | cons e sp =>
        cases e with
        | app icit x => cases p <;> cases sp <;> cases icit <;> rfl
        | proj | cases => cases p <;> cases sp <;> rfl

/-- The comparison of a stuck value with another commutes with renaming the levels. -/
theorem ofNeutral_relevel (mode mode' : Mode) (hh : h.Within .normal K) (sp : Spine) (v : Val)
    (unfold : Comparison) (hu : unfold.relevel r = unfold) :
    ofNeutral mode' (h.relevel r) (Spine.relevel r sp) (v.relevel r) unfold =
      (ofNeutral mode h sp v unfold).relevel r := by
  rw [ofNeutral_settled hh.relevel, ofNeutral_settled hh]
  cases v with
  | nat n => exact ofLiteral_relevel n h sp
  | closure c =>
    rw [Val.relevel_closure]
    show (if c.binder.kind.isLam then _ else _) =
      Comparison.relevel r (if c.binder.kind.isLam then _ else _)
    split
    · rfl
    · rfl
  | pair a b s => rfl
  | glued x sp base => exact hu.symm
  | type | neutral => rfl

theorem ofGlued_relevel (g v : Val) (unfold : Comparison) (hu : unfold.relevel r = unfold) :
    ofGlued (g.relevel r) (v.relevel r) unfold = (ofGlued g v unfold).relevel r := by
  cases v with
  | closure c =>
    rw [Val.relevel_closure]
    show (if c.binder.kind.isLam then _ else _) =
      Comparison.relevel r (if c.binder.kind.isLam then _ else _)
    split
    · rfl
    · exact hu.symm
  | pair a b s => rfl
  | type | neutral | glued | nat => exact hu.symm

/-- The comparison does not depend on the mode and the levels. -/
theorem of_relevel (mode mode' : Mode) {a b : Val} (ha : a.Within .normal K)
    (hb : b.Within .normal K) (hr : Separates K r) :
    of mode' (a.relevel r) (b.relevel r) = (of mode a b).relevel r := by
  cases a with
  | neutral h sa =>
    have hh := (Val.within_neutral.1 ha).1
    have left := fun v => ofNeutral_relevel (r := r) mode mode' hh sa v .unfoldRight rfl
    cases b with
    | neutral k sb =>
      have hk := (Val.within_neutral.1 hb).1
      show ofNeutrals mode' (h.relevel r) (Spine.relevel r sa) (k.relevel r) (Spine.relevel r sb) =
        (ofNeutrals mode h sa k sb).relevel r
      rw [ofNeutrals_settled hh.relevel hk.relevel, ofNeutrals_settled hh hk]
      by_cases hhk : h = k
      · rw [if_pos hhk, if_pos (congrArg _ hhk)]
        rfl
      · rw [if_neg hhk, if_neg (mt (Head.relevel_inj hr hh hk).1 hhk)]
        rfl
    | closure d =>
      -- A relevelled closure is not a closure by computation, so its form is rewritten first.
      have hleft := left (.closure d)
      rw [Val.relevel_closure] at hleft ⊢
      exact hleft
    | type => exact left .type
    | glued y sb w => exact left (.glued y sb w)
    | pair x y s => exact left (.pair x y s)
    | nat n => exact left (.nat n)
  | type =>
    cases b with
    | neutral k sb =>
      exact ofNeutral_relevel mode mode' (Val.within_neutral.1 hb).1 sb .type .unfoldLeft rfl
    | closure d => rw [Val.relevel_closure]; rfl
    | type | glued | pair | nat => rfl
  | glued x sa u =>
    have left := fun v => ofGlued_relevel (r := r) (.glued x sa u) v .unfoldLeft rfl
    cases b with
    | neutral k sb =>
      exact ofNeutral_relevel mode mode' (Val.within_neutral.1 hb).1 sb (.glued x sa u)
        .unfoldLeft rfl
    | glued y sb w =>
      show (if x = y then _ else _) = Comparison.relevel r (if x = y then _ else _)
      split <;> rfl
    | closure d =>
      have hleft := left (.closure d)
      rw [Val.relevel_closure] at hleft ⊢
      exact hleft
    | type => exact left .type
    | pair y z s => exact left (.pair y z s)
    | nat n => exact left (.nat n)
  | closure c =>
    rw [Val.relevel_closure]
    cases b with
    | neutral k sb =>
      have hright := ofNeutral_relevel (r := r) mode mode' (Val.within_neutral.1 hb).1 sb
        (.closure c) .unfoldLeft rfl
      rw [Val.relevel_closure] at hright
      exact hright
    | glued y sb w =>
      have hright := ofGlued_relevel (r := r) (.glued y sb w) (.closure c) .unfoldRight rfl
      rw [Val.relevel_closure] at hright
      exact hright
    | closure d =>
      rw [Val.relevel_closure]
      show (if c.binder.kind = d.binder.kind ∧ c.binder.erased = d.binder.erased then _ else _) =
        Comparison.relevel r
          (if c.binder.kind = d.binder.kind ∧ c.binder.erased = d.binder.erased then _ else _)
      split <;> rfl
    | type | pair | nat => rfl
  | pair x y s =>
    cases b with
    | neutral k sb =>
      exact ofNeutral_relevel mode mode' (Val.within_neutral.1 hb).1 sb (.pair x y s)
        .unfoldLeft rfl
    | closure d => rw [Val.relevel_closure]; rfl
    | type | glued | pair | nat => rfl
  | nat n =>
    cases b with
    | neutral k sb =>
      exact ofNeutral_relevel mode mode' (Val.within_neutral.1 hb).1 sb (.nat n) .unfoldLeft rfl
    | closure d => rw [Val.relevel_closure]; rfl
    | nat m =>
      show (if n = m then _ else _) = Comparison.relevel r (if n = m then _ else _)
      split <;> rfl
    | type | glued | pair => rfl

end Comparison

/-! ## Unification -/

/-- Levels that are in scope at the size `n` become levels in scope at the size `n'`. -/
structure Relevels (K : Nat → Prop) (r : Nat → Nat) (n n' : Nat) : Prop where
  source : ∀ l, K l → l < n
  target : ∀ l, K l → r l < n'
  separates : Separates K r

/-- A renaming of levels goes under a binder, which gets the next level on both sides. -/
theorem Relevels.under {n n' : Nat} (hr : Relevels K r n n') :
    Relevels (fun l => K l ∨ l = n) (underBinder r n n') (n + 1) (n' + 1) := by
  have old : ∀ l, K l → underBinder r n n' l = r l :=
    fun l hl => underBinder_old r n' (hr.source l hl)
  have new := underBinder_new r n n'
  refine ⟨?_, ?_, ?_⟩
  · rintro l (hl | hl)
    · exact Nat.lt_succ_of_lt (hr.source l hl)
    · exact hl ▸ Nat.lt_succ_self n
  · rintro l (hl | hl)
    · rw [old l hl]
      exact Nat.lt_succ_of_lt (hr.target l hl)
    · rw [hl, new]
      exact Nat.lt_succ_self n'
  · -- An old level does not become the new one, since it stays below it.
    rintro l m (hl | hl) (hm | hm) hlm
    · rw [old l hl, old m hm] at hlm
      exact hr.separates l m hl hm hlm
    · rw [old l hl, hm, new] at hlm
      exact absurd hlm (Nat.ne_of_lt (hr.target l hl))
    · rw [old m hm, hl, new] at hlm
      exact absurd hlm.symm (Nat.ne_of_lt (hr.target m hm))
    · rw [hl, hm]

/-- A mismatch on one side mirrors a mismatch on the other, whatever the values. -/
theorem mismatch_mirrors (fuel fuel' n n' : Nat) (a b a' b' : Val) :
    Mirrors unrelated (mismatch fuel n a b) (mismatch fuel' n' a' b') := by
  have hquote : ∀ v w : Val, Mirrors unrelated (quote fuel n v) (quote fuel' n' w) := fun v w =>
    .bind .metas fun _ _ _ => .lift fun _ _ _ _ => trivial
  exact (hquote a a').bind fun _ _ _ => (hquote b b').bind fun _ _ _ => .refuse rfl rfl

section

variable {u u' : Val → Val → Action Unit} {differ differ' : Action Unit}
  (hu : ∀ x y, x.Within .normal K → y.Within .normal K →
    Mirrors unrelated (u x y) (u' (x.relevel r) (y.relevel r)))
  (hdiffer : Mirrors unrelated differ differ')

include hu

theorem unifyAll_mirrors {xs ys : List Val} (hxs : ∀ x ∈ xs, x.Within .normal K)
    (hys : ∀ y ∈ ys, y.Within .normal K) :
    Mirrors unrelated (unifyAll u xs ys)
      (unifyAll u' (Val.relevelAll r xs) (Val.relevelAll r ys)) := by
  induction xs generalizing ys with
  | nil => exact .pure trivial
  | cons x xs ih =>
    cases ys with
    | nil => exact .pure trivial
    | cons y ys =>
      obtain ⟨hx, hxs⟩ := List.forall_mem_cons.1 hxs
      obtain ⟨hy, hys⟩ := List.forall_mem_cons.1 hys
      exact (hu x y hx hy).bind fun _ _ _ => ih hxs hys

include hdiffer

theorem unifyElim_mirrors {e f : Elim} (he : e.Within .normal K) (hf : f.Within .normal K) :
    Mirrors unrelated (unifyElim u differ e f)
      (unifyElim u' differ' (e.relevel r) (f.relevel r)) := by
  cases e with
  | app i x =>
    cases f with
    | app j y =>
      show Mirrors unrelated (if i = j then _ else _) (if i = j then _ else _)
      split
      · exact hu x y (Elim.within_app.1 he) (Elim.within_app.1 hf)
      · exact hdiffer
    | proj | cases => exact hdiffer
  | proj p =>
    cases f with
    | proj q =>
      show Mirrors unrelated (if p = q then _ else _) (if p = q then _ else _)
      split
      · exact .pure trivial
      · exact hdiffer
    | app | cases => exact hdiffer
  | cases e m cs =>
    cases f with
    | cases f k ds =>
      obtain ⟨hm, hcs⟩ := Elim.within_cases.1 he
      obtain ⟨hk, hds⟩ := Elim.within_cases.1 hf
      have hlength : ∀ vs : List Val, (Val.relevelAll r vs).length = vs.length := fun vs => by
        rw [Val.relevelAll_eq, List.length_map]
      show Mirrors unrelated (if e = f ∧ cs.length = ds.length then _ else _)
        (if e = f ∧ (Val.relevelAll r cs).length = (Val.relevelAll r ds).length then _ else _)
      rw [hlength, hlength]
      split
      · exact (hu m k hm hk).bind fun _ _ _ => unifyAll_mirrors hu hcs hds
      · exact hdiffer
    | app | proj => exact hdiffer

theorem unifySpines_mirrors {sa sb : Spine} (hsa : Spine.Within .normal K sa)
    (hsb : Spine.Within .normal K sb) : Mirrors unrelated (unifySpines u differ sa sb)
      (unifySpines u' differ' (Spine.relevel r sa) (Spine.relevel r sb)) := by
  have helims : ∀ {sa sb : Spine}, Spine.Within .normal K sa → Spine.Within .normal K sb →
      Mirrors unrelated (unifyElims u differ sa sb)
        (unifyElims u' differ' (Spine.relevel r sa) (Spine.relevel r sb)) := by
    intro sa
    induction sa with
    | nil => exact fun _ _ => .pure trivial
    | cons e sa ih =>
      intro sb hsa hsb
      cases sb with
      | nil => exact .pure trivial
      | cons f sb =>
        obtain ⟨he, hsa⟩ := Spine.within_cons.1 hsa
        obtain ⟨hf, hsb⟩ := Spine.within_cons.1 hsb
        exact (unifyElim_mirrors hu hdiffer he hf).bind fun _ _ _ => ih hsa hsb
  have hlength : ∀ sp : Spine, (Spine.relevel r sp).length = sp.length := fun sp => by
    rw [Spine.relevel_eq, List.length_map]
  unfold unifySpines
  rw [hlength, hlength]
  split
  · exact helims hsa hsb
  · exact hdiffer

end

/-- Entering a closure gives its body under the binder, in both scopes. -/
theorem Closure.enter_again {c : Closure} {n n' : Nat} (hr : Relevels K r n n')
    (hc : (Val.closure c).Within .normal K) (fuel fuel' : Nat) :
    Concur (fun x y => x.Within .normal (fun l => K l ∨ l = n) ∧ y = x.relevel (underBinder r n n'))
      (c.enter fuel n) ((c.relevel r).enter fuel' n') := by
  refine Concur.safely ?_ (Closure.enter_safely hc (fun _ hl => .inl hl) (.inr rfl) fuel)
  rw [Closure.enter_relevel r fuel' hc hr.source]
  exact (Closure.apply_twice fuel fuel' c (.fresh n)).map_right

/-- What holds of unification with this fuel, in all scopes and states: it is mirrored by
unification with any other fuel. -/
structure UnifiesAlike (mode mode' : Mode) (g : Globals) (fuel : Nat) : Prop where
  unify : ∀ (fuel' : Nat) {K : Nat → Prop} {r : Nat → Nat} {n n' : Nat} {a b : Val},
    Relevels K r n n' → a.Within .normal K → b.Within .normal K →
    Mirrors unrelated (unify fuel mode g n a b) (unify fuel' mode' g n' (a.relevel r) (b.relevel r))

section

variable {g : Globals} {fuel fuel' n n' : Nat} (ih : UnifiesAlike mode mode' g fuel)
  (hr : Relevels K r n n')

include ih hr

/-- Comparing two binders mirrors comparing them with renamed levels. -/
theorem unifyBinders_mirrors {c d : Closure} (hc : (Val.closure c).Within .normal K)
    (hd : (Val.closure d).Within .normal K) :
    Mirrors unrelated (do
        (if c.binder.kind.isLam then pure () else unify fuel mode g n c.dom d.dom)
        let x ← c.enter fuel n
        let y ← d.enter fuel n
        unify fuel mode g (n + 1) x y)
      (do
        (if c.binder.kind.isLam then pure ()
          else unify fuel' mode' g n' (c.dom.relevel r) (d.dom.relevel r))
        let x ← (c.relevel r).enter fuel' n'
        let y ← (d.relevel r).enter fuel' n'
        unify fuel' mode' g (n' + 1) x y) := by
  refine Mirrors.bind (R := unrelated) ?_ fun _ _ _ => ?_
  · split
    · exact .pure trivial
    · exact ih.unify fuel' hr (Val.within_closure.1 hc).1 (Val.within_closure.1 hd).1
  · refine (Mirrors.lift (Closure.enter_again hr hc fuel fuel')).bind fun x x' hx => ?_
    refine (Mirrors.lift (Closure.enter_again hr hd fuel fuel')).bind fun y y' hy => ?_
    rw [hx.2, hy.2]
    exact ih.unify fuel' hr.under hx.1 hy.1

/-- A function and something stuck are applied to the same new variable. -/
theorem unifyFun_mirrors {c : Closure} {v : Val} (hc : (Val.closure c).Within .normal K)
    (hv : v.Within .normal K) : Mirrors unrelated (do
        let x ← c.enter fuel n
        let y ← v.eliminate fuel (.app c.binder.kind.icit (.fresh n))
        unify fuel mode g (n + 1) x y)
      (do
        let x ← (c.relevel r).enter fuel' n'
        let y ← (v.relevel r).eliminate fuel' (.app c.binder.kind.icit (.fresh n'))
        unify fuel' mode' g (n' + 1) x y) := by
  have happly :=
    Val.eliminate_again (r := underBinder r n n') fuel fuel' v (.app c.binder.kind.icit (.fresh n))
  rw [Elim.relevel, Val.relevel_fresh, hv.relevel_underBinder hr.source] at happly
  have hsafe : Safely (v.eliminate fuel (.app c.binder.kind.icit (.fresh n)))
      (Val.Within .normal fun l => K l ∨ l = n) :=
    Val.eliminate_safely (hv.mono fun _ hl => .inl hl)
      (Elim.within_app.2 (Val.within_var.2 (.inr rfl))) fuel
  refine (Mirrors.lift (Closure.enter_again hr hc fuel fuel')).bind fun x x' hx => ?_
  refine (Mirrors.lift (happly.safely hsafe)).bind fun y y' hy => ?_
  rw [hx.2, hy.2]
  exact ih.unify fuel' hr.under hx.1 hy.1

/-- The components of a pair are compared with the projections of something stuck. -/
theorem unifyPair_mirrors {x y v : Val} (hx : x.Within .normal K) (hy : y.Within .normal K)
    (hv : v.Within .normal K) :
    Mirrors unrelated (do
        let fst ← v.eliminate fuel (.proj .fst)
        unify fuel mode g n x fst
        let snd ← v.eliminate fuel (.proj .snd)
        unify fuel mode g n y snd)
      (do
        let fst ← (v.relevel r).eliminate fuel' (.proj .fst)
        unify fuel' mode' g n' (x.relevel r) fst
        let snd ← (v.relevel r).eliminate fuel' (.proj .snd)
        unify fuel' mode' g n' (y.relevel r) snd) := by
  have hproj : ∀ p : Proj,
    Concur (fun w u => w.Within .normal K ∧ u = w.relevel r) (v.eliminate fuel (.proj p))
      ((v.relevel r).eliminate fuel' (.proj p)) := fun p =>
    (Val.eliminate_again fuel fuel' v (.proj p)).safely
      (Val.eliminate_safely hv Elim.within_proj fuel)
  refine (Mirrors.lift (hproj .fst)).bind fun w u hwu => ?_
  rw [hwu.2]
  refine (ih.unify fuel' hr hx hwu.1).bind fun _ _ _ => ?_
  refine (Mirrors.lift (hproj .snd)).bind fun w u hwu => ?_
  rw [hwu.2]
  exact ih.unify fuel' hr hy hwu.1

/-- One step of unification, given what the steps below it do. -/
theorem unify_mirrored_step {a b : Val} (ha : a.Within .normal K) (hb : b.Within .normal K) :
    Mirrors unrelated (unify (fuel + 1) mode g n a b)
      (unify (fuel' + 1) mode' g n' (a.relevel r) (b.relevel r)) := by
  rw [unify, unify]
  refine (Mirrors.forceMeta ha fuel fuel').bind fun _ _ hfa => ?_
  rw [hfa.1, hfa.2]
  refine (Mirrors.forceMeta hb fuel fuel').bind fun _ _ hfb => ?_
  rw [hfb.1, hfb.2]
  refine (Mirrors.emitWith _ _).bind fun _ _ _ => ?_
  rw [Comparison.of_relevel mode mode' ha hb hr.separates]
  have hc := Compares.of mode a b
  generalize Comparison.of mode a b = c at hc ⊢
  have hspines : ∀ {sa sb : Spine}, Spine.Within .normal K sa → Spine.Within .normal K sb →
      Mirrors unrelated (unifySpines (unify fuel mode g n) (mismatch fuel n a b) sa sb)
        (unifySpines (unify fuel' mode' g n') (mismatch fuel' n' (a.relevel r) (b.relevel r))
          (Spine.relevel r sa) (Spine.relevel r sb)) :=
    unifySpines_mirrors (fun x y hx hy => ih.unify fuel' hr hx hy) (mismatch_mirrors ..)
  cases hc with
  | type | nat => exact .pure trivial
  | mismatch => exact mismatch_mirrors ..
  | binders => exact unifyBinders_mirrors ih hr ha hb
  | pairs =>
    obtain ⟨hx, hy, -⟩ := Val.within_pair.1 ha
    obtain ⟨hz, hw, -⟩ := Val.within_pair.1 hb
    exact (ih.unify fuel' hr hx hz).bind fun _ _ _ => ih.unify fuel' hr hy hw
  | numeralLeft =>
    have hpred := (Spine.within_cons.1 (Val.within_neutral.1 hb).2.2).1
    exact ih.unify fuel' hr .nat (Elim.within_app.1 hpred)
  | numeralRight =>
    have hpred := (Spine.within_cons.1 (Val.within_neutral.1 ha).2.2).1
    exact ih.unify fuel' hr .nat (Elim.within_app.1 hpred)
  | spines => exact hspines (Val.within_neutral.1 ha).2.2 (Val.within_neutral.1 hb).2.2
  | solveLeft => exact (Val.within_neutral.1 ha).1.elim
  | solveRight => exact (Val.within_neutral.1 hb).1.elim
  | expandFunLeft => exact unifyFun_mirrors ih hr ha hb
  | expandFunRight => exact unifyFun_mirrors ih hr hb ha
  | expandPairLeft =>
    exact unifyPair_mirrors ih hr (Val.within_pair.1 ha).1 (Val.within_pair.1 ha).2.1 hb
  | expandPairRight =>
    exact unifyPair_mirrors ih hr (Val.within_pair.1 hb).1 (Val.within_pair.1 hb).2.1 ha
  | sameGlobal =>
    have hsa := (Val.within_glued.1 ha).2.2
    have hsb := (Val.within_glued.1 hb).2.2
    refine (hspines hsa hsb).transaction.bind fun p q hpq => ?_
    cases hpq with
    | ok _ => exact .pure trivial
    | error he hf =>
      -- Both runs go on with the unfolded values.
      show Mirrors unrelated (if _ then _ else _) (if _ then _ else _)
      rw [if_pos he, if_pos hf]
      refine (Mirrors.force ha fuel fuel').bind fun x x' hx => ?_
      refine (Mirrors.force hb fuel fuel').bind fun y y' hy => ?_
      rw [hx.2, hy.2]
      exact ih.unify fuel' hr hx.1 hy.1
  | unfoldLeft =>
    refine (Mirrors.force ha fuel fuel').bind fun x y hxy => ?_
    rw [hxy.2]
    exact ih.unify fuel' hr hxy.1 hb
  | unfoldRight =>
    refine (Mirrors.force hb fuel fuel').bind fun x y hxy => ?_
    rw [hxy.2]
    exact ih.unify fuel' hr ha hxy.1

end

/-- Two values without metavariables are compared with the same verdict, whatever the fuel, the mode
and the states, and in all scopes that they fit into. -/
theorem unifiesAlike (mode mode' : Mode) (g : Globals) (fuel : Nat) :
    UnifiesAlike mode mode' g fuel := by
  induction fuel with
  | zero => exact ⟨fun _ _ _ _ _ _ _ _ _ _ => .faultLeft _⟩
  | succ fuel ih =>
    constructor
    intro fuel' K r n n' a b hr ha hb
    cases fuel' with
    | zero => exact .faultRight _
    | succ fuel' => exact unify_mirrored_step ih hr ha hb

/-! ## Verdicts that are known -/

end

namespace Action

variable {α β : Type} {Q : α → Prop} {P : β → Prop}

/-- Whenever the action returns, it has an answer, and the answer has the property. -/
structure Accepts (x : Action α) (Q : α → Prop) : Prop where
  answer : ∀ {s a t}, x s = .ok a t → Q a
  error : ∀ {s e t}, x s ≠ .error (.error e) t

namespace Accepts

variable {x : Action α}

theorem pure {a : α} (h : Q a) : Accepts (pure a) Q := by
  refine ⟨?_, fun {_ _ _} => pure_ne_error⟩
  rintro s b t ⟨⟩
  exact h

theorem fault (f : Fault) : Accepts (throw (.fault f) : Action α) Q :=
  ⟨fun h => (nomatch h), fun h => (nomatch h)⟩

/-- A sequence is accepted when its first action is and the rest is on every answer. -/
theorem bind {f : α → Action β} (hx : Accepts x Q) (hf : ∀ a, Q a → Accepts (f a) P) :
    Accepts (x >>= f) P := by
  constructor
  · intro s b t h
    obtain ⟨a, u, hu, ht⟩ := bind_eq_ok.1 h
    exact (hf a (hx.answer hu)).answer ht
  · intro s e t h
    rcases bind_eq_error.1 h with hu | ⟨a, u, hu, ht⟩
    · exact hx.error hu
    · exact (hf a (hx.answer hu)).error ht

theorem imp {Q' : α → Prop} (hx : Accepts x Q) (h : ∀ a, Q a → Q' a) : Accepts x Q' :=
  ⟨fun hs => h _ (hx.answer hs), hx.error⟩

/-- A computation without state only has to be looked at where it has an answer. -/
theorem lift {r : Except Fault α} (h : ∀ a, r = .ok a → Q a) : Accepts (liftM r) Q := by
  constructor
  · intro s a t hs
    exact h a (lift_eq_ok.1 hs).1
  · intro s e t hs
    obtain ⟨f, -, hf, -⟩ := lift_eq_error.1 hs
    cases hf

theorem metas : Accepts metas anything := ⟨fun _ => trivial, fun {_ _ _} => metas_ne_error⟩

theorem emitWith (e : MetaStore → Event) : Accepts (emitWith e) anything :=
  ⟨fun _ => trivial, fun h => nomatch h⟩

/-- What is not stuck on a metavariable is already forced. -/
theorem forceMeta {v : Val} (hv : v.isMeta = false) (fuel : Nat) :
    Accepts (forceMeta fuel v) (· = v) :=
  metas.bind fun _ _ => lift fun _ hw => Val.forceMeta_settled hv hw

theorem mapError (f : Error → Error) (hx : Accepts x Q) : Accepts (mapError f x) Q := by
  refine ⟨fun h => hx.answer (mapError_eq_ok.1 h), ?_⟩
  intro s e t h
  unfold Action.mapError at h
  split at h
  · cases h
  · next hs => exact hx.error hs
  · cases h

end Accepts

/-- Where one action has an answer, the one that mirrors it has one too, if it returns. -/
theorem Mirrors.accepts {R : α → β → Prop} {x : Action α} {y : Action β}
    (h : Mirrors R x y) {a : α} {s t : State} (hx : x s = .ok a t) : Accepts y (R a) := by
  constructor
  · intro u b v hy
    have hends := h.ends s u
    rw [hx, hy] at hends
    cases hends
    assumption
  · intro u e v hy
    have hends := h.ends s u
    rw [hx, hy] at hends
    cases hends

end Action

/-- Whenever the two values are compared as they stand, in whatever scope they fit into, they are
equal. -/
def Matches (g : Globals) (L : Nat → Prop) (a b : Val) : Prop :=
  ∀ n, (∀ l, L l → l < n) → ∀ fuel, Accepts (unify fuel .rigid g n a b) anything

/-- Two values without metavariables that were unified once are equal. -/
theorem Matches.of_unify {g : Globals} {L : Nat → Prop} {a b : Val} (ha : a.Within .normal L)
    (hb : b.Within .normal L) {fuel n : Nat} (hn : ∀ l, L l → l < n) {mode : Mode} {s t : State}
    (h : unify fuel mode g n a b s = .ok () t) : Matches g L a b := by
  intro n' hn' fuel'
  have hr : Relevels L id n n' := ⟨hn, hn', fun _ _ _ _ => id⟩
  have hmirrors := (unifiesAlike mode .rigid g fuel).unify fuel' hr ha hb
  rw [Val.relevel_id, Val.relevel_id] at hmirrors
  exact hmirrors.accepts h

end Elaborator
