import Elaborator.Proofs.Modes.Looking
import Elaborator.Proofs.NormalForm.Settled

/-! # Reading back and evaluating again

A value is read back as a term, and the term is evaluated in a scope whose variables stand for
themselves (`Val.Rereads`). What comes out is not the same value: solved metavariables are replaced
throughout, the bodies of closures are read back, and globals are looked up again. But evaluation
meets the same eliminations in the same order, and none of them computes, so the two values have the
same form (`Val.Resembles`).

There is one exception. The successor of a metavariable is stuck, and if the metavariable is solved
by a literal, the term is the successor of a literal, which computes. So `S ?0` may come out as `3`.
Conversion takes a literal apart where it meets a successor, and hence accepts this as well
(`Val.quote_eval_converts`). -/

namespace Elaborator

open Elaborator.Action

/-! ## Variables that stand for themselves -/

/-- The globals together with this many variables that stand for themselves. -/
def Globals.scopeEnv (g : Globals) : Nat → Env
  | 0 => g.env
  | n + 1 => (g.scopeEnv n).push (.fresh n)

/-- The variable of level `l` is found at the index that counts from the other end. -/
theorem Globals.local?_scopeEnv (g : Globals) {n l : Nat} (hl : l < n) :
    (g.scopeEnv n).local? ⟨n - 1 - l⟩ = some (.fresh l) := by
  induction n with
  | zero => exact absurd hl (Nat.not_lt_zero l)
  | succ n ih =>
    rcases Nat.lt_succ_iff_lt_or_eq.1 hl with hl | rfl
    · have hindex : n + 1 - 1 - l = (n - 1 - l) + 1 := by omega
      rw [hindex]
      exact ih hl
    · rw [Nat.add_sub_cancel, Nat.sub_self]
      rfl

/-- The same by index. -/
theorem Globals.local?_scopeEnv_index (g : Globals) {n i : Nat} (hi : i < n) :
    (g.scopeEnv n).local? ⟨i⟩ = some (.fresh (n - 1 - i)) := by
  have hindex : n - 1 - (n - 1 - i) = i := by omega
  have hlocal := g.local?_scopeEnv (n := n) (l := n - 1 - i) (by omega)
  rwa [hindex] at hlocal

/-! ## Values of the same form -/

/-- Two values of the same form. Their parts are related by `R` and the bodies of closures by
`S`. -/
inductive Val.Resembles (R : Val → Val → Prop) (S : Closure → Closure → Prop) : Val → Val → Prop
  | type : Resembles R S .type .type
  | nat {k : Nat} : Resembles R S (.nat k) (.nat k)
  | neutral {h : Head} {sa sb : Spine} (spines : List.Forall₂ (Elim.Alike R) sa sb) :
      Resembles R S (.neutral h sa) (.neutral h sb)
  | glued {x : Name} {sa sb : Spine} {a b : Val} (spines : List.Forall₂ (Elim.Alike R) sa sb) :
      Resembles R S (.glued x sa a) (.glued x sb b)
  | closure {c d : Closure} (binder : c.binder = d.binder) (dom : R c.dom d.dom) (body : S c d) :
      Resembles R S (.closure c) (.closure d)
  | pair {a b s x y z : Val} (fst : R a x) (snd : R b y) : Resembles R S (.pair a b s) (.pair x y z)

section

variable {R : Val → Val → Prop}

/-- Whether an eliminator is stuck only depends on the form of the spine. -/
theorem Reduction.of_alike {sa sb : Spine} (h : List.Forall₂ (Elim.Alike R) sa sb)
    (e : Eliminator) (p : Head) (hstuck : Reduction.of e (.neutral p sa) = .stuck) :
    Reduction.of e (.neutral p sb) = .stuck := by
  cases p with
  | var l => cases e <;> rfl
  | metavar m => cases e <;> rfl
  | prim p =>
    cases h with
    | nil => exact hstuck
    | cons h₁ h =>
      cases h with
      | nil => cases e <;> cases p <;> cases h₁ <;> first | rfl | cases hstuck
      | cons h₂ h => cases h₁ <;> cases h <;> cases e <;> cases p <;> first | rfl | cases hstuck

/-- What is stuck on an unsolved metavariable resembles only what is stuck on the same one, so it is
left alone. -/
theorem Val.Resembles.forcesTo {S : Closure → Closure → Prop} {σ : MetaId → Option Val}
    {v u w w' : Val} (h : u.Resembles R S w) (hu : v.ForcesTo σ u) (hw : w.ForcesTo σ w') :
    w' = w := by
  cases h with
  | @neutral head sa sb =>
    cases head with
    | metavar m =>
      obtain ⟨ms, fuel, hms, hw⟩ := hw
      have hopen : ms.lookup m = none := hms ▸ hu.unsolved
      cases fuel with
      | zero => cases hw
      | succ fuel =>
        simp only [Val.forceMeta, hopen] at hw
        exact (Except.ok.inj hw).symm
    | var | prim => exact hw.eq_of_isMeta rfl
  | type | nat | glued | closure | pair => exact hw.eq_of_isMeta rfl

end

/-! ## Evaluating what was read back -/

section

variable {quote : Val → Except Fault Term} {env : Env} {R : Val → Val → Prop}

/-- Lists are read back and evaluated value by value. -/
theorem forall₂_of_mapM {cs ds : List Val} {ts : List Term} {fuel : Nat}
    (hR : ∀ c ∈ cs, ∀ {t f w}, quote c = .ok t → t.eval f env = .ok w → R c w)
    (hts : cs.mapM quote = .ok ts) (hds : ts.mapM (Term.eval fuel env) = .ok ds) :
    List.Forall₂ R cs ds := by
  have hread : List.Forall₂ (fun c t => ∀ {f w}, t.eval f env = .ok w → R c w) cs ts :=
    mapM_ok hts fun c hc t ht _ _ hw => hR c hc ht hw
  clear hts hR
  induction hread generalizing ds with
  | nil =>
    cases hds
    exact .nil
  | cons h _ ih =>
    rw [List.mapM_cons] at hds
    obtain ⟨d, hd, hds⟩ := bind_ok hds
    obtain ⟨ds, hrest, hds⟩ := bind_ok hds
    cases hds
    exact .cons (h hd) (ih hrest)

/-- A spine is read back around a head and evaluated. The eliminations are met one by one, from the
inside out, with what `P` says about the eliminations before. -/
theorem Spine.reread {head : Term} {P : Spine → Val → Prop}
    (hhead : ∀ {f u}, head.eval f env = .ok u → P [] u)
    (hmeet : ∀ {e e' sp f u w}, e.Alike R e' → P sp u → u.eliminate f e' = .ok w → P (e :: sp) w)
    {sp : Spine}
    (hR : ∀ v ∈ Spine.vals sp, ∀ {t f w}, quote v = .ok t → t.eval f env = .ok w → R v w) {t : Term}
    {f : Nat} {w : Val} (ht : Spine.quote quote head sp = .ok t) (hw : t.eval f env = .ok w) :
    P sp w := by
  induction sp generalizing t f w with
  | nil =>
    cases ht
    exact hhead hw
  | cons e sp ih =>
    obtain ⟨he, hsp⟩ := List.forall_mem_append.1 hR
    cases f with
    | zero => cases hw
    | succ f =>
      cases e with
      | app icit x =>
        obtain ⟨ts, hts, ht⟩ := bind_ok ht
        obtain ⟨tx, htx, ht⟩ := bind_ok ht
        cases ht
        obtain ⟨u, hu, hw⟩ := bind_ok hw
        obtain ⟨vx, hvx, hw⟩ := bind_ok hw
        exact hmeet (.app (Elim.forall_vals_app.1 he htx hvx)) (ih hsp hts hu) hw
      | proj p =>
        obtain ⟨ts, hts, ht⟩ := bind_ok ht
        cases ht
        obtain ⟨u, hu, hw⟩ := bind_ok hw
        exact hmeet .proj (ih hsp hts hu) hw
      | cases e m cs =>
        obtain ⟨hm, hcs⟩ := Elim.forall_vals_cases.1 he
        obtain ⟨ts, hts, ht⟩ := bind_ok ht
        obtain ⟨tm, htm, ht⟩ := bind_ok ht
        obtain ⟨tcs, htcs, ht⟩ := bind_ok ht
        cases ht
        obtain ⟨u, hu, hw⟩ := bind_ok hw
        obtain ⟨vm, hvm, hw⟩ := bind_ok hw
        obtain ⟨vcs, hvcs, hw⟩ := bind_ok hw
        exact hmeet (.cases (hm htm hvm) (forall₂_of_mapM hcs htcs hvcs)) (ih hsp hts hu) hw

end

section

variable {g : Globals} {n : Nat}

/-- A head is read back as a term whose value is the head. -/
theorem Head.reread {h : Head} {t : Term} {f : Nat} {u : Val} (ht : h.quote n = .ok t)
    (hu : t.eval f (g.scopeEnv n) = .ok u) : u = .neutral h [] := by
  cases f with
  | zero => cases hu
  | succ f =>
    cases h with
    | prim p =>
      cases ht
      exact (Except.ok.inj hu).symm
    | metavar m =>
      cases ht
      exact (Except.ok.inj hu).symm
    | var l =>
      obtain ⟨i, hi, rfl⟩ := map_ok ht
      obtain ⟨-, hl, hi⟩ := Level.toIndex_eq_ok_iff.1 hi
      have hlocal : (g.scopeEnv n).local? i = some (.fresh l.toNat) := by
        rw [← g.local?_scopeEnv hl, ← hi]
      simp only [Term.eval, hlocal] at hu
      exact (Except.ok.inj hu).symm

/-- A global is looked up again. -/
theorem Term.eval_global_eq_ok {env : Env} {x : Name} {f : Nat} {u : Val}
    (hu : (Term.global x).eval f env = .ok u) : ∃ base, u = .glued x [] base := by
  cases f with
  | zero => cases hu
  | succ f =>
    simp only [Term.eval] at hu
    split at hu
    · next v hv => exact ⟨v, (Except.ok.inj hu).symm⟩
    · cases hu

/-- Eliminating a definition extends its spine and leaves its base alone. -/
theorem Val.eliminate_glued {x : Name} {sp : Spine} {base w : Val} {f : Nat} {e : Elim}
    (hw : (Val.glued x sp base).eliminate f e = .ok w) : w = .glued x (e :: sp) base := by
  cases f with
  | zero => cases hw
  | succ f => exact (Except.ok.inj hw).symm

/-- A blocked elimination is added to the spine. -/
theorem Val.eliminate_blocked {h : Head} {sp : Spine} {e : Elim} {f : Nat} {w : Val}
    (hb : e.Blocked h sp) (hw : (Val.neutral h sp).eliminate f e = .ok w) :
    w = .neutral h (e :: sp) := by
  cases f with
  | zero => cases hw
  | succ f =>
    cases e with
    | app icit x =>
      rw [Val.eliminate_neutral_app hb] at hw
      exact (Except.ok.inj hw).symm
    | proj p =>
      rw [Val.eliminate_neutral_proj] at hw
      exact (Except.ok.inj hw).symm
    | cases e m cs =>
      rw [Val.eliminate_neutral_cases] at hw
      obtain ⟨o, ho, rfl⟩ := map_ok hw
      cases f with
      | zero => cases ho
      | succ f =>
        rw [Val.reduce, show Reduction.of e (.neutral h sp) = .stuck from hb] at ho
        cases ho
        rfl

/-- A literal can only be eliminated by the eliminator for natural numbers, which does not wait for
a successor. -/
theorem Val.eliminate_nat_ne_ok {e e' : Elim} {R : Val → Val → Prop} {icit : Icit} {x w : Val}
    {f k : Nat} (hb : e.Blocked (.prim .succ) [.app icit x]) (he : e.Alike R e') :
    (Val.nat k).eliminate f e' ≠ .ok w := by
  intro hw
  cases f with
  | zero => cases hw
  | succ f =>
    cases he with
    | app => cases hw
    | proj => cases hw
    | @cases e m m' cs ds =>
      obtain ⟨o, ho, hw⟩ := bind_ok hw
      cases f with
      | zero => cases ho
      | succ f =>
        cases e with
        | nat => cases hb
        | void | bool | heq =>
          cases ho
          cases hw

end

/-! ## Rereading a value -/

/-- With the solutions `σ`, the value `v` is read back in a scope of size `n` as a term whose value
is `w`. The metavariables of `v` satisfy `M`. -/
structure Val.Rereads (g : Globals) (M : MetaId → Prop) (σ : MetaId → Option Val)
    (fuel n : Nat) (v w : Val) : Prop where
  settled : v.Settled M anything false
  reread : ∃ ms t fuel', MetaStore.lookup ms = σ ∧ v.quote fuel ms false n = .ok t ∧
    t.eval fuel' (g.scopeEnv n) = .ok w

def Closure.Rereads (g : Globals) (M : MetaId → Prop) (σ : MetaId → Option Val) (fuel n : Nat)
    (c d : Closure) : Prop :=
  ∀ {f f' x y}, c.enter f n = .ok x → d.enter f' n = .ok y → Val.Rereads g M σ fuel (n + 1) x y

/-- What becomes of a forced value: a value of the same form, or a literal in place of a
successor. -/
inductive Val.Outcome (R : Val → Val → Prop) (S : Closure → Closure → Prop) : Val → Val → Prop
  | same {v w : Val} (h : v.Resembles R S w) : Outcome R S v w
  | literal {x : Val} {k : Nat} (h : R x (.nat k)) :
      Outcome R S (.neutral (.prim .succ) [.app .expl x]) (.nat (k + 1))

/-- One more elimination on something stuck, which did not compute before. -/
theorem Val.Outcome.meet {R : Val → Val → Prop}
    {S : Closure → Closure → Prop} {h : Head} {sp : Spine} {e e' : Elim} {u w : Val} {f : Nat}
    (hb : e.Blocked h sp) (he : e.Alike R e') (hu : Outcome R S (.neutral h sp) u)
    (hw : u.eliminate f e' = .ok w) : Outcome R S (.neutral h (e :: sp)) w := by
  cases hu with
  | literal => exact absurd hw (Val.eliminate_nat_ne_ok hb he)
  | same hu =>
    cases hu with
    | @neutral h _ sp' hsp =>
      by_cases hb' : e'.Blocked h sp'
      · rw [Val.eliminate_blocked hb' hw]
        exact .same (.neutral (.cons he hsp))
      · -- Only the successor of a literal computes.
        cases he with
        | proj => exact absurd trivial hb'
        | cases => exact absurd (Reduction.of_alike hsp _ h hb) hb'
        | @app icit x y hxy =>
          obtain ⟨rfl, rfl, rfl, k, rfl⟩ := not_not.1 hb'
          cases hsp
          cases f with
          | zero => cases hw
          | succ f =>
            simp only [Val.eliminate, succNat] at hw
            split at hw
            · cases hw
              exact .literal hxy
            · cases hw

section

variable {g : Globals} {M : MetaId → Prop} {σ : MetaId → Option Val} {fuel n : Nat} {v w : Val}
  (hσ : ∀ m u, M m → σ m = some u → u.Settled M anything false)

include hσ

/-- What is read back is the forced value. -/
theorem Val.Rereads.forced (h : v.Rereads g M σ (fuel + 1) n w) :
    ∃ u, v.ForcesTo σ u ∧
      u.Outcome (Val.Rereads g M σ fuel n) (Closure.Rereads g M σ fuel n) w := by
  obtain ⟨hv, ms, t, f, hms, hquote, hw⟩ := h
  obtain ⟨u, hu, ht⟩ := bind_ok hquote
  clear hquote
  refine ⟨u, ⟨ms, fuel, hms, hu⟩, ?_⟩
  have hsettled : u.Settled M anything false := by
    refine Val.settled_invariant.forceMeta (fun m sp v hstuck hm => ?_) hv hu
    exact hσ m v ((Val.settled_neutral.1 hstuck).1 m rfl) (hms ▸ hm)
  clear hu hv
  -- The parts are read back in the same scope, with the same metavariables known.
  have part {x : Val} (hx : x.Settled M anything false) {t : Term} {f : Nat} {y : Val}
      (ht : x.quote fuel ms false n = .ok t) (hy : t.eval f (g.scopeEnv n) = .ok y) :
        x.Rereads g M σ fuel n y :=
    ⟨hx, ms, t, f, hms, ht, hy⟩
  cases f with
  | zero => cases hw
  | succ f =>
    cases u with
    | type =>
      cases ht
      cases hw
      exact .same .type
    | nat k =>
      cases ht
      cases hw
      exact .same .nat
    | neutral h sp =>
      obtain ⟨-, hblocked, hsp⟩ := Val.settled_neutral.1 hsettled
      obtain ⟨head, hhead, ht⟩ := bind_ok ht
      refine Spine.reread (P := fun sp u => Spine.Blocked h sp → Val.Outcome _ _ (.neutral h sp) u)
        (fun hu _ => ?_)
        (fun he hu hw hb => (hu hb.2).meet hb.1 he hw) (fun x hx => part (hsp x hx)) ht hw hblocked
      rw [Head.reread hhead hu]
      exact .same (.neutral .nil)
    | glued x sp base =>
      obtain ⟨sp', base', rfl, hspines⟩ : ∃ sp' base', w = .glued x sp' base' ∧
          List.Forall₂ (Elim.Alike (Val.Rereads g M σ fuel n)) sp sp' := by
        cases hsettled with
        | glued _ _ hsp =>
          refine Spine.reread (P := fun sp u => ∃ sp' base', u = .glued x sp' base' ∧
            List.Forall₂ (Elim.Alike (Val.Rereads g M σ fuel n)) sp sp') ?_ ?_
              (fun x hx => part (hsp x hx)) ht hw
          · intro f u hu
            obtain ⟨base, rfl⟩ := Term.eval_global_eq_ok hu
            exact ⟨[], base, rfl, .nil⟩
          · rintro e e' sp f _ w he ⟨sp', base, rfl, hsp'⟩ hw
            exact ⟨e' :: sp', base, Val.eliminate_glued hw, .cons he hsp'⟩
      exact .same (.glued hspines)
    | closure c =>
      obtain ⟨hdom, -⟩ := Val.settled_closure.1 hsettled
      obtain ⟨tdom, htdom, ht⟩ := bind_ok ht
      obtain ⟨body, hbody, ht⟩ := bind_ok ht
      obtain ⟨tbody, htbody, ht⟩ := bind_ok ht
      cases ht
      obtain ⟨vdom, hvdom, hw⟩ := bind_ok hw
      cases hw
      refine .same (.closure rfl (part hdom htdom hvdom) ?_)
      intro f₁ f₂ x y hx hy
      -- Whatever the fuel, the body that is entered is the one that was read back.
      obtain rfl := Closure.apply_twice _ _ c (.fresh n) x body hx hbody
      exact ⟨hsettled.enter hbody, ms, tbody, f₂, hms, htbody, hy⟩
    | pair a b s =>
      obtain ⟨ha, hb, -⟩ := Val.settled_pair.1 hsettled
      obtain ⟨ta, hta, ht⟩ := bind_ok ht
      obtain ⟨tb, htb, ht⟩ := bind_ok ht
      obtain ⟨ts, hts, ht⟩ := bind_ok ht
      cases ht
      obtain ⟨va, hva, hw⟩ := bind_ok hw
      obtain ⟨vb, hvb, hw⟩ := bind_ok hw
      obtain ⟨vs, hvs, hw⟩ := bind_ok hw
      cases hw
      exact .same (.pair (part ha hta hva) (part hb htb hvb))

/-- A literal that a value is reread as is equal to the value. -/
theorem Val.Rereads.accepts_literal {k : Nat} (h : v.Rereads g M σ fuel n (.nat k)) (f : Nat) :
    Looks σ (unify f .rigid g n (.nat k) v) anything noErrors := by
  induction fuel generalizing v k f with
  | zero =>
    obtain ⟨-, ms, t, f, -, ht, -⟩ := h
    cases ht
  | succ fuel ih =>
    cases f with
    | zero => exact .fault _
    | succ f =>
      obtain ⟨u, hu, hout⟩ := h.forced hσ
      refine (Looks.forceMeta f (.nat k)).bind fun a ha => (Looks.forceMeta f v).bind fun b hb => ?_
      obtain rfl := ha.eq_of_isMeta rfl
      obtain rfl := hu.unique hb
      refine (Looks.emitWith _).bind fun _ _ => ?_
      cases hout with
      | same hres =>
        cases hres
        rw [show Comparison.of .rigid (.nat k) (.nat k) = .equal from if_pos rfl]
        exact .pure trivial
      | literal hx => exact ih hx f

/-- **A value is equal to what it is reread as,** whenever the two are compared. -/
theorem Val.Rereads.accepts (h : v.Rereads g M σ fuel n w) (f : Nat) :
    Looks σ (unify f .rigid g n v w) anything noErrors := by
  induction fuel generalizing n v w f with
  | zero =>
    obtain ⟨-, ms, t, f, -, ht, -⟩ := h
    cases ht
  | succ fuel ih =>
    cases f with
    | zero => exact .fault _
    | succ f =>
      obtain ⟨u, hu, hout⟩ := h.forced hσ
      refine (Looks.forceMeta f v).bind fun a ha => (Looks.forceMeta f w).bind fun b hb => ?_
      obtain rfl := hu.unique ha
      refine (Looks.emitWith _).bind fun _ _ => ?_
      cases hout with
      | literal hx =>
        -- A successor that is stuck on one side has become a literal on the other.
        obtain rfl := hb.eq_of_isMeta rfl
        exact hx.accepts_literal hσ f
      | same hres =>
        obtain rfl := hres.forcesTo hu hb
        have hparts : ∀ x y, Val.Rereads g M σ fuel n x y →
            Looks σ (unify f .rigid g n x y) anything noErrors :=
          fun x y hxy => ih hxy f
        have hspines {sa sb : Spine} {d : Action Unit}
            (hs : List.Forall₂ (Elim.Alike (Val.Rereads g M σ fuel n)) sa sb) :
            Looks σ (unifySpines (unify f .rigid g n) d sa sb) anything noErrors :=
          unifySpines_alike (J := fun x => Looks σ x anything noErrors) (.pure trivial)
            (fun hx hy => hx.bind fun _ _ => hy) hparts hs
        cases hres with
        | type => exact .pure trivial
        | @nat k =>
          rw [show Comparison.of .rigid (.nat k) (.nat k) = .equal from if_pos rfl]
          exact .pure trivial
        | @neutral head sa sb hs =>
          rw [show Comparison.of .rigid (.neutral head sa) (.neutral head sb) = .spines sa sb
            from if_pos rfl]
          exact hspines hs
        | @glued x sa sb a b hs =>
          rw [show Comparison.of .rigid (.glued x sa a) (.glued x sb b) = .sameGlobal sa sb
            from if_pos rfl]
          refine (hspines hs).transaction.bind fun r hr => ?_
          rcases hr with ⟨_, rfl, -⟩ | ⟨e, -, he⟩
          · exact .pure trivial
          · exact he.elim
        | @closure c d hbinder hdom hbody =>
          have hsame : c.binder.kind = d.binder.kind ∧ c.binder.erased = d.binder.erased := by
            rw [hbinder]
            exact ⟨rfl, rfl⟩
          rw [show Comparison.of .rigid (.closure c) (.closure d) = .binders c d from if_pos hsame]
          refine Looks.bind (Q := anything) (.ite (fun _ => .pure trivial) fun _ => hparts _ _ hdom)
            fun _ _ => ?_
          refine (Looks.lift fun _ hx => hx).bind fun x hx =>
            (Looks.lift fun _ hy => hy).bind fun y hy => ?_
          exact ih (hbody hx hy) f
        | pair hfst hsnd => exact (hparts _ _ hfst).bind fun _ _ => hparts _ _ hsnd

end

/-- **Reading back is sound.** A value is read back as a term, with whatever solutions are known and
globals folded, and the term is evaluated over any globals in a scope whose variables stand for
themselves. Then the value and the result are convertible: checking their conversion never ends with
an error. Like all values that evaluation makes, the value and the solutions hold nothing that is
left to compute. -/
theorem Val.quote_eval_converts {s s' : State} {g : Globals} {n : Nat} {v w : Val} {t : Term}
    {fuel fuel' fuel'' : Nat} (hv : v.Settled anything anything false)
    (hsolutions : ∀ m u, s.metas.lookup m = some u → u.Settled anything anything false)
    (ht : v.quote fuel s.metas false n = .ok t) (hw : t.eval fuel' (g.scopeEnv n) = .ok w)
    (hreturns : (unify fuel'' .rigid g n v w).Returns s s') :
    unify fuel'' .rigid g n v w s = .ok () s' := by
  have hlooks : Looks s.metas.lookup (unify fuel'' .rigid g n v w) anything noErrors :=
    Val.Rereads.accepts (fun m u _ => hsolutions m u) ⟨hv, s.metas, t, fuel', rfl, ht, hw⟩ fuel''
  rcases hreturns with ⟨⟨⟩, hok⟩ | ⟨e, herror⟩
  · exact hok
  · exact ((hlooks.error rfl herror).2).elim

/-- `?0` is solved by `2`, so `S ?0` is read back as `S 2`, which is `3`. -/
theorem Val.quote_eval_converts_literal :
    ∃ s s' : State, s.metas.lookup ⟨0⟩ = some (.nat 2) ∧
      (Val.neutral (.prim .succ) [.app .expl (.metavar ⟨0⟩)]).quote 9 s.metas false 0 =
        .ok (.app (.prim .succ) .expl (.nat 2)) ∧
      (Term.app (.prim .succ) .expl (.nat 2)).eval 9 (Globals.empty.scopeEnv 0) = .ok (.nat 3) ∧
      unify 9 .rigid .empty 0 (.neutral (.prim .succ) [.app .expl (.metavar ⟨0⟩)]) (.nat 3) s =
        .ok () s' := by
  obtain ⟨ms, s', hset, hquote, hreturns⟩ : ∃ ms s',
      MetaStore.empty.fresh.2.set ⟨0⟩ (.nat 2) = .ok ms ∧
      (Val.neutral (.prim .succ) [.app .expl (.metavar ⟨0⟩)]).quote 9 ms false 0 =
        .ok (.app (.prim .succ) .expl (.nat 2)) ∧
      (unify 9 .rigid .empty 0 (.neutral (.prim .succ) [.app .expl (.metavar ⟨0⟩)])
        (.nat 3)).Returns ⟨ms, [], []⟩ s' :=
    ⟨_, _, rfl, rfl, .of_ok rfl⟩
  have hsettled : (Val.neutral (.prim .succ) [.app .expl (.metavar ⟨0⟩)]).Settled anything
      anything false := by
    have harg : (Val.metavar ⟨0⟩).Settled anything anything false :=
      .neutral (fun _ _ => trivial) trivial (List.forall_mem_nil _)
    exact .neutral nofun ⟨fun h => (nomatch h.2.2.2), trivial⟩ (List.forall_mem_singleton.2 harg)
  have hsolutions : ∀ m u, ms.lookup m = some u → u.Settled anything anything false := by
    intro m u hu
    rw [MetaStore.lookup_set hset] at hu
    split at hu
    · cases hu
      exact .nat
    · rw [MetaStore.lookup_fresh] at hu
      split at hu <;> cases hu
  have heval : (Term.app (.prim .succ) .expl (.nat 2)).eval 9 (Globals.empty.scopeEnv 0) =
    .ok (.nat 3) := rfl
  refine ⟨⟨ms, [], []⟩, s', MetaStore.lookup_set hset _, hquote, heval, ?_⟩
  exact Val.quote_eval_converts hsettled hsolutions hquote heval hreturns

end Elaborator
