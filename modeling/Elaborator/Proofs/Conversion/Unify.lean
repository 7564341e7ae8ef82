import Elaborator.Proofs.Conversion.Solution
import Elaborator.Proofs.StoreGrowth

/-! # Soundness of unification

If unification answers, the two values are equal for what is known afterwards, and so are the two
sides of every problem that waited before: what is still open at the end is exactly what still waits
(`unify_equates`).

`Action.Advances` is what is proved of every action on the way: it starts where something is known,
ends where something is known from which all of that follows, and its answer has a property of what
is known then. -/

namespace Elaborator

/-! ## Equal eliminations -/

inductive Elim.Matches (R : Val → Val → Prop) : Elim → Elim → Prop
  | app {icit : Icit} {x y : Val} (h : R x y) : Matches R (.app icit x) (.app icit y)
  | proj {p : Proj} : Matches R (.proj p) (.proj p)
  | cases {e : Eliminator} {m m' : Val} {cs ds : List Val} (hm : R m m')
      (hcs : List.Forall₂ R cs ds) : Matches R (.cases e m cs) (.cases e m' ds)

theorem Elim.Matches.imp {R S : Val → Val → Prop} {e f : Elim} (h : Elim.Matches R e f)
    (hRS : ∀ x y, R x y → S x y) : Elim.Matches S e f := by
  cases h with
  | app h => exact .app (hRS _ _ h)
  | proj => exact .proj
  | cases hm hcs => exact .cases (hRS _ _ hm) (hcs.imp hRS)

namespace Knowledge

abbrev Equates (g : Globals) (k : Knowledge) (n : Nat) (a b : Val) : Prop :=
  k.Derives g n (a.embed n) (b.embed n)

/-- What is known later: it is in bounds, and all that was known follows from it. -/
structure Later (g : Globals) (k k' : Knowledge) : Prop where
  within : k'.Within g.bounds
  entails : k.Entails g k'

variable {g : Globals} {k k' k'' : Knowledge}

theorem Later.refl (hk : k.Within g.bounds) : k.Later g k := ⟨hk, .refl k⟩

theorem Later.trans (h : k.Later g k') (h' : k'.Later g k'') : k.Later g k'' :=
  ⟨h'.within, h.entails.trans h'.entails⟩

/-- What one knowledge derives, a later one derives as well. -/
theorem Later.derives {n : Nat} {s t : Term} (h : k.Later g k') (hst : k.Derives g n s t) :
    k'.Derives g n s t :=
  h.entails.derives hst

end Knowledge

section

variable {g : Globals} {k : Knowledge} {E : Problem → Prop} {n : Nat}

/-- Matching eliminations of equal terms. -/
theorem Conv.use_matches {e f : Elim} {s t : Term}
    (h : Elim.Matches (fun x y => Conv g k E n (x.embed n) (y.embed n)) e f)
    (hst : Conv g k E n s t) : Conv g k E n (e.embed n s) (f.embed n t) := by
  cases h with
  | app h => exact .app hst h
  | proj => exact .proj hst
  | @cases e m m' cs ds hm hcs =>
    show Conv g k E n (.elim e (m.embed n) s (Val.embedAll n cs))
      (.elim e (m'.embed n) t (Val.embedAll n ds))
    rw [Val.embedAll_eq, Val.embedAll_eq]
    exact (Conv.computes ..).elim_map hm hst hcs

/-- Matching spines over the same head. -/
theorem Conv.spines {sa sb : Spine} (t : Term)
    (h : List.Forall₂ (Elim.Matches fun x y => Conv g k E n (x.embed n) (y.embed n)) sa sb) :
    Conv g k E n (Spine.embed n t sa) (Spine.embed n t sb) := by
  induction h with
  | nil => exact .refl t
  | cons he _ ih => exact ih.use_matches he

/-! ## Equal closures and extensionality -/

/-- Two closures of the same kind are equal if their bodies are and, unless they are functions,
their domains are. -/
theorem Conv.closures {c d : Closure} (hkind : c.binder.kind = d.binder.kind)
    (herased : c.binder.erased = d.binder.erased)
    (hdom : ¬ c.binder.kind.isLam → Conv g k E n (c.dom.embed n) (d.dom.embed n))
    (hbody : Conv g k E (n + 1) (c.body.expand (Term.cons (.self 0) (c.env.embed (n + 1))))
      (d.body.expand (Term.cons (.self 0) (d.env.embed (n + 1))))) :
    Conv g k E n ((Val.closure c).embed n) ((Val.closure d).embed n) := by
  rw [Val.embed_closure, Val.embed_closure]
  by_cases hlam : c.binder.kind.isLam
  · exact .lam hlam hkind herased hbody
  · exact .bind hkind herased (hdom hlam) hbody

theorem Spine.embed_neutral {t : Term} (h : t.Neutral) (n : Nat) (sp : Spine) :
    (Spine.embed n t sp).Neutral := by
  induction sp with
  | nil => exact h
  | cons e sp ih => exact .used ih (Elim.used_embed e n _)

/-- What stands for a stuck value has no constructor at its head. -/
theorem Val.Stuck.embed_neutral {v : Val} (h : v.Stuck) (n : Nat) : (v.embed n).Neutral := by
  cases v with
  | neutral head sp =>
    refine Spine.embed_neutral ?_ n sp
    cases head with
    | var l => exact .var
    | prim p => exact .prim
    | metavar m => exact .metavar
  | glued x sp base => exact Spine.embed_neutral .global n sp
  | type | closure | pair | nat => cases h

/-- A function is equal to a stuck value that gives the same result at a new variable. -/
theorem Conv.expandFun {c : Closure} {v : Val} (hlam : c.binder.kind.isLam) (hstuck : v.Stuck)
    (hv : v.Within g.bounds (· < n))
    (h : Conv g k E (n + 1) (c.body.expand (Term.cons (.self 0) (c.env.embed (n + 1))))
      (.app (v.embed (n + 1)) c.binder.kind.icit (.self 0))) :
    Conv g k E n ((Val.closure c).embed n) (v.embed n) := by
  rw [Val.embed_closure]
  rw [← hv.embed_succ fun _ hl => hl] at h
  obtain ⟨⟨kind, x, erased⟩, dom, env, body⟩ := c
  cases kind with
  | lam icit =>
    exact .trans (t := .bind ⟨.lam icit, x, erased⟩ (dom.embed n) _) (.lam rfl rfl rfl h)
      (.etaFun (hstuck.embed_neutral n))
  | sigma => cases hlam
  | pi icit => cases hlam

/-- A pair is equal to a stuck value that has the same components. -/
theorem Conv.expandPair {a b s : Term} {v : Val} (hstuck : v.Stuck)
    (ha : Conv g k E n a (.proj (v.embed n) .fst)) (hb : Conv g k E n b (.proj (v.embed n) .snd)) :
    Conv g k E n (.pair a b s) (v.embed n) :=
  (Conv.pair ha hb (.refl s)).trans (.etaPair (hstuck.embed_neutral n))

/-- A literal is equal to the successor of what its predecessor is equal to. -/
theorem Conv.numeral {i : Nat} {t : Term} (h : Conv g k E n (.nat i) t) :
    Conv g k E n (.nat (i + 1)) (.app (.prim .succ) .expl t) :=
  (Conv.reduce .succ).symm.trans (.app (.refl _) h)

end

/-! ## Actions that keep what is known -/

namespace Action

variable {α β : Type} {g : Globals} {k : Knowledge} {Q : Knowledge → α → Prop}
  {R : Knowledge → β → Prop}

/-- Where `k` is known, the action goes on to something from which it follows, and its answer has a
property of what is known then. -/
structure Advances (g : Globals) (k : Knowledge) (x : Action α) (Q : Knowledge → α → Prop) :
    Prop where
  ok : ∀ {s a t}, s.metas.now = k → x s = .ok a t → k.Later g t.metas.now ∧ Q t.metas.now a

namespace Advances

/-- An action that does not change the store. -/
theorem of_metas_eq {x : Action α} (hk : k.Within g.bounds)
    (h : ∀ {s a t}, s.metas.now = k → x s = .ok a t → t.metas = s.metas ∧ Q k a) :
    Advances g k x Q where
  ok := by
    intro s a t hs hst
    obtain ⟨hmetas, ha⟩ := h hs hst
    rw [hmetas, hs]
    exact ⟨.refl hk, ha⟩

theorem pure {a : α} (hk : k.Within g.bounds) (h : Q k a) : Advances g k (pure a) Q := by
  refine of_metas_eq hk ?_
  intro s b t _ hst
  obtain ⟨rfl, rfl⟩ := pure_eq_ok.1 hst
  exact ⟨rfl, h⟩

theorem throw (e : Failure) : Advances g k (throw e) Q := ⟨fun _ hst => nomatch hst⟩

theorem refuse (e : Error) : Advances g k (refuse e) Q := throw (.error e)

theorem lift {r : Except Fault α} (hk : k.Within g.bounds) (h : ∀ a, r = .ok a → Q k a) :
    Advances g k (liftM r) Q := by
  refine of_metas_eq hk ?_
  intro s a t _ hst
  obtain ⟨hr, rfl⟩ := lift_eq_ok.1 hst
  exact ⟨rfl, h a hr⟩

/-- An action advances when its first part does and the rest does from every later knowledge. -/
theorem bind {x : Action α} {f : α → Action β} (hx : Advances g k x Q)
    (hf : ∀ a k', k.Later g k' → Q k' a → Advances g k' (f a) R) : Advances g k (x >>= f) R where
  ok := by
    intro s b t hs hst
    obtain ⟨a, u, hu, ht⟩ := bind_eq_ok.1 hst
    obtain ⟨hlater, ha⟩ := hx.ok hs hu
    obtain ⟨hlater', hb⟩ := (hf a _ hlater ha).ok rfl ht
    exact ⟨hlater.trans hlater', hb⟩

theorem imp {x : Action α} {Q' : Knowledge → α → Prop} (hx : Advances g k x Q)
    (h : ∀ k' a, k.Later g k' → Q k' a → Q' k' a) : Advances g k x Q' where
  ok hs hst := ⟨(hx.ok hs hst).1, h _ _ (hx.ok hs hst).1 (hx.ok hs hst).2⟩

theorem ite {p : Prop} [Decidable p] {x y : Action α} (hx : p → Advances g k x Q)
    (hy : ¬ p → Advances g k y Q) : Advances g k (if p then x else y) Q := by
  split
  · next h => exact hx h
  · next h => exact hy h

/-- Each step of a list adds its part, and later steps keep it. -/
theorem forM {f : α → Action PUnit} {P : Knowledge → α → Prop} {l : List α}
    (hP : ∀ {k k' a}, k.Later g k' → P k a → P k' a)
    (hf : ∀ a ∈ l, ∀ {k}, k.Within g.bounds → Advances g k (f a) fun k' _ => P k' a)
    (hk : k.Within g.bounds) : Advances g k (l.forM f) fun k' _ => ∀ a ∈ l, P k' a := by
  induction l generalizing k with
  | nil => exact pure hk (List.forall_mem_nil _)
  | cons a l ih =>
    obtain ⟨ha, hl⟩ := List.forall_mem_cons.1 hf
    refine bind (ha hk) fun _ k₁ h₁ hpa => (ih hl h₁.within).imp fun k₂ _ h₂ hpl => ?_
    exact List.forall_mem_cons.2 ⟨hP h₂ hpa, hpl⟩

/-! ### The state -/

theorem metas (hk : k.Within g.bounds) : Advances g k metas fun k' ms => ms.now = k' := by
  refine of_metas_eq hk ?_
  intro s ms t hs hst
  obtain ⟨rfl, rfl⟩ := metas_eq_ok.1 hst
  exact ⟨rfl, hs⟩

theorem emit (hk : k.Within g.bounds) (e : Event) : Advances g k (emit e) fun _ => anything := by
  refine of_metas_eq hk ?_
  intro s a t _ hst
  cases hst
  exact ⟨rfl, trivial⟩

theorem emitWith (hk : k.Within g.bounds) (e : MetaStore → Event) :
    Advances g k (emitWith e) fun _ => anything :=
  bind (metas hk) fun _ _ h _ => emit h.within _

/-- Writing a store advances to its knowledge, when that is a later one. -/
theorem setMetas {ms : MetaStore} {P : Knowledge → Prop} (hlater : k.Later g ms.now)
    (hP : P ms.now) : Advances g k (setMetas ms) fun k' _ => P k' where
  ok := by
    intro s a t _ hst
    cases hst
    exact ⟨hlater, hP⟩

/-- A solution is added to what is known. -/
theorem setMeta {m : MetaId} {v : Val} (hk : k.Within g.bounds) (hv : v.Within g.bounds noLevels) :
    Advances g k (setMeta m v) fun k' _ => k'.cells.find? m.toNat = some (some v) := by
  refine bind (metas hk) fun ms k₁ h₁ hms => ?_
  subst hms
  split
  · next t ht =>
    obtain ⟨hcell, hnow, -, -⟩ := MetaStore.set_eq_ok_iff.1 ht
    have hfound : t.now.cells.find? m.toNat = some (some v) := by
      rw [hnow, IdMap.find?_insert, if_pos rfl]
    refine setMetas (P := fun k' => k'.cells.find? m.toNat = some (some v)) ⟨?_, ?_, ?_⟩ hfound
    · rw [hnow]
      exact h₁.within.solve hv m.toNat
    · -- The metavariable had no solution, so none is lost.
      intro i w hw
      rw [hnow, IdMap.find?_insert]
      split
      · next hi =>
        rw [hi, hcell] at hw
        cases hw
      · exact hw
    · rw [hnow]
      exact fun p hp => .assumed hp
  · exact refuse _

/-- A problem is added to those that wait. -/
theorem postpone {m : MetaId} {p : Problem} (hk : k.Within g.bounds) (hp : p.Within g.bounds) :
    Advances g k (postpone m p) fun k' _ => k'.Waiting p := by
  refine bind (emit hk _) fun _ k₁ h₁ _ => bind (metas h₁.within) fun ms k₂ h₂ hms => ?_
  subst hms
  have hfind (i : Nat) : (ms.postpone m p).now.postponed.find? i =
      if i = m.toNat then some ((ms.now.postponed.find? m.toNat).getD [] ++ [p])
      else ms.now.postponed.find? i := by
    simp [MetaStore.postpone, MetaStore.setNow]
  refine setMetas (P := fun k' => k'.Waiting p) ⟨h₂.within.postpone hp m.toNat, fun _ _ h => h, ?_⟩
    ?_
  · rintro q ⟨i, ps, hps, hq⟩
    by_cases hi : i = m.toNat
    · refine .assumed ⟨i, _, (hfind i).trans (if_pos hi), List.mem_append_left _ ?_⟩
      rw [← hi, hps]
      exact hq
    · exact .assumed ⟨i, ps, (hfind i).trans ((if_neg hi).trans hps), hq⟩
  · exact ⟨m.toNat, _, (hfind _).trans (if_pos rfl),
      List.mem_append_right _ (List.mem_singleton_self p)⟩

/-- A transaction that is undone goes back to what was known before. -/
theorem transaction {x : Action α} (hk : k.Within g.bounds) (hx : Advances g k x Q)
    (hgrows : Keeps MetaStore.Grows x) :
    Advances g k (transaction x) fun k' r => ∀ a, r = .ok a → Q k' a where
  ok := by
    intro s r t hs hst
    rcases transaction_eq_ok.1
      hst with ⟨a, u, rfl, hu, ms, hms, rfl⟩ | ⟨e, u, rfl, hu, ms, hms, rfl⟩
    · obtain ⟨-, hnow, -⟩ := MetaStore.discard_eq_ok_iff.1 hms
      obtain ⟨hlater, ha⟩ := hx.ok (s := s.opened) hs hu
      refine ⟨hnow ▸ hlater, ?_⟩
      rintro b ⟨⟩
      exact hnow ▸ ha
    · have hsaved : u.metas.saved = s.metas.now :: s.metas.saved :=
        (hgrows.related (.of_error hu)).saved
      have hpop := (MetaStore.pop_eq_ok_iff.1 hms).1
      have hnow : ms.now = k := (List.cons.inj (hpop.symm.trans hsaved)).1.trans hs
      refine ⟨?_, fun _ h => nomatch h⟩
      show k.Later g ms.now
      rw [hnow]
      exact .refl hk

/-! ### Values under the current solutions -/

variable {n : Nat} {v : Val}

/-- Forcing a value that is within bounds gives one that the knowledge equates with it. -/
theorem forceMeta (hk : k.Within g.bounds) (hv : v.Within g.bounds (· < n)) (fuel : Nat) :
    Advances g k (forceMeta fuel v) fun k' w => w.Within g.bounds (· < n) ∧ k'.Equates g n v w := by
  refine bind (metas hk) fun ms k₁ h₁ hms => lift h₁.within fun w hw => ?_
  subst hms
  have hsolved := h₁.within.solvedWithin
  exact ⟨(Val.forceMeta_safely hsolved hv fuel).answer w hw, Val.forceMeta_conv hsolved hv hw⟩

theorem force (hk : k.Within g.bounds) (hv : v.Within g.bounds (· < n)) (fuel : Nat) :
    Advances g k (force fuel v) fun k' w => w.Within g.bounds (· < n) ∧ k'.Equates g n v w := by
  refine bind (metas hk) fun ms k₁ h₁ hms => lift h₁.within fun w hw => ?_
  subst hms
  have hsolved := h₁.within.solvedWithin
  exact ⟨(Val.force_safely hsolved hv fuel).answer w hw, Val.force_conv hsolved hv hw⟩

theorem quote (hk : k.Within g.bounds) (fuel n : Nat) (v : Val) :
    Advances g k (quote fuel n v) fun k' t => ∃ ms, ms.now = k' ∧ v.quote fuel ms false n = .ok t :=
  bind (metas hk) fun ms _ h₁ hms => lift h₁.within fun _ ht => ⟨ms, hms, ht⟩

/-- The body of a closure at a new variable. -/
theorem enter {c : Closure} (hk : k.Within g.bounds) (hc : (Val.closure c).Within g.bounds (· < n))
    (fuel : Nat) : Advances g k (c.enter fuel n) fun k' x => x.Within g.bounds (· < n + 1) ∧
      k'.Derives g (n + 1) (c.body.expand (Term.cons (.self 0) (c.env.embed (n + 1))))
        (x.embed (n + 1)) :=
  lift hk fun x hx =>
    ⟨(Closure.enter_safely hc (fun _ hl => Nat.lt_succ_of_lt hl) (Nat.lt_succ_self n) fuel).answer x
      hx, Closure.enter_conv hc hx⟩

/-- Eliminating a value within bounds gives one that the knowledge equates with the elimination. -/
theorem eliminate {e : Elim} (hk : k.Within g.bounds) (hv : v.Within g.bounds (· < n))
    (he : e.Within g.bounds (· < n)) (fuel : Nat) :
    Advances g k (v.eliminate fuel e) fun k' w =>
      w.Within g.bounds (· < n) ∧ k'.Derives g n (e.embed n (v.embed n)) (w.embed n) :=
  lift hk fun w hw => ⟨(Val.eliminate_safely hv he fuel).answer w hw, Val.eliminate_conv hv he hw⟩

end Advances

end Action

/-! ## Unification -/

open Elaborator.Action

section

variable {g : Globals} {k : Knowledge} {n : Nat}

/-- Two values that are refused are never answered for. -/
theorem mismatch_advances {Q : Knowledge → Unit → Prop}
    (hk : k.Within g.bounds) (fuel : Nat) (a b : Val) : Advances g k (mismatch fuel n a b) Q :=
  .bind (.quote hk fuel n a) fun _ _ h _ =>
    .bind (.quote h.within fuel n b) fun _ _ _ _ => .refuse _

section Spines

variable {unify : Val → Val → Action Unit} {differ : Action Unit}
  (hu : ∀ {k x y}, k.Within g.bounds → x.Within g.bounds (· < n) → y.Within g.bounds (· < n) →
    Advances g k (unify x y) fun k' _ => k'.Equates g n x y)

include hu

/-- Lists of one length that unify are equated member by member. -/
theorem unifyAll_advances (hk : k.Within g.bounds) {xs ys : List Val}
    (hlength : xs.length = ys.length) (hxs : ∀ x ∈ xs, x.Within g.bounds (· < n))
    (hys : ∀ y ∈ ys, y.Within g.bounds (· < n)) :
    Advances g k (unifyAll unify xs ys) fun k' _ => List.Forall₂ (k'.Equates g n) xs ys := by
  induction xs generalizing k ys with
  | nil =>
    cases ys with
    | nil => exact .pure hk .nil
    | cons y ys => cases hlength
  | cons x xs ih =>
    cases ys with
    | nil => cases hlength
    | cons y ys =>
      obtain ⟨hx, hxs⟩ := List.forall_mem_cons.1 hxs
      obtain ⟨hy, hys⟩ := List.forall_mem_cons.1 hys
      refine .bind (hu hk hx hy) fun _ k₁ h₁ hxy => ?_
      refine (ih h₁.within (Nat.succ.inj hlength) hxs hys).imp fun k₂ _ h₂ hall => ?_
      exact .cons (h₂.derives hxy) hall

variable (hd : ∀ {k : Knowledge} {Q : Knowledge → Unit → Prop}, k.Within g.bounds →
  Advances g k differ Q)

include hd

/-- Eliminations that unify match, with their values equated. -/
theorem unifyElim_advances (hk : k.Within g.bounds) {e f : Elim} (he : e.Within g.bounds (· < n))
    (hf : f.Within g.bounds (· < n)) :
    Advances g k (unifyElim unify differ e f) fun k' _ => Elim.Matches (k'.Equates g n) e f := by
  cases e with
  | app i x =>
    cases f with
    | app j y =>
      refine .ite (fun hij => ?_) fun _ => hd hk
      subst hij
      exact (hu hk (Elim.within_app.1 he) (Elim.within_app.1 hf)).imp fun _ _ _ hxy => .app hxy
    | proj | cases => exact hd hk
  | proj p =>
    cases f with
    | proj q =>
      refine .ite (fun hpq => ?_) fun _ => hd hk
      subst hpq
      exact .pure hk .proj
    | app | cases => exact hd hk
  | cases e m cs =>
    cases f with
    | app | proj => exact hd hk
    | cases f m' ds =>
      obtain ⟨hm, hcs⟩ := Elim.within_cases.1 he
      obtain ⟨hm', hds⟩ := Elim.within_cases.1 hf
      refine .ite (fun hef => ?_) fun _ => hd hk
      obtain ⟨rfl, hlength⟩ := hef
      refine .bind (hu hk hm hm') fun _ k₁ h₁ hmm => ?_
      refine (unifyAll_advances hu h₁.within hlength hcs hds).imp fun k₂ _ h₂ hall => ?_
      exact .cases (h₂.derives hmm) hall

/-- Spines of one length that unify match elimination by elimination. -/
theorem unifyElims_advances (hk : k.Within g.bounds) {sa sb : Spine}
    (hlength : sa.length = sb.length) (hsa : Spine.Within g.bounds (· < n) sa)
    (hsb : Spine.Within g.bounds (· < n) sb) :
    Advances g k (unifyElims unify differ sa sb) fun k' _ =>
      List.Forall₂ (Elim.Matches (k'.Equates g n)) sa sb := by
  induction sa generalizing k sb with
  | nil =>
    cases sb with
    | nil => exact .pure hk .nil
    | cons f sb => cases hlength
  | cons e sa ih =>
    cases sb with
    | nil => cases hlength
    | cons f sb =>
      obtain ⟨he, hsa⟩ := Spine.within_cons.1 hsa
      obtain ⟨hf, hsb⟩ := Spine.within_cons.1 hsb
      refine .bind (unifyElim_advances hu hd hk he hf) fun _ k₁ h₁ hef => ?_
      refine (ih h₁.within (Nat.succ.inj hlength) hsa hsb).imp fun k₂ _ h₂ hall => ?_
      exact .cons (hef.imp fun _ _ hxy => h₂.derives hxy) hall

/-- Spines that are unified give equal terms over the same head. -/
theorem unifySpines_advances (hk : k.Within g.bounds) {sa sb : Spine}
    (hsa : Spine.Within g.bounds (· < n) sa) (hsb : Spine.Within g.bounds (· < n) sb) :
    Advances g k (unifySpines unify differ sa sb) fun k' _ =>
      ∀ t, k'.Derives g n (Spine.embed n t sa) (Spine.embed n t sb) := by
  refine .ite (fun hlength => ?_) fun _ => hd hk
  exact (unifyElims_advances hu hd hk hlength hsa hsb).imp fun _ _ _ hall t => .spines t hall

end Spines

/-- If a branch is chosen, what the branches are tried for holds. -/
theorem chooseBranch_advances {P : Knowledge → Prop} {split : BoolSplit}
    {fit : Val → Prim → Action Unit} {branches : List (Val × Prim)} {fuel : Nat} (m : MetaId)
    (hfit : ∀ b ∈ branches, ∀ {v k}, split.branch fuel b.1 = .ok v → k.Within g.bounds →
      Advances g k (fit v b.2) fun k' _ => P k')
    (hgrows : ∀ v p, Keeps MetaStore.Grows (fit v p)) (hk : k.Within g.bounds) :
    Advances g k (chooseBranch fuel m split fit branches) fun k' chosen =>
      chosen = true → P k' := by
  induction branches generalizing k with
  | nil => exact .pure hk fun h => nomatch h
  | cons branch rest ih =>
    obtain ⟨hfirst, hrest⟩ := List.forall_mem_cons.1 hfit
    refine .bind (Q := fun _ v => split.branch fuel branch.1 = .ok v) (.lift hk fun _ hv => hv)
      fun v k₁ h₁ hv => ?_
    refine .bind (.transaction h₁.within (hfirst hv h₁.within) (hgrows v _)) fun r k₂ h₂ hr => ?_
    cases r with
    | ok a =>
      -- Noting the choice does not change what is known.
      refine .bind (Q := fun k' _ => P k') (.of_metas_eq h₂.within ?_) fun _ k₃ h₃ hP =>
        .pure h₃.within fun _ => hP
      intro s b t _ hst
      cases hst
      exact ⟨rfl, hr a rfl⟩
    | error e =>
      refine .ite (fun _ => ?_) fun _ => .refuse _
      exact .bind (.emit h₂.within _) fun _ k₃ h₃ _ => ih hrest h₃.within

/-- The solution of a problem solves it. -/
theorem solution_advances (hg : g.env.Within g.bounds noLevels anything)
    (hk : k.Within g.bounds) {rhs : Val} (hrhs : rhs.Within g.bounds (· < n)) (fuel : Nat)
    (m : MetaId) (params : List Param) :
    Advances g k (solution fuel g n m params rhs) fun k' v => v.Within g.bounds noLevels ∧
      k'.Derives g n (Term.applyParams n (v.embed n) params) (rhs.embed n) := by
  refine .bind (.quote hk fuel n rhs) fun body k₁ h₁ hbody => ?_
  obtain ⟨ms, rfl, hbody⟩ := hbody
  have hsolved := h₁.within.solvedWithin
  split
  · exact .throw _
  · next u hu =>
    refine .bind (.emit h₁.within _) fun _ k₂ h₂ _ => .lift h₂.within fun v hv => ⟨?_, ?_⟩
    · have hwbody := (Val.quote_safely hsolved hrhs (fun _ hl => hl) fuel false).answer body hbody
      have hclosed := (Term.abstract_rename_within hwbody hu).widen (g.bounds.without_le m)
      exact (Term.eval_safely hg hclosed fuel).answer v hv
    · exact h₂.derives (Term.solution_conv hg hsolved hrhs hbody hu hv)

structure UnifiesSoundly (g : Globals) (fuel : Nat) : Prop where
  unify : ∀ {k : Knowledge} {mode : Mode} {n : Nat} {a b : Val}, k.Within g.bounds →
    a.Within g.bounds (· < n) → b.Within g.bounds (· < n) →
    Advances g k (unify fuel mode g n a b) fun k' _ => k'.Equates g n a b
  solve : ∀ {k : Knowledge} {n : Nat} {m : MetaId} {sp : Spine} {rhs : Val}, k.Within g.bounds →
    Spine.Within g.bounds (· < n) sp → rhs.Within g.bounds (· < n) →
    Advances g k (solve fuel g n m sp rhs) fun k' _ => k'.Equates g n (.neutral (.metavar m) sp) rhs
  retryFor : ∀ {k : Knowledge} (m : MetaId), k.Within g.bounds →
    Advances g k (retryFor fuel g m) fun _ => anything

variable {fuel : Nat}

/-- What a comparison asks for makes the two values equal. -/
theorem unify_advances_step (ih : UnifiesSoundly g fuel) {mode : Mode} {a b : Val}
    (hk : k.Within g.bounds) (ha : a.Within g.bounds (· < n)) (hb : b.Within g.bounds (· < n)) :
    Advances g k (unify (fuel + 1) mode g n a b) fun k' _ => k'.Equates g n a b := by
  refine .bind (.forceMeta hk ha fuel) fun a₁ k₁ h₁ hval => ?_
  obtain ⟨ha, haa₁⟩ := hval
  refine .bind (.forceMeta h₁.within hb fuel) fun b₁ k₂ h₂ hval => ?_
  obtain ⟨hb, hbb₁⟩ := hval
  refine .bind (.emitWith h₂.within _) fun _ k₃ h₃ _ => ?_
  -- It is enough to look at the forced values.
  refine .imp (Q := fun k' _ => k'.Equates g n a₁ b₁) ?_ fun k' _ h' heq => ?_
  case refine_2 =>
    have hleft := ((h₂.trans h₃).trans h').derives haa₁
    have hright := (h₃.trans h').derives hbb₁
    exact hleft.trans (heq.trans hright.symm)
  have hk := h₃.within
  have hT := MetaStore.Grows.tracksFresh.toTracks
  have spines {sa sb : Spine} (hsa : Spine.Within g.bounds (· < n) sa)
      (hsb : Spine.Within g.bounds (· < n) sb) :
      Advances g k₃ (unifySpines (unify fuel mode g n) (mismatch fuel n a₁ b₁) sa sb) fun k' _ =>
        ∀ t, k'.Derives g n (Spine.embed n t sa) (Spine.embed n t sb) :=
    unifySpines_advances ih.unify (fun hk => mismatch_advances hk fuel a₁ b₁) hk hsa hsb
  have hgrows (sa sb : Spine) :
      Keeps MetaStore.Grows (unifySpines (unify fuel mode g n) (mismatch fuel n a₁ b₁) sa sb) :=
    unifySpines_keeps hT (unify_keeps (MetaStore.Grows.tracksFresh.solutions g) fuel mode n)
      (mismatch_keeps hT ..) sa sb
  have expandFun {c : Closure} {v : Val} (hlam : c.binder.kind.isLam) (hstuck : v.Stuck)
      (hc : (Val.closure c).Within g.bounds (· < n)) (hv : v.Within g.bounds (· < n)) :
      Advances g k₃ (do
        let x ← c.enter fuel n
        let y ← v.eliminate fuel (.app c.binder.kind.icit (.fresh n))
        unify fuel mode g (n + 1) x y) fun k' _ => k'.Equates g n (.closure c) v := by
    refine .bind (.enter hk hc fuel) fun x k₄ h₄ hval => ?_
    obtain ⟨hx, hcx⟩ := hval
    have harg : (Elim.app c.binder.kind.icit (.fresh n)).Within g.bounds (· < n + 1) :=
      Elim.within_app.2 (Val.within_var.2 (Nat.lt_succ_self n))
    refine .bind (.eliminate h₄.within hv.below_succ harg fuel) fun y k₅ h₅ hval => ?_
    obtain ⟨hy, hvy⟩ := hval
    refine (ih.unify h₅.within hx hy).imp fun k' _ h' hxy => .expandFun hlam hstuck hv ?_
    have happ := (h'.derives hvy).symm
    rw [Elim.embed, Val.embed_fresh] at happ
    exact ((h₅.trans h').derives hcx).trans (hxy.trans happ)
  have expandPair {x y s v : Val} (hstuck : v.Stuck) (hx : x.Within g.bounds (· < n))
      (hy : y.Within g.bounds (· < n)) (hv : v.Within g.bounds (· < n)) :
      Advances g k₃ (do
        let fst ← v.eliminate fuel (.proj .fst)
        unify fuel mode g n x fst
        let snd ← v.eliminate fuel (.proj .snd)
        unify fuel mode g n y snd) fun k' _ => k'.Equates g n (.pair x y s) v := by
    refine .bind (.eliminate hk hv Elim.within_proj fuel) fun fst k₄ h₄ hval => ?_
    obtain ⟨hfst, hvfst⟩ := hval
    refine .bind (ih.unify h₄.within hx hfst) fun _ k₅ h₅ hxfst => ?_
    refine .bind (.eliminate h₅.within hv Elim.within_proj fuel) fun snd k₆ h₆ hval => ?_
    obtain ⟨hsnd, hvsnd⟩ := hval
    refine (ih.unify h₆.within hy hsnd).imp fun k' _ h' hysnd => .expandPair hstuck ?_ ?_
    · have hfirst := hxfst.trans (h₅.derives hvfst).symm
      exact (h₆.trans h').derives hfirst
    · exact hysnd.trans (h'.derives hvsnd).symm
  have hcmp := Compares.of mode a₁ b₁
  generalize Comparison.of mode a₁ b₁ = cmp at hcmp
  cases hcmp with
  | type | nat => exact .pure hk (.refl _)
  | mismatch => exact mismatch_advances hk fuel a₁ b₁
  | @binders c d hkind herased =>
    have hdc := (Val.within_closure.1 ha).1
    have hdd := (Val.within_closure.1 hb).1
    refine .bind (Q := fun k' _ => ¬ c.binder.kind.isLam → k'.Equates g n c.dom d.dom)
      (.ite (fun hlam => .pure hk fun hnot => absurd hlam hnot) fun _ =>
        (ih.unify hk hdc hdd).imp fun _ _ _ heq _ => heq) fun _ k₄ h₄ hdom => ?_
    refine .bind (.enter h₄.within ha fuel) fun x k₅ h₅ hval => ?_
    obtain ⟨hx, hcx⟩ := hval
    refine .bind (.enter h₅.within hb fuel) fun y k₆ h₆ hval => ?_
    obtain ⟨hy, hdy⟩ := hval
    refine (ih.unify h₆.within hx hy).imp fun k' _ h' hxy =>
      .closures hkind herased (fun hlam => ?_) ?_
    · exact ((h₅.trans h₆).trans h').derives (hdom hlam)
    · exact ((h₆.trans h').derives hcx).trans (hxy.trans (h'.derives hdy).symm)
  | pairs =>
    obtain ⟨hx, hy, -⟩ := Val.within_pair.1 ha
    obtain ⟨hz, hw, -⟩ := Val.within_pair.1 hb
    refine .bind (ih.unify hk hx hz) fun _ k₄ h₄ hxz => ?_
    exact (ih.unify h₄.within hy hw).imp fun k' _ h' hyw => .pair_of_components (h'.derives hxz) hyw
  | numeralLeft =>
    have hpred := (Spine.within_cons.1 (Val.within_neutral.1 hb).2.2).1
    exact (ih.unify hk .nat (Elim.within_app.1 hpred)).imp fun _ _ _ heq => .numeral heq
  | numeralRight =>
    have hpred := (Spine.within_cons.1 (Val.within_neutral.1 ha).2.2).1
    exact (ih.unify hk .nat (Elim.within_app.1 hpred)).imp fun _ _ _ heq => (Conv.numeral heq).symm
  | spines =>
    exact (spines (Val.within_neutral.1 ha).2.2 (Val.within_neutral.1 hb).2.2).imp fun _ _ _ heq =>
      heq _
  | solveLeft => exact ih.solve hk (Val.within_neutral.1 ha).2.2 hb
  | solveRight => exact (ih.solve hk (Val.within_neutral.1 hb).2.2 ha).imp fun _ _ _ heq => heq.symm
  | expandFunLeft hlam hstuck => exact expandFun hlam hstuck ha hb
  | expandFunRight hlam hstuck => exact (expandFun hlam hstuck hb ha).imp fun _ _ _ heq => heq.symm
  | expandPairLeft hstuck =>
    obtain ⟨hx, hy, -⟩ := Val.within_pair.1 ha
    exact expandPair hstuck hx hy hb
  | expandPairRight hstuck =>
    obtain ⟨hx, hy, -⟩ := Val.within_pair.1 hb
    exact (expandPair hstuck hx hy ha).imp fun _ _ _ heq => heq.symm
  | sameGlobal =>
    have hsp := spines (Val.within_glued.1 ha).2.2 (Val.within_glued.1 hb).2.2
    refine .bind (.transaction hk hsp (hgrows _ _)) fun r k₄ h₄ hr => ?_
    cases r with
    | ok u => exact .pure h₄.within (hr u rfl _)
    | error e =>
      refine .ite (fun _ => ?_) fun _ => .refuse _
      refine .bind (.force h₄.within ha fuel) fun a₂ k₅ h₅ hval => ?_
      obtain ⟨ha₂, haa₂⟩ := hval
      refine .bind (.force h₅.within hb fuel) fun b₂ k₆ h₆ hval => ?_
      obtain ⟨hb₂, hbb₂⟩ := hval
      refine (ih.unify h₆.within ha₂ hb₂).imp fun k' _ h' heq => ?_
      exact ((h₆.trans h').derives haa₂).trans (heq.trans (h'.derives hbb₂).symm)
  | unfoldLeft =>
    refine .bind (.force hk ha fuel) fun a₂ k₄ h₄ hval => ?_
    obtain ⟨ha₂, haa₂⟩ := hval
    exact (ih.unify h₄.within ha₂ hb).imp fun k' _ h' heq => (h'.derives haa₂).trans heq
  | unfoldRight =>
    refine .bind (.force hk hb fuel) fun b₂ k₄ h₄ hval => ?_
    obtain ⟨hb₂, hbb₂⟩ := hval
    exact (ih.unify h₄.within ha hb₂).imp fun k' _ h' heq => heq.trans (h'.derives hbb₂).symm

/-- A problem is solved, or it waits. -/
theorem solve_advances_step (hg : g.env.Within g.bounds noLevels anything)
    (ih : UnifiesSoundly g fuel) {m : MetaId} {sp : Spine} {rhs : Val} (hk : k.Within g.bounds)
    (hsp : Spine.Within g.bounds (· < n) sp) (hrhs : rhs.Within g.bounds (· < n)) :
    Advances g k (solve (fuel + 1) g n m sp rhs) fun k' _ =>
      k'.Equates g n (.neutral (.metavar m) sp) rhs := by
  refine .bind (.emitWith hk _) fun _ k₁ h₁ _ => ?_
  -- A problem that waits is an assumption, so it holds by itself.
  have postpone {k : Knowledge} (hk : k.Within g.bounds) :
      Advances g k (postponeProblem n m sp rhs) fun k' _ =>
        k'.Equates g n (.neutral (.metavar m) sp) rhs := by
    have hlhs : (Val.neutral (.metavar m) sp).Within g.bounds (· < n) :=
      Val.within_neutral.2 ⟨trivial, False.elim, hsp⟩
    exact (Advances.postpone hk ⟨hlhs, hrhs⟩).imp fun k' _ _ hwaiting =>
      Conv.assumed (p := ⟨n, .neutral (.metavar m) sp, rhs⟩) hwaiting
  cases hsplit : BoolSplit.of? sp with
  | some split =>
    have hs := BoolSplit.of?_vals hsplit hsp
    obtain ⟨hinit, hcases, -⟩ := BoolSplit.forall_vals.1 hs
    have hgrows (branch : Val) (constant : Prim) : Keeps MetaStore.Grows (do
        unify fuel .solving g n branch rhs
        solve fuel g n m split.init (.prim constant)) := by
      have hS := MetaStore.Grows.tracksFresh.solutions g
      exact .bind hS.toTracks (unify_keeps hS ..) fun _ => solve_keeps hS ..
    refine .bind
      (chooseBranch_advances (P := fun k' => k'.Equates g n (.neutral (.metavar m) sp) rhs) m ?_
        hgrows h₁.within) fun chosen k₂ h₂ hchosen => ?_
    · rintro ⟨case, constant⟩ hmem branch k hbranch hk
      have hwcase := hcases case (List.of_mem_zip hmem).1
      have hwbranch := (BoolSplit.branch_safely hs hwcase fuel).answer branch hbranch
      refine .bind (ih.unify hk hwbranch hrhs) fun _ k₂ h₂ heq => ?_
      refine (ih.solve h₂.within hinit Val.within_prim).imp fun k' _ h' hconstant => ?_
      exact (BoolSplit.branch_conv hsp hsplit hmem hbranch hconstant).trans (h'.derives heq)
    · exact .ite (fun h => .pure h₂.within (hchosen h)) fun _ => postpone h₂.within
  | none =>
    refine .bind (.metas h₁.within) fun ms k₂ h₂ hms => ?_
    subst hms
    refine .bind (Q := fun k' params => ∀ ps, params = some ps →
        k'.Derives g n (Spine.embed n (.metavar m) sp) (Term.applyParams n (.metavar m) ps))
      (.lift h₂.within ?_) fun params k₃ h₃ hparams => ?_
    · rintro params hps ps rfl
      exact Spine.params?_conv h₂.within.solvedWithin hsp hps _
    · cases params with
      | none => exact postpone h₃.within
      | some ps =>
        refine .ite (fun _ => ?_) fun _ => .refuse _
        refine .bind (solution_advances hg h₃.within hrhs fuel m ps) fun v k₄ h₄ hval => ?_
        obtain ⟨hv, hsolution⟩ := hval
        refine .bind (.setMeta h₄.within hv) fun _ k₅ h₅ hset => ?_
        refine (ih.retryFor m h₅.within).imp fun k' _ h' _ => ?_
        -- The arguments are the parameters, the metavariable is its solution, and the solution of
        -- the parameters is the right-hand side.
        have hspine := ((h₄.trans h₅).trans h').derives (hparams ps rfl)
        have hmeta := Term.applyParams_conv (h'.derives (Conv.solved (n := n) hset)) ps
        exact hspine.trans (hmeta.trans ((h₅.trans h').derives hsolution))

/-- The problems that are taken out are tried again, so nothing that waited is forgotten. -/
theorem retryFor_advances_step (ih : UnifiesSoundly g fuel) (m : MetaId) (hk : k.Within g.bounds) :
    Advances g k (retryFor (fuel + 1) g m) fun _ => anything where
  ok := by
    intro s a t hs hst
    obtain ⟨ps, u, hu, hst⟩ := bind_eq_ok.1 hst
    obtain ⟨hps, rfl⟩ := takePostponed_eq_ok.1 hu
    obtain ⟨_, w, hw, hst⟩ := bind_eq_ok.1 hst
    subst hs
    have hrest : Knowledge.Within g.bounds (s.metas.takePostponed m).2.now := hk.erase m.toNat
    have hscoped : ∀ p ∈ ps, p.Within g.bounds := hps ▸ hk.waitingFor m.toNat
    have hnote : Advances g (s.metas.takePostponed m).2.now
        (if ps.isEmpty then pure () else emit (.retry m ps.length)) fun _ => anything :=
      .ite (fun _ => .pure hrest trivial) fun _ => .emit hrest _
    obtain ⟨hnoted, -⟩ := hnote.ok rfl hw
    have hretry : Advances g w.metas.now (ps.forM fun p => unify fuel .solving g p.size p.lhs p.rhs)
        fun k' _ => ∀ p ∈ ps, k'.Settles g p :=
      .forM (fun h hp => h.derives hp)
        (fun p hp => fun hk => ih.unify hk (hscoped p hp).lhs (hscoped p hp).rhs) hnoted.within
    obtain ⟨hretried, hsettled⟩ := hretry.ok rfl hst
    have hlater := hnoted.trans hretried
    refine ⟨⟨hlater.within, hlater.entails.solved, ?_⟩, trivial⟩
    rintro p ⟨i, waiting, hwaiting, hp⟩
    -- The problems of this metavariable have been solved, and the others go on waiting.
    by_cases hi : i = m.toNat
    · refine hsettled p ?_
      rw [← hps, MetaStore.takePostponed, ← hi, hwaiting]
      exact hp
    · refine hlater.entails.waiting p ⟨i, waiting, ?_, hp⟩
      simpa [MetaStore.takePostponed, MetaStore.setNow, hi] using hwaiting

/-- Whenever the unifier accepts two values, the knowledge it ends with equates them. -/
theorem unifiesSoundly (hg : g.env.Within g.bounds noLevels anything) (fuel : Nat) :
    UnifiesSoundly g fuel := by
  induction fuel with
  | zero => exact ⟨fun _ _ _ => .throw _, fun _ _ _ => .throw _, fun _ _ => .throw _⟩
  | succ fuel ih =>
    exact ⟨unify_advances_step ih, solve_advances_step hg ih, retryFor_advances_step ih⟩

end

/-- The values of the globals are closed, and what they hold for a global is its value. -/
def Globals.Coherent (g : Globals) : Prop :=
  ∀ x v, g.env.global? x = some v → v.Within g.bounds noLevels

theorem Globals.Coherent.env {g : Globals} (hg : g.Coherent) :
    g.env.Within g.bounds noLevels anything :=
  ⟨List.forall_mem_nil _, fun _ _ _ hv => hv, fun x _ v hv => hg x v hv⟩

def noProblems : Problem → Prop := fun _ => False

theorem Knowledge.not_waiting {ms : MetaStore} (h : ms.hasPostponed = false) (p : Problem) :
    ¬ ms.now.Waiting p := by
  rintro ⟨i, ps, hps, -⟩
  have hnil : ms.now.postponed.entries = [] := by
    simpa [MetaStore.hasPostponed, IdMap.isEmpty] using h
  rw [IdMap.find?, hnil] at hps
  cases hps

/-- **Soundness of unification.** Over coherent globals, let two values be in a scope of some size,
and let what is known be in bounds: solutions are closed, waiting problems are in their scopes, and
globals stand for their values. If the values are unified, they are equal for what is known
afterwards, and so are the two sides of each problem that waited before; the only equations assumed
are those that still wait. If none does, nothing is assumed at all. What is known afterwards is in
bounds again. -/
theorem unify_equates (g : Globals) (hg : g.Coherent) (fuel : Nat) (mode : Mode) (size : Nat)
    (a b : Val) (ha : a.Within g.bounds (· < size))
    (hb : b.Within g.bounds (· < size)) (s t : State) (hs : s.metas.now.Within g.bounds)
    (h : unify fuel mode g size a b s = .ok () t) :
    (Conv g t.metas.now t.metas.now.Waiting size (a.embed size) (b.embed size) ∧
      ∀ p, s.metas.now.Waiting p →
        Conv g t.metas.now t.metas.now.Waiting p.size (p.lhs.embed p.size) (p.rhs.embed p.size)) ∧
    (t.metas.hasPostponed = false →
      Conv g t.metas.now noProblems size (a.embed size) (b.embed size) ∧
      ∀ p, s.metas.now.Waiting p →
        Conv g t.metas.now noProblems p.size (p.lhs.embed p.size) (p.rhs.embed p.size)) ∧
    t.metas.now.Within g.bounds := by
  have hadvances : Advances g s.metas.now (unify fuel mode g size a b) fun k' _ =>
      k'.Equates g size a b :=
    (unifiesSoundly hg.env fuel).unify hs ha hb
  obtain ⟨hlater, heq⟩ := hadvances.ok rfl h
  refine ⟨⟨heq, hlater.entails.waiting⟩, fun hnone => ?_, hlater.within⟩
  have hassumed : ∀ p, t.metas.now.Waiting p →
      Conv g t.metas.now noProblems p.size (p.lhs.embed p.size) (p.rhs.embed p.size) :=
    fun p hp => absurd hp (Knowledge.not_waiting hnone p)
  exact ⟨heq.mono (fun _ _ hv => hv) hassumed,
    fun p hp => (hlater.entails.waiting p hp).mono (fun _ _ hv => hv) hassumed⟩

/-- While `?0 three = 3` waits, where `three` is defined as `3`, the problem `?0 x = x` solves `?0`.
Then both equations hold and nothing is assumed. -/
theorem unify_equates_retried :
    let g : Globals := .insert .empty "three" ⟨.nat 3, .nat 3, .prim .nat, false, none⟩
    let p : Problem :=
      ⟨1, .neutral (.metavar ⟨0⟩) [.app .expl (.glued ⟨"three"⟩ [] (.nat 3))], .nat 3⟩
    ∃ t : State,
      unify 9 .solving g 1 (.neutral (.metavar ⟨0⟩) [.app .expl (.fresh 0)]) (.fresh 0)
        { State.empty with metas := MetaStore.empty.fresh.2.postpone ⟨0⟩ p } = .ok () t ∧
      Conv g t.metas.now noProblems 1 (.app (.metavar ⟨0⟩) .expl (.var ⟨0⟩)) (.var ⟨0⟩) ∧
      Conv g t.metas.now noProblems 1 (.app (.metavar ⟨0⟩) .expl (.global ⟨"three"⟩)) (.nat 3) := by
  intro g p
  have hthree : g.env.global? ⟨"three"⟩ = some (.nat 3) := rfl
  have hg : g.Coherent := by
    intro x v hv
    have hlookup : [((⟨"three"⟩ : Name), Val.nat 3)].lookup x = some v := hv
    rw [List.lookup_cons] at hlookup
    split at hlookup <;> cases hlookup
    exact .nat
  have hp : p.Within g.bounds := by
    refine ⟨Val.within_neutral.2
      ⟨trivial, False.elim, Spine.within_cons.2 ⟨Elim.within_app.2 ?_, Spine.within_nil⟩⟩, .nat⟩
    exact .glued hthree .nat Spine.within_nil
  have hs : (MetaStore.empty.fresh.2.postpone ⟨0⟩ p).now.Within g.bounds :=
    (Knowledge.Within.empty.make 0).postpone hp 0
  have hx : (Val.fresh 0).Within g.bounds (· < 1) := Val.within_var.2 Nat.zero_lt_one
  have hm : (Val.neutral (.metavar ⟨0⟩) [.app .expl (.fresh 0)]).Within g.bounds (· < 1) :=
    Val.within_neutral.2
      ⟨trivial, False.elim, Spine.within_cons.2 ⟨Elim.within_app.2 hx, Spine.within_nil⟩⟩
  obtain ⟨-, hnone, -⟩ := unify_equates g hg 9 .solving 1 _ _ hm hx
    { State.empty with metas := MetaStore.empty.fresh.2.postpone ⟨0⟩ p } _ hs rfl
  obtain ⟨heq, hwaited⟩ := hnone rfl
  exact ⟨_, rfl, heq, hwaited p ⟨0, [p], rfl, List.mem_singleton_self p⟩⟩

end Elaborator
