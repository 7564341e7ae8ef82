import Elaborator.Proofs.Conversion.Subst
import Elaborator.Proofs.Replay.Eval

/-! # Reading back in a larger scope

A value names variables by their levels, so it is a value of every larger scope as well. A term
names them by their indices: read back with one more variable in scope, the value gives the same
term with every free index increased by one (`Val.quote_weakens`).

The induction cannot keep the value. Both runs enter a closure with the new variable of their own
scope, and what they read back below the binder differs by the level of that variable, throughout.
The general statement (`Val.quote_relevel`) therefore replaces levels, and indices along with them
(`Renames`).

Levels are machine words. In the larger scope the level of a new variable may be one too many, where
it was the last one in the smaller scope, so the second run may stop there (`Attains`). -/

namespace Elaborator

/-! ## Scopes inside a term -/

namespace Term

mutual

def binderDepth : Term → Nat
  | .type | .var _ | .global _ | .metavar _ | .prim _ | .nat _ => 0
  | .app f _ x => max f.binderDepth x.binderDepth
  | .bind _ dom body => max dom.binderDepth (body.binderDepth + 1)
  | .pair a b s => max a.binderDepth (max b.binderDepth s.binderDepth)
  | .proj x _ => x.binderDepth
  | .letIn _ _ ty val body => max ty.binderDepth (max val.binderDepth (body.binderDepth + 1))
  | .elim _ motive scrut cases =>
    max motive.binderDepth (max scrut.binderDepth (binderDepthAll cases))

def binderDepthAll : List Term → Nat
  | [] => 0
  | t :: ts => max t.binderDepth (binderDepthAll ts)

end

end Term

/-- The computation returns `b`, or it stops because a size up to `largest` is too large. -/
def Attains {β : Type} (largest : Nat) (y : Except Fault β) (b : β) : Prop :=
  y = .ok b ∨ y = .error .overflow ∧ wordLimit ≤ largest

namespace Attains

variable {β γ : Type} {m m' : Nat} {y : Except Fault β} {b : β}

theorem ok : Attains m (.ok b) b := .inl rfl

theorem mono (h : Attains m y b) (hm : m ≤ m') : Attains m' y b :=
  h.imp_right fun h => ⟨h.1, Nat.le_trans h.2 hm⟩

theorem bind {k : β → Except Fault γ} {c : γ} (h : Attains m y b) (hk : Attains m (k b) c) :
    Attains m (y >>= k) c := by
  obtain rfl | ⟨rfl, hm⟩ := h
  · exact hk
  · exact .inr ⟨rfl, hm⟩

end Attains

/-! ## Levels and indices -/

/-- Where `r` replaces the levels of a scope of size `s` by levels of a scope of size `s'`, `ξ`
replaces the indices. -/
structure Renames (r ξ : Nat → Nat) (s s' : Nat) : Prop where
  inScope : ∀ l < s, r l < s'
  index : ∀ l < s, s' - 1 - r l = ξ (s - 1 - l)

namespace Renames

variable {r ξ : Nat → Nat} {s s' : Nat}

/-- With one more variable in scope, levels stay as they are. -/
theorem weaken (n : Nat) : Renames id (· + 1) n (n + 1) where
  inScope l hl := Nat.lt_succ_of_lt hl
  index l hl := by
    show n + 1 - 1 - l = n - 1 - l + 1
    omega

/-- The new variable has the index zero in both scopes. -/
theorem under (h : Renames r ξ s s') : Renames (underBinder r s s') (Term.lift ξ) (s + 1)
    (s' + 1) := by
  constructor
  · intro l hl
    rcases Nat.lt_succ_iff_lt_or_eq.1 hl with hl | rfl
    · rw [underBinder_old r s' hl]
      exact Nat.lt_succ_of_lt (h.inScope l hl)
    · rw [underBinder_new]
      exact Nat.lt_succ_self s'
  · intro l hl
    rcases Nat.lt_succ_iff_lt_or_eq.1 hl with hl | rfl
    · have hr := h.inScope l hl
      have hsource : s + 1 - 1 - l = s - 1 - l + 1 := by omega
      have htarget : s' + 1 - 1 - r l = s' - 1 - r l + 1 := by omega
      rw [underBinder_old r s' hl, hsource, htarget, h.index l hl]
      rfl
    · rw [underBinder_new, Nat.add_sub_cancel, Nat.add_sub_cancel, Nat.sub_self, Nat.sub_self]
      rfl

/-- The index of a level is renamed with the level. -/
theorem toIndex (h : Renames r ξ s s') {l : Level} {i : Index} (hi : l.toIndex s = .ok i) :
    Attains s' (Level.toIndex ⟨r l.toNat⟩ s') ⟨ξ i.toNat⟩ := by
  obtain ⟨-, hl, hi⟩ := Level.toIndex_eq_ok_iff.1 hi
  have hr : r l.toNat < s' := h.inScope l.toNat hl
  by_cases hfits : r l.toNat + 1 < wordLimit
  · refine .inl (Level.toIndex_eq_ok_iff.2 ⟨hfits, hr, ?_⟩)
    rw [h.index l.toNat hl, hi]
  · refine .inr ⟨?_, Nat.le_trans (Nat.le_of_not_lt hfits) hr⟩
    rw [Level.toIndex, Level.inScope, Elaborator.inScope, extendScope, if_neg hfits]
    rfl

/-- A head with renamed levels reads back to the relabelled term, given enough room. -/
theorem quoteHead (h : Renames r ξ s s') {k : Head} {t : Term} (hk : k.quote s = .ok t) :
    Attains s' ((k.relevel r).quote s') (t.relabel ξ) := by
  cases k with
  | var l =>
    simp only [Head.quote] at hk
    cases hi : l.toIndex s with
    | error f =>
      rw [hi] at hk
      cases hk
    | ok i =>
      rw [hi] at hk
      cases hk
      exact (h.toIndex hi).bind .ok
  | prim | metavar =>
    cases hk
    exact .ok

end Renames

/-! ## Reading back -/

section

variable {r ξ : Nat → Nat} {s' : Nat} {q q' : Val → Except Fault Term}

theorem quoteAll_relevel {vs : List Val} {ts : List Term}
    (hq : ∀ v ∈ vs, ∀ t, q v = .ok t →
      Attains (s' + t.binderDepth) (q' (v.relevel r)) (t.relabel ξ))
    (h : vs.mapM q = .ok ts) :
    Attains (s' + Term.binderDepthAll ts) ((Val.relevelAll r vs).mapM q')
      (Term.relabelAll ξ ts) := by
  induction vs generalizing ts with
  | nil =>
    cases h
    exact .ok
  | cons v vs ih =>
    obtain ⟨hv, hvs⟩ := List.forall_mem_cons.1 hq
    rw [List.mapM_cons] at h
    obtain ⟨t, ht, h⟩ := bind_ok h
    obtain ⟨ts, hts, h⟩ := bind_ok h
    cases h
    rw [Val.relevelAll, List.mapM_cons]
    refine ((hv t ht).mono ?_).bind (((ih hvs hts).mono ?_).bind .ok)
    · exact Nat.add_le_add_left (Nat.le_max_left ..) s'
    · exact Nat.add_le_add_left (Nat.le_max_right ..) s'

/-- A spine with renamed levels reads back to the relabelled term, when its values do. -/
theorem Spine.quote_relevel {sp : Spine} {head t : Term}
    (hq : ∀ v ∈ Spine.vals sp, ∀ t, q v = .ok t →
      Attains (s' + t.binderDepth) (q' (v.relevel r)) (t.relabel ξ))
    (h : Spine.quote q head sp = .ok t) :
    Attains (s' + t.binderDepth) (Spine.quote q' (head.relabel ξ) (Spine.relevel r sp))
      (t.relabel ξ) := by
  induction sp generalizing t with
  | nil =>
    cases h
    exact .ok
  | cons e sp ih =>
    obtain ⟨he, hsp⟩ := List.forall_mem_append.1 hq
    cases e with
    | app icit x =>
      obtain ⟨u, hu, h⟩ := bind_ok h
      obtain ⟨tx, hx, h⟩ := bind_ok h
      cases h
      have harg := he x (List.mem_singleton_self x) tx hx
      refine ((ih hsp hu).mono ?_).bind ((harg.mono ?_).bind .ok)
      · exact Nat.add_le_add_left (Nat.le_max_left ..) s'
      · exact Nat.add_le_add_left (Nat.le_max_right ..) s'
    | proj p =>
      obtain ⟨u, hu, h⟩ := bind_ok h
      cases h
      exact (ih hsp hu).bind .ok
    | cases e m cs =>
      obtain ⟨u, hu, h⟩ := bind_ok h
      obtain ⟨tm, hm, h⟩ := bind_ok h
      obtain ⟨tcs, hcs, h⟩ := bind_ok h
      cases h
      obtain ⟨hmotive, hcases⟩ := List.forall_mem_cons.1 he
      refine ((ih hsp hu).mono ?_).bind (((hmotive tm hm).mono ?_).bind
        (((quoteAll_relevel hcases hcs).mono ?_).bind .ok))
      all_goals
        simp only [Term.binderDepth]
        omega

end

/-- **Reading back commutes with renaming.** -/
theorem Val.quote_relevel {B : Bounds} {ms : MetaStore} (hms : ms.SolvedWithin B) {r ξ : Nat → Nat}
    {s s' fuel : Nat} {full : Bool} {v : Val} {t : Term} (hr : Renames r ξ s s')
    (hv : v.Within B (· < s)) (h : v.quote fuel ms full s = .ok t) :
    Attains (s' + t.binderDepth) ((v.relevel r).quote fuel ms full s') (t.relabel ξ) := by
  induction fuel generalizing v t r ξ s s' with
  | zero => cases h
  | succ fuel ih =>
    rw [Val.quote] at h
    obtain ⟨w, hforce, h⟩ := bind_ok h
    have hw := (Val.forceMeta_safely hms hv fuel).answer w hforce
    have hforce' := Val.forceMeta_relevel (r := r) hms hv fuel
    rw [hforce] at hforce'
    rw [Val.quote]
    refine Attains.bind (.inl hforce') ?_
    have hspine {sp : Spine} {head t : Term} (hsp : Spine.Within B (· < s) sp)
        (h : Spine.quote (Val.quote fuel ms full s) head sp = .ok t) :
        Attains (s' + t.binderDepth)
          (Spine.quote (Val.quote fuel ms full s') (head.relabel ξ) (Spine.relevel r sp))
          (t.relabel ξ) :=
      Spine.quote_relevel (fun v hv t ht => ih hr (hsp v hv) ht) h
    cases w with
    | type | nat =>
      cases h
      exact .ok
    | neutral k sp =>
      obtain ⟨head, hhead, h⟩ := bind_ok h
      obtain ⟨-, -, hsp⟩ := Val.within_neutral.1 hw
      exact ((hr.quoteHead hhead).mono (Nat.le_add_right ..)).bind (hspine hsp h)
    | glued x sp base =>
      cases full with
      | true =>
        obtain ⟨u, hu, h⟩ := bind_ok h
        have hunfold := Val.force_relevel (r := r) hms hw fuel
        rw [hu] at hunfold
        refine Attains.bind (.inl hunfold) ?_
        exact ih hr ((Val.force_safely hms hw fuel).answer u hu) h
      | false => exact hspine (Val.within_glued.1 hw).2.2 h
    | closure c =>
      obtain ⟨dom, hdom, h⟩ := bind_ok h
      obtain ⟨x, hx, h⟩ := bind_ok h
      obtain ⟨body, hbody, h⟩ := bind_ok h
      cases h
      -- The body is entered at the new level, which is renamed to the new level of the other scope.
      have henter := Closure.enter_relevel r fuel hw (fun _ => id) s'
      rw [hx] at henter
      have hxs : x.Within B (· < s + 1) :=
        (Closure.enter_safely hw (fun _ => Nat.lt_succ_of_lt) (Nat.lt_succ_self s) fuel).answer x hx
      rw [Val.relevel_closure]
      refine ((ih hr (Val.within_closure.1 hw).1 hdom).mono ?_).bind (Attains.bind (.inl henter)
        (((ih hr.under hxs hbody).mono ?_).bind .ok))
      all_goals
        simp only [Term.binderDepth]
        omega
    | pair a b c =>
      obtain ⟨ta, ha, h⟩ := bind_ok h
      obtain ⟨tb, hb, h⟩ := bind_ok h
      obtain ⟨tc, hc, h⟩ := bind_ok h
      cases h
      obtain ⟨hwa, hwb, hwc⟩ := Val.within_pair.1 hw
      refine ((ih hr hwa ha).mono ?_).bind
        (((ih hr hwb hb).mono ?_).bind (((ih hr hwc hc).mono ?_).bind .ok))
      all_goals
        simp only [Term.binderDepth]
        omega

/-- **Reading back one level deeper is weakening.** If a value whose levels are below `n` is read
back in a scope of size `n`, in a scope of size `n + 1` it is read back as the weakened term, unless
a scope inside that term is too large for machine words. -/
theorem Val.quote_weakens {B : Bounds} {ms : MetaStore}
    {n fuel : Nat} {full : Bool} {v : Val} {t : Term} (hms : ms.SolvedWithin B)
    (hv : v.Within B (· < n)) (h : v.quote fuel ms full n = .ok t) :
    (v.quote fuel ms full (n + 1) = .ok t.shift ∨
      v.quote fuel ms full (n + 1) = .error .overflow ∧ wordLimit ≤ n + 1 + t.binderDepth) ∧
    ∀ fuel' t', v.quote fuel' ms full (n + 1) = .ok t' → t' = t.shift := by
  have hdeeper := Val.quote_relevel hms (.weaken n) hv h
  rw [Val.relevel_id] at hdeeper
  refine ⟨hdeeper, fun fuel' t' h' => ?_⟩
  have hdeeper' := (Val.quote_prolongs ms (Nat.le_max_right fuel fuel') full (n + 1) v).ok h'
  have hfuel := Val.quote_prolongs ms (Nat.le_max_left fuel fuel') full (n + 1) v
  obtain hok | ⟨hoverflow, -⟩ := hdeeper
  · exact Except.ok.inj (hdeeper'.symm.trans (hfuel.ok hok))
  · rw [hoverflow, hdeeper'] at hfuel
    cases hfuel

/-- A function of its own variable `y` in the scope of `x`, whose body `x (?0 (id y))` is unfolded
while it is read back: the index of `x` is increased, that of `y` is not. -/
theorem Val.quote_weakens_unfolded :
    let B : Bounds := ⟨fun _ => True, fun _ _ => True, False⟩
    let identity : Val := .closure ⟨⟨.lam .expl, "z", false⟩, .prim .nat, .empty, .var ⟨0⟩⟩
    let arg : Term := .app (.metavar ⟨0⟩) .expl (.app (.global "id") .expl (.var ⟨0⟩))
    let v : Val := .closure ⟨⟨.lam .expl, "y", false⟩, .prim .nat, ⟨[("id", identity)], [.fresh 0]⟩,
      .app (.var ⟨1⟩) .expl arg⟩
    let t (x : Nat) : Term := .lam .expl "y" (.prim .nat) (.app (.var ⟨x⟩) .expl (.var ⟨0⟩))
    ∃ ms, MetaStore.empty.fresh.2.set ⟨0⟩ identity = .ok ms ∧ ms.SolvedWithin B ∧
      v.Within B (· < 1) ∧ v.quote 20 ms true 1 = .ok (t 1) ∧ v.quote 20 ms true 2 = .ok (t 2) ∧
        ∀ fuel' t', v.quote fuel' ms true 2 = .ok t' → t' = t 2 := by
  intro B identity arg v t
  have hidentity : identity.Within B noLevels :=
    Val.within_closure.2
      ⟨Val.within_prim, ⟨List.forall_mem_nil _, List.forall_mem_nil _, List.forall_mem_nil _⟩,
      Term.within_var.2 Nat.zero_lt_one⟩
  have hms (ms : MetaStore) (hset : MetaStore.empty.fresh.2.set ⟨0⟩ identity = .ok ms) :
      ms.SolvedWithin B := by
    intro m u _ hu
    rw [MetaStore.lookup_set hset, MetaStore.lookup_fresh] at hu
    split at hu
    · cases hu
      exact hidentity
    · split at hu <;> cases hu
  have hv : v.Within B (· < 1) := by
    refine Val.within_closure.2 ⟨Val.within_prim, ⟨?_, fun _ _ _ _ => trivial, ?_⟩, ?_⟩
    · exact List.forall_mem_singleton.2 (Val.within_var.2 Nat.zero_lt_one)
    · exact List.forall_mem_singleton.2 fun u hu => Option.some.inj hu ▸ hidentity
    · simp [arg, B, Env.size]
  have hfits : ¬ wordLimit ≤ 1 + 1 + (t 1).binderDepth := by decide
  refine ⟨_, rfl, hms _ rfl, hv, rfl, ?_⟩
  obtain ⟨hdeeper, hall⟩ := @Val.quote_weakens B _ 1 20 true v (t 1) (hms _ rfl) hv rfl
  exact ⟨hdeeper.resolve_right fun h => hfits h.2, hall⟩

end Elaborator
