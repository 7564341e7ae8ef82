import Mathlib.Order.Filter.AtTopBot.Basic
import Elaborator.Proofs.NormalForm.Rereading

/-! # Normalizing a normal form

What is read back of a settled value is a normal form. Evaluating it takes the same eliminations to
the same heads, so none of them computes, and reading the result back gives the normal form again.
There is one exception: an argument of the successor may be a literal in the normal form although it
was none when the successor met it, because it was a global at that time. With globals folded this
does not happen (`Term.normalize_folded_idempotent`).

`Val.ReadsAs` is what reading back does with settled values, as a relation, and the statements are
proved by induction over it. -/

namespace Elaborator

open Filter

/-! ## Reading back, as a relation -/

/-- `w` is the stuck value `v` under one more elimination, which does not compute. A global is only
stuck as long as it stays folded. -/
inductive Val.Grows (full : Bool) (e : Elim) : Val → Val → Prop
  | neutral {h : Head} {sp : Spine} (blocked : e.Blocked h sp) :
      Grows full e (.neutral h sp) (.neutral h (e :: sp))
  | glued {x : Name} {sp : Spine} {base : Val} (folded : full = false) :
      Grows full e (.glued x sp base) (.glued x (e :: sp) base)

/-- In a scope of this size a settled value is read back as a term, with globals unfolded if
`full`. -/
inductive Val.ReadsAs (M : MetaId → Prop) (G : Name → Prop) (full : Bool) :
    (size : Nat) → Val → Term → Prop
  | type {n : Nat} : ReadsAs M G full n .type .type
  | nat {n k : Nat} : ReadsAs M G full n (.nat k) (.nat k)
  | head {n : Nat} {h : Head} {t : Term} (quoted : h.quote n = .ok t)
      (unsolved : ∀ m, h = .metavar m → M m) : ReadsAs M G full n (.neutral h []) t
  | global {n : Nat} {x : Name} {base : Val} (folded : full = false) (known : G x) :
      ReadsAs M G full n (.glued x [] base) (.global x)
  | app {n : Nat} {v w x : Val} {icit : Icit} {t u : Term} (grows : v.Grows full (.app icit x) w)
      (fn : ReadsAs M G full n v t) (arg : ReadsAs M G full n x u) :
      ReadsAs M G full n w (.app t icit u)
  | proj {n : Nat} {v w : Val} {p : Proj} {t : Term} (grows : v.Grows full (.proj p) w)
      (pair : ReadsAs M G full n v t) : ReadsAs M G full n w (.proj t p)
  | cases {n : Nat} {v w m : Val} {e : Eliminator} {cs : List Val} {t tm : Term} {ts : List Term}
      (grows : v.Grows full (.cases e m cs) w) (scrut : ReadsAs M G full n v t)
      (motive : ReadsAs M G full n m tm) (length : cs.length = ts.length)
      (branches : ∀ (k : Nat) (c : Val) (u : Term), cs[k]? = some c → ts[k]? = some u →
        ReadsAs M G full n c u) :
      ReadsAs M G full n w (.elim e tm t ts)
  | unfold {n : Nat} {x : Name} {sp : Spine} {base w : Val} {t : Term}
      (unfolds : full = true) (known : G x) (value : ReadsAs M G full n w t) :
      ReadsAs M G full n (.glued x sp base) t
  | closure {n : Nat} {c : Closure} {body : Val} {tdom tbody : Term}
      (dom : ReadsAs M G full n c.dom tdom) (inner : ReadsAs M G full (n + 1) body tbody) :
      ReadsAs M G full n (.closure c) (.bind c.binder tdom tbody)
  | pair {n : Nat} {a b s : Val} {ta tb ts : Term} (fst : ReadsAs M G full n a ta)
      (snd : ReadsAs M G full n b tb) (sigma : ReadsAs M G full n s ts) :
      ReadsAs M G full n (.pair a b s) (.pair ta tb ts)

section

variable {M : MetaId → Prop} {G : Name → Prop} {full : Bool} {fuel n : Nat} {ms : MetaStore}

/-- A spine is read back one elimination after the other. `F` puts a spine under its head. -/
theorem Spine.readsAs {F : Spine → Val} {q : Val → Except Fault Term} {head t : Term} {sp : Spine}
    (hhead : (F []).ReadsAs M G full n head)
    (hgrows : ∀ e rest, e :: rest <:+ sp → (F rest).Grows full e (F (e :: rest)))
    (hvals : ∀ v ∈ Spine.vals sp, ∀ u, q v = .ok u → v.ReadsAs M G full n u)
    (ht : Spine.quote q head sp = .ok t) : (F sp).ReadsAs M G full n t := by
  induction sp generalizing t with
  | nil =>
    cases ht
    exact hhead
  | cons e sp ih =>
    obtain ⟨he, hsp⟩ := List.forall_mem_append.1 hvals
    have hgrow := hgrows e sp List.suffix_rfl
    have hinner : ∀ {u}, Spine.quote q head sp = .ok u → (F sp).ReadsAs M G full n u :=
      ih (fun f rest hrest => hgrows f rest (hrest.trans (List.suffix_cons e sp))) hsp
    cases e with
    | app icit x =>
      obtain ⟨u, hu, ht⟩ := bind_ok ht
      obtain ⟨tx, htx, ht⟩ := bind_ok ht
      cases ht
      exact .app hgrow (hinner hu) (he x (by simp [Elim.vals]) tx htx)
    | proj p =>
      obtain ⟨u, hu, ht⟩ := bind_ok ht
      cases ht
      exact .proj hgrow (hinner hu)
    | cases e m cs =>
      obtain ⟨u, hu, ht⟩ := bind_ok ht
      obtain ⟨tm, htm, ht⟩ := bind_ok ht
      obtain ⟨tcs, htcs, ht⟩ := bind_ok ht
      cases ht
      obtain ⟨hm, hcs⟩ := List.forall_mem_cons.1 he
      have hall : List.Forall₂ (Val.ReadsAs M G full n) cs tcs := mapM_ok htcs hcs
      exact .cases hgrow (hinner hu) (hm tm htm) hall.length_eq fun _ _ _ => rel_of_getElem? hall

/-- No elimination of a blocked spine computes. -/
theorem Spine.Blocked.of_suffix {h : Head} {e : Elim} {sp rest : Spine} (hb : Spine.Blocked h sp)
    (hrest : e :: rest <:+ sp) : e.Blocked h rest := by
  induction sp with
  | nil => simp at hrest
  | cons f sp ih =>
    rcases List.suffix_cons_iff.1 hrest with heq | hrest
    · cases heq
      exact hb.1
    · exact ih hb.2 hrest

/-- A settled value whose metavariables have no solutions is read back as the relation says. -/
theorem Val.Settled.readsAs (hM : ∀ m, M m → ms.lookup m = none) {v : Val} {t : Term}
    (hv : v.Settled M G full) (ht : v.quote fuel ms full n = .ok t) : v.ReadsAs M G full n t := by
  induction fuel generalizing v n t with
  | zero => cases ht
  | succ fuel ih =>
    obtain ⟨w, hw, ht'⟩ := bind_ok ht
    -- Forcing does not change a settled value.
    obtain rfl := hv.forceMeta hM hw
    cases hv with
    | type =>
      cases ht'
      exact .type
    | nat =>
      cases ht'
      exact .nat
    | @neutral h sp hhead hblocked hspine =>
      obtain ⟨head, hquoted, ht'⟩ := bind_ok ht'
      exact Spine.readsAs (F := Val.neutral h) (.head hquoted hhead)
        (fun e rest hrest => .neutral (hblocked.of_suffix hrest))
        (fun v hv u hu => ih (hspine v hv) hu) ht'
    | @glued x sp base hknown hunfolds hspine =>
      cases full with
      | true =>
        obtain ⟨u, hu, ht'⟩ := bind_ok ht'
        exact .unfold rfl hknown
          (ih (Val.Settled.force hM rfl (.glued hknown hunfolds hspine) hu) ht')
      | false =>
        exact Spine.readsAs (F := fun sp => .glued x sp base) (.global rfl hknown)
          (fun e rest _ => .glued rfl) (fun v hv u hu => ih (hspine v hv) hu) ht'
    | @closure c hdom hlocals hknown hunfolds hmetas =>
      obtain ⟨tdom, htdom, ht'⟩ := bind_ok ht'
      obtain ⟨body, hbody, ht'⟩ := bind_ok ht'
      obtain ⟨tbody, htbody, ht'⟩ := bind_ok ht'
      cases ht'
      have hentered := Val.Settled.enter (.closure hdom hlocals hknown hunfolds hmetas) hbody
      exact .closure (ih hdom htdom) (ih hentered htbody)
    | pair ha hb hs =>
      obtain ⟨ta, hta, ht'⟩ := bind_ok ht'
      obtain ⟨tb, htb, ht'⟩ := bind_ok ht'
      obtain ⟨ts, hts, ht'⟩ := bind_ok ht'
      cases ht'
      exact .pair (ih ha hta) (ih hb htb) (ih hs hts)

end

/-! ## Successors of literals -/

namespace Term

/-- Whether this is the successor of a literal, explicitly applied. It computes to a literal. -/
def isSuccLiteral : Term → Bool
  | .app (.prim .succ) .expl (.nat _) => true
  | _ => false

mutual

def hasSuccLiteral : Term → Bool
  | .type | .var _ | .global _ | .metavar _ | .prim _ | .nat _ => false
  | .app f icit x => (Term.app f icit x).isSuccLiteral || f.hasSuccLiteral || x.hasSuccLiteral
  | .bind _ dom body => dom.hasSuccLiteral || body.hasSuccLiteral
  | .pair a b s => a.hasSuccLiteral || b.hasSuccLiteral || s.hasSuccLiteral
  | .proj x _ => x.hasSuccLiteral
  | .letIn _ _ ty val body => ty.hasSuccLiteral || val.hasSuccLiteral || body.hasSuccLiteral
  | .elim _ motive scrut cases =>
    motive.hasSuccLiteral || scrut.hasSuccLiteral || anySuccLiteral cases

def anySuccLiteral : List Term → Bool
  | [] => false
  | t :: ts => t.hasSuccLiteral || anySuccLiteral ts

end

theorem anySuccLiteral_eq_false {ts : List Term} :
    anySuccLiteral ts = false ↔ ∀ t ∈ ts, t.hasSuccLiteral = false := by
  induction ts with
  | nil => simp [anySuccLiteral]
  | cons t ts ih => simp [anySuccLiteral, ih]

end Term

section

variable {M : MetaId → Prop} {G : Name → Prop} {full : Bool} {n : Nat}

namespace Val.ReadsAs

/-- What holds of the terms that the branches are read back as holds of all terms. -/
theorem forall_mem_branches {P : Term → Prop} {cs : List Val} {ts : List Term}
    (hlength : cs.length = ts.length)
    (h : ∀ (k : Nat) (c : Val) (u : Term), cs[k]? = some c → ts[k]? = some u → P u) :
    ∀ u ∈ ts, P u := by
  intro u hu
  obtain ⟨k, hk⟩ := List.mem_iff_getElem?.1 hu
  have hlt : k < cs.length := hlength ▸ (List.getElem?_eq_some_iff.1 hk).1
  exact h k cs[k] u (List.getElem?_eq_getElem hlt) hk

/-- Reading back does not make up metavariables, and with globals unfolded none are left. -/
theorem mentions {v : Val} {t : Term} (h : v.ReadsAs M G full n t) :
    (∀ m ∈ t.metaOccurrences, M m) ∧ (full = true → t.globals = []) := by
  induction h with
  | type | nat => simp [Term.metaOccurrences, Term.globals]
  | @head n h t hquoted hunsolved =>
    cases h with
    | var l =>
      obtain ⟨i, -, rfl⟩ := map_ok hquoted
      simp [Term.metaOccurrences, Term.globals]
    | prim p =>
      cases hquoted
      simp [Term.metaOccurrences, Term.globals]
    | metavar m =>
      cases hquoted
      simpa [Term.metaOccurrences, Term.globals] using hunsolved
  | global hfolded => simp [Term.metaOccurrences, hfolded]
  | app _ _ _ ihf ihx =>
    exact ⟨List.forall_mem_append.2 ⟨ihf.1, ihx.1⟩,
      fun hf => by simp [Term.globals, ihf.2 hf, ihx.2 hf]⟩
  | proj _ _ ih => exact ih
  | cases _ _ _ hlength _ ihs ihm ihcs =>
    have hcs := forall_mem_branches hlength ihcs
    refine ⟨List.forall_mem_append.2 ⟨List.forall_mem_append.2 ⟨ihm.1, ihs.1⟩, ?_⟩, fun hf => ?_⟩
    · rw [Term.metaOccurrencesAll_eq]
      intro m hm
      obtain ⟨u, hu, hm⟩ := List.mem_flatMap.1 hm
      exact (hcs u hu).1 m hm
    · rw [Term.globals, Term.globalsAll_eq, ihm.2 hf, ihs.2 hf]
      exact List.flatMap_eq_nil_iff.2 fun u hu => (hcs u hu).2 hf
  | unfold _ _ _ ih => exact ih
  | closure _ _ ihd ihb =>
    exact ⟨List.forall_mem_append.2 ⟨ihd.1, ihb.1⟩,
      fun hf => by simp [Term.globals, ihd.2 hf, ihb.2 hf]⟩
  | pair _ _ _ iha ihb ihs =>
    exact ⟨List.forall_mem_append.2 ⟨List.forall_mem_append.2 ⟨iha.1, ihb.1⟩, ihs.1⟩,
      fun hf => by simp [Term.globals, iha.2 hf, ihb.2 hf, ihs.2 hf]⟩

/-- Only the successor itself is read back as the successor, as long as globals stay folded. -/
theorem prim_inv {v : Val} {p : Prim} (h : v.ReadsAs M G full n (.prim p))
    (hfolded : full = true → ∀ x, ¬ G x) : v = .neutral (.prim p) [] := by
  generalize ht : Term.prim p = t at h
  cases h with
  | @head _ h _ hquoted _ =>
    subst ht
    cases h with
    | var l =>
      obtain ⟨i, -, hi⟩ := map_ok hquoted
      cases hi
    | prim q =>
      cases hquoted
      rfl
    | metavar m => cases hquoted
  | unfold hfull hknown _ => exact (hfolded hfull _ hknown).elim
  | _ => cases ht

/-- Only a literal is read back as a literal, as long as globals stay folded. -/
theorem nat_inv {v : Val} {k : Nat} (h : v.ReadsAs M G full n (.nat k))
    (hfolded : full = true → ∀ x, ¬ G x) : v = .nat k := by
  generalize ht : Term.nat k = t at h
  cases h with
  | nat =>
    cases ht
    rfl
  | @head _ h _ hquoted _ =>
    subst ht
    cases h with
    | var l =>
      obtain ⟨i, -, hi⟩ := map_ok hquoted
      cases hi
    | prim q => cases hquoted
    | metavar m => cases hquoted
  | unfold hfull hknown _ => exact (hfolded hfull _ hknown).elim
  | _ => cases ht

/-- **As long as globals stay folded, no successor of a literal is read back**: it was computed when
it was made. -/
theorem hasSuccLiteral_eq_false {v : Val} {t : Term} (h : v.ReadsAs M G full n t)
    (hfolded : full = true → ∀ x, ¬ G x) : t.hasSuccLiteral = false := by
  induction h with
  | type | nat | global => rfl
  | @head n h t hquoted _ =>
    cases h with
    | var l =>
      obtain ⟨i, -, rfl⟩ := map_ok hquoted
      rfl
    | prim p =>
      cases hquoted
      rfl
    | metavar m =>
      cases hquoted
      rfl
  | @app n v w x icit t u hgrows hfn harg ihf ihx =>
    -- Where the successor meets a literal, the value would not have been stuck.
    have houter : (Term.app t icit u).isSuccLiteral = false := by
      by_contra hsucc
      rw [Bool.not_eq_false] at hsucc
      unfold Term.isSuccLiteral at hsucc
      split at hsucc
      · next heq =>
        cases heq
        obtain rfl := prim_inv hfn hfolded
        obtain rfl := nat_inv harg hfolded
        cases hgrows with
        | neutral hblocked => exact hblocked ⟨rfl, rfl, rfl, _, rfl⟩
      · cases hsucc
    rw [Term.hasSuccLiteral, houter, ihf, ihx]
    rfl
  | proj _ _ ih => exact ih
  | cases _ _ _ hlength _ ihs ihm ihcs =>
    have hcs := Term.anySuccLiteral_eq_false.2 (forall_mem_branches hlength ihcs)
    rw [Term.hasSuccLiteral, ihm, ihs, hcs]
    rfl
  | unfold _ _ _ ih => exact ih
  | closure _ _ ihd ihb =>
    rw [Term.hasSuccLiteral, ihd, ihb]
    rfl
  | pair _ _ _ iha ihb ihs =>
    rw [Term.hasSuccLiteral, iha, ihb, ihs]
    rfl

end Val.ReadsAs

end

/-! ## Evaluating a normal form

A normal form is evaluated where its variables stand for themselves. It may have been moved: then
its indices are others, but the variables have the levels that they had when it was read back.

Fuel bounds the depth of a computation, so an answer is only expected with enough fuel. -/

/-- The second term is the first one, moved from a scope of this size into an environment where its
variables stand for themselves. -/
inductive Term.MovedTo : (size : Nat) → Env → Term → Term → Prop
  | type {n : Nat} {env : Env} : MovedTo n env .type .type
  | var {n : Nat} {env : Env} {i j : Index} (bound : i.toNat < n)
      (found : env.local? j = some (.fresh (n - 1 - i.toNat))) : MovedTo n env (.var i) (.var j)
  | global {n : Nat} {env : Env} {x : Name} : MovedTo n env (.global x) (.global x)
  | metavar {n : Nat} {env : Env} {m : MetaId} : MovedTo n env (.metavar m) (.metavar m)
  | prim {n : Nat} {env : Env} {p : Prim} : MovedTo n env (.prim p) (.prim p)
  | nat {n : Nat} {env : Env} {k : Nat} : MovedTo n env (.nat k) (.nat k)
  | app {n : Nat} {env : Env} {f f' x x' : Term} {icit : Icit} (fn : MovedTo n env f f')
      (arg : MovedTo n env x x') : MovedTo n env (.app f icit x) (.app f' icit x')
  | bind {n : Nat} {env : Env} {b : Binder} {dom dom' body body' : Term}
      (domain : MovedTo n env dom dom') (inner : MovedTo (n + 1) (env.push (.fresh n)) body body') :
      MovedTo n env (.bind b dom body) (.bind b dom' body')
  | pair {n : Nat} {env : Env} {a a' b b' s s' : Term} (fst : MovedTo n env a a')
      (snd : MovedTo n env b b') (sigma : MovedTo n env s s') :
      MovedTo n env (.pair a b s) (.pair a' b' s')
  | proj {n : Nat} {env : Env} {x x' : Term} {p : Proj} (pair : MovedTo n env x x') :
      MovedTo n env (.proj x p) (.proj x' p)
  | letIn {n : Nat} {env : Env} {x : Name} {erased : Bool} {ty ty' val val' body body' : Term}
      (type : MovedTo n env ty ty') (value : MovedTo n env val val')
      (inner : MovedTo (n + 1) (env.push (.fresh n)) body body') :
      MovedTo n env (.letIn x erased ty val body) (.letIn x erased ty' val' body')
  | elim {n : Nat} {env : Env} {e : Eliminator} {m m' s s' : Term} {cs cs' : List Term}
      (motive : MovedTo n env m m') (scrut : MovedTo n env s s') (length : cs.length = cs'.length)
      (cases : ∀ (k : Nat) (c c' : Term), cs[k]? = some c → cs'[k]? = some c' →
        MovedTo n env c c') :
      MovedTo n env (.elim e m s cs) (.elim e m' s' cs')

/-- A term in scope need not be moved. -/
theorem Term.Scoped.movedTo {n : Nat} {t : Term} (g : Globals) (h : t.Scoped n) :
    t.MovedTo n (g.scopeEnv n) t := by
  induction t generalizing n with
  | type => exact .type
  | var i => exact .var h (g.local?_scopeEnv_index h)
  | global => exact .global
  | metavar => exact .metavar
  | prim => exact .prim
  | nat => exact .nat
  | app f icit x hf hx => exact .app (hf h.1) (hx h.2)
  | bind b dom body hdom hbody => exact .bind (hdom h.1) (hbody h.2)
  | pair a b s ha hb hs => exact .pair (ha h.1) (hb h.2.1) (hs h.2.2)
  | proj x p hx => exact .proj (hx h)
  | letIn x erased ty val body hty hval hbody => exact .letIn (hty h.1) (hval h.2.1) (hbody h.2.2)
  | elim e m s cs hm hs hcs =>
    refine .elim (hm h.1) (hs h.2.1) rfl fun k c c' hc hc' => ?_
    obtain rfl := Option.some.inj (hc.symm.trans hc')
    have hmem := List.mem_of_getElem? hc
    exact hcs c hmem (Term.scopedAll_iff.1 h.2.2 c hmem)

/-- A property of all large amounts of fuel may be shown for those above a constant. -/
theorem eventually_of_add {P : Nat → Prop} (k : Nat) (h : ∀ᶠ f in atTop, P (f + k)) :
    ∀ᶠ f in atTop, P f := by
  rwa [← map_add_atTop_eq_nat k, eventually_map]

/-- With enough fuel, the term `u` has the value `w`, and this value is read back as `t`. -/
def Term.ComesBack (env : Env) (ms : MetaStore) (full : Bool) (n : Nat) (t u : Term) (w : Val) :
    Prop :=
  ∀ᶠ fuel in atTop, u.eval fuel env = .ok w ∧ w.quote fuel ms full n = .ok t

/-- If `v` is stuck, `w` is stuck on the same head under a spine of the same form. -/
def Val.StuckLike (M : MetaId → Prop) (full : Bool) : Val → Val → Prop
  | .neutral h sp, w => (∀ m, h = .metavar m → M m) ∧
      ∃ sp', w = .neutral h sp' ∧ List.Forall₂ (Elim.Alike fun _ _ => True) sp sp'
  | .glued x _ _, w => full = false → ∃ sp' base, w = .glued x sp' base
  | _, _ => True

section

variable {M : MetaId → Prop} {G : Name → Prop} {full : Bool} {n : Nat} {env : Env} {ms : MetaStore}

namespace Val.Grows

variable {v v' w w' : Val} {e e' : Elim} {fuel : Nat}

/-- An elimination that grows a value also grows what is stuck like it, unless a literal has come up
in the meantime. -/
theorem again (h : v.Grows full e v') (hlike : v.StuckLike M full w)
    (he : e.Alike (fun _ _ => True) e')
    (hliteral : ∀ k, e' = .app .expl (.nat k) → v ≠ .neutral (.prim .succ) []) :
    ∃ w', w.Grows full e' w' ∧ v'.StuckLike M full w' ∧ ∀ m sp, w = .neutral (.metavar m) sp →
      M m := by
  cases h with
  | @neutral h sp hblocked =>
    obtain ⟨hhead, sp', rfl, hsp⟩ := hlike
    have hblocked' : e'.Blocked h sp' := by
      cases he with
      | app =>
        rintro ⟨rfl, rfl, rfl, k, rfl⟩
        cases hsp
        exact hliteral k rfl rfl
      | proj => trivial
      | cases => exact Reduction.of_alike hsp _ h hblocked
    refine ⟨.neutral h (e' :: sp'), .neutral hblocked', ⟨hhead, e' :: sp', rfl, .cons he hsp⟩, ?_⟩
    rintro m _ ⟨⟩
    exact hhead m rfl
  | @glued x sp base hfolded =>
    obtain ⟨sp', base', rfl⟩ := hlike hfolded
    exact ⟨.glued x (e' :: sp') base', .glued hfolded, fun _ => ⟨e' :: sp', base', rfl⟩, by simp⟩

/-- An elimination that does not compute is only added. -/
theorem eliminate (h : w.Grows full e w') (fuel : Nat) : w.eliminate (fuel + 2) e = .ok w' := by
  cases h with
  | glued => rfl
  | @neutral h sp hblocked =>
    cases e with
    | app icit x => exact Val.eliminate_neutral_app hblocked
    | proj p => exact Val.eliminate_neutral_proj h sp p
    | cases e m cs =>
      have hstuck : Reduction.of e (.neutral h sp) = .stuck := hblocked
      rw [Val.eliminate_neutral_cases, Val.reduce, hstuck]
      rfl

/-- A value and the value that it grows to are read back around the same head. -/
theorem quote (h : w.Grows full e w')
    (hopen : ∀ m sp, w = .neutral (.metavar m) sp → ms.lookup m = none) :
    ∃ head sp, ∀ fuel, w.quote (fuel + 2) ms full n =
      (head >>= (Spine.quote (Val.quote (fuel + 1) ms full n) · sp)) ∧
      w'.quote (fuel + 2) ms full n =
        (head >>= (Spine.quote (Val.quote (fuel + 1) ms full n) · (e :: sp))) := by
  cases h with
  | @neutral h sp _ =>
    refine ⟨h.quote n, sp, fun fuel => ?_⟩
    rw [Val.quote, Val.quote, Val.forceMeta_open hopen, Val.forceMeta_open]
    · exact ⟨rfl, rfl⟩
    · rintro m _ ⟨⟩
      exact hopen m sp rfl
  | @glued x sp base hfolded =>
    subst hfolded
    exact ⟨.ok (.global x), sp, fun fuel => ⟨rfl, rfl⟩⟩

end Val.Grows

namespace Term.ComesBack

variable {t u : Term} {w : Val}

/-- What holds with enough fuel holds with more fuel still. -/
theorem add (h : t.ComesBack env ms full n u w) (k : Nat) :
    ∀ᶠ f in atTop, u.eval (f + k) env = .ok w ∧ w.quote (f + k) ms full n = .ok t :=
  (tendsto_add_atTop_nat k).eventually h

/-- A term under an elimination that does not compute comes back if the term does. -/
theorem grow {t' u' : Term} {w' : Val} {e : Elim} (hw : t.ComesBack env ms full n u w)
    (hgrows : w.Grows full e w') (hopen : ∀ m sp, w = .neutral (.metavar m) sp → ms.lookup m = none)
    (hu : ∀ᶠ f in atTop, u'.eval (f + 1) env = (u.eval f env >>= (Val.eliminate f · e)) ∧
      ∀ head sp, Spine.quote (Val.quote f ms full n) head sp = .ok t →
        Spine.quote (Val.quote f ms full n) head (e :: sp) = .ok t') : t'.ComesBack env ms
    full n u' w' := by
  obtain ⟨head, sp, hquote⟩ := hgrows.quote (n := n) hopen
  refine eventually_of_add 3 ?_
  filter_upwards [hw.add 2, hw.add 3, (tendsto_add_atTop_nat 2).eventually hu] with f h₂ h₃ hu
  constructor
  · rw [hu.1, h₂.1, ok_bind, hgrows.eliminate]
  · obtain ⟨thead, hhead, ht⟩ := bind_ok ((hquote (f + 1)).1.symm.trans h₃.2)
    rw [(hquote (f + 1)).2, hhead]
    exact hu.2 thead sp ht

/-- Lists of terms come back if their elements do. -/
theorem list {cs : List Val} {ts us : List Term} (hlength : cs.length = ts.length)
    (hlength' : ts.length = us.length)
    (h : ∀ (k : Nat) (c : Val) (t u : Term), cs[k]? = some c → ts[k]? = some t → us[k]? = some u →
      ∃ w, t.ComesBack env ms full n u w) :
    ∃ ws, List.Forall₂ (fun _ _ => True) cs ws ∧ ∀ᶠ f in atTop,
      us.mapM (Term.eval f env) = .ok ws ∧ ws.mapM (Val.quote f ms full n) = .ok ts := by
  induction cs generalizing ts us with
  | nil =>
    obtain rfl := List.length_eq_zero_iff.1 hlength.symm
    obtain rfl := List.length_eq_zero_iff.1 hlength'.symm
    exact ⟨[], .nil, .of_forall fun _ => ⟨rfl, rfl⟩⟩
  | cons c cs ih =>
    cases ts with
    | nil => simp at hlength
    | cons t ts =>
      cases us with
      | nil => simp at hlength'
      | cons u us =>
        obtain ⟨w, hw⟩ := h 0 c t u rfl rfl rfl
        obtain ⟨ws, hlist, hws⟩ := ih (by simpa using hlength) (by simpa using hlength')
          fun k d t' u' hd ht' hu' => h (k + 1) d t' u' hd ht' hu'
        refine ⟨w :: ws, .cons trivial hlist, ?_⟩
        filter_upwards [hw, hws] with f hw hws
        rw [List.mapM_cons, List.mapM_cons, hw.1, hws.1, hw.2, hws.2]
        exact ⟨rfl, rfl⟩

/-- Only a literal has a literal as its value and comes back. -/
theorem nat_eq {k : Nat} (h : t.ComesBack env ms full n u (.nat k)) : t = .nat k := by
  obtain ⟨f, hf⟩ := (h.add 2).exists
  exact (Except.ok.inj hf.2).symm

end Term.ComesBack

theorem Globals.global?_scopeEnv (g : Globals) (n : Nat) (x : Name) :
    (g.scopeEnv n).global? x = g.env.global? x := by
  induction n with
  | zero => rfl
  | succ n ih => exact ih

namespace Val.ReadsAs

/-- A primitive is read back as itself. -/
theorem prim_term {p : Prim} {t : Term} (h : (Val.neutral (.prim p) []).ReadsAs M G full n t) :
    t = .prim p := by
  cases h with
  | head hquoted _ =>
    cases hquoted
    rfl
  | app hgrows | proj hgrows | cases hgrows => cases hgrows

/-- What is read back is in scope. -/
theorem term_scoped {v : Val} {t : Term} (h : v.ReadsAs M G full n t) : t.Scoped n := by
  induction h with
  | type | nat | global => trivial
  | @head n h t hquoted _ =>
    cases h with
    | var l =>
      obtain ⟨i, hi, rfl⟩ := map_ok hquoted
      obtain ⟨-, hl, hi⟩ := Level.toIndex_eq_ok_iff.1 hi
      show i.toNat < n
      omega
    | prim p =>
      cases hquoted
      trivial
    | metavar m =>
      cases hquoted
      trivial
  | app _ _ _ ihf ihx => exact ⟨ihf, ihx⟩
  | proj _ _ ih => exact ih
  | cases _ _ _ hlength _ ihs ihm ihcs =>
    exact ⟨ihm, ihs, Term.scopedAll_iff.2 (forall_mem_branches hlength ihcs)⟩
  | unfold _ _ _ ih => exact ih
  | closure _ _ ihd ihb => exact ⟨ihd, ihb⟩
  | pair _ _ _ iha ihb ihs => exact ⟨iha, ihb, ihs⟩

variable (hM : ∀ m, M m → ms.lookup m = none)

include hM

/-- The head of a neutral value comes back from evaluating the term it was read back to. -/
theorem head_comesBack {h : Head} {t u : Term} (hquoted : h.quote n = .ok t)
    (hunsolved : ∀ m, h = .metavar m → M m) (hmoved : t.MovedTo n env u) :
    t.ComesBack env ms full n u (.neutral h []) := by
  refine eventually_of_add 2 (.of_forall fun f => ⟨?_, ?_⟩)
  · cases h with
    | prim p =>
      cases hquoted
      cases hmoved
      rfl
    | metavar m =>
      cases hquoted
      cases hmoved
      rfl
    | var l =>
      obtain ⟨i, hi, rfl⟩ := map_ok hquoted
      obtain ⟨-, hl, hi⟩ := Level.toIndex_eq_ok_iff.1 hi
      cases hmoved with
      | var hbound hfound =>
        have hlevel : n - 1 - i.toNat = l.toNat := by omega
        rw [hlevel] at hfound
        simp only [Term.eval, hfound]
        rfl
  · rw [Val.quote, Val.forceMeta_open, ok_bind]
    · simp only [hquoted, ok_bind]
      rfl
    · rintro m sp ⟨⟩
      exact hM m (hunsolved m rfl)

/-- **A normal form comes back**, unless it has the successor of a literal in it, and also if it was
moved. -/
theorem comesBack_of_movedTo {v : Val} {t u : Term} (h : v.ReadsAs M G full n t)
    (hG : full = false → ∀ x, G x → ∃ v, env.global? x = some v) (hplain : t.hasSuccLiteral = false)
    (hmoved : t.MovedTo n env u) : ∃ w, t.ComesBack env ms full n u w ∧ v.StuckLike M full w := by
  induction h generalizing env u with
  | type =>
    cases hmoved
    exact ⟨.type, eventually_of_add 2 (.of_forall fun _ => ⟨rfl, rfl⟩), trivial⟩
  | @nat n k =>
    cases hmoved
    exact ⟨.nat k, eventually_of_add 2 (.of_forall fun _ => ⟨rfl, rfl⟩), trivial⟩
  | @head n h t hquoted hunsolved =>
    exact ⟨.neutral h [], head_comesBack hM hquoted hunsolved hmoved, hunsolved, [], rfl, .nil⟩
  | @global n x base hfolded hknown =>
    cases hmoved
    obtain ⟨v, hv⟩ := hG hfolded x hknown
    subst hfolded
    refine ⟨.glued x [] v, eventually_of_add 2 (.of_forall fun _ => ⟨?_, rfl⟩),
      fun _ => ⟨[], v, rfl⟩⟩
    simp only [Term.eval, hv]
  | @app n v v' x icit t tx hgrows hfn harg ihf ihx =>
    simp only [Term.hasSuccLiteral, Bool.or_eq_false_iff] at hplain
    obtain ⟨⟨hsucc, hf⟩, hx⟩ := hplain
    cases hmoved with
    | app fn arg =>
      obtain ⟨w, hw, hlike⟩ := ihf hG hf fn
      obtain ⟨wx, hwx, -⟩ := ihx hG hx arg
      have hliteral : ∀ k, Elim.app icit wx = .app .expl (.nat k) →
          v ≠ .neutral (.prim .succ) [] := by
        rintro k hk rfl
        obtain ⟨rfl, rfl⟩ := Elim.app.inj hk
        obtain rfl := prim_term hfn
        obtain rfl := hwx.nat_eq
        simp [Term.isSuccLiteral] at hsucc
      obtain ⟨w', hgrows', hlike', hopen⟩ := hgrows.again hlike (.app trivial) hliteral
      refine ⟨w', hw.grow hgrows' (fun m sp h => hM m (hopen m sp h)) ?_, hlike'⟩
      filter_upwards [hwx] with f hx
      constructor
      · simp only [Term.eval, hx.1, ok_bind]
      · intro head sp ht
        rw [Spine.quote, ht, ok_bind, hx.2]
        rfl
  | @proj n v v' p t hgrows _ ih =>
    cases hmoved with
    | proj pair =>
      obtain ⟨w, hw, hlike⟩ := ih hG hplain pair
      obtain ⟨w', hgrows', hlike', hopen⟩ := hgrows.again hlike (.proj (p := p)) (by simp)
      refine ⟨w', hw.grow hgrows' (fun m sp h => hM m (hopen m sp h))
        (.of_forall fun f => ⟨rfl, ?_⟩), hlike'⟩
      intro head sp ht
      rw [Spine.quote, ht]
      rfl
  | @cases n v v' m e cs t tm ts hgrows _ _ hlength _ ihs ihm ihcs =>
    simp only [Term.hasSuccLiteral, Bool.or_eq_false_iff] at hplain
    obtain ⟨⟨hm, hs⟩, hcs⟩ := hplain
    cases hmoved with
    | @elim _ _ _ _ m' _ s' _ us motive scrut hlength' cases =>
      obtain ⟨w, hw, hlike⟩ := ihs hG hs scrut
      obtain ⟨wm, hwm, -⟩ := ihm hG hm motive
      have hback (k : Nat) (c : Val) (t u : Term) (hc : cs[k]? = some c) (ht : ts[k]? = some t)
          (hu : us[k]? = some u) : ∃ w, t.ComesBack env ms full n u w := by
        have hplain := Term.anySuccLiteral_eq_false.1 hcs t (List.mem_of_getElem? ht)
        exact (ihcs k c t hc ht hG hplain (cases k t u ht hu)).imp fun _ => And.left
      obtain ⟨ws, hlist, hws⟩ := Term.ComesBack.list hlength hlength' hback
      obtain ⟨w', hgrows', hlike', hopen⟩ :=
        hgrows.again hlike (.cases (m := m) (k := wm) trivial hlist) (by simp)
      refine ⟨w', hw.grow hgrows' (fun m sp h => hM m (hopen m sp h)) ?_, hlike'⟩
      filter_upwards [hwm, hws] with f hm hcs
      constructor
      · simp only [Term.eval, hm.1, hcs.1, ok_bind]
      · intro head sp ht
        rw [Spine.quote, ht, ok_bind, hm.2, ok_bind, hcs.2]
        rfl
  | unfold hfull _ _ ih =>
    obtain ⟨w, hw, -⟩ := ih hG hplain hmoved
    exact ⟨w, hw, fun hfolded => by simp [hfull] at hfolded⟩
  | @closure n c body tdom tbody _ _ ihd ihb =>
    simp only [Term.hasSuccLiteral, Bool.or_eq_false_iff] at hplain
    cases hmoved with
    | @bind _ _ _ _ udom _ ubody domain inner =>
      obtain ⟨wdom, hdom, -⟩ := ihd hG hplain.1 domain
      obtain ⟨wbody, hbody, -⟩ := @ihb (env.push (.fresh n)) _ hG hplain.2 inner
      -- The body is entered at the next variable, which is what the environment has for it.
      refine ⟨.closure ⟨c.binder, wdom, env, ubody⟩, eventually_of_add 2 ?_, trivial⟩
      filter_upwards [hdom.add 1, hbody.add 1] with f hdom hbody
      constructor
      · rw [Term.eval, hdom.1]
        rfl
      · have hentered : Closure.enter (f + 1) ⟨c.binder, wdom, env, ubody⟩ n = .ok wbody := hbody.1
        rw [Val.quote, Val.forceMeta_open (by simp), ok_bind]
        simp only [hdom.2, hentered, ok_bind, hbody.2]
        rfl
  | @pair n a b s ta tb ts _ _ _ iha ihb ihs =>
    simp only [Term.hasSuccLiteral, Bool.or_eq_false_iff] at hplain
    obtain ⟨⟨ha, hb⟩, hs⟩ := hplain
    cases hmoved with
    | pair fst snd sigma =>
      obtain ⟨wa, hwa, -⟩ := iha hG ha fst
      obtain ⟨wb, hwb, -⟩ := ihb hG hb snd
      obtain ⟨ws, hws, -⟩ := ihs hG hs sigma
      refine ⟨.pair wa wb ws, eventually_of_add 2 ?_, trivial⟩
      filter_upwards [hwa.add 1, hwb.add 1, hws.add 1] with f ha hb hs
      constructor
      · rw [Term.eval, ha.1, ok_bind, hb.1, ok_bind, hs.1]
        rfl
      · rw [Val.quote, Val.forceMeta_open (by simp), ok_bind]
        simp only [ha.2, hb.2, hs.2, ok_bind]
        rfl

/-- A normal form comes back where it was read back. -/
theorem comesBack {g : Globals} (hG : full = false → ∀ x, G x → ∃ v, g.env.global? x = some v)
    {v : Val} {t : Term} (h : v.ReadsAs M G full n t) (hplain : t.hasSuccLiteral = false) :
    ∃ w, t.ComesBack (g.scopeEnv n) ms full n t w ∧ v.StuckLike M full w := by
  refine h.comesBack_of_movedTo hM ?_ hplain (h.term_scoped.movedTo g)
  simpa only [g.global?_scopeEnv n] using hG

end Val.ReadsAs

variable {g : Globals}

theorem Globals.size_scopeEnv (g : Globals) (n : Nat) : (g.scopeEnv n).size = n := by
  induction n with
  | zero => rfl
  | succ n ih =>
    rw [Globals.scopeEnv, Env.size_push, ih]

/-- The variables of the environment of a scope are the fresh ones below its size. -/
theorem Globals.locals_scopeEnv (g : Globals) {n : Nat} {v : Val} (hv : v ∈ (g.scopeEnv n).locals) :
    ∃ l < n, v = .fresh l := by
  induction n with
  | zero => simp [scopeEnv, env] at hv
  | succ n ih =>
    rcases List.mem_cons.1 hv with rfl | hv
    · exact ⟨n, Nat.lt_succ_self n, rfl⟩
    · obtain ⟨l, hl, rfl⟩ := ih hv
      exact ⟨l, Nat.lt_succ_of_lt hl, rfl⟩

/-- A term that comes back is its own normal form. -/
theorem Term.ComesBack.normalize {t : Term} {w : Val}
    (h : t.ComesBack (g.scopeEnv n) ms full n t w) :
    ∃ fuel₀, ∀ fuel ≥ fuel₀, t.normalize fuel ms full (g.scopeEnv n) = .ok t := by
  obtain ⟨fuel₀, h⟩ := eventually_atTop.1 h
  refine ⟨fuel₀, fun fuel hfuel => ?_⟩
  rw [Term.normalize, (h fuel hfuel).1, g.size_scopeEnv]
  exact (h fuel hfuel).2

/-- A term is settled among variables that stand for themselves, if its metavariables and its
globals are as they should be. -/
theorem Term.settledIn_scopeEnv {t : Term}
    (hknown : ∀ x ∈ t.globals, ∀ v, g.env.global? x = some v → G x)
    (hunfolds : full = true → ∀ x ∈ t.globals, ∀ v, g.env.global? x = some v → v.Settled M G full)
    (hmetas : ∀ m ∈ t.metaOccurrences, M m) (n : Nat) : t.SettledIn M G full (g.scopeEnv n) where
  locals := by
    intro v hv
    obtain ⟨l, -, rfl⟩ := g.locals_scopeEnv hv
    exact .neutral (by simp) trivial (by simp [Spine.vals])
  known := by simpa only [g.global?_scopeEnv n] using hknown
  unfolds := by simpa only [g.global?_scopeEnv n] using hunfolds
  metas := hmetas

end

/-- **Folded normalization is idempotent**, whatever the globals stand for: among variables that
stand for themselves, the normal form of a term without solved metavariables is its own normal
form. -/
theorem Term.normalize_folded_idempotent {g : Globals} {ms : MetaStore} {n fuel : Nat} {t nf : Term}
    (hunsolved : ∀ m ∈ t.metaOccurrences, ms.lookup m = none)
    (h : t.normalize fuel ms false (g.scopeEnv n) = .ok nf) :
    ∃ fuel₀, ∀ fuel' ≥ fuel₀, nf.normalize fuel' ms false (g.scopeEnv n) = .ok nf := by
  obtain ⟨v, hv, hnf⟩ := bind_ok h
  rw [g.size_scopeEnv] at hnf
  have ht : t.SettledIn (ms.lookup · = none) (∃ v, g.env.global? · = some v) false (g.scopeEnv n) :=
    Term.settledIn_scopeEnv (fun x _ v hv => ⟨v, hv⟩) (by simp) hunsolved n
  have hreads := (ht.eval hv).readsAs (fun _ => id) hnf
  have hplain := hreads.hasSuccLiteral_eq_false (by simp)
  obtain ⟨w, hw, -⟩ := hreads.comesBack (g := g) (fun _ => id) (fun _ _ => id) hplain
  exact hw.normalize

/-- The function `\x. elimNat (\_. Nat) (S x) two (\m. \r. S r)` of an unsolved metavariable that is
applied to the only variable in scope: one step of the recursion is made, the rest is stuck, and the
global stays folded. -/
theorem Term.normalize_folded_idempotent_stuck :
    let g : Globals := .insert .empty "two" ⟨.nat 2, .nat 2, .prim .nat, false, none⟩
    let ms : MetaStore := MetaStore.empty.fresh.2
    let recursion (scrut : Term) : Term :=
      .elim .nat (.lam .expl "_" (.prim .nat) (.prim .nat)) scrut
      [.global "two", .lam .expl "m" (.prim .nat)
        (.lam .expl "r" (.prim .nat) (.app (.prim .succ) .expl (.var ⟨0⟩)))]
    let stuck : Term := .app (.metavar ⟨0⟩) .expl (.var ⟨0⟩)
    let t : Term := .app
      (.lam .expl "x" (.prim .nat) (recursion (.app (.prim .succ) .expl (.var ⟨0⟩)))) .expl stuck
    let nf : Term := .app (.prim .succ) .expl (recursion stuck)
    (∀ m ∈ t.metaOccurrences, ms.lookup m = none) ∧
      t.normalize 20 ms false (g.scopeEnv 1) = .ok nf ∧
      ∃ fuel₀, ∀ fuel' ≥ fuel₀, nf.normalize fuel' ms false (g.scopeEnv 1) = .ok nf := by
  intro g ms recursion stuck t nf
  have hunsolved : ∀ m ∈ t.metaOccurrences, ms.lookup m = none := List.forall_mem_singleton.2 rfl
  have h : t.normalize 20 ms false (g.scopeEnv 1) = .ok nf := rfl
  exact ⟨hunsolved, h, Term.normalize_folded_idempotent hunsolved h⟩

end Elaborator
