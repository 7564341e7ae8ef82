import Elaborator.Primitive
import Elaborator.Proofs.Renumber.Text
import Elaborator.Proofs.ValueMaps
import Elaborator.Unify.Solution
import Elaborator.Zonk

/-! # Computing with other numbers

Evaluation, forcing and reading back commute with renumbering: a computation on renumbered values
gives the renumbered answer, or the same fault. They look at a metavariable only to ask for its
solution, so all that is needed of the store is that solutions are renumbered as well
(`MetaStore.Follows`). -/

namespace Elaborator

section

variable {d fuel : Nat}

/-! ## Evaluation -/

theorem Elim.renumber_eq (e : Elim) : e.renumber d = e.map (Val.renumber d) := by
  cases e with
  | app | proj => rfl
  | cases e m cs => exact Elim.renumber_cases e m cs

theorem Spine.renumber_eq_map (sp : Spine) :
    sp.map (Elim.renumber d) = sp.map (Elim.map (Val.renumber d)) :=
  List.map_congr_left fun e _ => Elim.renumber_eq e

def Val.renumbering (d : Nat) : EvalMap where
  val := Val.renumber d
  term := Term.renumber d
  level := id
  metavar := MetaId.renumber d
  base := Val.renumber d
  val_type := rfl
  val_nat _ := rfl
  val_neutral h sp := by
    rw [Val.renumber_neutral, Spine.renumber_eq_map]
    cases h <;> rfl
  val_glued x sp base := by rw [Val.renumber_glued, Spine.renumber_eq_map]
  val_closure := Val.renumber_closure
  val_pair _ _ _ := rfl
  term_type := rfl
  term_var _ := rfl
  term_global _ := rfl
  term_metavar _ := rfl
  term_prim _ := rfl
  term_nat _ := rfl
  term_app _ _ _ := rfl
  term_bind _ _ _ := rfl
  term_pair _ _ _ := rfl
  term_proj _ _ := rfl
  term_letIn _ _ _ _ _ := rfl
  term_elim e m s cs :=
    congrArg (Term.elim e (m.renumber d) (s.renumber d)) (Term.renumberAll_eq d cs)

/-- Evaluating a renumbered term in a renumbered environment gives the renumbered value. -/
@[simp] theorem Term.eval_renumber (env : Env) (t : Term) :
    (t.renumber d).eval fuel (env.renumber d) = Val.renumber d <$> t.eval fuel env :=
  ((Val.renumbering d).commutes fuel).eval env t

theorem Val.eliminate_renumber (v : Val) (e : Elim) :
    (v.renumber d).eliminate fuel (e.renumber d) = Val.renumber d <$> v.eliminate fuel e := by
  rw [Elim.renumber_eq]
  exact ((Val.renumbering d).commutes fuel).eliminate v e

@[simp] theorem Val.eliminate_app_renumber (v : Val) (icit : Icit) (x : Val) :
    (v.renumber d).eliminate fuel (.app icit (x.renumber d)) =
      Val.renumber d <$> v.eliminate fuel (.app icit x) :=
  Val.eliminate_renumber v (.app icit x)

@[simp] theorem Val.eliminate_proj_renumber (v : Val) (p : Proj) :
    (v.renumber d).eliminate fuel (.proj p) = Val.renumber d <$> v.eliminate fuel (.proj p) :=
  Val.eliminate_renumber v (.proj p)

@[simp] theorem Val.eliminate_cases_renumber (v : Val) (e : Eliminator) (m : Val) (cs : List Val) :
    (v.renumber d).eliminate fuel (.cases e (m.renumber d) (cs.map (Val.renumber d))) =
      Val.renumber d <$> v.eliminate fuel (.cases e m cs) :=
  ((Val.renumbering d).commutes fuel).eliminate v (.cases e m cs)

@[simp] theorem Val.apply_renumber (f x : Val) :
    (f.renumber d).apply fuel (x.renumber d) = Val.renumber d <$> f.apply fuel x :=
  Val.eliminate_app_renumber f .expl x

@[simp] theorem Val.applySpine_renumber (v : Val) (sp : Spine) :
    (v.renumber d).applySpine fuel (sp.map (Elim.renumber d)) =
      Val.renumber d <$> v.applySpine fuel sp := by
  rw [Spine.renumber_eq_map]
  exact (Val.renumbering d).applySpine fuel v sp

@[simp] theorem Closure.apply_renumber (c : Closure) (x : Val) :
    (c.renumber d).apply fuel (x.renumber d) = Val.renumber d <$> c.apply fuel x :=
  Term.eval_renumber (c.env.push x) c.body

@[simp] theorem Closure.enter_renumber (c : Closure) (n : Nat) :
    (c.renumber d).enter fuel n = Val.renumber d <$> c.enter fuel n :=
  Closure.apply_renumber c (.fresh n)

end

/-! ## Forcing and reading back -/

/-- The solutions in the second store are the renumbered solutions in the first one. -/
def MetaStore.Follows (d : Nat) (ms ms' : MetaStore) : Prop :=
  ∀ m, ms'.lookup (m.renumber d) = (ms.lookup m).map (Val.renumber d)

section

variable {d : Nat} {ms ms' : MetaStore}

/-- Forcing a renumbered value by renumbered solutions gives the renumbered result. -/
theorem Val.forceMeta_renumber (h : ms.Follows d ms') (fuel : Nat) (v : Val) :
    (v.renumber d).forceMeta fuel ms' = Val.renumber d <$> v.forceMeta fuel ms := by
  induction fuel generalizing v with
  | zero => rfl
  | succ fuel ih =>
    cases v with
    | neutral k sp =>
      cases k with
      | metavar m =>
        simp only [Val.renumber_neutral, Head.renumber, Val.forceMeta, h m]
        cases ms.lookup m with
        | none => simp
        | some v => simp [ih]
      | var | prim => rfl
    | closure c =>
      rw [Val.renumber_closure]
      exact congrArg Except.ok (Val.renumber_closure c).symm
    | type | glued | pair | nat => rfl

theorem Val.force_renumber (h : ms.Follows d ms') (fuel : Nat) (v : Val) :
    (v.renumber d).force fuel ms' = Val.renumber d <$> v.force fuel ms := by
  induction fuel generalizing v with
  | zero => rfl
  | succ fuel ih =>
    have hmeta := Val.forceMeta_renumber h fuel v
    cases v with
    | glued x sp base => simp [Val.force, ih]
    | type | neutral | closure | pair | nat =>
      simp only [Val.renumber_type, Val.renumber_neutral, Val.renumber_closure, Val.renumber_pair,
        Val.renumber_nat] at hmeta ⊢
      simp only [Val.force, hmeta]
      generalize Val.forceMeta fuel ms _ = r
      cases r with
      | error f => rfl
      | ok w =>
        -- What is found may be a global, which is unfolded in the next round.
        cases w with
        | glued x sp base => exact ih (.glued x sp base)
        | closure c => simp [bind, Except.bind]
        | type | neutral | pair | nat => rfl

theorem Head.quote_renumber (n : Nat) (k : Head) :
    (k.renumber d).quote n = Term.renumber d <$> k.quote n := by
  cases k with
  | var l => simp [Head.quote]
  | prim | metavar => rfl

theorem Spine.quote_renumber {quote quote' : Val → Except Fault Term}
    (h : ∀ v, quote' (v.renumber d) = Term.renumber d <$> quote v) (head : Term) (sp : Spine) :
    Spine.quote quote' (head.renumber d) (sp.map (Elim.renumber d)) =
      Term.renumber d <$> Spine.quote quote head sp := by
  induction sp with
  | nil => rfl
  | cons e sp ih =>
    cases e with
    | app icit x => simp [Spine.quote, ih, h]
    | proj p => simp [Spine.quote, ih]
    | cases e m cs =>
      have hcases := mapM_map_of_mem fun c (_ : c ∈ cs) => h c
      simp [Spine.quote, ih, h, hcases]

/-- A renumbered value reads back to the renumbered term. -/
theorem Val.quote_renumber (h : ms.Follows d ms') (fuel : Nat) (full : Bool) (n : Nat) (v : Val) :
    (v.renumber d).quote fuel ms' full n = Term.renumber d <$> v.quote fuel ms full n := by
  induction fuel generalizing n v with
  | zero => rfl
  | succ fuel ih =>
    simp only [Val.quote, Val.forceMeta_renumber h]
    cases v.forceMeta fuel ms with
    | error f => rfl
    | ok w =>
      simp only [Except.map_ok, ok_bind]
      cases w with
      | type | nat => rfl
      | neutral k sp => simp [Head.quote_renumber, Spine.quote_renumber (ih n)]
      | glued x sp base =>
        have hforce := Val.force_renumber h fuel (.glued x sp base)
        have hspine := Spine.quote_renumber (ih n) (.global x) sp
        rw [Val.renumber_glued] at hforce
        cases full with
        | true => simp [hforce, ih]
        | false => simpa using hspine
      | closure c => simp [ih]
      | pair a b s => simp [ih]

/-- The text of a renumbered value is the renumbered text. -/
theorem Val.text_renumber (h : ms.Follows d ms') (fuel : Nat) (names : List Name) (v : Val) :
    (v.renumber d).text fuel ms' names = MarkedText.renumber d <$> v.text fuel ms names := by
  simp only [Val.text, Val.quote_renumber h]
  cases v.quote fuel ms false names.length with
  | error f => rfl
  | ok t => exact t.text_renumber names

/-! ## Zonking -/

def Zonked.renumber (d : Nat) : Zonked → Zonked
  | .solved v => .solved (v.renumber d)
  | .term t => .term (t.renumber d)

@[simp] theorem Zonked.renumber_solved (v : Val) :
    (Zonked.solved v).renumber d = .solved (v.renumber d) := rfl

@[simp] theorem Zonked.renumber_term (t : Term) :
    (Zonked.term t).renumber d = .term (t.renumber d) := rfl

theorem Zonked.toTerm_renumber (h : ms.Follows d ms') (fuel n : Nat) (z : Zonked) :
    (z.renumber d).toTerm fuel ms' n = Term.renumber d <$> z.toTerm fuel ms n := by
  cases z with
  | solved v => exact Val.quote_renumber h fuel false n v
  | term t => rfl

namespace Term

/-- Zonking a renumbered term by renumbered solutions gives the renumbered result. -/
theorem zonkHead_renumber (h : ms.Follows d ms') (fuel : Nat) (env : Env) (t : Term) :
    (t.renumber d).zonkHead fuel ms' (env.renumber d) =
      Zonked.renumber d <$> t.zonkHead fuel ms env := by
  have htoTerm := fun n z => Zonked.toTerm_renumber h fuel n z
  induction t generalizing env with
  | type | var | global | prim | nat => rfl
  | metavar m =>
    simp only [renumber, zonkHead, h m]
    cases ms.lookup m <;> rfl
  | app f icit x hf hx =>
    simp only [renumber, zonkHead, hf]
    cases f.zonkHead fuel ms env with
    | error e => rfl
    | ok z =>
      simp only [Except.map_ok, ok_bind]
      cases z with
      | solved v => simp
      | term f => simp [hx, htoTerm]
  | proj x p hx =>
    simp only [renumber, zonkHead, hx]
    cases x.zonkHead fuel ms env with
    | error e => rfl
    | ok z => cases z <;> simp [ok_bind]
  | bind b dom body hd hb =>
    have hbody := hb (env.push (.fresh env.size))
    simp only [Env.renumber_push, Val.renumber_fresh] at hbody
    simp [zonkHead, hd, hbody, htoTerm]
  | pair a b s ha hb hs => simp [zonkHead, ha, hb, hs, htoTerm]
  | letIn x erased ty val body ht hv hb =>
    have hbody := hb (env.push (.fresh env.size))
    simp only [Env.renumber_push, Val.renumber_fresh] at hbody
    simp [zonkHead, ht, hv, hbody, htoTerm]
  | elim e m s cs hm hs hcs =>
    have hall : zonkAll fuel ms' (env.renumber d) (cs.map (renumber d)) =
        List.map (renumber d) <$> zonkAll fuel ms env cs := by
      induction cs with
      | nil => rfl
      | cons c cs ih =>
        obtain ⟨hc, hcs⟩ := List.forall_mem_cons.1 hcs
        simp [zonkAll, hc, ih hcs, htoTerm]
    simp only [renumber, zonkHead, renumberAll_eq, hall, hm, hs, htoTerm, Env.size_renumber,
      bind_map_left, map_bind]
    refine bind_congr fun zm => bind_congr fun motive => bind_congr fun cases =>
      bind_congr fun zs => ?_
    cases zs with
    | solved v =>
      have hcases := mapM_map_of_mem fun c (_ : c ∈ cases) => @Term.eval_renumber d fuel env c
      simp [hcases, Val.quote_renumber h]
    | term scrut => simp

/-- Zonking commutes with renumbering. -/
theorem zonk_renumber (h : ms.Follows d ms') (fuel : Nat) (env : Env) (t : Term) :
    (t.renumber d).zonk fuel ms' (env.renumber d) = renumber d <$> t.zonk fuel ms env := by
  simp [zonk, zonkHead_renumber h, Zonked.toTerm_renumber h]

end Term

/-! ## Parameters of a metavariable -/

/-- Parameters are variables, so they stay as they are. -/
theorem Spine.params?_renumber (h : ms.Follows d ms') (fuel : Nat) (sp : Spine) :
    Spine.params? fuel ms' (sp.map (Elim.renumber d)) = Spine.params? fuel ms sp := by
  induction sp with
  | nil => rfl
  | cons e sp ih =>
    simp only [List.map_cons, Spine.params?, ih]
    cases Spine.params? fuel ms sp with
    | error f => rfl
    | ok ps =>
      cases ps with
      | none => rfl
      | some ps =>
        cases e with
        | app icit x =>
          simp only [ok_bind, Elim.renumber_app, Val.force_renumber h]
          cases x.force fuel ms with
          | error f => rfl
          | ok w =>
            cases w with
            | neutral k sp => cases k <;> cases sp <;> rfl
            | closure c => simp [ok_bind]
            | type | glued | pair | nat => rfl
        | proj | cases => rfl

end

/-! ## Types of the primitives -/

section

variable {d fuel : Nat}

/-- The types of primitives mention no metavariables. -/
@[simp] theorem Prim.type_renumber (p : Prim) : p.type.renumber d = p.type := by
  cases p <;> rfl

def Equation.renumber (d : Nat) (q : Equation) : Equation :=
  ⟨q.lhsTy.renumber d, q.rhsTy.renumber d, q.lhs.renumber d, q.rhs.renumber d⟩

def Signature.renumber (d : Nat) (sig : Signature) : Signature :=
  ⟨sig.motiveTy.renumber d, sig.caseTys.map (Val.renumber d), sig.result.renumber d⟩

theorem Equation.ofType?_renumber (v : Val) :
    Equation.ofType? (v.renumber d) = (Equation.ofType? v).map (Equation.renumber d) := by
  cases v with
  | neutral k sp =>
    cases k with
    | prim p =>
      cases p with
      | heq =>
        -- Only four arguments make an equation.
        rcases sp with _ | ⟨e₁, _ | ⟨e₂, _ | ⟨e₃, _ | ⟨e₄, _ | ⟨e₅, sp⟩⟩⟩⟩⟩
        · rfl
        · cases e₁ <;> rfl
        · cases e₁ <;> cases e₂ <;> rfl
        · cases e₁ <;> cases e₂ <;> cases e₃ <;> rfl
        · cases e₁ <;> cases e₂ <;> cases e₃ <;> cases e₄ <;> rfl
        · cases e₁ <;> cases e₂ <;> cases e₃ <;> cases e₄ <;> rfl
      | _ => rfl
    | var | metavar => rfl
  | closure c => rw [Val.renumber_closure]; rfl
  | type | glued | pair | nat => rfl

namespace Eliminator

theorem scrutTy?_renumber (e : Eliminator) {ty : Val} (h : e.scrutTy? = some ty) :
    ty.renumber d = ty := by
  cases e <;> cases h <;> rfl

theorem motiveTy_renumber (e : Eliminator) (q : Option Equation) :
    e.motiveTy (q.map (Equation.renumber d)) = Val.renumber d <$> e.motiveTy q := by
  cases q <;> cases e <;> rfl

theorem caseTys_renumber (e : Eliminator) (motive : Val) (q : Option Equation) :
    e.caseTys fuel (motive.renumber d) (q.map (Equation.renumber d)) =
      List.map (Val.renumber d) <$> e.caseTys fuel motive q := by
  have happly (p x : Val) : (p.renumber d).apply fuel (x.renumber d) =
      Val.renumber d <$> p.apply fuel x :=
    Val.apply_renumber p x
  have htrue := happly motive (.prim .true)
  have hfalse := happly motive (.prim .false)
  have hzero := happly motive (.nat 0)
  simp only [Val.renumber_prim, Val.renumber_nat] at htrue hfalse hzero
  cases e with
  | void => rfl
  | bool => simp [caseTys, htrue, hfalse]
  | nat =>
    simp only [caseTys, hzero, bind_map_left, map_bind, map_pure]
    rfl
  | heq =>
    cases q with
    | none => rfl
    | some q =>
      have hrefl (p : Val) :=
        happly p (.neutral (.prim .refl) [.app .impl q.lhs, .app .impl q.lhsTy])
      simp only [Val.renumber_neutral, Head.renumber_prim, List.map_cons, List.map_nil,
        Elim.renumber_app] at hrefl
      simp [caseTys, Equation.renumber, hrefl]

theorem resultTy_renumber (e : Eliminator) (motive scrut : Val) (q : Option Equation) :
    e.resultTy fuel (motive.renumber d) (scrut.renumber d) (q.map (Equation.renumber d)) =
      Val.renumber d <$> e.resultTy fuel motive scrut q := by
  cases e with
  | heq =>
    cases q with
    | none => simp [resultTy]
    | some q => simp [resultTy, Equation.renumber]
  | void | bool | nat => simp [resultTy]

/-- The signature of an eliminator renumbers with its motive, its scrutinee and its equation. -/
theorem signature_renumber (e : Eliminator) (motive scrut : Val) (q : Option Equation) :
    e.signature fuel (motive.renumber d) (scrut.renumber d) (q.map (Equation.renumber d)) =
      Signature.renumber d <$> e.signature fuel motive scrut q := by
  simp [signature, caseTys_renumber, resultTy_renumber, motiveTy_renumber, Signature.renumber]

end Eliminator

end

/-! ## Values without metavariables

A value that renumbering does not change mentions no metavariables, and by the lemmas above neither
does what is computed from it. So the store is never asked for a solution. -/

def Val.Fixed (v : Val) : Prop := ∀ d, v.renumber d = v

section

variable {fuel : Nat} {v : Val}

/-- An answer that does not depend on the numbers mentions none. -/
theorem fixed_of_ok {r : Except Fault Val} (h : ∀ d, Val.renumber d <$> r = r) {w : Val}
    (hw : r = .ok w) : w.Fixed := by
  intro d
  have hd := h d
  rw [hw] at hd
  exact Except.ok.inj hd

theorem Spine.fixed_of_map {sp : Spine} (h : ∀ d, sp.map (Elim.renumber d) = sp) :
    ∀ u ∈ Spine.vals sp, u.Fixed := by
  intro u hu d
  obtain ⟨e, he, hu⟩ := List.mem_flatMap.1 hu
  have hself : sp.map (Elim.renumber d) = sp.map id := (h d).trans (List.map_id sp).symm
  have hfix : e.renumber d = e := List.map_eq_map_iff.1 hself e he
  cases e with
  | app icit x =>
    rw [List.mem_singleton.1 hu]
    simpa using hfix
  | proj p => cases hu
  | cases e m cs =>
    rw [Elim.renumber_cases, Elim.cases.injEq] at hfix
    obtain ⟨-, hm, hcs⟩ := hfix
    rcases List.mem_cons.1 hu with rfl | hu
    · exact hm
    · exact List.map_eq_map_iff.1 (hcs.trans (List.map_id cs).symm) u hu

theorem MetaStore.follows_empty (d : Nat) : MetaStore.empty.Follows d .empty := fun _ => rfl

namespace Val.Fixed

/-- There is no metavariable at the head, so the store is not looked at. -/
theorem forceMeta_eq (h : v.Fixed) (fuel : Nat) :
    (∀ ms, v.forceMeta fuel ms = .ok v) ∨ ∃ f, ∀ ms, v.forceMeta fuel ms = .error f := by
  cases fuel with
  | zero => exact .inr ⟨.outOfFuel, fun _ => rfl⟩
  | succ fuel =>
    refine .inl fun ms => ?_
    cases v with
    | neutral k sp =>
      cases k with
      | metavar m =>
        have hm := h 1
        simp [MetaId.renumber_one_ne] at hm
      | var | prim => rfl
    | type | glued | closure | pair | nat => rfl

theorem parts_glued {x : Name} {sp : Spine} {base : Val} (h : (Val.glued x sp base).Fixed) :
    (∀ d, sp.map (Elim.renumber d) = sp) ∧ base.Fixed := by
  simp only [Val.Fixed, Val.renumber_glued, Val.glued.injEq, true_and] at h
  exact forall_and.1 h

theorem parts_closure {c : Closure} (h : (Val.closure c).Fixed) : ∀ d, c.renumber d = c := by
  simpa only [Val.Fixed, Val.renumber_closure, Val.closure.injEq] using h

/-- The solutions do not matter for a value that renumbering fixes, since it has no metavariable. -/
theorem force_eq (h : v.Fixed) (ms ms' : MetaStore) : v.force fuel ms = v.force fuel ms' := by
  induction fuel generalizing v with
  | zero => rfl
  | succ fuel ih =>
    cases v with
    | glued x sp base =>
      obtain ⟨hsp, hbase⟩ := h.parts_glued
      simp only [Val.force]
      cases hw : base.applySpine fuel sp with
      | error f => rfl
      | ok w =>
        refine ih (fixed_of_ok (fun d => ?_) hw)
        rw [← Val.applySpine_renumber, hsp, hbase]
    | type | neutral | closure | pair | nat =>
      rcases h.forceMeta_eq fuel with hv | ⟨f, hv⟩
      · simp only [Val.force, hv, ok_bind]
      · simp only [Val.force, hv]
        rfl

theorem force {w : Val} {ms : MetaStore} (h : v.Fixed) (hw : v.force fuel ms = .ok w) :
    w.Fixed := by
  rw [h.force_eq ms .empty] at hw
  refine fixed_of_ok (fun d => ?_) hw
  rw [← Val.force_renumber (MetaStore.follows_empty d), h d]

/-- A value without metavariables is read back in the same way, whatever is known about
metavariables. -/
theorem quote_eq (h : v.Fixed) (full : Bool) (n : Nat) (ms ms' : MetaStore) :
    v.quote fuel ms full n = v.quote fuel ms' full n := by
  induction fuel generalizing v n with
  | zero => rfl
  | succ fuel ih =>
    rcases h.forceMeta_eq fuel with hv | ⟨f, hv⟩
    · simp only [Val.quote, hv, ok_bind]
      cases v with
      | type | nat => rfl
      | neutral k sp =>
        simp only [Val.Fixed, Val.renumber_neutral, Val.neutral.injEq] at h
        have hsp := Spine.fixed_of_map fun d => (h d).2
        exact bind_congr fun head => Spine.quote_congr fun u hu => ih (hsp u hu) n
      | glued x sp base =>
        dsimp only
        split
        · rw [h.force_eq ms ms']
          cases hw : (Val.glued x sp base).force fuel ms' with
          | error f => rfl
          | ok w => exact ih (h.force hw) n
        · exact Spine.quote_congr fun u hu => ih (Spine.fixed_of_map h.parts_glued.1 u hu) n
      | closure c =>
        have hc := h.parts_closure
        have hdom : c.dom.Fixed := fun d => congrArg Closure.dom (hc d)
        dsimp only
        rw [ih hdom n]
        cases hbody : c.enter fuel n with
        | error f => rfl
        | ok body =>
          have hfixed : body.Fixed :=
            fixed_of_ok (fun d => by rw [← Closure.enter_renumber, hc]) hbody
          simp only [ok_bind, ih hfixed (n + 1)]
      | pair a b s =>
        simp only [Val.Fixed, Val.renumber_pair, Val.pair.injEq] at h
        dsimp only
        rw [ih (fun d => (h d).1) n, ih (fun d => (h d).2.1) n, ih (fun d => (h d).2.2) n]
    · simp only [Val.quote, hv]
      rfl

end Val.Fixed

theorem Term.eval_fixed {env : Env} (henv : ∀ d, env.renumber d = env) {t : Term}
    (ht : t.metaOccurrences = []) (hv : t.eval fuel env = .ok v) : v.Fixed :=
  fixed_of_ok (fun d => by rw [← Term.eval_renumber, henv, Term.renumber_of_metaFree ht]) hv

/-- The normal form of a term without metavariables has nothing to do with what is known about
metavariables. -/
theorem Term.normalize_eq (fuel : Nat) {env : Env} (henv : ∀ d, env.renumber d = env) {t : Term}
    (ht : t.metaOccurrences = []) (full : Bool) (ms ms' : MetaStore) :
    t.normalize fuel ms full env = t.normalize fuel ms' full env := by
  rw [Term.normalize, Term.normalize]
  cases hv : t.eval fuel env with
  | error f => rfl
  | ok v => exact (Term.eval_fixed henv ht hv).quote_eq full env.size ms ms'

end

end Elaborator
