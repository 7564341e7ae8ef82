import Elaborator.Proofs.Pattern.Solve
import Elaborator.Proofs.Renaming

/-! # Which pattern problems are solved

A right-hand side is read back with globals folded, and the two checks look at that term. So a
problem is refused as soon as the folded term depends on a variable that is no parameter, even if
the variable is in an argument that a global ignores: unfolded, the right-hand side would not depend
on it. What the two checks refuse depends on the offending variable in this sense, and every other
problem is solved.

Without arguments there is nothing to abstract over, and the solution is evaluated at once. It is a
normal form, so nothing computes, except that the successor of a metavariable may have become the
successor of a literal (`Term.numeral?`). -/

namespace Elaborator

open Filter Elaborator.Action

/-! ## Numerals -/

namespace Term

/-- The literal that a term computes to if it is made of successors of a literal. -/
def numeral? : Term → Option Nat
  | .nat k => some k
  | .app (.prim .succ) .expl t => t.numeral?.map (· + 1)
  | _ => none

mutual

/-- Whether the numerals in a term are below the limit and are not used like a function, a pair or a
case, as in a term that has a type. -/
def numeralsFit : Term → Bool
  | .type | .var _ | .global _ | .metavar _ | .prim _ | .nat _ => true
  | .app f icit x =>
    f.numeral?.isNone && f.numeralsFit && x.numeralsFit &&
      (Term.app f icit x).numeral?.all (· < numeralLimit)
  | .bind _ dom body => dom.numeralsFit && body.numeralsFit
  | .pair a b s => a.numeralsFit && b.numeralsFit && s.numeralsFit
  | .proj x _ => x.numeral?.isNone && x.numeralsFit
  | .letIn _ _ ty val body => ty.numeralsFit && val.numeralsFit && body.numeralsFit
  | .elim _ motive scrut cases =>
    scrut.numeral?.isNone && motive.numeralsFit && scrut.numeralsFit && allNumeralsFit cases

def allNumeralsFit : List Term → Bool
  | [] => true
  | t :: ts => t.numeralsFit && allNumeralsFit ts

end

theorem allNumeralsFit_eq_true {ts : List Term} :
    allNumeralsFit ts = true ↔ ∀ t ∈ ts, t.numeralsFit = true := by
  induction ts with
  | nil => simp [allNumeralsFit]
  | cons t ts ih => simp [allNumeralsFit, ih]

/-- The globals that the term mentions are known and its numerals fit. -/
structure Usable (g : Globals) (t : Term) : Prop where
  known : ∀ x ∈ t.globals, ∃ v, g.env.global? x = some v
  numerals : t.numeralsFit = true

def HasValue (env : Env) (t : Term) (v : Val) : Prop := ∀ᶠ fuel in atTop, t.eval fuel env = .ok v

theorem HasValue.add {env : Env} {t : Term} {v : Val} (h : t.HasValue env v) (k : Nat) :
    ∀ᶠ fuel in atTop, t.eval (fuel + k) env = .ok v :=
  (tendsto_add_atTop_nat k).eventually h

namespace Usable

variable {g : Globals}

/-- A usable application has a usable function, which is no numeral, and a usable argument. -/
theorem app {f x : Term} {icit : Icit} (h : (Term.app f icit x).Usable g) :
    f.numeral? = none ∧ f.Usable g ∧ x.Usable g ∧ ∀ k, (Term.app f icit x).numeral? = some k →
      k < numeralLimit := by
  obtain ⟨hf, hx⟩ := List.forall_mem_append.1 h.known
  have hfit := h.numerals
  simp only [numeralsFit, Bool.and_eq_true, Option.isNone_iff_eq_none, Option.all_eq_true,
    decide_eq_true_eq] at hfit
  obtain ⟨⟨⟨hnone, hf'⟩, hx'⟩, hlimit⟩ := hfit
  exact ⟨hnone, ⟨hf, hf'⟩, ⟨hx, hx'⟩, hlimit⟩

theorem proj {x : Term} {p : Proj} (h : (Term.proj x p).Usable g) :
    x.numeral? = none ∧ x.Usable g := by
  have hfit := h.numerals
  simp only [numeralsFit, Bool.and_eq_true, Option.isNone_iff_eq_none] at hfit
  exact ⟨hfit.1, h.known, hfit.2⟩

/-- A usable eliminator has usable parts and a scrutinee that is no numeral. -/
theorem elim {e : Eliminator} {motive scrut : Term} {cases : List Term}
    (h : (Term.elim e motive scrut cases).Usable g) :
    scrut.numeral? = none ∧ motive.Usable g ∧ scrut.Usable g ∧ ∀ c ∈ cases, c.Usable g := by
  obtain ⟨hms, hcs⟩ := List.forall_mem_append.1 h.known
  obtain ⟨hm, hs⟩ := List.forall_mem_append.1 hms
  have hfit := h.numerals
  simp only [numeralsFit, Bool.and_eq_true, Option.isNone_iff_eq_none,
    allNumeralsFit_eq_true] at hfit
  obtain ⟨⟨⟨hnone, hm'⟩, hs'⟩, hcs'⟩ := hfit
  refine ⟨hnone, ⟨hm, hm'⟩, ⟨hs, hs'⟩, fun c hc => ⟨fun x hx => hcs x ?_, hcs' c hc⟩⟩
  rw [globalsAll_eq]
  exact List.mem_flatMap.2 ⟨c, hc, hx⟩

theorem bind {b : Binder} {dom body : Term} (h : (Term.bind b dom body).Usable g) :
    dom.Usable g := by
  have hfit := h.numerals
  simp only [numeralsFit, Bool.and_eq_true] at hfit
  exact ⟨(List.forall_mem_append.1 h.known).1, hfit.1⟩

theorem pair {a b s : Term} (h : (Term.pair a b s).Usable g) :
    a.Usable g ∧ b.Usable g ∧ s.Usable g := by
  obtain ⟨hab, hs⟩ := List.forall_mem_append.1 h.known
  obtain ⟨ha, hb⟩ := List.forall_mem_append.1 hab
  have hfit := h.numerals
  simp only [numeralsFit, Bool.and_eq_true] at hfit
  exact ⟨⟨ha, hfit.1.1⟩, ⟨hb, hfit.1.2⟩, ⟨hs, hfit.2⟩⟩

end Usable

end Term

/-! ## Normal forms have values -/

section

variable {g : Globals} {Q : Val → Term → Prop} {env : Env}
  (hQ : ∀ {v u}, Q v u → u.Usable g → ∃ w, u.HasValue env w ∧ ∀ k, w = .nat k → u.numeral? = some k)

include hQ

/-- Usable terms have values, all of them with the same amount of fuel. -/
theorem hasValues {cs : List Val} {ts : List Term} (h : List.Forall₂ Q cs ts)
    (hts : ∀ t ∈ ts, t.Usable g) :
    ∃ ws, List.Forall₂ (fun _ _ => True) cs ws ∧ ∀ᶠ fuel in atTop,
      ts.mapM (Term.eval fuel env) = .ok ws := by
  induction h with
  | nil => exact ⟨[], .nil, .of_forall fun _ => rfl⟩
  | cons hc _ ih =>
    obtain ⟨ht, hts⟩ := List.forall_mem_cons.1 hts
    obtain ⟨w, hw, -⟩ := hQ hc ht
    obtain ⟨ws, hlist, hws⟩ := ih hts
    refine ⟨w :: ws, .cons trivial hlist, ?_⟩
    filter_upwards [hw, hws] with fuel hw hws
    rw [List.mapM_cons, hw, ok_bind, hws]
    rfl

omit hQ in
/-- What is no numeral has no literal as its value. -/
theorem Term.HasValue.of_not_numeral {t : Term} {P : Val → Prop}
    (h : ∃ w, t.HasValue env w ∧ (P w ∨ ∃ k, w = .nat k ∧ t.numeral? = some k))
    (hnone : t.numeral? = none) : ∃ w, t.HasValue env w ∧ P w := by
  obtain ⟨w, hw, hP | ⟨k, -, hk⟩⟩ := h
  · exact ⟨w, hw, hP⟩
  · rw [hnone] at hk
    cases hk

/-- A spine is evaluated from the inside out. Nothing that was blocked computes, except for the
successor of what has become a literal. `F` puts a spine under its head. -/
theorem Spine.WrittenAs.hasValue {F : Spine → Val} {head t : Term} {sp : Spine}
    (h : Spine.WrittenAs Q head sp t)
    (hhead : ∃ w, head.HasValue env w ∧ (F []).StuckLike anything false w)
    (hsucc : ∀ sp, F sp = .neutral (.prim .succ) [] → sp = [] ∧ head = .prim .succ)
    (hgrows : ∀ e rest, e :: rest <:+ sp → (F rest).Grows false e (F (e :: rest)))
    (ht : t.Usable g) :
    ∃ w, t.HasValue env w ∧
      ((F sp).StuckLike anything false w ∨ ∃ k, w = .nat k ∧ t.numeral? = some k) := by
  -- What is asked of the whole spine is asked of each beginning of it.
  have hinner {e : Elim} {sp : Spine}
      (h : ∀ e' rest, e' :: rest <:+ e :: sp → (F rest).Grows false e' (F (e' :: rest)))
      (e' : Elim) (rest : Spine) (hrest : e' :: rest <:+ sp) : (F rest).Grows false e'
        (F (e' :: rest)) :=
    h e' rest (hrest.trans (List.suffix_cons e sp))
  induction h with
  | nil =>
    obtain ⟨w, hw, hlike⟩ := hhead
    exact ⟨w, hw, .inl hlike⟩
  | @app sp icit x t u hinit harg ih =>
    obtain ⟨hnone, hf, hx, hlimit⟩ := ht.app
    obtain ⟨w, hw, hlike⟩ := Term.HasValue.of_not_numeral (ih (hinner hgrows) hf) hnone
    obtain ⟨wx, hwx, hnat⟩ := hQ harg hx
    by_cases hliteral : ∃ k, Elim.app icit wx = .app .expl (.nat k) ∧
      F sp = .neutral (.prim .succ) []
    · -- The successor meets a literal.
      obtain ⟨k, happ, hF⟩ := hliteral
      obtain ⟨rfl, rfl⟩ := Elim.app.inj happ
      obtain ⟨rfl, rfl⟩ := hsucc sp hF
      cases hinit
      have hnumeral : (Term.app (.prim .succ) .expl u).numeral? = some (k + 1) := by
        rw [Term.numeral?, hnat k rfl]
        rfl
      rw [hF] at hlike
      obtain ⟨-, sp', rfl, hsp'⟩ := hlike
      cases hsp'
      refine ⟨.nat (k + 1), eventually_of_add 2 ?_, .inr ⟨k + 1, rfl, hnumeral⟩⟩
      filter_upwards [hw.add 1, hwx.add 1] with fuel hw hwx
      rw [Term.eval, hw, ok_bind, hwx, ok_bind]
      exact if_pos (hlimit _ hnumeral)
    · have hother : ∀ k, Elim.app icit wx = .app .expl (.nat k) →
          F sp ≠ .neutral (.prim .succ) [] :=
        fun k happ hF => hliteral ⟨k, happ, hF⟩
      obtain ⟨w', hgrow, hlike', -⟩ :=
        (hgrows _ sp List.suffix_rfl).again hlike (.app trivial) hother
      refine ⟨w', eventually_of_add 3 ?_, .inl hlike'⟩
      filter_upwards [hw.add 2, hwx.add 2] with fuel hw hwx
      rw [Term.eval, hw, ok_bind, hwx, ok_bind, hgrow.eliminate]
  | @proj sp p t _ ih =>
    obtain ⟨hnone, hx⟩ := ht.proj
    obtain ⟨w, hw, hlike⟩ := Term.HasValue.of_not_numeral (ih (hinner hgrows) hx) hnone
    obtain ⟨w', hgrow, hlike', -⟩ :=
      (hgrows _ sp List.suffix_rfl).again hlike (.proj (p := p)) (by simp)
    refine ⟨w', eventually_of_add 3 ?_, .inl hlike'⟩
    filter_upwards [hw.add 2] with fuel hw
    rw [Term.eval, hw, ok_bind, hgrow.eliminate]
  | @cases sp e m cs t tm ts _ hmotive hcases ih =>
    obtain ⟨hnone, hm, hs, hcs⟩ := ht.elim
    obtain ⟨w, hw, hlike⟩ := Term.HasValue.of_not_numeral (ih (hinner hgrows) hs) hnone
    obtain ⟨wm, hwm, -⟩ := hQ hmotive hm
    obtain ⟨ws, hlist, hws⟩ := hasValues hQ hcases hcs
    obtain ⟨w', hgrow, hlike', -⟩ :=
      (hgrows _ sp List.suffix_rfl).again hlike (.cases (m := m) (k := wm) trivial hlist) (by simp)
    refine ⟨w', eventually_of_add 3 ?_, .inl hlike'⟩
    filter_upwards [hw.add 2, hwm.add 2, (tendsto_add_atTop_nat 2).eventually hws] with fuel hw hwm
      hws
    rw [Term.eval, hw, ok_bind, hwm, ok_bind, hws, ok_bind, hgrow.eliminate]

end

theorem Spine.WrittenAs.globals {Q : Val → Term → Prop} {head t : Term} {sp : Spine}
    (h : Spine.WrittenAs Q head sp t) : head.globals ⊆ t.globals := by
  induction h with
  | nil => exact List.Subset.refl _
  | app _ _ ih => exact List.subset_append_of_subset_left _ ih
  | proj _ ih => exact ih
  | cases _ _ _ ih =>
    exact List.subset_append_of_subset_left _ (List.subset_append_of_subset_right _ ih)

/-- Without parameters, only a primitive or a metavariable is at the head, and it stands for
itself. -/
theorem Pattern.head_hasValue {p : Pattern} (hclosed : p.levels = []) {h : Head} {u head : Term}
    (hquoted : h.quote (p.size + 0) = .ok u) (hmoved : u.rename p.m p.levels p.size 0 = .ok head) :
    head.HasValue (p.env 0) (.neutral h []) ∧ (h = .prim .succ → head = .prim .succ) := by
  cases h with
  | var l =>
    obtain ⟨i, -, rfl⟩ := map_ok hquoted
    simp only [Term.rename, Nat.not_lt_zero, if_false, hclosed] at hmoved
    split at hmoved <;> cases hmoved
  | prim q =>
    cases hquoted
    cases hmoved
    refine ⟨eventually_of_add 1 (.of_forall fun _ => rfl), ?_⟩
    rintro ⟨⟩
    rfl
  | metavar m =>
    cases hquoted
    simp only [Term.rename] at hmoved
    split at hmoved
    · cases hmoved
    · cases hmoved
      exact ⟨eventually_of_add 1 (.of_forall fun _ => rfl), by simp⟩

/-- **A closed normal form has a value.** -/
theorem Pattern.Reads.hasValue {p : Pattern} {ms : MetaStore} (hp : p.Later ms)
    (hclosed : p.levels = []) {fuel : Nat} {v : Val} {t : Term} (h : p.Reads fuel 0 v t)
    (ht : t.Usable p.globals) :
    ∃ w, t.HasValue (p.env 0) w ∧ ∀ k, w = .nat k → t.numeral? = some k := by
  -- Bodies are not evaluated, so the depth stays zero.
  induction fuel generalizing v t with
  | zero =>
    obtain ⟨-, u, hu, -⟩ := h
    cases hu
  | succ fuel ih =>
    obtain ⟨u, -, hsettled, hform⟩ := h.forced hp
    cases hform with
    | type => exact ⟨.type, eventually_of_add 1 (.of_forall fun _ => rfl), by simp⟩
    | @nat k =>
      refine ⟨.nat k, eventually_of_add 1 (.of_forall fun _ => rfl), ?_⟩
      rintro _ ⟨⟩
      rfl
    | @neutral h sp u head t hquoted hmoved hwritten =>
      obtain ⟨-, hblocked, -⟩ := Val.settled_neutral.1 hsettled
      obtain ⟨hvalue, hhead⟩ := Pattern.head_hasValue hclosed hquoted hmoved
      have hsucc : ∀ sp, Val.neutral h sp = .neutral (.prim .succ) [] →
          sp = [] ∧ head = .prim .succ := by
        rintro _ ⟨⟩
        exact ⟨rfl, hhead rfl⟩
      obtain ⟨w, hw, hlike | ⟨k, rfl, hk⟩⟩ := hwritten.hasValue (F := Val.neutral h) ih
        ⟨_, hvalue, fun _ _ => trivial, [], rfl, .nil⟩ hsucc
        (fun e rest hrest => .neutral (hblocked.of_suffix hrest)) ht
      · obtain ⟨-, sp', rfl, -⟩ := hlike
        exact ⟨_, hw, by simp⟩
      · refine ⟨_, hw, ?_⟩
        rintro _ ⟨⟩
        exact hk
    | @glued x sp base t hwritten =>
      obtain ⟨b, hb⟩ := ht.known x (hwritten.globals (List.mem_singleton_self x))
      have hvalue : (Term.global x).HasValue (p.env 0) (.glued x [] b) := by
        refine eventually_of_add 1 (.of_forall fun _ => ?_)
        have hglobal : (p.env 0).global? x = some b := hb
        simp only [Term.eval, hglobal]
      obtain ⟨w, hw, hlike | ⟨k, rfl, hk⟩⟩ := hwritten.hasValue (F := fun sp => .glued x sp base) ih
        ⟨_, hvalue, fun _ => ⟨[], b, rfl⟩⟩ (by simp) (fun e rest _ => .glued rfl) ht
      · obtain ⟨sp', base', rfl⟩ := hlike rfl
        exact ⟨_, hw, by simp⟩
      · refine ⟨_, hw, ?_⟩
        rintro _ ⟨⟩
        exact hk
    | @closure c body tdom tbody hdom _ _ =>
      obtain ⟨wdom, hwdom, -⟩ := ih hdom ht.bind
      refine ⟨.closure ⟨c.binder, wdom, p.env 0, tbody⟩, eventually_of_add 1 ?_, by simp⟩
      filter_upwards [hwdom] with fuel hdom
      rw [Term.eval, hdom]
      rfl
    | pair ha hb hs =>
      obtain ⟨hta, htb, hts⟩ := ht.pair
      obtain ⟨wa, hwa, -⟩ := ih ha hta
      obtain ⟨wb, hwb, -⟩ := ih hb htb
      obtain ⟨ws, hws, -⟩ := ih hs hts
      refine ⟨.pair wa wb ws, eventually_of_add 1 ?_, by simp⟩
      filter_upwards [hwa, hwb, hws] with fuel ha hb hs
      rw [Term.eval, ha, hb, hs]
      rfl

/-! ## The checks are the only obstacle -/

/-- Without parameters a term stays as it is. -/
theorem Term.rename_nil {m : MetaId} {size depth : Nat} {t u : Term}
    (h : t.rename m [] size depth = .ok u) : u = t := by
  replace h := renamedTo_of_rename h
  induction h with
  | type | global | prim | nat | metavar | bound => rfl
  | param _ _ found => cases found
  | app _ _ hf hx => rw [hf, hx]
  | bind _ _ hdom hbody => rw [hdom, hbody]
  | pair _ _ _ ha hb hs => rw [ha, hb, hs]
  | proj _ hx => rw [hx]
  | letIn _ _ _ hty hval hbody => rw [hty, hval, hbody]
  | elim _ _ length _ hc hs hcs =>
    have hcases := map_eq_map_of_getElem? (f := id) (g := id) length hcs
    rw [List.map_id, List.map_id] at hcases
    rw [hc, hs, hcases]

/-- A term in scope that depends on parameters only, and not on `?m`, can be moved. -/
theorem Term.rename_of_free {m : MetaId} {params : List Level} {size : Nat} {t : Term}
    (hscoped : t.Scoped size) (hsize : size < wordLimit)
    (hvars : ∀ l ∈ t.freeLevels size 0, l ∈ params) (hm : m ∉ t.metaOccurrences) :
    ∃ u, t.rename m params size 0 = .ok u := by
  cases h : t.rename m params size 0 with
  | ok u => exact ⟨u, rfl⟩
  | error e =>
    cases t.rename_obstacle e h with
    | occurs mem => exact absurd mem hm
    | scope mem other => exact absurd (hvars _ mem) other
    | fault bad => exact absurd (bad hscoped) (Nat.not_le_of_lt hsize)

/-- Reading back has at most one answer, whatever the fuel. -/
theorem Val.quote_unique {fuel fuel' n : Nat} {ms : MetaStore} {full : Bool} {v : Val} {t u : Term}
    (ht : v.quote fuel ms full n = .ok t) (hu : v.quote fuel' ms full n = .ok u) : u = t := by
  have ht' := (Val.quote_prolongs ms (Nat.le_max_left fuel fuel') full n v).ok ht
  have hu' := (Val.quote_prolongs ms (Nat.le_max_right fuel fuel') full n v).ok hu
  exact Except.ok.inj (hu'.symm.trans ht')

/-- With enough fuel, the parameters are found. -/
theorem Spine.AppliesTo.params_found {ms : MetaStore} {sp : Spine} {levels : List Level}
    (h : sp.AppliesTo ms levels) : ∃ fuel ps, Spine.params? fuel ms sp = .ok (some ps) := by
  induction h with
  | nil => exact ⟨0, [], rfl⟩
  | @cons e l sp levels he _ ih =>
    obtain ⟨icit, x, fuel, rfl, hx⟩ := he
    obtain ⟨fuel', ps, hps⟩ := ih
    refine ⟨max fuel fuel', ps ++ [⟨l, icit⟩], ?_⟩
    rw [Spine.params?, (Spine.params?_prolongs ms (Nat.le_max_right fuel fuel') sp).ok hps, ok_bind]
    simp only [(Val.force_prolongs ms (Nat.le_max_left fuel fuel') x).ok hx, ok_bind]
    rfl

/-- The solution has a value: it is a function, or a closed normal form. -/
theorem Term.abstract_hasValue {p : Pattern} {ms : MetaStore}
    (hp : p.Later ms) {fuel : Nat} {rhs : Val} {u : Term} (hu : p.Reads fuel 0 rhs u)
    {ps : List Param} (hlevels : (ps.map (·.level)).reverse = p.levels)
    (husable : ps = [] → u.Usable p.globals) :
    ∃ v, (Term.abstract ps u).HasValue p.globals.env v := by
  cases ps with
  | nil =>
    have hclosed : p.levels = [] := hlevels.symm
    obtain ⟨w, hw, -⟩ := Pattern.Reads.hasValue hp hclosed hu (husable rfl)
    have hargs : p.args = [] := List.length_eq_zero_iff.1 (by rw [hp.args.length_eq, hclosed]; rfl)
    have henv : p.env 0 = p.globals.env := by
      rw [Pattern.env, hargs]
      rfl
    exact ⟨w, henv ▸ hw⟩
  | cons q ps => exact ⟨_, eventually_of_add 2 (.of_forall fun _ => rfl)⟩

/-- **A pattern problem is solved unless the folded right-hand side depends on something else.** A
metavariable without a solution, for which no problem waits, is applied to arguments that are forced
to distinct variables. If the right-hand side, read back with globals folded, mentions only these
variables and not the metavariable, then with enough fuel the problem is solved. Without arguments
the solution is evaluated at once; then the globals that it mentions have to be known, and its
numerals have to fit. If the problem is refused, then the folded right-hand side does mention the
offending variable or the metavariable. -/
theorem solve_pattern_complete {size k : Nat} {g : Globals} {m : MetaId} {sp : Spine} {rhs : Val}
    {levels : List Level} {s : State} {t : Term} (hsize : size < wordLimit)
    (hsolutions : ∀ q v, s.metas.lookup q = some v → v.Settled anything anything false)
    (hopen : s.metas.now.cells.find? m.toNat = some none)
    (hwaiting : s.metas.now.postponed.find? m.toNat = none) (hsp : sp.AppliesTo s.metas levels)
    (hdistinct : levels.Nodup) (hrhs : rhs.Settled anything anything false)
    (ht : rhs.quote k s.metas false size = .ok t) :
    ((∀ l ∈ t.freeLevels size 0, l ∈ levels) → m ∉ t.metaOccurrences → (sp = [] → t.Usable g) →
      ∃ fuel₀, ∀ fuel ≥ fuel₀, ∃ s', solve fuel g size m sp rhs s = .ok () s') ∧
    ∀ fuel e s', solve fuel g size m sp rhs s = .error (.error e) s' →
      e = .occurs m ∧ m ∈ t.metaOccurrences ∨
        ∃ l ∈ t.freeLevels size 0, l ∉ levels ∧ e = .scope m ("$" ++ toString l.toNat) := by
  constructor
  · intro hvars hm husable
    obtain ⟨u, hu⟩ := Term.rename_of_free (Val.quote_unsolved ht).1 hsize hvars hm
    obtain ⟨f, ps, hps⟩ := hsp.params_found
    obtain ⟨ps', hps', hlevels, hlength⟩ := hsp.params hps
    cases hps'
    have hp := hsp.later hopen hsolutions (fun _ _ => rfl) g size
    have husable' : ps = [] → u.Usable g := by
      rintro rfl
      obtain rfl : levels = [] := hlevels.symm
      rw [Term.rename_nil hu]
      exact husable (List.length_eq_zero_iff.1 hlength.symm)
    obtain ⟨v, hv⟩ := Term.abstract_hasValue hp ⟨hrhs, t, ht, hu⟩ hlevels husable'
    obtain ⟨f', hf'⟩ := eventually_atTop.1 hv
    -- Fuel for each of the steps: reading back, finding the parameters, evaluating.
    refine ⟨max k (max f f') + 2, fun fuel hfuel => ?_⟩
    obtain ⟨n, rfl⟩ := Nat.exists_eq_add_of_le' (Nat.le_of_add_left_le hfuel)
    have hk : k ≤ n + 1 := by omega
    have hf : f ≤ n + 1 := by omega
    exact solve_of_eval hsp hdistinct hopen hwaiting ((Spine.params?_prolongs s.metas hf sp).ok hps)
      ((Val.quote_prolongs s.metas hk false size rhs).ok ht) hu (hf' (n + 1) (by omega))
  · intro fuel e s' h
    obtain ⟨-, k', t', ht', hu⟩ := solve_eq_error hsp hdistinct hopen hwaiting h
    obtain rfl := Val.quote_unique ht ht'
    cases Term.rename_obstacle _ _ hu with
    | occurs mem => exact .inl ⟨rfl, mem⟩
    | scope mem other => exact .inr ⟨_, mem, other, rfl⟩

/-- If `k` is a constant function, `?0 x = k x` is solved. So is `?0 = S ?1`, where `?1` is `2` and
the solution is computed. -/
theorem solve_pattern_complete_constant :
    let k : Term := .lam .expl "_" (.prim .nat) (.nat 0)
    let g : Globals :=
      .insert .empty "k"
        ⟨k, .closure ⟨⟨.lam .expl, "_", false⟩, .prim .nat, ⟨[], []⟩, .nat 0⟩, .type, false, none⟩
    let s : State := ⟨MetaStore.empty.fresh.2, [], []⟩
    (∃ rhs, (Term.app (.global "k") .expl (.var ⟨1⟩)).eval 9 (g.scopeEnv 2) = .ok rhs ∧
      ∃ fuel₀, ∀ fuel ≥ fuel₀, ∃ s', solve fuel g 2 ⟨0⟩ [.app .expl (.fresh 0)] rhs s = .ok () s') ∧
    ∃ ms, s.metas.fresh.2.set ⟨1⟩ (.nat 2) = .ok ms ∧
      ∃ fuel₀, ∀ fuel ≥ fuel₀, ∃ s',
        solve fuel g 0 ⟨0⟩ [] (.neutral (.prim .succ) [.app .expl (.metavar ⟨1⟩)])
        { s with metas := ms } = .ok () s' := by
  intro k g s
  constructor
  · -- The argument that the constant function ignores is a parameter.
    obtain ⟨rhs, hrhs, ht⟩ : ∃ rhs,
      (Term.app (.global "k") .expl (.var ⟨1⟩)).eval 9 (g.scopeEnv 2) = .ok rhs ∧
        rhs.quote 9 s.metas false 2 = .ok (.app (.global "k") .expl (.var ⟨1⟩)) := ⟨_, rfl, rfl⟩
    have hsettled : rhs.Settled anything anything false := by
      refine Term.eval_settled ?_ hrhs
      exact List.forall_mem_cons.2
        ⟨Val.settled_fresh 1, List.forall_mem_singleton.2 (Val.settled_fresh 0)⟩
    have hsolutions : ∀ q v, s.metas.lookup q = some v → v.Settled anything anything false := by
      intro q v hv
      rw [MetaStore.lookup_fresh] at hv
      split at hv <;> cases hv
    have hsp : Spine.AppliesTo s.metas [.app .expl (.fresh 0)] [⟨0⟩] :=
      .cons ⟨_, _, 9, rfl, rfl⟩ .nil
    refine ⟨rhs, hrhs,
      (solve_pattern_complete (by decide) hsolutions rfl rfl hsp (by decide) hsettled ht).1 ?_ ?_
        ?_⟩
    · decide
    · decide
    · simp
  · -- The successor of a metavariable is read back as the successor of its solution.
    obtain ⟨ms, hset, hopen, hwaiting, ht⟩ : ∃ ms, s.metas.fresh.2.set ⟨1⟩ (.nat 2) = .ok ms ∧
        ms.now.cells.find? 0 = some none ∧ ms.now.postponed.find? 0 = none ∧
        (Val.neutral (.prim .succ) [.app .expl (.metavar ⟨1⟩)]).quote 9 ms false 0 =
          .ok (.app (.prim .succ) .expl (.nat 2)) := ⟨_, rfl, rfl, rfl, rfl⟩
    have hsettled : (Val.neutral (.prim .succ) [.app .expl (.metavar ⟨1⟩)]).Settled anything
        anything false := by
      have harg : (Val.metavar ⟨1⟩).Settled anything anything false :=
        .neutral (fun _ _ => trivial) trivial (List.forall_mem_nil _)
      refine .neutral nofun ⟨?_, trivial⟩ (List.forall_mem_singleton.2 harg)
      rintro ⟨-, -, -, k, hk⟩
      cases hk
    have hsolutions : ∀ q v, ms.lookup q = some v → v.Settled anything anything false := by
      intro q v hv
      rw [MetaStore.lookup_set hset, MetaStore.lookup_fresh, MetaStore.lookup_fresh] at hv
      split at hv
      · cases hv
        exact .nat
      · split at hv
        · cases hv
        · split at hv <;> cases hv
    refine ⟨ms, hset,
      (solve_pattern_complete (s := { s with metas := ms }) (by decide) hsolutions
        hopen hwaiting .nil List.nodup_nil hsettled ht).1 ?_ ?_ fun _ => ⟨?_, by decide⟩⟩
    · decide
    · decide
    · simp [Term.globals]

/-- **Folded right-hand sides may depend on more.** The function `k = \_. 0` ignores its argument,
so `k y` is `0`, where nothing is mentioned. But `?0 x = k y` is refused, with whatever fuel,
because `k y` mentions `y`. -/
theorem solve_refuses_ignored_argument :
    let k : Term := .lam .expl "_" (.prim .nat) (.nat 0)
    let g : Globals :=
      .insert .empty "k"
        ⟨k, .closure ⟨⟨.lam .expl, "_", false⟩, .prim .nat, ⟨[], []⟩, .nat 0⟩, .type, false, none⟩
    let s : State := ⟨MetaStore.empty.fresh.2, [], []⟩
    let sp : Spine := [.app .expl (.fresh 0)]
    ∃ rhs s', k.eval 9 Globals.empty.env =
      .ok (.closure ⟨⟨.lam .expl, "_", false⟩, .prim .nat, ⟨[], []⟩, .nat 0⟩) ∧
      (Term.app (.global "k") .expl (.var ⟨0⟩)).eval 9 (g.scopeEnv 2) = .ok rhs ∧
      rhs.quote 9 s.metas true 2 = .ok (.nat 0) ∧ s.metas.now.cells.find? 0 = some none ∧
      s.metas.now.postponed.find? 0 = none ∧ sp.AppliesTo s.metas [⟨0⟩] ∧
      solve 9 g 2 ⟨0⟩ sp rhs s = .error (.error (.scope ⟨0⟩ "$1")) s' ∧
      ∀ fuel t, solve fuel g 2 ⟨0⟩ sp rhs s ≠ .ok () t := by
  intro k g s sp
  obtain ⟨rhs, s', hrhs, hfull, hfolded, hrefused⟩ : ∃ rhs s',
      (Term.app (.global "k") .expl (.var ⟨0⟩)).eval 9 (g.scopeEnv 2) = .ok rhs ∧
      rhs.quote 9 s.metas true 2 = .ok (.nat 0) ∧
      rhs.quote 9 s.metas false 2 = .ok (.app (.global "k") .expl (.var ⟨0⟩)) ∧
      solve 9 g 2 ⟨0⟩ sp rhs s = .error (.error (.scope ⟨0⟩ "$1")) s' := ⟨_, _, rfl, rfl, rfl, rfl⟩
  have hsp : sp.AppliesTo s.metas [⟨0⟩] := .cons ⟨_, _, 9, rfl, rfl⟩ .nil
  refine ⟨rhs, s', rfl, hrhs, hfull, rfl, rfl, hsp, hrefused, ?_⟩
  intro fuel t h
  obtain ⟨_, _, u, _, _, -, -, hu, hmoved, -⟩ := solve_eq_ok hsp (by decide) rfl rfl h
  -- Whatever the fuel, the same term is read back, and it cannot be moved.
  obtain rfl := Val.quote_unique hfolded hu
  cases hmoved

end Elaborator
