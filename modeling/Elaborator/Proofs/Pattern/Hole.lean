import Elaborator.Proofs.Conversion.Computes
import Elaborator.Proofs.Fuel.Unify
import Elaborator.Proofs.Pattern.Complete
import Elaborator.Proofs.Zonk.Complete

/-! # Holes can be filled

A hole in a local context is a new metavariable, applied to the variables that stand for themselves.
Defined variables are left out, because their values are made of the others. So whatever term
without metavariables is to fill the hole, its value depends on the arguments of the metavariable
only (`Local.Built.ranges`), and a unification solves the metavariable.

Zonking the hole takes the solution apart again. The variables are numbered anew at each step:
levels where the term is read back, positions among the parameters in the solution, arguments where
the solution is applied, and indices of the context at last. In the end the term is the one that was
read back at first (`Val.ReadsAs.comesBack_of_movedTo`). -/

namespace Elaborator

open Filter Elaborator.Action

/-! ## The variables of what is read back -/

theorem Term.freeLevelsAll_eq (size depth : Nat) (ts : List Term) :
    Term.freeLevelsAll size depth ts = ts.flatMap (Term.freeLevels size depth) := by
  induction ts with
  | nil => rfl
  | cons t ts ih => rw [Term.freeLevelsAll, ih, List.flatMap_cons]

section

variable {size d : Nat} {P : Level → Prop}

/-- A spine is read back with the variables of its head and of its values. -/
theorem Spine.forall_freeLevels {q : Val → Except Fault Term} {head t : Term} {sp : Spine}
    (hhead : ∀ l ∈ head.freeLevels size d, P l)
    (hvals : ∀ v ∈ Spine.vals sp, ∀ u, q v = .ok u → ∀ l ∈ u.freeLevels size d, P l)
    (ht : Spine.quote q head sp = .ok t) : ∀ l ∈ t.freeLevels size d, P l := by
  induction sp generalizing t with
  | nil =>
    cases ht
    exact hhead
  | cons e sp ih =>
    obtain ⟨he, hsp⟩ := List.forall_mem_append.1 hvals
    cases e with
    | app icit x =>
      obtain ⟨u, hu, ht⟩ := bind_ok ht
      obtain ⟨tx, htx, ht⟩ := bind_ok ht
      cases ht
      exact List.forall_mem_append.2 ⟨ih hsp hu, Elim.forall_vals_app.1 he tx htx⟩
    | proj p =>
      obtain ⟨u, hu, ht⟩ := bind_ok ht
      cases ht
      have hinner : ∀ l ∈ u.freeLevels size d, P l := ih hsp hu
      exact hinner
    | cases e m cs =>
      obtain ⟨hm, hcs⟩ := Elim.forall_vals_cases.1 he
      obtain ⟨u, hu, ht⟩ := bind_ok ht
      obtain ⟨tm, htm, ht⟩ := bind_ok ht
      obtain ⟨tcs, htcs, ht⟩ := bind_ok ht
      cases ht
      refine List.forall_mem_append.2
        ⟨List.forall_mem_append.2 ⟨hm tm htm, ih hsp hu⟩, fun l hl => ?_⟩
      rw [Term.freeLevelsAll_eq] at hl
      obtain ⟨c, hc, hl⟩ := List.mem_flatMap.1 hl
      obtain ⟨v, hv, hvc⟩ := exists_mem_of_mapM htcs hc
      exact hcs v hv c hvc l hl

/-- A value without metavariables is read back with the variables that it shows. -/
theorem Val.Shows.forall_freeLevels {L : Nat → Prop}
    {ms : MetaStore} {fuel : Nat} {v : Val} {t : Term} (hL : ∀ l ≥ size, L l)
    (hv : v.Shows .noMetas L) (ht : v.quote fuel ms false (size + d) = .ok t) :
    ∀ l ∈ t.freeLevels size d, L l.toNat ∧ l.toNat < size := by
  induction fuel generalizing v d t with
  | zero => cases ht
  | succ fuel ih =>
    obtain ⟨w, hw, hread⟩ := bind_ok ht
    have hground (m : MetaId) (sp : Spine) (u : Val)
      (hm : (Val.neutral (.metavar m) sp).Shows .noMetas L)
        (_ : ms.lookup m = some u) : u.Shows .noMetas L := (Val.shows_neutral.1 hm).1.elim
    have hshows : w.Shows .noMetas L := (Val.shows_steps .noMetas L).forceMeta hground hv hw
    cases hshows with
    | type | nat =>
      cases hread
      exact List.forall_mem_nil _
    | @neutral h sp hhead hspine =>
      obtain ⟨head, hquoted, hread⟩ := bind_ok hread
      refine Spine.forall_freeLevels ?_ (fun u hu t ht => ih (hspine u hu) ht) hread
      cases h with
      | var l =>
        obtain ⟨i, hi, rfl⟩ := map_ok hquoted
        obtain ⟨-, hl, hi⟩ := Level.toIndex_eq_ok_iff.1 hi
        rw [Term.freeLevels]
        split
        · exact List.forall_mem_nil _
        · next hfree =>
          -- Not bound inside of the value, so the level is below the size of the scope.
          have hlevel : size - 1 - (i.toNat - d) = l.toNat := by omega
          have hlt : l.toNat < size := by omega
          rw [List.forall_mem_singleton, hlevel]
          exact ⟨hhead, hlt⟩
      | prim p =>
        cases hquoted
        exact List.forall_mem_nil _
      | metavar m => exact hhead.elim
    | glued hspine =>
      exact Spine.forall_freeLevels (List.forall_mem_nil _)
        (fun u hu t ht => ih (hspine u hu) ht) hread
    | @closure c hdom hlocals hbody =>
      obtain ⟨tdom, htdom, hread⟩ := bind_ok hread
      obtain ⟨body, hentered, hread⟩ := bind_ok hread
      obtain ⟨tbody, htbody, hread⟩ := bind_ok hread
      cases hread
      have hfresh : (Val.fresh (size + d)).Shows .noMetas L :=
        .neutral (hL _ (Nat.le_add_right _ _)) (List.forall_mem_nil _)
      have hinner :=
        (Val.shows_steps .noMetas L).apply_closure (.closure hdom hlocals hbody) hfresh hentered
      exact List.forall_mem_append.2 ⟨ih hdom htdom, ih (d := d + 1) hinner htbody⟩
    | pair ha hb hs =>
      obtain ⟨ta, hta, hread⟩ := bind_ok hread
      obtain ⟨tb, htb, hread⟩ := bind_ok hread
      obtain ⟨ts, hts, hread⟩ := bind_ok hread
      cases hread
      exact List.forall_mem_append.2 ⟨List.forall_mem_append.2 ⟨ih ha hta, ih hb htb⟩, ih hs hts⟩

end

/-- A value without metavariables is read back with the free variables that it shows. -/
theorem Val.Shows.freeLevels_subset {levels : List Level} {size fuel : Nat}
    {ms : MetaStore} {v : Val} {nf : Term} (hv : v.Shows .noMetas (⟨·⟩ ∈ levels))
    (hnf : v.quote fuel ms false size = .ok nf) : nf.freeLevels size 0 ⊆ levels := by
  intro i hi
  have hwide : v.Shows .noMetas fun i => ⟨i⟩ ∈ levels ∨ size ≤ i := hv.mono fun _ => .inl
  obtain ⟨hmem | hle, hlt⟩ := hwide.forall_freeLevels (d := 0) (fun _ => .inr) hnf i hi
  · exact hmem
  · exact absurd hlt (Nat.not_lt_of_le hle)

/-! ## Moving into the scope of the parameters -/

/-- If the arguments are the variables themselves, a term is moved to where they are. -/
theorem Pattern.movedTo {p : Pattern} (hargs : p.args = p.levels.map .var) {d : Nat} {t u : Term}
    (h : t.rename p.m p.levels p.size d = .ok u) : t.MovedTo (p.size + d) (p.env d) u := by
  replace h := Term.renamedTo_of_rename h
  induction h with
  | type => exact .type
  | global => exact .global
  | prim => exact .prim
  | nat => exact .nat
  | metavar => exact .metavar
  | @bound d i hbound =>
    refine .var (by omega) ((local?_env_bound hbound).trans ?_)
    have hlevel : p.size + (d - 1 - i.toNat) = p.size + d - 1 - i.toNat := by omega
    rw [hlevel]
  | @param d k i l free level found =>
    obtain ⟨-, hlt, hl⟩ := Index.toLevel_eq_ok_iff.1 level
    have hlevel : p.size + d - 1 - i.toNat = l.toNat := by
      rw [hl]
      show _ = p.size - 1 - (i.toNat - d)
      omega
    obtain ⟨hk, hget, -⟩ := List.idxOf?_eq_some_iff.1 found
    have harg : p.args[k]? = some (.var l) := by
      rw [hargs, List.getElem?_map, List.getElem?_eq_getElem hk, hget]
      rfl
    have hi : i.toNat - d + 1 ≤ p.size := hlt
    refine .var (by omega) ?_
    rw [local?_env_arg, harg, hlevel]
    rfl
  | app _ _ hf hx => exact .app hf hx
  | bind _ _ hdom hbody => exact .bind hdom hbody
  | pair _ _ _ ha hb hs => exact .pair ha hb hs
  | proj _ hx => exact .proj hx
  | letIn _ _ _ hty hval hbody => exact .letIn hty hval hbody
  | elim _ _ length _ hmotive hscrut hcases => exact .elim hmotive hscrut length hcases

/-! ## Contexts -/

def Index.succ (i : Index) : Index := ⟨i.toNat + 1⟩

/-- The variables that stand for themselves, from below one more variable. -/
theorem Entry.bound_succ (es : List Entry) :
    (es.zipIdx 1).filterMap (fun x => if x.1.bound then some (⟨x.2⟩ : Index) else none) =
      (es.zipIdx.filterMap fun x => if x.1.bound then some ⟨x.2⟩ else none).map .succ := by
  rw [List.zipIdx_succ, List.filterMap_map, List.map_filterMap]
  refine List.filterMap_congr fun x _ => ?_
  show (if x.1.bound then some (⟨x.2 + 1⟩ : Index) else none) = _
  split <;> rfl

namespace Local

/-- The contexts over `g` in which a defined variable has the value of a term without
metavariables. -/
inductive Built (g : Globals) : Local → Prop
  | empty : Built g (.empty g)
  | bind {l : Local} (h : Built g l) (x : Name) (ty : Val) (erased inserted : Bool) :
      Built g (l.bind x ty erased inserted)
  | define {l : Local} {t : Term} {v : Val} {fuel : Nat} (h : Built g l) (x : Name) (ty : Val)
      (erased : Bool) (bound : t.Scoped l.size) (ground : t.metaOccurrences = [])
      (value : t.eval fuel l.env = .ok v) :
      Built g (l.define x ty erased v)

/-- A bound variable joins those that a new metavariable is applied to. -/
theorem boundIndices_bind (l : Local) (x : Name) (ty : Val) (erased inserted : Bool) :
    (l.bind x ty erased inserted).boundIndices = l.boundIndices.map .succ ++ [⟨0⟩] := by
  simp [boundIndices, bind, Entry.bound_succ]

/-- A defined variable does not join those that a new metavariable is applied to. -/
theorem boundIndices_define (l : Local) (x : Name) (ty : Val) (erased : Bool) (v : Val) :
    (l.define x ty erased v).boundIndices = l.boundIndices.map .succ := by
  simp [boundIndices, define, Entry.bound_succ]

/-- The arguments of a metavariable in a context are distinct variables, which stand for themselves,
and everything in the context is made of them. -/
structure Ranges (g : Globals) (l : Local) (levels : List Level) : Prop where
  arguments : List.Forall₂ (fun i v => l.env.local? i = some (.var v)) l.boundIndices levels
  distinct : levels.Nodup
  below : ∀ v ∈ levels, v.toNat < l.size
  settled : ∀ v ∈ l.env.locals, v.Settled (fun _ => False) (∃ u, g.env.global? · = some u) false
  shown : ∀ v ∈ l.env.locals, v.Shows .noMetas (⟨·⟩ ∈ levels)
  globals : ∀ x, l.env.global? x = g.env.global? x

namespace Ranges

variable {g : Globals} {l : Local} {levels : List Level} {fuel : Nat} {t : Term} {v : Val}

/-- A term without metavariables has a value that is made of the arguments. -/
theorem eval (h : l.Ranges g levels) (ht : t.Scoped l.size) (hground : t.metaOccurrences = [])
    (hv : t.eval fuel l.env = .ok v) :
    v.Settled (fun _ => False) (∃ u, g.env.global? · = some u) false ∧
      v.Shows .noMetas (⟨·⟩ ∈ levels) := by
  have hmetas : ∀ m ∈ t.metaOccurrences, False := by simp [hground]
  constructor
  · refine Term.SettledIn.eval ⟨h.settled, fun x _ u hu => ⟨u, ?_⟩, by simp, hmetas⟩ hv
    rw [← h.globals x, hu]
  · exact (Val.shows_steps .noMetas _).eval ⟨h.shown, ht, hmetas⟩ hv

/-- A hole under one more bound variable ranges over that variable too. -/
theorem bind (h : l.Ranges g levels) (x : Name) (ty : Val) (erased inserted : Bool) :
    (l.bind x ty erased inserted).Ranges g (levels ++ [⟨l.size⟩]) where
  arguments := by
    rw [boundIndices_bind]
    exact List.rel_append (List.forall₂_map_left_iff.2 h.arguments) (.cons rfl .nil)
  distinct := by
    refine List.nodup_append.2 ⟨h.distinct, List.nodup_singleton _, ?_⟩
    rintro v hv _ hw rfl
    rw [List.mem_singleton.1 hw] at hv
    exact Nat.lt_irrefl _ (h.below _ hv)
  below := by
    intro v hv
    show v.toNat < (l.env.push _).size
    rw [Env.size_push]
    rcases List.mem_append.1 hv with hv | hv
    · exact Nat.lt_succ_of_lt (h.below v hv)
    · rw [List.mem_singleton.1 hv]
      exact Nat.lt_succ_self _
  settled := List.forall_mem_cons.2 ⟨Val.settled_fresh l.size, h.settled⟩
  shown := by
    refine List.forall_mem_cons.2
      ⟨.neutral ?_ (List.forall_mem_nil _), fun v hv => (h.shown v hv).mono ?_⟩
    · exact List.mem_append_right _ (List.mem_singleton_self _)
    · exact fun _ => List.mem_append_left _
  globals := h.globals

/-- A hole under a definition ranges over the same variables as outside of it. -/
theorem define (h : l.Ranges g levels) (x : Name) (ty : Val) (erased : Bool) (ht : t.Scoped l.size)
    (hground : t.metaOccurrences = []) (hv : t.eval fuel l.env = .ok v) :
    (l.define x ty erased v).Ranges g levels where
  arguments := by
    rw [boundIndices_define]
    exact List.forall₂_map_left_iff.2 h.arguments
  distinct := h.distinct
  below := by
    intro w hw
    show w.toNat < (l.env.push v).size
    rw [Env.size_push]
    exact Nat.lt_succ_of_lt (h.below w hw)
  settled := List.forall_mem_cons.2 ⟨(h.eval ht hground hv).1, h.settled⟩
  shown := List.forall_mem_cons.2 ⟨(h.eval ht hground hv).2, h.shown⟩
  globals := h.globals

end Ranges

/-- **Everything in a context is made of the arguments of a metavariable.** -/
theorem Built.ranges {g : Globals} {l : Local} (h : l.Built g) : ∃ levels, l.Ranges g levels := by
  induction h with
  | empty =>
    exact ⟨[], .nil, List.nodup_nil, List.forall_mem_nil _, List.forall_mem_nil _,
      List.forall_mem_nil _, fun _ => rfl⟩
  | bind _ x ty erased inserted ih =>
    obtain ⟨levels, hlevels⟩ := ih
    exact ⟨_, hlevels.bind x ty erased inserted⟩
  | define _ x ty erased hbound hground hvalue ih =>
    obtain ⟨levels, hlevels⟩ := ih
    exact ⟨levels, hlevels.define x ty erased hbound hground hvalue⟩

end Local

/-! ## Holes -/

def Spine.ofLevels (levels : List Level) : Spine :=
  (levels.map fun l => .app .expl (.var l)).reverse

theorem Spine.vals_ofLevels (levels : List Level) :
    Spine.vals (.ofLevels levels) = levels.reverse.map .var := by
  rw [Spine.ofLevels, ← List.map_reverse, Spine.vals, List.flatMap_map]
  exact (List.map_eq_flatMap ..).symm

theorem Spine.length_ofLevels (levels : List Level) :
    (Spine.ofLevels levels).length = levels.length := by
  simp [Spine.ofLevels]

theorem Spine.appliesTo_ofLevels (ms : MetaStore) (levels : List Level) :
    Spine.AppliesTo ms (.ofLevels levels) levels.reverse := by
  rw [Spine.ofLevels, ← List.map_reverse]
  exact List.forall₂_map_left_iff.2 (List.forall₂_same.2 fun l _ => ⟨.expl, .var l, 2, rfl, rfl⟩)

section

variable {env : Env} {is : List Index} {levels : List Level} {m : MetaId}

/-- An application to variables is evaluated one argument after the other. -/
theorem Term.eval_foldl_app (his : List.Forall₂ (fun i v => env.local? i = some (.var v)) is levels)
    {t : Term} {sp : Spine} (ht : t.HasValue env (.neutral (.metavar m) sp)) :
    (is.foldl (fun t i => .app t .expl (.var i)) t).HasValue env
      (.neutral (.metavar m) (Spine.ofLevels levels ++ sp)) := by
  induction his generalizing t sp with
  | nil => exact ht
  | @cons i v is levels hi _ ih =>
    have happ : (Term.app t .expl (.var i)).HasValue env
        (.neutral (.metavar m) (.app .expl (.var v) :: sp)) := by
      refine eventually_of_add 3 ?_
      filter_upwards [ht.add 2] with fuel ht
      have hgrows : (Val.neutral (.metavar m) sp).Grows false (.app .expl (.var v)) _ :=
        .neutral (Elim.blocked_metavar _)
      have hvar : (Term.var i).eval (fuel + 2) env = .ok (.var v) := by simp only [Term.eval, hi]
      rw [Term.eval, ht, ok_bind, hvar, ok_bind, hgrows.eliminate]
    have hrest := ih happ
    rw [Spine.ofLevels, List.map_cons, List.reverse_cons, List.append_assoc]
    exact hrest

/-- Zonking an application of a solved metavariable to variables applies the solution. -/
theorem Term.zonkHead_foldl_app
    (his : List.Forall₂ (fun i v => env.local? i = some (.var v)) is levels) {t : Term} {sp : Spine}
    {ms : MetaStore} {fuel : Nat} {v : Val}
    (ht : t.zonkHead (fuel + 1) ms env = .solved <$> v.applySpine (fuel + 1) sp) :
    (is.foldl (fun t i => .app t .expl (.var i)) t).zonkHead (fuel + 1) ms env =
      .solved <$> v.applySpine (fuel + 1) (Spine.ofLevels levels ++ sp) := by
  induction his generalizing t sp with
  | nil => exact ht
  | @cons i l is levels hi _ ih =>
    have happ : (Term.app t .expl (.var i)).zonkHead (fuel + 1) ms env =
        .solved <$> v.applySpine (fuel + 1) (.app .expl (.var l) :: sp) := by
      have hvar : (Term.var i).eval (fuel + 1) env = .ok (.var l) := by simp only [Term.eval, hi]
      rw [Term.zonkHead, ht, Val.applySpine]
      cases v.applySpine (fuel + 1) sp with
      | error f => rfl
      | ok u =>
        show ((Term.var i).eval (fuel + 1) env >>= fun x => _) = _
        rw [hvar]
        cases u.eliminate (fuel + 1) (.app .expl (.var l)) <;> rfl
    have hrest := ih happ
    rw [Spine.ofLevels, List.map_cons, List.reverse_cons, List.append_assoc]
    exact hrest

end

namespace Local.Ranges

variable {g : Globals} {l : Local} {levels : List Level}

/-- A hole has the metavariable with its arguments as its value. -/
theorem hole_hasValue (h : l.Ranges g levels) (m : MetaId) :
    (l.applyMeta m).HasValue l.env (.neutral (.metavar m) (Spine.ofLevels levels)) := by
  have hmeta : (Term.metavar m).HasValue l.env (.neutral (.metavar m) []) :=
    eventually_of_add 1 (.of_forall fun _ => rfl)
  have hall := Term.eval_foldl_app h.arguments hmeta
  rwa [List.append_nil] at hall

/-- A hole is zonked by applying the solution to the arguments and reading the result back. -/
theorem zonk_hole (h : l.Ranges g levels) {m : MetaId}
    {ms : MetaStore} {fuel : Nat} {f w : Val} {nf : Term} (hm : ms.lookup m = some f)
    (happlied : f.applySpine (fuel + 1) (.ofLevels levels) = .ok w)
    (hw : w.quote (fuel + 1) ms false l.size = .ok nf) :
    (l.applyMeta m).zonk (fuel + 1) ms l.env = .ok nf := by
  have hmeta : (Term.metavar m).zonkHead (fuel + 1) ms l.env =
      .solved <$> f.applySpine (fuel + 1) [] := by
    rw [Term.zonkHead, hm]
    rfl
  have hhead := Term.zonkHead_foldl_app h.arguments hmeta
  rw [List.append_nil, happlied] at hhead
  rw [Term.zonk, Local.applyMeta, hhead]
  exact hw

end Local.Ranges

/-- An abstraction has a value, and applied to as many arguments as there are parameters it gives
the value of its body. -/
theorem Term.abstract_hasValue_applied {env : Env} {sp : Spine} {w : Val}
    {ps : List Param} {body : Term} (hsp : ∀ e ∈ sp, ∃ icit x, e = .app icit x)
    (hlength : ps.length = sp.length)
    (hw : body.HasValue { env with locals := Spine.vals sp ++ env.locals } w) :
    ∃ v, (Term.abstract ps body).HasValue env v ∧ ∀ᶠ fuel in atTop,
      v.applySpine fuel sp = .ok w := by
  induction sp generalizing ps body w with
  | nil =>
    obtain rfl := List.length_eq_zero_iff.1 hlength
    cases env
    exact ⟨w, hw, .of_forall fun _ => rfl⟩
  | cons e sp ih =>
    obtain ⟨⟨icit, x, rfl⟩, hrest⟩ := List.forall_mem_cons.1 hsp
    rcases List.eq_nil_or_concat ps with rfl | ⟨ps, p, rfl⟩
    · cases hlength
    · rw [List.concat_eq_append] at hlength ⊢
      rw [Term.abstract_concat]
      have hlam (x : Name) (env : Env) :
          (Term.lam p.icit x .type body).HasValue env
            (.closure ⟨⟨.lam p.icit, x, false⟩, .type, env, body⟩) :=
        eventually_of_add 2 (.of_forall fun _ => rfl)
      obtain ⟨v, hv, happlied⟩ := ih hrest (by simpa using hlength) (hlam _ _)
      refine ⟨v, hv, eventually_of_add 1 ?_⟩
      filter_upwards [(tendsto_add_atTop_nat 1).eventually happlied, hw] with fuel happlied hw
      rw [Val.applySpine, happlied]
      exact hw

/-- What a value is read back as, abstracted over the variables, is a function that gives back the
term for the variables. -/
theorem Val.ReadsAs.abstract_comesBack {g : Globals} {size : Nat} {m : MetaId} {v : Val}
    {nf u : Term} {levels : List Level} {ps : List Param}
    (hreads : v.ReadsAs (fun _ => False) (∃ w, g.env.global? · = some w) false size nf)
    (hu : nf.rename m levels.reverse size 0 = .ok u) (hlength : ps.length = levels.length) :
    ∃ f, (Term.abstract ps u).HasValue g.env f ∧ ∀ ms, ∀ᶠ fuel in atTop,
      ∃ w, f.applySpine fuel (.ofLevels levels) = .ok w ∧ w.quote fuel ms false size = .ok nf := by
  let p : Pattern := ⟨.empty, g, m, size, levels.reverse, levels.reverse.map .var⟩
  have hback (ms : MetaStore) : ∃ w, nf.ComesBack (p.env 0) ms false size u w := by
    have hmoved : nf.MovedTo size (p.env 0) u := Pattern.movedTo (p := p) rfl hu
    have hknown (x : Name) (hx : ∃ w, g.env.global? x = some w) : ∃ w,
      (p.env 0).global? x = some w := hx
    have hplain : nf.hasSuccLiteral = false := hreads.hasSuccLiteral_eq_false (by simp)
    obtain ⟨w, hw, -⟩ :=
      hreads.comesBack_of_movedTo (fun _ => False.elim) (fun _ => hknown) hplain hmoved
    exact ⟨w, hw⟩
  obtain ⟨w, hw⟩ := hback .empty
  have hvalue : u.HasValue { g.env with locals := Spine.vals (.ofLevels levels) ++ g.env.locals }
      w := by
    have hlocals : Spine.vals (.ofLevels levels) ++ g.env.locals = p.args := by
      rw [Spine.vals_ofLevels]
      exact List.append_nil _
    rw [hlocals]
    exact hw.mono fun _ => And.left
  obtain ⟨f, hf, happlied⟩ :=
    Term.abstract_hasValue_applied (Spine.appliesTo_ofLevels .empty levels).isApp
    (hlength.trans (Spine.length_ofLevels levels).symm) hvalue
  refine ⟨f, hf, fun ms => ?_⟩
  -- The value does not depend on what is known about metavariables.
  obtain ⟨w', hw'⟩ := hback ms
  obtain rfl : w = w' := by
    obtain ⟨fuel, h, h'⟩ := (hw.and hw').exists
    exact Except.ok.inj (h.1.symm.trans h'.1)
  filter_upwards [happlied, hw'] with fuel happlied hback
  exact ⟨w, happlied, hback.2⟩

/-! ## Filling a hole -/

/-- A metavariable and a value that is not stuck on one: the metavariable has to be solved. -/
theorem Comparison.of_metavar {m : MetaId} {sp : Spine} {v : Val}
    (hv : ∀ q sp', v ≠ .neutral (.metavar q) sp') :
    Comparison.of .solving (.neutral (.metavar m) sp) v = .solve m sp v := by
  cases v with
  | neutral h sp' =>
    cases h with
    | metavar q => exact absurd rfl (hv q sp')
    | var l => rfl
    | prim p => rfl
  | type | nat | glued | closure | pair => rfl

theorem forceMeta_of_open {fuel : Nat} {s : State} {v : Val}
    (hv : ∀ m sp, v = .neutral (.metavar m) sp → s.metas.lookup m = none) :
    forceMeta (fuel + 1) v s = .ok v s :=
  forceMeta_of_ok (Val.forceMeta_open hv)

/-- A metavariable without a solution meets a value that is not stuck on one: the metavariable is
solved. -/
theorem unify_metavar {fuel n : Nat} {g : Globals} {m : MetaId} {sp : Spine} {v : Val} {s : State}
    (hm : s.metas.lookup m = none) (hv : ∀ q sp', v ≠ .neutral (.metavar q) sp') :
    unify (fuel + 2) .solving g n (.neutral (.metavar m) sp) v s =
      solve (fuel + 1) g n m sp v
        { s with log := .unify s.metas n (.neutral (.metavar m) sp) v :: s.log } := by
  have hlhs : forceMeta (fuel + 1) (.neutral (.metavar m) sp) s =
      .ok (.neutral (.metavar m) sp) s := by
    refine forceMeta_of_open ?_
    rintro _ _ ⟨⟩
    exact hm
  have hrhs : forceMeta (fuel + 1) v s = .ok v s := forceMeta_of_open fun q sp' h =>
    absurd h (hv q sp')
  have hemit : emitWith (fun ms => .unify ms n (.neutral (.metavar m) sp) v) s =
      .ok () { s with log := .unify s.metas n (.neutral (.metavar m) sp) v :: s.log } := rfl
  rw [unify]
  refine (bind_of_ok hlhs).trans ((bind_of_ok hrhs).trans ((bind_of_ok hemit).trans ?_))
  rw [Comparison.of_metavar hv]

/-- **A hole can be filled with any term in scope.** In a context of bound variables and of
variables that are defined by terms without metavariables, let a term without metavariables have a
value that can be read back. A new metavariable, for whose number no problem waits, is unified with
the value, whatever else is known. Then with enough fuel, the problem is solved, the same problems
wait as before, and the hole is zonked to what the value is read back as. -/
theorem unify_fills_hole {g : Globals} {l : Local} {t nf : Term} {v : Val} {k k' : Nat}
    {ms : MetaStore} {s : State} (hl : l.Built g) (hsize : l.size < wordLimit)
    (ht : t.Scoped l.size) (hground : t.metaOccurrences = [])
    (hwaiting : s.metas.now.postponed.find? s.metas.next = none) (hv : t.eval k l.env = .ok v)
    (hnf : v.quote k' ms false l.size = .ok nf) :
    ∃ fuel₀, ∀ fuel ≥ fuel₀, ∃ hole value s₁ s₂, newMeta l s = .ok hole s₁ ∧
      hole.eval fuel l.env = .ok value ∧
      unify fuel .solving g l.size value v s₁ = .ok () s₂ ∧ s₂.metas.now.postponed =
        s.metas.now.postponed ∧
      hole.zonk fuel s₂.metas l.env = .ok nf := by
  obtain ⟨levels, hlevels⟩ := hl.ranges
  obtain ⟨hsettled, hshown⟩ := hlevels.eval ht hground hv
  have hreads := hsettled.readsAs (fun _ => False.elim) hnf
  let m : MetaId := ⟨s.metas.next⟩
  let s₁ : State := { s with metas := s.metas.fresh.2 }
  let sp : Spine := .ofLevels levels
  have hsp : sp.AppliesTo s₁.metas levels.reverse := Spine.appliesTo_ofLevels _ _
  have hopen : s₁.metas.now.cells.find? m.toNat = some none := by simp [s₁, m, MetaStore.fresh]
  have hunsolved : s₁.metas.lookup m = none := by simp [MetaStore.lookup, hopen]
  -- The steps of solving: reading back, moving, finding the parameters, abstracting.
  have hread : v.quote k' s₁.metas false l.size = .ok nf :=
    (hsettled.quote_metas (fun _ => False.elim) (fun _ => False.elim) k' l.size).trans hnf
  have hfree : ∀ i ∈ nf.freeLevels l.size 0, i ∈ levels.reverse := fun i hi =>
    List.mem_reverse.2 (hshown.freeLevels_subset hnf hi)
  obtain ⟨u, hu⟩ := Term.rename_of_free hreads.term_scoped hsize hfree (hreads.mentions.1 m)
  obtain ⟨f, ps, hps⟩ := hsp.params_found
  obtain ⟨ps', hps', -, hlength⟩ := hsp.params hps
  cases hps'
  obtain ⟨solution, hsolution, hback⟩ :=
    hreads.abstract_comesBack hu (hlength.trans (Spine.length_ofLevels levels))
  obtain ⟨ms₂, hset⟩ := MetaStore.set_of_open (v := solution) hopen
  refine eventually_atTop.1 (eventually_of_add 3 ?_)
  filter_upwards [(hlevels.hole_hasValue m).add 3, hsolution.add 1,
    (tendsto_add_atTop_nat 3).eventually (hback ms₂),
    eventually_ge_atTop (max f k')] with n hvalue hsolution hback hn
  have hps := (Spine.params?_prolongs s₁.metas (show f ≤ n + 1 by omega) sp).ok hps
  have hread := (Val.quote_prolongs s₁.metas (show k' ≤ n + 1 by omega) false l.size v).ok hread
  obtain ⟨s₂, hsolve, hset₂⟩ := solve_set_of_eval
    (s := { s₁ with log := .unify s₁.metas l.size (.neutral (.metavar m) sp) v :: s₁.log }) hsp
    (List.nodup_reverse.2 hlevels.distinct) hopen hwaiting hps hread hu hsolution
  have hmetas : ms₂ = s₂.metas := Except.ok.inj (hset.symm.trans hset₂)
  obtain ⟨w, happlied, hw⟩ := hback
  refine ⟨l.applyMeta m, .neutral (.metavar m) sp, s₁, s₂, rfl, hvalue, ?_, ?_, ?_⟩
  · rw [unify_metavar hunsolved, hsolve]
    rintro q sp' rfl
    exact (Val.settled_neutral.1 hsettled).1 q rfl
  · obtain ⟨-, hnow, -, -⟩ := MetaStore.set_eq_ok_iff.1 hset
    rw [← hmetas, hnow]
    rfl
  · have hlookup : ms₂.lookup m = some solution := by rw [MetaStore.lookup_set hset, if_pos rfl]
    rw [← hmetas]
    exact hlevels.zonk_hole hlookup happlied hw

/-- The hole is below a variable `x`, a definition `y = \_. x` and a variable `z`, and it is filled
with `(y z, y)`. One problem waits for an older metavariable. -/
theorem unify_fills_hole_defined :
    let l₀ : Local := (Local.empty .empty).bind "x" .type false false
    let y : Term := .lam .expl "_" .type (.var ⟨1⟩)
    let t : Term := .pair (.app (.var ⟨1⟩) .expl (.var ⟨0⟩)) (.var ⟨1⟩) .type
    let nf : Term := .pair (.var ⟨2⟩) (.lam .expl "_" .type (.var ⟨3⟩)) .type
    let s : State :=
      { State.empty with metas := MetaStore.empty.fresh.2.postpone ⟨0⟩ ⟨0, .metavar ⟨0⟩, .type⟩ }
    ∃ vy v, y.eval 9 l₀.env = .ok vy ∧
      let l : Local := (l₀.define "y" .type false vy).bind "z" .type false false
      t.eval 9 l.env = .ok v ∧ v.quote 9 .empty false l.size = .ok nf ∧
      s.metas.now.postponed.find? s.metas.next = none ∧
      ∃ fuel₀, ∀ fuel ≥ fuel₀, ∃ hole value s₁ s₂, newMeta l s = .ok hole s₁ ∧
        hole.eval fuel l.env = .ok value ∧
        unify fuel .solving .empty l.size value v s₁ = .ok () s₂ ∧ s₂.metas.now.postponed =
          s.metas.now.postponed ∧
        hole.zonk fuel s₂.metas l.env = .ok nf := by
  intro l₀ y t nf s
  let vy : Val := .closure ⟨⟨.lam .expl, "_", false⟩, .type, l₀.env, .var ⟨1⟩⟩
  have hy : y.eval 9 l₀.env = .ok vy := rfl
  have hyscoped : y.Scoped l₀.size := ⟨trivial, Nat.one_lt_two⟩
  let l : Local := (l₀.define "y" .type false vy).bind "z" .type false false
  have hl : l.Built .empty := .bind (.define (.bind .empty ..) "y" .type false hyscoped rfl hy) ..
  have hone : 1 < l.size := (by decide : 1 < 3)
  have hscoped : t.Scoped l.size := ⟨⟨hone, Nat.zero_lt_of_lt hone⟩, hone, trivial⟩
  obtain ⟨v, hv, hnf⟩ : ∃ v, t.eval 9 l.env = .ok v ∧ v.quote 9 .empty false l.size = .ok nf :=
    ⟨_, rfl, rfl⟩
  exact ⟨vy, v, hy, hv, hnf, rfl, unify_fills_hole hl (by decide) hscoped rfl rfl hv hnf⟩

/-- **A problem may wait for a number that was not given out yet.** Here `Type = Nat` waits for the
number of the next metavariable. In the empty context the hole `?0` is to be filled with `Nat`, but
the waiting problem is tried as well, and it is refused, with whatever fuel. -/
theorem unify_hole_wakes :
    let l : Local := .empty .empty
    let s : State :=
      { State.empty with metas := MetaStore.empty.postpone ⟨0⟩ ⟨0, .type, .prim .nat⟩ }
    ∃ s₁ s₂, (Term.prim .nat).eval 9 l.env = .ok (.prim .nat) ∧
      (Val.prim .nat).quote 9 s.metas false l.size = .ok (.prim .nat) ∧
        newMeta l s = .ok (.metavar ⟨0⟩) s₁ ∧
      (Term.metavar ⟨0⟩).eval 9 l.env = .ok (.metavar ⟨0⟩) ∧
      unify 9 .solving .empty l.size (.metavar ⟨0⟩) (.prim .nat) s₁ =
        .error (.error (.conversion 0 .type (.prim .nat) none)) s₂ ∧
      ∀ fuel s', unify fuel .solving .empty l.size (.metavar ⟨0⟩) (.prim .nat) s₁ ≠ .ok () s' := by
  intro l s
  obtain ⟨s₁, s₂, hnew, hrefused⟩ : ∃ s₁ s₂, newMeta l s = .ok (.metavar ⟨0⟩) s₁ ∧
      unify 9 .solving .empty l.size (.metavar ⟨0⟩) (.prim .nat) s₁ =
        .error (.error (.conversion 0 .type (.prim .nat) none)) s₂ := ⟨_, _, rfl, rfl⟩
  refine ⟨s₁, s₂, rfl, rfl, hnew, rfl, hrefused, fun fuel s' h => ?_⟩
  -- With the fuel of both, the two runs would have to end in the same way.
  have hends {n : Nat} (hn : n ≤ max fuel 9) :=
    ((unifiesLonger .empty hn).unify .solving l.size (.metavar ⟨0⟩) (.prim .nat)).ends s₁
  have hsolved := hends (Nat.le_max_left fuel 9)
  have hfailed := hends (Nat.le_max_right fuel 9)
  rw [h] at hsolved
  rw [hrefused] at hfailed
  generalize unify (max fuel 9) .solving .empty l.size (.metavar ⟨0⟩) (.prim .nat) s₁ =
    r at hsolved hfailed
  cases hsolved
  cases hfailed

end Elaborator
