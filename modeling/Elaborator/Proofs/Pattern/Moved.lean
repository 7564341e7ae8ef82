import Elaborator.Proofs.Pattern.Argument

/-! # Right-hand sides in the scope of the parameters

A problem `?m x₁ ... xₙ = rhs` is solved by reading `rhs` back, moving the term from the scope of
the problem into the scope of the parameters, and evaluating it with the arguments for the
parameters. What comes out (`Pattern.Yields`) has the form of `rhs`, except that an argument may
stand where `rhs` has a variable, and that the successor of a literal is computed
(`Pattern.Yields.forced`). Variables that are bound inside of `rhs` keep their levels.

Hence the result is equal to `rhs` (`Pattern.yields_accepts`), under the solutions of before and one
for `?m`: the term does not mention `?m`, so whatever is looked up on the way through `rhs` is what
was looked up before. -/

namespace Elaborator

open Elaborator.Action

/-! ## Spines as terms -/

/-- A spine around a head, with a term for each of its values. -/
inductive Spine.WrittenAs (Q : Val → Term → Prop) (head : Term) : Spine → Term → Prop
  | nil : WrittenAs Q head [] head
  | app {sp : Spine} {icit : Icit} {x : Val} {t u : Term} (init : WrittenAs Q head sp t)
      (arg : Q x u) : WrittenAs Q head (.app icit x :: sp) (.app t icit u)
  | proj {sp : Spine} {p : Proj} {t : Term} (init : WrittenAs Q head sp t) :
      WrittenAs Q head (.proj p :: sp) (.proj t p)
  | cases {sp : Spine} {e : Eliminator} {m : Val} {cs : List Val} {t tm : Term} {ts : List Term}
      (init : WrittenAs Q head sp t) (motive : Q m tm) (branches : List.Forall₂ Q cs ts) :
      WrittenAs Q head (.cases e m cs :: sp) (.elim e tm t ts)

section

variable {Q : Val → Term → Prop} {m : MetaId} {levels : List Level} {size depth : Nat}
  {q : Val → Except Fault Term}

/-- Terms renamed one by one are related to the values they were read back from one by one. -/
theorem forall₂_of_renameAll {cs : List Val} {ts us : List Term} (hts : cs.mapM q = .ok ts)
    (hus : Term.renameAll m levels size depth ts = .ok us)
    (hQ : ∀ v ∈ cs, ∀ t u, q v = .ok t → t.rename m levels size depth = .ok u → Q v u) :
    List.Forall₂ Q cs us := by
  have hread : List.Forall₂ (fun c t => ∀ u, t.rename m levels size depth = .ok u → Q c u) cs ts :=
    mapM_ok hts fun c hc t ht u hu => hQ c hc t u ht hu
  clear hts hQ
  induction hread generalizing us with
  | nil =>
    cases hus
    exact .nil
  | cons h _ ih =>
    obtain ⟨u, hu, hus⟩ := bind_ok hus
    obtain ⟨us, hrest, hus⟩ := bind_ok hus
    cases hus
    exact .cons (h u hu) (ih hrest)

/-- A spine is moved by moving its head and its values. -/
theorem Spine.writtenAs {head t u : Term} {sp : Spine} (ht : Spine.quote q head sp = .ok t)
    (hu : t.rename m levels size depth = .ok u)
    (hQ : ∀ v ∈ Spine.vals sp, ∀ t u, q v = .ok t → t.rename m levels size depth = .ok u → Q v u) :
    ∃ head', head.rename m levels size depth = .ok head' ∧ Spine.WrittenAs Q head' sp u := by
  induction sp generalizing t u with
  | nil =>
    cases ht
    exact ⟨u, hu, .nil⟩
  | cons e sp ih =>
    obtain ⟨he, hsp⟩ := List.forall_mem_append.1 hQ
    cases e with
    | app icit x =>
      obtain ⟨f, hf, ht⟩ := bind_ok ht
      obtain ⟨tx, htx, ht⟩ := bind_ok ht
      cases ht
      obtain ⟨f', hf', hu⟩ := bind_ok hu
      obtain ⟨ux, hux, hu⟩ := bind_ok hu
      cases hu
      obtain ⟨head', hhead, hinit⟩ := ih hf hf' hsp
      exact ⟨head', hhead, .app hinit (he x (by simp [Elim.vals]) tx ux htx hux)⟩
    | proj p =>
      obtain ⟨f, hf, ht⟩ := bind_ok ht
      cases ht
      obtain ⟨f', hf', hu⟩ := bind_ok hu
      cases hu
      obtain ⟨head', hhead, hinit⟩ := ih hf hf' hsp
      exact ⟨head', hhead, .proj hinit⟩
    | cases e motive cs =>
      obtain ⟨hmotive, hcs⟩ := List.forall_mem_cons.1 he
      obtain ⟨f, hf, ht⟩ := bind_ok ht
      obtain ⟨tm, htm, ht⟩ := bind_ok ht
      obtain ⟨ts, hts, ht⟩ := bind_ok ht
      cases ht
      obtain ⟨um, hum, hu⟩ := bind_ok hu
      obtain ⟨f', hf', hu⟩ := bind_ok hu
      obtain ⟨us, hus, hu⟩ := bind_ok hu
      cases hu
      obtain ⟨head', hhead, hinit⟩ := ih hf hf' hsp
      exact ⟨head', hhead, .cases hinit (hmotive tm um htm hum) (forall₂_of_renameAll hts hus hcs)⟩

/-- Terms evaluated one by one are related to the values they stand for one by one. -/
theorem forall₂_of_evalAll {R : Val → Val → Prop} {env : Env} {cs ds : List Val}
    {ts : List Term} {f : Nat} (hR : ∀ {v t f w}, Q v t → t.eval f env = .ok w → R v w)
    (hts : List.Forall₂ Q cs ts) (hds : ts.mapM (Term.eval f env) = .ok ds) :
    List.Forall₂ R cs ds := by
  induction hts generalizing ds with
  | nil =>
    cases hds
    exact .nil
  | cons h _ ih =>
    rw [List.mapM_cons] at hds
    obtain ⟨d, hd, hds⟩ := bind_ok hds
    obtain ⟨ds, hrest, hds⟩ := bind_ok hds
    cases hds
    exact .cons (hR h hd) (ih hrest)

/-- The term for a spine is evaluated from the inside out, with what `P` says about the eliminations
before. -/
theorem Spine.WrittenAs.eval {R : Val → Val → Prop} {P : Spine → Val → Prop} {env : Env}
    {head t : Term} {sp : Spine} (h : Spine.WrittenAs Q head sp t)
    (hhead : ∀ {f u}, head.eval f env = .ok u → P [] u)
    (hmeet : ∀ {e e' sp f u w}, e.Alike R e' → P sp u → u.eliminate f e' = .ok w → P (e :: sp) w)
    (hR : ∀ {v t f w}, Q v t → t.eval f env = .ok w → R v w) {f : Nat} {w : Val}
    (hw : t.eval f env = .ok w) : P sp w := by
  induction h generalizing f w with
  | nil => exact hhead hw
  | app _ harg ih =>
    cases f with
    | zero => cases hw
    | succ f =>
      obtain ⟨u, hu, hw⟩ := bind_ok hw
      obtain ⟨vx, hvx, hw⟩ := bind_ok hw
      exact hmeet (.app (hR harg hvx)) (ih hu) hw
  | proj _ ih =>
    cases f with
    | zero => cases hw
    | succ f =>
      obtain ⟨u, hu, hw⟩ := bind_ok hw
      exact hmeet .proj (ih hu) hw
  | cases _ hmotive hbranches ih =>
    cases f with
    | zero => cases hw
    | succ f =>
      obtain ⟨u, hu, hw⟩ := bind_ok hw
      obtain ⟨vm, hvm, hw⟩ := bind_ok hw
      obtain ⟨vcs, hvcs, hw⟩ := bind_ok hw
      exact hmeet (.cases (hR hmotive hvm) (forall₂_of_evalAll hR hbranches hvcs)) (ih hu) hw

end

/-! ## Spines that are equal -/

theorem Elim.Alike.swap {R : Val → Val → Prop} {e f : Elim} (h : e.Alike R f) :
    f.Alike (flip R) e := by
  cases h with
  | app harg => exact .app harg
  | proj => exact .proj
  | cases hmotive hcases => exact .cases hmotive (List.Forall₂.flip hcases)

theorem Spine.alike_swap {R : Val → Val → Prop} {sa sb : Spine}
    (h : List.Forall₂ (Elim.Alike R) sa sb) : List.Forall₂ (Elim.Alike (flip R)) sb sa :=
  List.Forall₂.flip (h.imp fun _ _ he => he.swap)

theorem Comparison.of_vars {l : Level} {sa sb : Spine} :
    Comparison.of .rigid (.neutral (.var l) sa) (.neutral (.var l) sb) = .spines sa sb :=
  if_pos rfl

/-- The same variable with spines that are equal. -/
theorem unify_vars_accepts {σ : MetaId → Option Val} {g : Globals} {n : Nat} {l : Level}
    {sa sb : Spine}
    (hspines : ∀ f differ,
      Looks σ (unifySpines (unify f .rigid g n) differ sa sb) anything noErrors) (f : Nat) :
    Looks σ (unify f .rigid g n (.neutral (.var l) sa) (.neutral (.var l) sb)) anything
      noErrors := by
  cases f with
  | zero => exact .fault _
  | succ f =>
    refine (Looks.forceMeta f _).bind fun a ha => (Looks.forceMeta f _).bind fun b hb => ?_
    obtain rfl := ha.eq_of_isMeta rfl
    obtain rfl := hb.eq_of_isMeta rfl
    refine (Looks.emitWith _).bind fun _ _ => ?_
    rw [Comparison.of_vars]
    exact hspines f _

/-! ## Arguments in place of parameters -/

/-- A problem `?m x₁ ... xₙ = rhs` whose arguments stand for variables. The arguments are listed
like the eliminations of the spine, the last one first. -/
structure Pattern where
  known : MetaStore
  globals : Globals
  m : MetaId
  size : Nat
  levels : List Level
  args : List Val

namespace Pattern

def env (p : Pattern) : Nat → Env
  | 0 => { p.globals.env with locals := p.args }
  | d + 1 => (p.env d).push (.fresh (p.size + d))

/-- What is known later on: at most `?m` was solved, and the arguments stand for the variables. -/
structure Later (p : Pattern) (ms : MetaStore) : Prop where
  settled : ∀ m v, p.known.lookup m = some v → v.Settled anything anything false
  unsolved : p.known.lookup p.m = none
  kept : ∀ m, m ≠ p.m → ms.lookup m = p.known.lookup m
  args : List.Forall₂ (fun x l => x.Unwinds ms.lookup (.var l)) p.args p.levels

section

variable {p : Pattern} {ms : MetaStore}

/-- The variables bound inside the renamed term are the fresh ones above its size. -/
theorem local?_env_bound {d i : Nat} (hi : i < d) :
    (p.env d).local? ⟨i⟩ = some (.fresh (p.size + (d - 1 - i))) := by
  induction d generalizing i with
  | zero => exact absurd hi (Nat.not_lt_zero i)
  | succ d ih =>
    cases i with
    | zero => rfl
    | succ i =>
      have hd : d + 1 - 1 - (i + 1) = d - 1 - i := by omega
      rw [hd]
      exact ih (Nat.lt_of_succ_lt_succ hi)

/-- The variables outside the renamed term are the arguments it is applied to. -/
theorem local?_env_arg (d k : Nat) : (p.env d).local? ⟨k + d⟩ = p.args[k]? := by
  induction d with
  | zero => rfl
  | succ d ih => exact ih

namespace Later

/-- What was known stays known. -/
theorem mono (h : p.Later ms) {m : MetaId} {v : Val} (hm : p.known.lookup m = some v) :
    ms.lookup m = some v := by
  have hne : m ≠ p.m := by
    rintro rfl
    rw [h.unsolved] at hm
    cases hm
  rw [h.kept m hne, hm]

/-- A value is forced as before, unless it is stuck on `?m`. -/
theorem forceMeta (h : p.Later ms) {fuel : Nat} {v u : Val} (hu : v.forceMeta fuel p.known = .ok u)
    (hne : ∀ sp, u ≠ .neutral (.metavar p.m) sp) : v.forceMeta fuel ms = .ok u := by
  induction fuel generalizing v with
  | zero => cases hu
  | succ fuel ih =>
    cases v with
    | neutral k sp =>
      cases k with
      | metavar m =>
        simp only [Val.forceMeta] at hu ⊢
        cases hm : p.known.lookup m with
        | none =>
          -- The value is stuck on `m`, so `m` is another one.
          rw [hm] at hu
          cases hu
          have hm' : m ≠ p.m := by
            rintro rfl
            exact hne sp rfl
          rw [h.kept m hm', hm]
        | some solution =>
          rw [hm] at hu
          obtain ⟨x, hx, hu⟩ := bind_ok hu
          simp only [h.mono hm, hx, ok_bind]
          exact ih hu
      | var | prim => exact hu
    | type | glued | closure | pair | nat => exact hu

end Later

/-! ## Reading back and moving -/

/-- Under `d` binders of the right-hand side, `v` is read back as a term that is `t` in the scope of
the parameters. -/
structure Reads (p : Pattern) (fuel d : Nat) (v : Val) (t : Term) : Prop where
  settled : v.Settled anything anything false
  moved : ∃ u, v.quote fuel p.known false (p.size + d) = .ok u ∧
    u.rename p.m p.levels p.size d = .ok t

inductive Form (p : Pattern) (fuel d : Nat) : Val → Term → Prop
  | type : Form p fuel d .type .type
  | nat {k : Nat} : Form p fuel d (.nat k) (.nat k)
  | neutral {h : Head} {sp : Spine} {u head t : Term} (quoted : h.quote (p.size + d) = .ok u)
      (moved : u.rename p.m p.levels p.size d = .ok head)
      (written : Spine.WrittenAs (p.Reads fuel d) head sp t) :
      Form p fuel d (.neutral h sp) t
  | glued {x : Name} {sp : Spine} {base : Val} {t : Term}
      (written : Spine.WrittenAs (p.Reads fuel d) (.global x) sp t) :
      Form p fuel d (.glued x sp base) t
  | closure {c : Closure} {body : Val} {tdom tbody : Term} (dom : p.Reads fuel d c.dom tdom)
      (entered : c.enter fuel (p.size + d) = .ok body) (inside : p.Reads fuel (d + 1) body tbody) :
      Form p fuel d (.closure c) (.bind c.binder tdom tbody)
  | pair {a b s : Val} {ta tb ts : Term} (fst : p.Reads fuel d a ta) (snd : p.Reads fuel d b tb)
      (sigma : p.Reads fuel d s ts) : Form p fuel d (.pair a b s) (.pair ta tb ts)

/-- What is read back is the forced value. It is not stuck on `?m`. -/
theorem Reads.forced (hp : p.Later ms) {fuel d : Nat} {v : Val} {t : Term}
    (h : p.Reads (fuel + 1) d v t) :
    ∃ u, v.forceMeta fuel p.known = .ok u ∧ u.Settled anything anything false ∧
      p.Form fuel d u t := by
  obtain ⟨hv, t', hquote, ht⟩ := h
  obtain ⟨u, hu, hread⟩ := bind_ok hquote
  clear hquote
  have hsettled : u.Settled anything anything false :=
    Val.settled_invariant.forceMeta (fun m _ v _ hm => hp.settled m v hm) hv hu
  refine ⟨u, hu, hsettled, ?_⟩
  cases u with
  | type =>
    cases hread
    cases ht
    exact .type
  | nat k =>
    cases hread
    cases ht
    exact .nat
  | neutral h sp =>
    obtain ⟨-, -, hsp⟩ := Val.settled_neutral.1 hsettled
    obtain ⟨head, hhead, hread⟩ := bind_ok hread
    obtain ⟨head', hmoved, hwritten⟩ := Spine.writtenAs hread ht fun x hx u t hu ht =>
      Reads.mk (hsp x hx) ⟨u, hu, ht⟩
    exact .neutral hhead hmoved hwritten
  | glued x sp base =>
    cases hsettled with
    | glued _ _ hsp =>
      obtain ⟨head', hmoved, hwritten⟩ := Spine.writtenAs hread ht fun x hx u t hu ht =>
        Reads.mk (hsp x hx) ⟨u, hu, ht⟩
      cases hmoved
      exact .glued hwritten
  | closure c =>
    obtain ⟨hdom, -⟩ := Val.settled_closure.1 hsettled
    obtain ⟨udom, hudom, hread⟩ := bind_ok hread
    obtain ⟨body, hbody, hread⟩ := bind_ok hread
    obtain ⟨ubody, hubody, hread⟩ := bind_ok hread
    cases hread
    obtain ⟨tdom, htdom, ht⟩ := bind_ok ht
    obtain ⟨tbody, htbody, ht⟩ := bind_ok ht
    cases ht
    exact .closure ⟨hdom, udom, hudom, htdom⟩ hbody ⟨hsettled.enter hbody, ubody, hubody, htbody⟩
  | pair a b s =>
    obtain ⟨ha, hb, hs⟩ := Val.settled_pair.1 hsettled
    obtain ⟨ua, hua, hread⟩ := bind_ok hread
    obtain ⟨ub, hub, hread⟩ := bind_ok hread
    obtain ⟨us, hus, hread⟩ := bind_ok hread
    cases hread
    obtain ⟨ta, hta, ht⟩ := bind_ok ht
    obtain ⟨tb, htb, ht⟩ := bind_ok ht
    obtain ⟨ts, hts, ht⟩ := bind_ok ht
    cases ht
    exact .pair ⟨ha, ua, hua, hta⟩ ⟨hb, ub, hub, htb⟩ ⟨hs, us, hus, hts⟩

/-- A value for which there is a term is not stuck on `?m`. -/
theorem Form.ne_metavar {fuel d : Nat} {u : Val} {t : Term} (h : p.Form fuel d u t) (sp : Spine) :
    u ≠ .neutral (.metavar p.m) sp := by
  rintro rfl
  cases h with
  | neutral hquoted hmoved _ =>
    cases hquoted
    simp only [Term.rename, if_pos] at hmoved
    cases hmoved

/-- A variable moved into the scope of the parameters stands for itself: it is bound inside of the
right-hand side, or its argument has taken its place. -/
theorem Later.var (hp : p.Later ms) {d f : Nat} {l : Level} {u t : Term} {w : Val}
    (hu : (Head.var l).quote (p.size + d) = .ok u) (ht : u.rename p.m p.levels p.size d = .ok t)
    (hw : t.eval f (p.env d) = .ok w) : w.Unwinds ms.lookup (.var l) := by
  obtain ⟨i, hi, rfl⟩ := map_ok hu
  obtain ⟨-, hl, hi⟩ := Level.toIndex_eq_ok_iff.1 hi
  simp only [Term.rename] at ht
  split at ht
  · next hbound =>
    -- Bound inside of the right-hand side, where reading back and entering count alike.
    cases ht
    have hlevel : p.size + (d - 1 - i.toNat) = l.toNat := by omega
    have hlocal : (p.env d).local? i = some (.fresh l.toNat) := hlevel ▸ local?_env_bound hbound
    cases f with
    | zero => cases hw
    | succ f =>
      simp only [Term.eval, hlocal] at hw
      cases hw
      exact .done _
  · next hfree =>
    split at ht
    · cases ht
    · next l' hl' =>
      obtain ⟨-, -, hl'⟩ := Index.toLevel_eq_ok_iff.1 hl'
      have hsame : l' = l :=
        Level.ext (by rw [hl']; show p.size - 1 - (i.toNat - d) = l.toNat; omega)
      subst hsame
      split at ht
      · next k hk =>
        -- A parameter, at the position of its argument.
        cases ht
        obtain ⟨hlt, hget, -⟩ := List.idxOf?_eq_some_iff.1 hk
        have hlt' : k < p.args.length := hp.args.length_eq ▸ hlt
        have hlocal : (p.env d).local? ⟨k + d⟩ = some p.args[k] := by
          rw [local?_env_arg, List.getElem?_eq_getElem hlt']
        cases f with
        | zero => cases hw
        | succ f =>
          simp only [Term.eval, hlocal] at hw
          cases hw
          rw [← hget]
          exact hp.args.get hlt' hlt
      · cases ht

/-! ## Evaluating with the arguments -/

/-- Under `d` binders of the right-hand side, `v` is read back and moved, and the value of the term
is `w`. -/
def Yields (p : Pattern) (fuel d : Nat) (v w : Val) : Prop :=
  ∃ t f, p.Reads fuel d v t ∧ t.eval f (p.env d) = .ok w

def Enters (p : Pattern) (fuel d : Nat) (c e : Closure) : Prop :=
  ∀ {f f' x y}, c.enter f (p.size + d) = .ok x → e.enter f' (p.size + d) = .ok y →
    p.Yields fuel (d + 1) x y

/-- What becomes of a forced value: it comes out again, with its parts changed, or an argument
stands for the variable at its head. -/
inductive Outcome (p : Pattern) (ms : MetaStore) (fuel d : Nat) : Val → Val → Prop
  | again {u w : Val} (h : u.Outcome (p.Yields fuel d) (p.Enters fuel d) w) :
      Outcome p ms fuel d u w
  | argument {l : Level} {sp sp' : Spine} {w : Val}
      (unwinds : w.Unwinds ms.lookup (.neutral (.var l) sp'))
      (spines : List.Forall₂ (Elim.Alike (p.Yields fuel d)) sp sp') :
      Outcome p ms fuel d (.neutral (.var l) sp) w

/-- Anything but a variable comes out with the same head. -/
theorem head_of_eval {d f : Nat} {h : Head} {u t : Term} {w : Val} (hvar : ∀ l, h ≠ .var l)
    (hu : h.quote (p.size + d) = .ok u) (ht : u.rename p.m p.levels p.size d = .ok t)
    (hw : t.eval f (p.env d) = .ok w) : w = .neutral h [] := by
  cases f with
  | zero => cases hw
  | succ f =>
    cases h with
    | var l => exact absurd rfl (hvar l)
    | prim q =>
      cases hu
      cases ht
      cases hw
      rfl
    | metavar m =>
      cases hu
      simp only [Term.rename] at ht
      split at ht
      · cases ht
      · cases ht
        cases hw
        rfl

/-- What comes out of a right-hand side has the form of what the right-hand side is forced to. -/
theorem Yields.forced (hp : p.Later ms) {fuel d : Nat} {v w : Val} (h : p.Yields (fuel + 1) d v w) :
    ∃ u, v.ForcesTo ms.lookup u ∧ p.Outcome ms fuel d u w := by
  obtain ⟨t, f, hreads, hw⟩ := h
  obtain ⟨u, hu, hsettled, hform⟩ := hreads.forced hp
  refine ⟨u, ⟨ms, fuel, rfl, hp.forceMeta hu hform.ne_metavar⟩, ?_⟩
  clear hreads hu
  have part {x : Val} {t : Term} {f : Nat} {y : Val} (hx : p.Reads fuel d x t)
    (hy : t.eval f (p.env d) = .ok y) : p.Yields fuel d x y := ⟨t, f, hx, hy⟩
  cases hform with
  | type =>
    cases f with
    | zero => cases hw
    | succ f =>
      cases hw
      exact .again (.same .type)
  | nat =>
    cases f with
    | zero => cases hw
    | succ f =>
      cases hw
      exact .again (.same .nat)
  | @neutral h sp u head t hquoted hmoved hwritten =>
    by_cases hvar : ∃ l, h = .var l
    · -- An argument in place of a variable waits for the whole spine.
      obtain ⟨l, rfl⟩ := hvar
      obtain ⟨sp', hunwinds, hspines⟩ : ∃ sp', w.Unwinds ms.lookup (.neutral (.var l) sp') ∧
          List.Forall₂ (Elim.Alike (p.Yields fuel d)) sp sp' := by
        refine hwritten.eval (P := fun sp w => ∃ sp', w.Unwinds ms.lookup (.neutral (.var l) sp') ∧
          List.Forall₂ (Elim.Alike (p.Yields fuel d)) sp sp') ?_ ?_ part hw
        · intro f w hw
          exact ⟨[], hp.var hquoted hmoved hw, .nil⟩
        · rintro e e' sp f u w he ⟨sp', hu, hsp'⟩ hw
          exact ⟨e' :: sp', hu.eliminate_eq hw, .cons he hsp'⟩
      exact .argument hunwinds hspines
    · -- Any other head comes out again and meets the eliminations that were blocked before.
      obtain ⟨-, hblocked, -⟩ := Val.settled_neutral.1 hsettled
      refine .again
        (hwritten.eval (P := fun sp w => Spine.Blocked h sp → Val.Outcome _ _ (.neutral h sp) w) ?_
        (fun he hu hw hb => (hu hb.2).meet hb.1 he hw) part hw hblocked)
      intro f w hw _
      rw [head_of_eval (fun l hl => hvar ⟨l, hl⟩) hquoted hmoved hw]
      exact .same (.neutral .nil)
  | @glued x sp base t hwritten =>
    obtain ⟨sp', base', rfl, hspines⟩ : ∃ sp' base', w = .glued x sp' base' ∧
        List.Forall₂ (Elim.Alike (p.Yields fuel d)) sp sp' := by
      refine hwritten.eval (P := fun sp w => ∃ sp' base', w = .glued x sp' base' ∧
        List.Forall₂ (Elim.Alike (p.Yields fuel d)) sp sp') ?_ ?_ part hw
      · intro f w hw
        obtain ⟨base', rfl⟩ := Term.eval_global_eq_ok hw
        exact ⟨[], base', rfl, .nil⟩
      · rintro e e' sp f _ w he ⟨sp', base', rfl, hsp'⟩ hw
        exact ⟨e' :: sp', base', Val.eliminate_glued hw, .cons he hsp'⟩
    exact .again (.same (.glued hspines))
  | @closure c body tdom tbody hdom hentered hinside =>
    cases f with
    | zero => cases hw
    | succ f =>
      obtain ⟨vdom, hvdom, hw⟩ := bind_ok hw
      cases hw
      refine .again (.same (.closure rfl (part hdom hvdom) ?_))
      intro f₁ f₂ x y hx hy
      -- The body that was read back is the one that is entered now, perhaps with other fuel.
      obtain rfl := Closure.apply_twice _ _ c (.fresh (p.size + d)) x body hx hentered
      exact ⟨tbody, f₂, hinside, hy⟩
  | pair ha hb hs =>
    cases f with
    | zero => cases hw
    | succ f =>
      obtain ⟨va, hva, hw⟩ := bind_ok hw
      obtain ⟨vb, hvb, hw⟩ := bind_ok hw
      obtain ⟨vs, hvs, hw⟩ := bind_ok hw
      cases hw
      exact .again (.same (.pair (part ha hva) (part hb hvb)))

/-! ## What comes out is equal to the right-hand side -/

/-- **What comes out of a right-hand side is equal to it,** whenever the two are compared, and so is
a value that is forced to the same. -/
theorem yields_accepts (hp : p.Later ms) {g : Globals} {fuel d : Nat} {v w : Val}
    (h : ∀ a, w.ForcesTo ms.lookup a → ∃ w', p.Yields fuel d v w' ∧ w'.ForcesTo ms.lookup a)
    (f : Nat) : Looks ms.lookup (unify f .rigid g (p.size + d) w v) anything noErrors := by
  -- By induction on the fuel of reading back, which bounds the depth of the right-hand side; `f`
  -- only has to run.
  induction fuel generalizing d v w f with
  | zero =>
    cases f with
    | zero => exact .fault _
    | succ f =>
      refine (Looks.forceMeta f w).bind fun a ha => ?_
      obtain ⟨w', ⟨t, f', ⟨-, u, hu, -⟩, -⟩, -⟩ := h a ha
      cases hu
  | succ fuel ih =>
    cases f with
    | zero => exact .fault _
    | succ f =>
      refine (Looks.forceMeta f w).bind fun a ha => (Looks.forceMeta f v).bind fun b hb => ?_
      obtain ⟨w', hyields, ha⟩ := h a ha
      obtain ⟨u, hu, hout⟩ := hyields.forced hp
      obtain rfl := hu.unique hb
      refine (Looks.emitWith _).bind fun _ _ => ?_
      have hparts (f : Nat) (x y : Val) (hxy : p.Yields fuel d x y) :
          Looks ms.lookup (unify f .rigid g (p.size + d) y x) anything noErrors :=
        ih (fun _ ha => ⟨y, hxy, ha⟩) f
      have hspines (f : Nat) {differ : Action Unit} {sp sp' : Spine}
          (hs : List.Forall₂ (Elim.Alike (p.Yields fuel d)) sp sp') :
          Looks ms.lookup (unifySpines (unify f .rigid g (p.size + d)) differ sp' sp)
            anything noErrors :=
        unifySpines_alike (J := fun x => Looks ms.lookup x anything noErrors) (.pure trivial)
          (fun hx hy => hx.bind fun _ _ => hy) (fun y x hxy => hparts f x y hxy)
            (Spine.alike_swap hs)
      cases hout with
      | @argument l sp sp' w hunwinds hs =>
        rcases hunwinds.forcesTo ha with rfl | ⟨⟨x, s, base, rfl⟩, hunwinds⟩
        · rw [Comparison.of_vars]
          exact hspines f hs
        · -- A global in place of the variable is unfolded first.
          refine (Looks.force f _).bind fun b hb => ?_
          obtain rfl := hunwinds.unfoldsTo_eq hb
          exact unify_vars_accepts (fun f _ => hspines f hs) f
      | again hout =>
        cases hout with
        | @literal x k hx =>
          obtain rfl := ha.eq_of_isMeta rfl
          exact hparts f _ _ hx
        | same hres =>
          obtain rfl := hres.forcesTo hu ha
          cases hres with
          | type => exact .pure trivial
          | @nat k =>
            rw [show Comparison.of .rigid (.nat k) (.nat k) = .equal from if_pos rfl]
            exact .pure trivial
          | @neutral head sa sb hs =>
            rw [show Comparison.of .rigid (.neutral head sb) (.neutral head sa) = .spines sb sa
              from if_pos rfl]
            exact hspines f hs
          | @glued x sa sb a b hs =>
            rw [show Comparison.of .rigid (.glued x sb b) (.glued x sa a) = .sameGlobal sb sa
              from if_pos rfl]
            refine (hspines f hs).transaction.bind fun r hr => ?_
            rcases hr with ⟨_, rfl, -⟩ | ⟨e, -, he⟩
            · exact .pure trivial
            · exact he.elim
          | @closure c e hbinder hdom hbody =>
            have hsame : e.binder.kind = c.binder.kind ∧ e.binder.erased = c.binder.erased := by
              rw [hbinder]
              exact ⟨rfl, rfl⟩
            rw [show Comparison.of .rigid (.closure e) (.closure c) = .binders e c
              from if_pos hsame]
            refine Looks.bind (Q := anything)
              (.ite (fun _ => .pure trivial) fun _ => hparts f _ _ hdom) fun _ _ => ?_
            refine (Looks.lift fun _ hx => hx).bind fun x hx =>
              (Looks.lift fun _ hy => hy).bind fun y hy => ?_
            exact ih (fun _ ha => ⟨x, hbody hy hx, ha⟩) f
          | pair hfst hsnd => exact (hparts f _ _ hfst).bind fun _ _ => hparts f _ _ hsnd

end

end Pattern

end Elaborator
