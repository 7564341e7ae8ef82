import Elaborator.Proofs.Conversion.Eval
import Elaborator.Proofs.NormalForm.Idempotence
import Elaborator.Proofs.Zonk.Complete
import Mathlib.Data.Fintype.EquivFin

/-! # Zonking keeps the meaning

Zonking mixes two ways to replace a metavariable. Most of a term is copied, and variables of the
term, let-bound ones included, stand for themselves in the copy. But where a solved metavariable is
applied, the solution and the arguments are evaluated, and the result is read back. Both ways go
along the least congruence that has the rules of computation, unfolds let-bindings and replaces
metavariables by their solutions (`Term.Congruent`).

A solution is a value, and what takes the place of the metavariable is the term that the value is
read back as (`MetaStore.ReadBack`). That term and the value differ by computation and by other
solutions. Since no solution leads back to itself, these can be replaced first
(`MetaStore.congruent_solution`). -/

namespace Elaborator

/-! ## The congruence -/

namespace Term

/-- The rules: the computations that the elimination of a value performs, the unfolding of a
let-binding, and the replacement of a metavariable by a term that `R` gives for it. -/
inductive Rewrites (R : MetaId → Term → Prop) : Term → Term → Prop
  | reduce {s t : Term} (h : s.Reduces t) : Rewrites R s t
  | unfold {x : Name} {erased : Bool} {ty val body : Term} :
      Rewrites R (.letIn x erased ty val body) (body.inst val)
  | replace {m : MetaId} {t : Term} (h : R m t) : Rewrites R (.metavar m) t

inductive Congruent (R : MetaId → Term → Prop) : Term → Term → Prop
  | rule {s t : Term} (h : s.Rewrites R t) : Congruent R s t
  | refl (t : Term) : Congruent R t t
  | symm {s t : Term} (h : Congruent R s t) : Congruent R t s
  | trans {s t u : Term} (h : Congruent R s t) (h' : Congruent R t u) : Congruent R s u
  | app {f f' x x' : Term} {icit : Icit} (hf : Congruent R f f') (hx : Congruent R x x') :
      Congruent R (.app f icit x) (.app f' icit x')
  | bind {b : Binder} {dom dom' body body' : Term} (hdom : Congruent R dom dom')
      (hbody : Congruent R body body') : Congruent R (.bind b dom body) (.bind b dom' body')
  | pair {a a' b b' s s' : Term} (ha : Congruent R a a') (hb : Congruent R b b')
      (hs : Congruent R s s') : Congruent R (.pair a b s) (.pair a' b' s')
  | proj {x x' : Term} {p : Proj} (hx : Congruent R x x') : Congruent R (.proj x p) (.proj x' p)
  | letIn {x : Name} {erased : Bool} {ty ty' val val' body body' : Term} (hty : Congruent R ty ty')
      (hval : Congruent R val val') (hbody : Congruent R body body') :
      Congruent R (.letIn x erased ty val body) (.letIn x erased ty' val' body')
  | elim {e : Eliminator} {m m' s s' : Term} {cs cs' : List Term} (hm : Congruent R m m')
      (hs : Congruent R s s') (hlength : cs.length = cs'.length)
      (hcs : ∀ (i : Nat) (c c' : Term), cs[i]? = some c → cs'[i]? = some c' → Congruent R c c') :
      Congruent R (.elim e m s cs) (.elim e m' s' cs')

namespace Congruent

variable {R R' : MetaId → Term → Prop}

theorem mono {s t : Term} (h : Congruent R s t) (hR : ∀ m t, R m t → R' m t) :
    Congruent R' s t := by
  induction h with
  | rule h =>
    cases h with
    | reduce h => exact .rule (.reduce h)
    | unfold => exact .rule .unfold
    | replace h => exact .rule (.replace (hR _ _ h))
  | refl t => exact .refl t
  | symm _ ih => exact ih.symm
  | trans _ _ ih ih' => exact ih.trans ih'
  | app _ _ ihf ihx => exact .app ihf ihx
  | bind _ _ ihd ihb => exact .bind ihd ihb
  | pair _ _ _ iha ihb ihs => exact .pair iha ihb ihs
  | proj _ ih => exact .proj ih
  | letIn _ _ _ iht ihv ihb => exact .letIn iht ihv ihb
  | elim _ _ hlength _ ihm ihs ihc => exact .elim ihm ihs hlength ihc

/-- The scope does not matter for this equality. -/
theorem computes (R : MetaId → Term → Prop) : Computes fun _ => Congruent R where
  refl := .refl
  symm := .symm
  trans := .trans
  app := .app
  bind := .bind
  pair := .pair
  proj := .proj
  elim hm hs hcs := .elim hm hs hcs.length_eq fun _ _ _ => rel_of_getElem? hcs
  reduce h := .rule (.reduce h)

/-- A term is equal to itself with every let-binding unfolded. -/
theorem subst_expand (t : Term) (σ : Nat → Term) : Congruent R (t.subst σ) (t.expand σ) := by
  induction t generalizing σ with
  | type | var | global | metavar | prim | nat => exact .refl _
  | app f icit x hf hx => exact .app (hf σ) (hx σ)
  | bind b dom body hdom hbody => exact .bind (hdom σ) (hbody _)
  | pair a b s ha hb hs => exact .pair (ha σ) (hb σ) (hs σ)
  | proj x p hx => exact .proj (hx σ)
  | letIn x erased ty val body hty hval hbody =>
    have hunfold : Congruent R ((Term.letIn x erased ty val body).subst σ)
        (body.subst (cons (val.subst σ) σ)) := by
      rw [← subst_up_inst]
      exact .rule .unfold
    -- The value of the variable is unfolded in every scope that the body puts it into.
    have hlasting : Lasting (fun _ => Congruent R) 0 (val.subst σ) (val.expand σ) := by
      intro j
      rw [subst_relabel val fun _ => rfl, expand_relabel]
      exact hval _
    refine (hunfold.trans (hbody _)).trans ?_
    exact (computes R).expand (Lasting.cons hlasting fun i => (computes R).lasting_refl _) body
  | elim e m s cs hm hs hcs =>
    rw [subst, expand, substAll_eq, expandAll_eq]
    exact (computes R).elim_map (n := 0) (hm σ) (hs σ) (List.forall₂_same.2 fun c hc => hcs c hc σ)

/-- A term is congruent to itself with its local definitions written out. -/
theorem expand_self (t : Term) : Congruent R t (t.expand .self) := by
  have h : Congruent R (t.subst self) (t.expand self) := subst_expand t self
  rwa [subst_self] at h

end Congruent

end Term

/-! ## Values that show only what is in scope -/

/-- The metavariables that a value shows are among those that it mentions. -/
theorem Val.Shows.narrow {B : Bounds} {L : Nat → Prop} {A : MetaId → Prop} {v : Val}
    (h : v.Shows B L) (hA : v.Among A) : v.Shows { B with metas := A } L := by
  induction h with
  | type => exact .type
  | nat => exact .nat
  | @neutral h sp hh _ ih =>
    obtain ⟨hhead, hspine⟩ := Val.among_neutral.1 hA
    refine .neutral ?_ fun v hv => ih v hv (hspine v hv)
    cases h with
    | var l => exact hh
    | prim p => trivial
    | metavar m => exact hhead m rfl
  | glued _ ih => exact .glued fun v hv => ih v hv ((Val.among_glued.1 hA).2 v hv)
  | closure _ _ hbody ihd ihl =>
    obtain ⟨hdom, hlocals, -, hmetas⟩ := Val.among_closure.1 hA
    exact .closure (ihd hdom) (fun v hv => ihl v hv (hlocals v hv)) ⟨hbody.1, hmetas⟩
  | pair _ _ _ iha ihb ihs =>
    obtain ⟨ha, hb, hs⟩ := Val.among_pair.1 hA
    exact .pair (iha ha) (ihb hb) (ihs hs)

/-- A closed value stands for the same term everywhere. -/
theorem Val.Shows.embed_zero {B : Bounds} {v : Val} (h : v.Shows B noLevels) (n : Nat) :
    v.embed 0 = v.embed n := by
  have hmoves : Moves noLevels .self 0 n := fun _ hl => hl.elim
  rw [← h.embed_subst hmoves, Term.subst_self]

section

variable {R : MetaId → Term → Prop} {ms : MetaStore} {fuel n : Nat}

/-- What a value is read back as is equal to it, if every metavariable that comes up is equal to its
solution. -/
theorem Val.quote_congruent {B : Bounds}
    (hsolved : ∀ m u, B.metas m → ms.lookup m = some u →
      u.Shows B noLevels ∧ Term.Congruent R (.metavar m) (u.embed 0))
    {v : Val} {t : Term} (hv : v.Shows B (· < n)) (h : v.quote fuel ms false n = .ok t) :
    Term.Congruent R t (v.embed n) := by
  have hlooked {n : Nat} {m : MetaId} {sp : Spine} {u : Val}
      (hm : (Val.neutral (.metavar m) sp).Shows B (· < n))
      (hu : ms.lookup m = some u) : u.Shows B (· < n) ∧
        Term.Congruent R (.metavar m) (u.embed n) := by
    obtain ⟨hclosed, hequal⟩ := hsolved m u (Val.shows_neutral.1 hm).1 hu
    rw [← hclosed.embed_zero n]
    exact ⟨hclosed.mono fun _ hl => hl.elim, hequal⟩
  have hread : Term.Congruent R (t.expand .self) (v.embed n) :=
    Val.quote_follows (Term.Congruent.computes R) (Val.shows_scopeInvariant B) hlooked
      (by simp) hv h
  exact (Term.Congruent.expand_self t).trans hread

/-! ## Zonking -/

/-- The variables of a scope stand for themselves. -/
theorem Globals.embed_scopeEnv (g : Globals) {n i : Nat} (hi : i < n) :
    (g.scopeEnv n).embed n i = .self i := by
  have hindex : n - 1 - (n - 1 - i) = i := by omega
  have hfresh : (Val.fresh (n - 1 - i)).embed n = .self (n - 1 - (n - 1 - i)) := rfl
  rw [hindex] at hfresh
  exact (Env.embed_eq (g.local?_scopeEnv_index hi) n).trans hfresh

/-- A term is equal to its value among variables that stand for themselves. -/
theorem Term.eval_congruent {g : Globals} {t : Term} {v : Val} (ht : t.Scoped n)
    (h : t.eval fuel (g.scopeEnv n) = .ok v) : v.Shows .all (· < n) ∧ t.Congruent R
    (v.embed n) := by
  have hlocals : ∀ u ∈ (g.scopeEnv n).locals, u.Shows .all (· < n) := by
    intro u hu
    obtain ⟨l, hl, rfl⟩ := g.locals_scopeEnv hu
    exact .neutral hl (List.forall_mem_nil _)
  have hwithin : t.Within .all (g.scopeEnv n).size := by
    rw [g.size_scopeEnv]
    exact ⟨ht, fun _ _ => trivial⟩
  refine ⟨((Val.shows_scopeInvariant .all).steps n).eval ⟨hlocals, hwithin⟩ h, ?_⟩
  have heval := (follows (Term.Congruent.computes R) (Val.shows_scopeInvariant .all) fuel).eval
    hlocals hwithin h
  rw [Term.expand_congr ht fun i hi => g.embed_scopeEnv hi] at heval
  exact (Term.Congruent.expand_self t).trans heval

/-- Eliminating a value gives one that is congruent to the elimination. -/
theorem Val.eliminate_congruent {v w : Val} {e : Elim} (hv : v.Shows .all (· < n))
    (he : ∀ u ∈ e.vals, u.Shows .all (· < n)) (h : v.eliminate fuel e = .ok w) :
    w.Shows .all (· < n) ∧ Term.Congruent R (e.embed n (v.embed n)) (w.embed n) :=
  ⟨((Val.shows_scopeInvariant .all).steps n).eliminate hv he h,
    (follows (Term.Congruent.computes R) (Val.shows_scopeInvariant .all) fuel).eliminate hv he h⟩

/-- What zonking has made of a term so far is equal to it. -/
def Zonked.Means (R : MetaId → Term → Prop) (n : Nat) (t : Term) : Zonked → Prop
  | .solved v => v.Shows .all (· < n) ∧ t.Congruent R (v.embed n)
  | .term t' => t'.Scoped n ∧ t.Congruent R t'

section

variable {g : Globals} (hsolved : ∀ m u, ms.lookup m = some u →
    u.Shows .all noLevels ∧ Term.Congruent R (.metavar m) (u.embed 0))

include hsolved

/-- What zonking the head means is what the term that comes of it means. -/
theorem Zonked.Means.toTerm {t t' : Term} {z : Zonked} (hz : z.Means R n t)
    (h : z.toTerm fuel ms n = .ok t') : t'.Scoped n ∧ t.Congruent R t' := by
  cases z with
  | solved v =>
    obtain ⟨hv, htv⟩ := hz
    exact ⟨(Val.quote_unsolved h).1,
      htv.trans (Val.quote_congruent (fun m u _ => hsolved m u) hv h).symm⟩
  | term u =>
    cases h
    exact hz

namespace Term

/-- A term that is zonked as a whole, if its head is. -/
theorem zonk_congruent_of_head {t t' : Term}
    (hhead : ∀ z, t.zonkHead fuel ms (g.scopeEnv n) = .ok z → z.Means R n t)
    (h : t.zonk fuel ms (g.scopeEnv n) = .ok t') : t'.Scoped n ∧ t.Congruent R t' := by
  obtain ⟨z, hz, h⟩ := bind_ok h
  rw [g.size_scopeEnv] at h
  exact (hhead z hz).toTerm hsolved h

/-- Zonking the head of a term keeps its meaning. -/
theorem zonkHead_congruent {t : Term} {z : Zonked} (ht : t.Scoped n)
    (h : t.zonkHead fuel ms (g.scopeEnv n) = .ok z) : z.Means R n t := by
  have hpush (n : Nat) : (g.scopeEnv n).push (.fresh (g.scopeEnv n).size) = g.scopeEnv (n + 1) := by
    rw [g.size_scopeEnv]
    rfl
  induction t generalizing n z with
  | type | var | global | prim | nat =>
    cases h
    exact ⟨ht, .refl _⟩
  | metavar m =>
    cases zonkHead_cases h with
    | unsolved => exact ⟨trivial, .refl _⟩
    | solved hm =>
      obtain ⟨hclosed, hequal⟩ := hsolved m _ hm
      rw [hclosed.embed_zero n] at hequal
      exact ⟨hclosed.mono fun _ hl => hl.elim, hequal⟩
  | app f icit x ihf ihx =>
    obtain ⟨hf, hx⟩ := ht
    cases zonkHead_cases h with
    | app head arg =>
      have hhead := ihf hf head
      have harg := zonk_congruent_of_head hsolved (fun _ => ihx hx) arg
      exact ⟨⟨hhead.1, harg.1⟩, .app hhead.2 harg.2⟩
    | applied head arg result =>
      have hhead := ihf hf head
      have harg := Term.eval_congruent (R := R) hx arg
      have hresult :=
        Val.eliminate_congruent (R := R) hhead.1 (Elim.forall_vals_app.2 harg.1) result
      exact ⟨hresult.1, (Congruent.app hhead.2 harg.2).trans hresult.2⟩
  | proj x p ih =>
    cases zonkHead_cases h with
    | proj head =>
      have hhead := ih ht head
      exact ⟨hhead.1, .proj hhead.2⟩
    | projected head result =>
      have hhead := ih ht head
      have hresult := Val.eliminate_congruent (R := R) hhead.1 (List.forall_mem_nil _) result
      exact ⟨hresult.1, (Congruent.proj hhead.2).trans hresult.2⟩
  | bind b dom body ihdom ihbody =>
    obtain ⟨hdom, hbody⟩ := ht
    cases zonkHead_cases h with
    | bind domain inner =>
      rw [hpush] at inner
      have hdomain := zonk_congruent_of_head hsolved (fun _ => ihdom hdom) domain
      have hinner := zonk_congruent_of_head hsolved (fun _ => ihbody hbody) inner
      exact ⟨⟨hdomain.1, hinner.1⟩, .bind hdomain.2 hinner.2⟩
  | pair a b s iha ihb ihs =>
    obtain ⟨ha, hb, hs⟩ := ht
    cases zonkHead_cases h with
    | pair fst snd sigma =>
      have hfst := zonk_congruent_of_head hsolved (fun _ => iha ha) fst
      have hsnd := zonk_congruent_of_head hsolved (fun _ => ihb hb) snd
      have hsigma := zonk_congruent_of_head hsolved (fun _ => ihs hs) sigma
      exact ⟨⟨hfst.1, hsnd.1, hsigma.1⟩, .pair hfst.2 hsnd.2 hsigma.2⟩
  | letIn x erased ty val body ihty ihval ihbody =>
    -- The variable is opaque in the body, so the body is equal to the zonked one for every value of
    -- the variable.
    obtain ⟨hty, hval, hbody⟩ := ht
    cases zonkHead_cases h with
    | letIn type value inner =>
      rw [hpush] at inner
      have htype := zonk_congruent_of_head hsolved (fun _ => ihty hty) type
      have hvalue := zonk_congruent_of_head hsolved (fun _ => ihval hval) value
      have hinner := zonk_congruent_of_head hsolved (fun _ => ihbody hbody) inner
      exact ⟨⟨htype.1, hvalue.1, hinner.1⟩, .letIn htype.2 hvalue.2 hinner.2⟩
  | elim e m s cs ihm ihs ihcs =>
    obtain ⟨hm, hs, hcs⟩ := ht
    rw [scopedAll_iff] at hcs
    have hzonked {m' : Term} {cs' : List Term} (motive : m.zonk fuel ms (g.scopeEnv n) = .ok m')
        (cases : cs.mapM (Term.zonk fuel ms (g.scopeEnv n)) = .ok cs') :
        (m'.Scoped n ∧ ∀ c ∈ cs', c.Scoped n) ∧ Congruent R m m' ∧
          List.Forall₂ (Congruent R) cs cs' := by
      have hmotive := zonk_congruent_of_head hsolved (fun _ => ihm hm) motive
      have hcase {c c' : Term} (hc : c ∈ cs) (hzonk : c.zonk fuel ms (g.scopeEnv n) = .ok c') :=
        zonk_congruent_of_head hsolved (fun _ => ihcs c hc (hcs c hc)) hzonk
      refine ⟨⟨hmotive.1, fun c' hc' => ?_⟩, hmotive.2,
        mapM_ok cases fun c hc c' hc' => (hcase hc hc').2⟩
      obtain ⟨c, hc, hzonk⟩ := exists_mem_of_mapM cases hc'
      exact (hcase hc hzonk).1
    cases zonkHead_cases h with
    | elim motive cases head =>
      obtain ⟨⟨hm', hcs'⟩, hmotive, hcases⟩ := hzonked motive cases
      have hhead := ihs hs head
      exact ⟨⟨hm', hhead.1, scopedAll_iff.2 hcs'⟩,
        (Congruent.computes R).elim (n := n) hmotive hhead.2 hcases⟩
    | @eliminated _ _ _ m' t' _ cs' v vm w vcs motive cases head motiveValue caseValues
        result read =>
      rw [g.size_scopeEnv] at read
      obtain ⟨⟨hm', hcs'⟩, hmotive, hcases⟩ := hzonked motive cases
      have hhead := ihs hs head
      have hvm := Term.eval_congruent (R := R) hm' motiveValue
      have hvcs : ∀ u ∈ vcs, u.Shows .all (· < n) := by
        intro u hu
        obtain ⟨c, hc, hcu⟩ := exists_mem_of_mapM caseValues hu
        exact (Term.eval_congruent (R := R) (hcs' c hc) hcu).1
      have hresult :=
        Val.eliminate_congruent (R := R) hhead.1 (Elim.forall_vals_cases.2 ⟨hvm.1, hvcs⟩) result
      have hread : Congruent R t' (w.embed n) :=
        Val.quote_congruent (fun m u _ => hsolved m u) hresult.1 read
      have hzonk : Congruent R (.elim e m s cs) (.elim e m' (v.embed n) cs') :=
        (Congruent.computes R).elim (n := n) hmotive hhead.2 hcases
      have hvalues : Congruent R (.elim e m' (v.embed n) cs')
          ((Elim.cases e vm vcs).embed n (v.embed n)) := by
        rw [Elim.embed, Val.embedAll_eq]
        refine (Congruent.computes R).elim (n := n) hvm.2 (.refl _)
          (List.forall₂_map_right_iff.2 ?_)
        exact mapM_ok caseValues fun c hc u hu => (Term.eval_congruent (hcs' c hc) hu).2
      exact ⟨(Val.quote_unsolved read).1, hzonk.trans (hvalues.trans (hresult.2.trans hread.symm))⟩

/-- Zonking a term keeps its meaning. -/
theorem zonk_congruent {t t' : Term} (ht : t.Scoped n)
    (h : t.zonk fuel ms (g.scopeEnv n) = .ok t') : t.Congruent R t' :=
  (zonk_congruent_of_head hsolved (fun _ => zonkHead_congruent hsolved ht) h).2

end Term

end

/-! ## Solutions -/

namespace MetaStore

/-- The term that the solution of a metavariable is read back as. -/
def ReadBack (ms : MetaStore) (m : MetaId) (t : Term) : Prop :=
  ∃ v fuel, ms.lookup m = some v ∧ v.quote fuel ms false 0 = .ok t

/-- The term that takes the place of a solved metavariable: the one that its solution is read back
as, or, only if reading back does not end, the one that it stands for. -/
def Replaces (ms : MetaStore) (m : MetaId) (t : Term) : Prop :=
  ms.ReadBack m t ∨ (∀ u, ¬ ms.ReadBack m u) ∧ ∃ v, ms.lookup m = some v ∧ v.embed 0 = t

/-- There are only finitely many solutions, so following what occurs in them ends if it never comes
back. -/
theorem orderly_of_acyclic (hclosed : ∀ m v, ms.lookup m = some v → v.Within .all noLevels)
    (hacyclic : ∀ m, ¬ Relation.TransGen ms.now.OccursIn m m) : ms.now.Orderly := by
  refine ⟨hclosed, ?_⟩
  have hbelow {m : MetaId} {v : Val} (hm : ms.lookup m = some v) : m.toNat < ms.next :=
    ms.below_now m.toNat (Option.isSome_of_eq_some (Option.join_eq_some_iff.1 hm))
  -- Solved metavariables have numbers below the next one.
  let Below (i k : Fin ms.next) : Prop := Relation.TransGen ms.now.OccursIn ⟨i⟩ ⟨k⟩
  have htrans : IsTrans (Fin ms.next) Below := ⟨fun _ _ _ h h' => h.trans h'⟩
  have hirrefl : Std.Irrefl Below := ⟨fun _ => hacyclic _⟩
  have hends : WellFounded Below := Finite.wellFounded_of_trans_of_irrefl Below
  have hsolved (i : Fin ms.next) : Acc ms.now.OccursIn ⟨i⟩ := by
    induction i using hends.induction with
    | _ i ih =>
      refine ⟨_, fun q hq => ?_⟩
      obtain ⟨v, w, -, -, hw⟩ := id hq
      exact ih ⟨q.toNat, hbelow hw⟩ (.single hq)
  refine ⟨fun p => ⟨p, fun q hq => ?_⟩⟩
  obtain ⟨v, w, -, -, hw⟩ := hq
  exact hsolved ⟨q.toNat, hbelow hw⟩

/-- Replacing metavariables makes them equal to what their solutions stand for. This is by induction
along the occurrences of metavariables in solutions: reading a solution back looks up only those
that can be reached from it. -/
theorem congruent_solution (hms : ms.now.Orderly) {m : MetaId} {v : Val}
    (hm : ms.lookup m = some v) : Term.Congruent ms.Replaces (.metavar m) (v.embed 0) := by
  induction m using hms.ends.transGen.induction generalizing v with
  | _ m ih =>
    -- The metavariables that reading the solution of `m` back may look up.
    let A (q : MetaId) : Prop := ms.lookup q = none ∨ Relation.TransGen ms.now.OccursIn q m
    have hamong {p : MetaId} {u : Val} (hp : p = m ∨ Relation.TransGen ms.now.OccursIn p m)
        (hu : ms.lookup p = some u) : u.Among A := by
      intro q hq
      cases hw : ms.lookup q with
      | none => exact .inl hw
      | some w =>
        have hoccurs : ms.now.OccursIn q p := ⟨u, w, hu, hq, hw⟩
        rcases hp with rfl | hp
        · exact .inr (.single hoccurs)
        · exact .inr (.head hoccurs hp)
    have hshows {p : MetaId} {u : Val} (hp : p = m ∨ Relation.TransGen ms.now.OccursIn p m)
        (hu : ms.lookup p = some u) : u.Shows { Bounds.all with metas := A } noLevels :=
      (hms.closed p u hu).shows.narrow (hamong hp hu)
    by_cases hread : ∃ t, ms.ReadBack m t
    · obtain ⟨t, v', fuel, hv', ht⟩ := hread
      obtain rfl : v = v' := Option.some.inj (hm.symm.trans hv')
      have hquote : Term.Congruent ms.Replaces t (v.embed 0) := by
        have hv : v.Shows { Bounds.all with metas := A } (· < 0) :=
          (hshows (.inl rfl) hm).mono fun _ hl => hl.elim
        refine Val.quote_congruent (fun p u hp hu => ?_) hv ht
        have hreach := hp.resolve_left (by simp [hu])
        exact ⟨hshows (.inr hreach) hu, ih p hreach hu⟩
      exact (Term.Congruent.rule (.replace (.inl ⟨v, fuel, hm, ht⟩))).trans hquote
    · exact .rule (.replace (.inr ⟨not_exists.1 hread, v, hm, rfl⟩))

end MetaStore

/-- **Zonking keeps the meaning.** If no solution has a free variable or leads back to itself, a
zonked term is equal to the term by computation, by unfolding let-bindings and by replacing solved
metavariables. If all solutions can be read back, they are replaced by nothing else. -/
theorem Term.zonk_keeps_meaning {g : Globals} {t t' : Term}
    (hclosed : ∀ m v, ms.lookup m = some v → v.Within .all noLevels)
    (hacyclic : ∀ m, ¬ Relation.TransGen ms.now.OccursIn m m) (ht : t.Scoped n)
    (h : t.zonk fuel ms (g.scopeEnv n) = .ok t') :
    t.Congruent ms.Replaces t' ∧
      ((∀ m v, ms.lookup m = some v → ∃ u, ms.ReadBack m u) → t.Congruent ms.ReadBack t') := by
  have hms := MetaStore.orderly_of_acyclic hclosed hacyclic
  have hequal : t.Congruent ms.Replaces t' :=
    Term.zonk_congruent
      (fun m u hm => ⟨(hclosed m u hm).shows, MetaStore.congruent_solution hms hm⟩) ht h
  refine ⟨hequal, fun hread => hequal.mono fun m u hu => ?_⟩
  rcases hu with hu | ⟨hnone, v, hm, -⟩
  · exact hu
  · obtain ⟨w, hw⟩ := hread m v hm
    exact (hnone w hw).elim

end

/-- A let-binding whose variable is the argument of a chain of solutions, `?0 := \x. ?1 x` and `?1
:= \x. S x`. -/
theorem Term.zonk_keeps_meaning_let :
    let t : Term := .letIn "k" false (.prim .nat) (.nat 3) (.app (.metavar ⟨0⟩) .expl (.var ⟨0⟩))
    let t' : Term := .letIn "k" false (.prim .nat) (.nat 3) (.app (.prim .succ) .expl (.var ⟨0⟩))
    ∃ ms : MetaStore, t.zonk 20 ms (Globals.empty.scopeEnv 0) = .ok t' ∧
      (∀ m v, ms.lookup m = some v → v.Within .all noLevels) ∧
        (∀ m, ¬ Relation.TransGen ms.now.OccursIn m m) ∧
        (∀ m v, ms.lookup m = some v → ∃ u, ms.ReadBack m u) ∧ t.Congruent ms.ReadBack t' := by
  intro t t'
  let lam (body : Term) : Val := .closure ⟨⟨.lam .expl, "x", false⟩, .prim .nat, .empty, body⟩
  let first : Val := lam (.app (.metavar ⟨1⟩) .expl (.var ⟨0⟩))
  let second : Val := lam (.app (.prim .succ) .expl (.var ⟨0⟩))
  let made : MetaStore := MetaStore.empty.fresh.2.fresh.2
  obtain ⟨ms₀, ms, h₀, hms, hzonk, hread⟩ : ∃ ms₀ ms : MetaStore,
      made.set ⟨0⟩ first = .ok ms₀ ∧ ms₀.set ⟨1⟩ second = .ok ms ∧
      t.zonk 20 ms (Globals.empty.scopeEnv 0) = .ok t' ∧ ∀ m v, ms.lookup m = some v →
        ∃ u, ms.ReadBack m u := by
    refine ⟨_, _, rfl, rfl, rfl, ?_⟩
    rintro ⟨_ | _ | m⟩ v hm
    · exact ⟨_, _, 20, rfl, rfl⟩
    · exact ⟨_, _, 20, rfl, rfl⟩
    · cases hm
  -- The same store is reached by unification, so what holds of reachable stores holds of it.
  obtain ⟨s, run, rfl⟩ : ∃ s : State, Action.Returns (Elaborator.unify 20 .solving .empty 0
      (.pair (.metavar ⟨0⟩) (.metavar ⟨1⟩) .type) (.pair first second .type))
      { State.empty with metas := made } s ∧ s.metas = ms := by
    cases h₀
    cases hms
    exact ⟨_, .of_ok rfl, rfl⟩
  have horderly := (MetaStore.Reachable.unify (.fresh (.fresh .empty)) .empty run).orderly.now
  have hacyclic (m : MetaId) : ¬ Relation.TransGen s.metas.now.OccursIn m m :=
    horderly.ends.transGen.irrefl.irrefl m
  have hscoped : t.Scoped 0 := ⟨trivial, trivial, trivial, Nat.zero_lt_one⟩
  exact ⟨s.metas, hzonk, horderly.closed, hacyclic, hread,
    (Term.zonk_keeps_meaning horderly.closed hacyclic hscoped hzonk).2 hread⟩

end Elaborator
