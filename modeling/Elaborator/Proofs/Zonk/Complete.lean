import Elaborator.Proofs.Mentions
import Elaborator.Zonk

/-! # Zonking leaves nothing to zonk

A solved metavariable leaves a term in one of three ways. At the head of an application or of a
projection it becomes a value, which is read back once all its arguments are there. As a scrutinee
it is eliminated as a value and read back at once. Anywhere else it is read back where it stands.
What is read back mentions unsolved metavariables only (`Val.quote_unsolved`), and nothing else gets
into the result but copies of the term. So no solved metavariable is left (`Term.zonk_among`).

A term without solved metavariables takes none of these ways and is copied, whatever its environment
(`Term.zonk_of_among`). -/

namespace Elaborator

/-- What zonking a term has given, in terms of what it has given for the parts of the term. -/
inductive Term.ZonkCase (fuel : Nat) (ms : MetaStore) (env : Env) : Term → Zonked → Prop
  | type : ZonkCase fuel ms env .type (.term .type)
  | var {i : Index} : ZonkCase fuel ms env (.var i) (.term (.var i))
  | global {x : Name} : ZonkCase fuel ms env (.global x) (.term (.global x))
  | prim {p : Prim} : ZonkCase fuel ms env (.prim p) (.term (.prim p))
  | nat {n : Nat} : ZonkCase fuel ms env (.nat n) (.term (.nat n))
  | unsolved {m : MetaId} (unsolved : ms.lookup m = none) :
      ZonkCase fuel ms env (.metavar m) (.term (.metavar m))
  | solved {m : MetaId} {v : Val} (solved : ms.lookup m = some v) :
      ZonkCase fuel ms env (.metavar m) (.solved v)
  | app {f x f' x' : Term} {icit : Icit} (head : f.zonkHead fuel ms env = .ok (.term f'))
      (arg : x.zonk fuel ms env = .ok x') :
      ZonkCase fuel ms env (.app f icit x) (.term (.app f' icit x'))
  | applied {f x : Term} {icit : Icit} {v vx w : Val}
      (head : f.zonkHead fuel ms env = .ok (.solved v)) (arg : x.eval fuel env = .ok vx)
      (result : v.eliminate fuel (.app icit vx) = .ok w) :
      ZonkCase fuel ms env (.app f icit x) (.solved w)
  | proj {x x' : Term} {p : Proj} (head : x.zonkHead fuel ms env = .ok (.term x')) :
      ZonkCase fuel ms env (.proj x p) (.term (.proj x' p))
  | projected {x : Term} {p : Proj} {v w : Val} (head : x.zonkHead fuel ms env = .ok (.solved v))
      (result : v.eliminate fuel (.proj p) = .ok w) : ZonkCase fuel ms env (.proj x p) (.solved w)
  | bind {b : Binder} {dom body dom' body' : Term} (domain : dom.zonk fuel ms env = .ok dom')
      (inner : body.zonk fuel ms (env.push (.fresh env.size)) = .ok body') :
      ZonkCase fuel ms env (.bind b dom body) (.term (.bind b dom' body'))
  | pair {a b s a' b' s' : Term} (fst : a.zonk fuel ms env = .ok a')
      (snd : b.zonk fuel ms env = .ok b') (sigma : s.zonk fuel ms env = .ok s') :
      ZonkCase fuel ms env (.pair a b s) (.term (.pair a' b' s'))
  | letIn {x : Name} {erased : Bool} {ty val body ty' val' body' : Term}
      (type : ty.zonk fuel ms env = .ok ty') (value : val.zonk fuel ms env = .ok val')
      (inner : body.zonk fuel ms (env.push (.fresh env.size)) = .ok body') :
      ZonkCase fuel ms env (.letIn x erased ty val body) (.term (.letIn x erased ty' val' body'))
  | elim {e : Eliminator} {m s m' s' : Term} {cs cs' : List Term}
      (motive : m.zonk fuel ms env = .ok m') (cases : cs.mapM (Term.zonk fuel ms env) = .ok cs')
      (head : s.zonkHead fuel ms env = .ok (.term s')) :
      ZonkCase fuel ms env (.elim e m s cs) (.term (.elim e m' s' cs'))
  | eliminated {e : Eliminator} {m s m' t : Term} {cs cs' : List Term} {v vm w : Val}
      {vcs : List Val} (motive : m.zonk fuel ms env = .ok m')
      (cases : cs.mapM (Term.zonk fuel ms env) = .ok cs')
      (head : s.zonkHead fuel ms env = .ok (.solved v)) (motiveValue : m'.eval fuel env = .ok vm)
      (caseValues : cs'.mapM (Term.eval fuel env) = .ok vcs)
      (result : v.eliminate fuel (.cases e vm vcs) = .ok w)
      (read : w.quote fuel ms false env.size = .ok t) :
      ZonkCase fuel ms env (.elim e m s cs) (.term t)

namespace Term

variable {fuel : Nat} {ms : MetaStore} {env : Env} {t t' : Term} {z : Zonked}

theorem zonkAll_eq (ts : List Term) : zonkAll fuel ms env ts = ts.mapM (zonk fuel ms env) := by
  induction ts with
  | nil => rfl
  | cons t ts ih => simp [zonkAll, ih, zonk]

theorem zonk_of_head (hz : t.zonkHead fuel ms env = .ok z)
    (h : z.toTerm fuel ms env.size = .ok t') : t.zonk fuel ms env = .ok t' := by
  rw [zonk, hz]
  exact h

/-- Zonking the head of a term writes in a solution or goes on into the parts. -/
theorem zonkHead_cases (h : t.zonkHead fuel ms env = .ok z) : t.ZonkCase fuel ms env z := by
  cases t with
  | type =>
    cases h
    exact .type
  | var i =>
    cases h
    exact .var
  | global x =>
    cases h
    exact .global
  | prim p =>
    cases h
    exact .prim
  | nat n =>
    cases h
    exact .nat
  | metavar m =>
    cases hm : ms.lookup m with
    | none =>
      rw [zonkHead, hm] at h
      cases h
      exact .unsolved hm
    | some v =>
      rw [zonkHead, hm] at h
      cases h
      exact .solved hm
  | app f icit x =>
    obtain ⟨zf, hf, h⟩ := bind_ok h
    cases zf with
    | solved v =>
      obtain ⟨vx, hx, h⟩ := bind_ok h
      obtain ⟨w, hw, h⟩ := bind_ok h
      cases h
      exact .applied hf hx hw
    | term f' =>
      obtain ⟨zx, hzx, h⟩ := bind_ok h
      obtain ⟨x', hx, h⟩ := bind_ok h
      cases h
      exact .app hf (zonk_of_head hzx hx)
  | proj x p =>
    obtain ⟨zx, hx, h⟩ := bind_ok h
    cases zx with
    | solved v =>
      obtain ⟨w, hw, h⟩ := bind_ok h
      cases h
      exact .projected hx hw
    | term x' =>
      cases h
      exact .proj hx
  | bind b dom body =>
    obtain ⟨zdom, hzdom, h⟩ := bind_ok h
    obtain ⟨dom', hdom, h⟩ := bind_ok h
    obtain ⟨zbody, hzbody, h⟩ := bind_ok h
    obtain ⟨body', hbody, h⟩ := bind_ok h
    cases h
    exact .bind (zonk_of_head hzdom hdom) (zonk_of_head hzbody hbody)
  | pair a b s =>
    obtain ⟨za, hza, h⟩ := bind_ok h
    obtain ⟨a', ha, h⟩ := bind_ok h
    obtain ⟨zb, hzb, h⟩ := bind_ok h
    obtain ⟨b', hb, h⟩ := bind_ok h
    obtain ⟨zs, hzs, h⟩ := bind_ok h
    obtain ⟨s', hs, h⟩ := bind_ok h
    cases h
    exact .pair (zonk_of_head hza ha) (zonk_of_head hzb hb) (zonk_of_head hzs hs)
  | letIn x erased ty val body =>
    obtain ⟨zty, hzty, h⟩ := bind_ok h
    obtain ⟨ty', hty, h⟩ := bind_ok h
    obtain ⟨zval, hzval, h⟩ := bind_ok h
    obtain ⟨val', hval, h⟩ := bind_ok h
    obtain ⟨zbody, hzbody, h⟩ := bind_ok h
    obtain ⟨body', hbody, h⟩ := bind_ok h
    cases h
    exact .letIn (zonk_of_head hzty hty) (zonk_of_head hzval hval) (zonk_of_head hzbody hbody)
  | elim e m s cs =>
    obtain ⟨zm, hzm, h⟩ := bind_ok h
    obtain ⟨m', hm, h⟩ := bind_ok h
    obtain ⟨cs', hcs, h⟩ := bind_ok h
    obtain ⟨zs, hzs, h⟩ := bind_ok h
    rw [zonkAll_eq] at hcs
    cases zs with
    | solved v =>
      obtain ⟨vm, hvm, h⟩ := bind_ok h
      obtain ⟨vcs, hvcs, h⟩ := bind_ok h
      obtain ⟨w, hw, h⟩ := bind_ok h
      obtain ⟨u, hu, h⟩ := bind_ok h
      cases h
      exact .eliminated (zonk_of_head hzm hm) hcs hzs hvm hvcs hw hu
    | term s' =>
      cases h
      exact .elim (zonk_of_head hzm hm) hcs hzs

/-! ## No solved metavariable is left -/

/-- What is read back mentions no solved metavariable in any case. -/
theorem zonk_among_of_head
    (hhead : ∀ t', t.zonkHead fuel ms env = .ok (.term t') → t'.Among (ms.lookup · = none))
    (h : t.zonk fuel ms env = .ok t') : t'.Among (ms.lookup · = none) := by
  obtain ⟨z, hz, h⟩ := bind_ok h
  cases z with
  | solved v => exact (Val.quote_unsolved h).2
  | term u =>
    cases h
    exact hhead _ hz

theorem zonkHead_among (h : t.zonkHead fuel ms env = .ok (.term t')) :
    t'.Among (ms.lookup · = none) := by
  induction t generalizing env t' with
  | type | var | global | prim | nat =>
    cases h
    simp
  | metavar m =>
    cases zonkHead_cases h with
    | unsolved hm => exact among_metavar.2 hm
  | app f icit x ihf ihx =>
    cases zonkHead_cases h with
    | app head arg => exact among_app.2 ⟨ihf head, zonk_among_of_head (fun _ => ihx) arg⟩
  | proj x p ih =>
    cases zonkHead_cases h with
    | proj head => exact among_proj.2 (ih head)
  | bind b dom body ihdom ihbody =>
    cases zonkHead_cases h with
    | bind domain inner =>
      exact among_bind.2
        ⟨zonk_among_of_head (fun _ => ihdom) domain, zonk_among_of_head (fun _ => ihbody) inner⟩
  | pair a b s iha ihb ihs =>
    cases zonkHead_cases h with
    | pair fst snd sigma =>
      exact among_pair.2
        ⟨zonk_among_of_head (fun _ => iha) fst, zonk_among_of_head (fun _ => ihb) snd,
        zonk_among_of_head (fun _ => ihs) sigma⟩
  | letIn x erased ty val body ihty ihval ihbody =>
    cases zonkHead_cases h with
    | letIn type value inner =>
      exact among_letIn.2
        ⟨zonk_among_of_head (fun _ => ihty) type, zonk_among_of_head (fun _ => ihval) value,
        zonk_among_of_head (fun _ => ihbody) inner⟩
  | elim e m s cs ihm ihs ihcs =>
    cases zonkHead_cases h with
    | elim motive cases head =>
      refine among_elim.2 ⟨zonk_among_of_head (fun _ => ihm) motive, ihs head, ?_⟩
      intro c' hc'
      obtain ⟨c, hc, hzonk⟩ := exists_mem_of_mapM cases hc'
      exact zonk_among_of_head (fun _ => ihcs c hc) hzonk
    -- What is read back at once has been forced.
    | eliminated _ _ _ _ _ _ read => exact (Val.quote_unsolved read).2

/-- A zonked term mentions unsolved metavariables only. -/
theorem zonk_among (h : t.zonk fuel ms env = .ok t') : t'.Among (ms.lookup · = none) :=
  zonk_among_of_head (fun _ => zonkHead_among) h

/-! ## Without solved metavariables nothing happens -/

theorem zonkAll_of_heads {ts : List Term} (h : ∀ t ∈ ts, t.zonkHead fuel ms env = .ok (.term t)) :
    zonkAll fuel ms env ts = .ok ts := by
  induction ts with
  | nil => rfl
  | cons t ts ih =>
    obtain ⟨ht, hts⟩ := List.forall_mem_cons.1 h
    rw [zonkAll, ht, ih hts]
    rfl

theorem zonkHead_of_among (h : t.Among (ms.lookup · = none)) :
    t.zonkHead fuel ms env = .ok (.term t) := by
  induction t generalizing env with
  | type | var | global | prim | nat => rfl
  | metavar m => rw [zonkHead, among_metavar.1 h]
  | app f icit x ihf ihx =>
    obtain ⟨hf, hx⟩ := among_app.1 h
    rw [zonkHead, ihf hf, ok_bind, ihx hx]
    rfl
  | proj x p ih =>
    rw [zonkHead, ih h]
    rfl
  | bind b dom body ihdom ihbody =>
    obtain ⟨hdom, hbody⟩ := among_bind.1 h
    simp only [zonkHead, ihdom hdom, ihbody hbody]
    rfl
  | pair a b s iha ihb ihs =>
    obtain ⟨ha, hb, hs⟩ := among_pair.1 h
    simp only [zonkHead, iha ha, ihb hb, ihs hs]
    rfl
  | letIn x erased ty val body ihty ihval ihbody =>
    obtain ⟨hty, hval, hbody⟩ := among_letIn.1 h
    simp only [zonkHead, ihty hty, ihval hval, ihbody hbody]
    rfl
  | elim e m s cs ihm ihs ihcs =>
    obtain ⟨hm, hs, hcs⟩ := among_elim.1 h
    simp only [zonkHead, ihm hm, ihs hs, zonkAll_of_heads fun c hc => ihcs c hc (hcs c hc)]
    rfl

/-- Zonking leaves a term alone that mentions unsolved metavariables only. -/
theorem zonk_of_among (h : t.Among (ms.lookup · = none)) : t.zonk fuel ms env = .ok t :=
  zonk_of_head (zonkHead_of_among h) rfl

/-- **Zonking is complete and idempotent.** No solved metavariable occurs in the result, zonking it
again gives it back, and a term in which no solved metavariable occurs is its own result. -/
theorem zonk_complete (h : t.zonk fuel ms env = .ok t') :
    (∀ m ∈ t'.metaOccurrences, ms.lookup m = none) ∧ (∀ fuel', t'.zonk fuel' ms env = .ok t') ∧
      ((∀ m ∈ t.metaOccurrences, ms.lookup m = none) → t' = t) := by
  have hopen : t'.Among (ms.lookup · = none) := zonk_among h
  refine ⟨hopen, fun fuel' => zonk_of_among hopen, fun ht => ?_⟩
  have hcopied : t.zonk fuel ms env = .ok t := zonk_of_among ht
  exact Except.ok.inj (h.symm.trans hcopied)

/-- A chain of solutions, `?0 := \x. ?1 x` and `?1 := \x. S x`, met as the head of a scrutinee and
as an argument of the unsolved `?2`: the recursion makes a step, and the rest of it waits for the
variable. -/
theorem zonk_complete_chain :
    ∃ ms₀ ms : MetaStore,
      let lam (body : Term) : Val := .closure ⟨⟨.lam .expl, "x", false⟩, .prim .nat, .empty, body⟩
      let recursion (scrut : Term) : Term :=
        .elim .nat (.lam .expl "_" (.prim .nat) (.prim .nat)) scrut
        [.nat 0, .lam .expl "m" (.prim .nat) (.lam .expl "r" (.prim .nat) (.var ⟨1⟩))]
      let env : Env := Env.empty.push (.fresh 0)
      let call : Term := .app (.metavar ⟨0⟩) .expl (.var ⟨0⟩)
      let t : Term := .app (.metavar ⟨2⟩) .expl (.pair (recursion call) call .type)
      let t' : Term :=
        .app (.metavar ⟨2⟩) .expl (.pair (.var ⟨0⟩) (.app (.prim .succ) .expl (.var ⟨0⟩)) .type)
      MetaStore.empty.fresh.2.fresh.2.fresh.2.set ⟨0⟩ (lam (.app (.metavar ⟨1⟩) .expl (.var ⟨0⟩))) =
        .ok ms₀ ∧
        ms₀.set ⟨1⟩ (lam (.app (.prim .succ) .expl (.var ⟨0⟩))) = .ok ms ∧
          t.zonk 20 ms env = .ok t' ∧
        (∀ m ∈ t'.metaOccurrences, ms.lookup m = none) ∧ (∀ fuel', t'.zonk fuel' ms env = .ok t') ∧
          ((∀ m ∈ t.metaOccurrences, ms.lookup m = none) → t' = t) := by
  exact ⟨_, _, rfl, rfl, rfl, @zonk_complete 20 _ _ _ _ rfl⟩

end Term

end Elaborator
