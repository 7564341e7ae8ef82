import Mathlib.Data.List.Forall2
import Elaborator.Meta.Store
import Elaborator.Proofs.Conversion.Subst
import Elaborator.Proofs.Scope.Shown

/-! # Equality of core terms

Two core terms in a scope are equal (`Conv`) if the rules of computation, of extensionality and of
irrelevance make them equal, what is known about globals and metavariables included. Terms are not
typed here, so the rules of computation are exactly those that evaluation follows, whether the term
makes sense or not.

Values are compared as the terms they stand for (`Val.embed`). Equations that wait for a
metavariable may be assumed, each in its own scope only: `Conv` has no rule that moves an equation
into a larger scope. -/

namespace Elaborator

/-! ## Values as terms -/

def Term.ofList (ts : List Term) (i : Nat) : Term := ts.getD i .type

def Head.embed (n : Nat) : Head → Term
  | .var l => .var ⟨n - 1 - l.toNat⟩
  | .prim p => .prim p
  | .metavar m => .metavar m

mutual

/-- The term that a value stands for in a scope of this size. Nothing is computed: globals stay
folded, and the body of a closure is the term it was made from. -/
def Val.embed : (n : Nat) → Val → Term
  | _, .type => .type
  | n, .neutral h sp => Spine.embed n (h.embed n) sp
  | n, .glued x sp _ => Spine.embed n (.global x) sp
  | n, .closure ⟨b, dom, ⟨_, locals⟩, body⟩ =>
    .bind b (dom.embed n)
      (body.expand (Term.cons (.self 0) (.ofList (Val.embedAll (n + 1) locals))))
  | n, .pair a b s => .pair (a.embed n) (b.embed n) (s.embed n)
  | _, .nat k => .nat k

def Spine.embed : (n : Nat) → Term → List Elim → Term
  | _, t, [] => t
  | n, t, e :: sp => Elim.embed n (Spine.embed n t sp) e

def Elim.embed : (n : Nat) → Term → Elim → Term
  | n, t, .app icit x => .app t icit (x.embed n)
  | _, t, .proj p => .proj t p
  | n, t, .cases e motive cases => .elim e (motive.embed n) t (Val.embedAll n cases)

def Val.embedAll : (n : Nat) → List Val → List Term
  | _, [] => []
  | n, v :: vs => v.embed n :: Val.embedAll n vs

end

def Env.embed (n : Nat) (env : Env) : Nat → Term := .ofList (Val.embedAll n env.locals)

theorem Term.ofList_cons (t : Term) (ts : List Term) : ofList (t :: ts) = cons t (ofList ts) := by
  funext i
  cases i <;> rfl

theorem Val.embedAll_eq (n : Nat) (vs : List Val) : Val.embedAll n vs = vs.map (Val.embed n) := by
  induction vs with
  | nil => rfl
  | cons v vs ih => rw [List.map_cons, ← ih, Val.embedAll]

theorem Env.embed_push (n : Nat) (env : Env) (v : Val) :
    (env.push v).embed n = Term.cons (v.embed n) (env.embed n) :=
  Term.ofList_cons _ _

/-- What a variable of an environment stands for. -/
theorem Env.embed_eq {env : Env} {i : Index} {v : Val} (h : env.local? i = some v) (n : Nat) :
    env.embed n i.toNat = v.embed n := by
  have hv : env.locals[i.toNat]? = some v := h
  simp [Env.embed, Term.ofList, Val.embedAll_eq, List.getD_eq_getElem?_getD, hv]

/-! ## Values in scopes of different sizes

A value keeps its levels when the scope grows, while the term it stands for counts from the other
end. What one such term has to be substituted with to get the other is said once, for all changes of
the size. -/

/-- A replacement takes each of these levels from a scope of size `m` to one of size `n`. -/
def Moves (L : Nat → Prop) (σ : Nat → Term) (m n : Nat) : Prop :=
  ∀ l, L l → l < m ∧ l < n ∧ σ (m - 1 - l) = .self (n - 1 - l)

section

variable {B : Bounds} {L : Nat → Prop} {σ : Nat → Term} {m n : Nat}

/-- A renaming that moves levels from depth `m` to depth `n` goes under a binder. -/
theorem Moves.up (h : Moves L σ m n) : Moves L (Term.up σ) (m + 1) (n + 1) := by
  intro l hl
  obtain ⟨hm, hn, hσ⟩ := h l hl
  refine ⟨Nat.lt_succ_of_lt hm, Nat.lt_succ_of_lt hn, ?_⟩
  have hleft : m + 1 - 1 - l = (m - 1 - l) + 1 := by omega
  have hright : n + 1 - 1 - l = (n - 1 - l) + 1 := by omega
  rw [hleft, hright]
  exact congrArg Term.shift hσ

/-- A closure embeds as its binder over its body, with the environment substituted under the binder.
-/
theorem Val.embed_closure (c : Closure) (n : Nat) :
    (Val.closure c).embed n =
      .bind c.binder (c.dom.embed n)
        (c.body.expand (Term.cons (.self 0) (c.env.embed (n + 1)))) := by
  obtain ⟨b, dom, ⟨globals, locals⟩, body⟩ := c
  rfl

/-- A substitution goes through a spine when it goes through the values along it. -/
theorem Spine.embed_subst {t : Term} {sp : Spine}
    (h : ∀ v ∈ Spine.vals sp, (v.embed m).subst σ = v.embed n) :
    (Spine.embed m t sp).subst σ = Spine.embed n (t.subst σ) sp := by
  induction sp with
  | nil => rfl
  | cons e sp ih =>
    obtain ⟨he, hsp⟩ := List.forall_mem_append.1 h
    cases e with
    | app icit x =>
      have hx : (x.embed m).subst σ = x.embed n := he x (List.mem_singleton_self x)
      show Term.app _ icit _ = Term.app _ icit _
      rw [ih hsp, hx]
    | proj p => exact congrArg (Term.proj · p) (ih hsp)
    | cases e motive cs =>
      obtain ⟨hm, hcs⟩ := List.forall_mem_cons.1 he
      show Term.elim e _ _ (Term.substAll σ (Val.embedAll m cs)) =
        Term.elim e _ _ (Val.embedAll n cs)
      rw [ih hsp, hm, Term.substAll_eq, Val.embedAll_eq, Val.embedAll_eq, List.map_map]
      exact congrArg _ (List.map_congr_left hcs)

/-- The variables of an environment are moved if its values are. -/
theorem Env.embed_subst {env : Env} (h : ∀ v ∈ env.locals, (v.embed m).subst σ = v.embed n) :
    (fun i => (env.embed m i).subst σ) = env.embed n := by
  funext i
  simp only [Env.embed, Term.ofList, Val.embedAll_eq, List.getD_eq_getElem?_getD, List.getElem?_map]
  cases hv : env.locals[i]? with
  | none => rfl
  | some v => exact h v (List.mem_of_getElem? hv)

/-- A value stands for the same term in all scopes, up to where its levels are counted from. -/
theorem Val.Shows.embed_subst {v : Val} (h : v.Shows B L) (hσ : Moves L σ m n) :
    (v.embed m).subst σ = v.embed n := by
  induction h generalizing σ m n with
  | type | nat => rfl
  | @neutral h sp hh _ ih =>
    refine (Spine.embed_subst fun v hv => ih v hv hσ).trans ?_
    cases h with
    | var l => exact congrArg (Spine.embed n · sp) (hσ l.toNat hh).2.2
    | prim p => rfl
    | metavar k => rfl
  | glued _ ih => exact Spine.embed_subst fun v hv => ih v hv hσ
  | @closure c _ _ _ ihd ihl =>
    rw [Val.embed_closure, Val.embed_closure, Term.subst, ihd hσ, Term.expand_subst, Term.cons_comp,
      Env.embed_subst fun v hv => ihl v hv hσ.up]
    rfl
  | pair _ _ _ iha ihb ihs => rw [Val.embed, Term.subst, iha hσ, ihb hσ, ihs hσ, Val.embed]

/-- Relabelling by `j` moves the levels below `n` from depth `n` to depth `n + j`. -/
theorem Moves.relabel (hL : ∀ l, L l → l < n) (j : Nat) :
    Moves L (fun i => .self (i + j)) n (n + j) := by
  intro l hl
  have hlt := hL l hl
  refine ⟨hlt, by omega, congrArg Term.self ?_⟩
  omega

/-- In a larger scope, the variables of the term are those of before. -/
theorem Val.Shows.embed_add {v : Val} (h : v.Shows B L) (hL : ∀ l, L l → l < n) (j : Nat) :
    (v.embed n).relabel (· + j) = v.embed (n + j) := by
  rw [Term.relabel_eq_subst]
  exact h.embed_subst (.relabel hL j)

/-- A value within levels below `n` embeds at a greater depth as the relabelled embedding. -/
theorem Val.Within.embed_add {v : Val} (h : v.Within B L) (hL : ∀ l, L l → l < n) (j : Nat) :
    (v.embed n).relabel (· + j) = v.embed (n + j) :=
  h.shows.embed_add hL j

/-- A value within levels below `n` embeds under one more binder as the shifted embedding. -/
theorem Val.Within.embed_succ {v : Val} (h : v.Within B L) (hL : ∀ l, L l → l < n) :
    (v.embed n).shift = v.embed (n + 1) :=
  h.embed_add hL 1

end

/-! ## Rules of computation -/

namespace Term

/-- The first term is used by the second one in one elimination. -/
inductive Used (t : Term) : Term → Prop
  | app {icit : Icit} {x : Term} : Used t (.app t icit x)
  | proj {p : Proj} : Used t (.proj t p)
  | elim {e : Eliminator} {motive : Term} {cases : List Term} : Used t (.elim e motive t cases)

/-- The head of the term is a variable, a global, a metavariable or a primitive. -/
inductive Neutral : Term → Prop
  | var {i : Index} : Neutral (.var i)
  | global {x : Name} : Neutral (.global x)
  | metavar {m : MetaId} : Neutral (.metavar m)
  | prim {p : Prim} : Neutral (.prim p)
  | used {t u : Term} (head : Neutral t) (use : Used t u) : Neutral u

/-- The computations that the elimination of a value performs. -/
inductive Reduces : Term → Term → Prop
  | beta {b : Binder} {dom body x : Term} {icit : Icit} :
      Reduces (.app (.bind b dom body) icit x) (body.inst x)
  | fst {a b s : Term} : Reduces (.proj (.pair a b s) .fst) a
  | snd {a b s : Term} : Reduces (.proj (.pair a b s) .snd) b
  | succ {n : Nat} : Reduces (.app (.prim .succ) .expl (.nat n)) (.nat (n + 1))
  | true {m c : Term} {cs : List Term} (case : cs[0]? = some c) :
      Reduces (.elim .bool m (.prim .true) cs) c
  | false {m c : Term} {cs : List Term} (case : cs[1]? = some c) :
      Reduces (.elim .bool m (.prim .false) cs) c
  | zero {m c : Term} {cs : List Term} (case : cs[0]? = some c) :
      Reduces (.elim .nat m (.nat 0) cs) c
  | literal {m c : Term} {n : Nat} {cs : List Term} (case : cs[1]? = some c) :
      Reduces (.elim .nat m (.nat (n + 1)) cs)
        (.app (.app c .expl (.nat n)) .expl (.elim .nat m (.nat n) cs))
  | successor {m c pred : Term} {icit : Icit} {cs : List Term} (case : cs[1]? = some c) :
      Reduces (.elim .nat m (.app (.prim .succ) icit pred) cs)
        (.app (.app c .expl pred) .expl (.elim .nat m pred cs))
  | refl {m r s c : Term} {cs : List Term} (inner : Used (.prim .refl) r) (outer : Used r s)
      (case : cs[0]? = some c) : Reduces (.elim .heq m s cs) c

end Term

/-! ## Equality -/

/-- Equality of two terms in a scope of this size, over some globals and for what is known about
metavariables. The equations `E` are assumed. -/
inductive Conv (g : Globals) (k : Knowledge) (E : Problem → Prop) : (n : Nat) → Term → Term → Prop
  | refl {n : Nat} (t : Term) : Conv g k E n t t
  | symm {n : Nat} {s t : Term} (h : Conv g k E n s t) : Conv g k E n t s
  | trans {n : Nat} {s t u : Term} (h : Conv g k E n s t) (h' : Conv g k E n t u) : Conv g k E n s u
  -- Equality is a congruence. Names of variables do not matter.
  | app {n : Nat} {f f' x x' : Term} {icit : Icit} (hf : Conv g k E n f f')
      (hx : Conv g k E n x x') : Conv g k E n (.app f icit x) (.app f' icit x')
  | bind {n : Nat} {b b' : Binder} {dom dom' body body' : Term} (hkind : b.kind = b'.kind)
      (herased : b.erased = b'.erased) (hdom : Conv g k E n dom dom')
      (hbody : Conv g k E (n + 1) body body') :
      Conv g k E n (.bind b dom body) (.bind b' dom' body')
  | pair {n : Nat} {a a' b b' s s' : Term} (ha : Conv g k E n a a') (hb : Conv g k E n b b')
      (hs : Conv g k E n s s') : Conv g k E n (.pair a b s) (.pair a' b' s')
  | proj {n : Nat} {x x' : Term} {p : Proj} (hx : Conv g k E n x x') :
      Conv g k E n (.proj x p) (.proj x' p)
  | letIn {n : Nat} {x x' : Name} {erased : Bool} {ty ty' val val' body body' : Term}
      (hty : Conv g k E n ty ty') (hval : Conv g k E n val val')
      (hbody : Conv g k E (n + 1) body body') :
      Conv g k E n (.letIn x erased ty val body) (.letIn x' erased ty' val' body')
  | elim {n : Nat} {e : Eliminator} {m m' s s' : Term} {cs cs' : List Term} (hm : Conv g k E n m m')
      (hs : Conv g k E n s s') (hlength : cs.length = cs'.length)
      (hcs : ∀ (i : Nat) (c c' : Term), cs[i]? = some c → cs'[i]? = some c' → Conv g k E n c c') :
      Conv g k E n (.elim e m s cs) (.elim e m' s' cs')
  | reduce {n : Nat} {s t : Term} (h : s.Reduces t) : Conv g k E n s t
  | unfold {n : Nat} {x : Name} {v : Val} (h : g.env.global? x = some v) :
      Conv g k E n (.global x) (v.embed n)
  | solved {n : Nat} {m : MetaId} {v : Val} (h : k.cells.find? m.toNat = some (some v)) :
      Conv g k E n (.metavar m) (v.embed n)
  -- Extensionality is for terms with a neutral head, the only ones that comparison uses it for.
  -- Such a term need not be stuck: an elimination of `True` may compute to a function type, which
  -- is then equal to a function over any domain.
  | etaFun {n : Nat} {icit : Icit} {x : Name} {erased : Bool} {dom t : Term} (h : t.Neutral) :
      Conv g k E n (.bind ⟨.lam icit, x, erased⟩ dom (.app t.shift icit (.self 0))) t
  | etaPair {n : Nat} {t s : Term} (h : t.Neutral) :
      Conv g k E n (.pair (.proj t .fst) (.proj t .snd) s) t
  | lamDom {n : Nat} {icit : Icit} {x : Name} {erased : Bool} {dom dom' body : Term} :
      Conv g k E n (.bind ⟨.lam icit, x, erased⟩ dom body) (.bind ⟨.lam icit, x, erased⟩ dom' body)
  | pairType {n : Nat} {a b s s' : Term} : Conv g k E n (.pair a b s) (.pair a b s')
  | assumed {p : Problem} (h : E p) : Conv g k E p.size (p.lhs.embed p.size) (p.rhs.embed p.size)

namespace Conv

variable {g : Globals} {k k' : Knowledge} {E E' : Problem → Prop} {n : Nat}

/-- An equality stays if solutions stay and the assumptions follow. -/
theorem mono {s t : Term} (h : Conv g k E n s t)
    (hsolved : ∀ m v, k.cells.find? m = some (some v) → k'.cells.find? m = some (some v))
    (hE : ∀ p, E p → Conv g k' E' p.size (p.lhs.embed p.size) (p.rhs.embed p.size)) :
    Conv g k' E' n s t := by
  induction h with
  | refl t => exact .refl t
  | symm _ ih => exact ih.symm
  | trans _ _ ih ih' => exact ih.trans ih'
  | app _ _ ihf ihx => exact .app ihf ihx
  | bind hkind herased _ _ ihd ihb => exact .bind hkind herased ihd ihb
  | pair _ _ _ iha ihb ihs => exact .pair iha ihb ihs
  | proj _ ih => exact .proj ih
  | letIn _ _ _ iht ihv ihb => exact .letIn iht ihv ihb
  | elim _ _ hlength _ ihm ihs ihc => exact .elim ihm ihs hlength ihc
  | reduce h => exact .reduce h
  | unfold h => exact .unfold h
  | solved h => exact .solved (hsolved _ _ h)
  | etaFun h => exact .etaFun h
  | etaPair h => exact .etaPair h
  | lamDom => exact .lamDom
  | pairType => exact .pairType
  | assumed h => exact hE _ h

/-- The body of a function decides, whatever it is annotated with. -/
theorem lam {b b' : Binder} {dom dom' body body' : Term} (hlam : b.kind.isLam)
    (hkind : b.kind = b'.kind) (herased : b.erased = b'.erased)
    (hbody : Conv g k E (n + 1) body body') :
    Conv g k E n (.bind b dom body) (.bind b' dom' body') := by
  obtain ⟨kind, x, erased⟩ := b
  cases kind with
  | lam icit => exact lamDom.trans (.bind hkind herased (.refl _) hbody)
  | sigma => cases hlam
  | pi icit => cases hlam

/-- A pair is equal to what has the same components. -/
theorem pair_of_components {a b s s' a' b' : Term} (ha : Conv g k E n a a')
    (hb : Conv g k E n b b') : Conv g k E n (.pair a b s) (.pair a' b' s') :=
  (pair ha hb (.refl s)).trans pairType

end Conv

/-! ## What is known now and later -/

namespace Knowledge

def Waiting (k : Knowledge) (p : Problem) : Prop := ∃ m ps, k.postponed.find? m = some ps ∧ p ∈ ps

/-- Equality for what is known now, with the waiting problems assumed. -/
abbrev Derives (g : Globals) (k : Knowledge) (n : Nat) (s t : Term) : Prop :=
  Conv g k k.Waiting n s t

def Settles (g : Globals) (k : Knowledge) (p : Problem) : Prop :=
  k.Derives g p.size (p.lhs.embed p.size) (p.rhs.embed p.size)

/-- All that was known follows from what is known later: solutions stay, and problems that waited
either still do or have been dealt with. -/
structure Entails (g : Globals) (k k' : Knowledge) : Prop where
  solved : ∀ m v, k.cells.find? m = some (some v) → k'.cells.find? m = some (some v)
  waiting : ∀ p, k.Waiting p → k'.Settles g p

variable {g : Globals} {k k' k'' : Knowledge}

/-- What is derived stays derivable. -/
theorem Entails.derives {n : Nat} {s t : Term} (h : Entails g k k') (hst : k.Derives g n s t) :
    k'.Derives g n s t :=
  hst.mono h.solved h.waiting

theorem Entails.refl (k : Knowledge) : Entails g k k := ⟨fun _ _ h => h, fun _ h => .assumed h⟩

theorem Entails.trans (h : Entails g k k') (h' : Entails g k' k'') : Entails g k k'' :=
  ⟨fun m v hv => h'.solved m v (h.solved m v hv), fun p hp => h'.derives (h.waiting p hp)⟩

end Knowledge

end Elaborator
