import Mathlib.Logic.Basic
import Elaborator.Globals
import Elaborator.Value.Eval

/-! # What a term or a value may mention

A term lives in a scope: each of its indices has to be bound, either by a binder of the term or by
the scope. A value has no binders that bind its levels; it may mention the levels of the scope it
was made in. Both may mention metavariables, and a value carries the values of the globals it was
made with.

`Term.Within` and `Val.Within` bound all of this at once. The bounds on metavariables and on globals
are parameters (`Bounds`), because they differ from use to use, while the lemmas about them do not:
values are only ever taken apart and put together. The same goes for what is stuck: the bounds say
whether it has to be stuck for good (`Spine.Blocked`), so that nothing in a value is left to
compute. -/

namespace Elaborator

/-! ## Induction on terms

The cases of an elimination are a list of terms, so the principle that comes with the type speaks
about lists as well. This one does not. -/

/-- Induction on terms, with one hypothesis for all cases of an elimination. -/
@[induction_eliminator]
theorem Term.ind {motive : Term → Prop} (type : motive .type) (var : ∀ i, motive (.var i))
    (global : ∀ x, motive (.global x)) (metavar : ∀ m, motive (.metavar m))
    (prim : ∀ p, motive (.prim p)) (nat : ∀ n, motive (.nat n))
    (app : ∀ f icit x, motive f → motive x → motive (.app f icit x))
    (bind : ∀ b dom body, motive dom → motive body → motive (.bind b dom body))
    (pair : ∀ a b s, motive a → motive b → motive s → motive (.pair a b s))
    (proj : ∀ x p, motive x → motive (.proj x p))
    (letIn : ∀ x erased ty val body, motive ty → motive val → motive body →
      motive (.letIn x erased ty val body))
    (elim : ∀ e m s cs, motive m → motive s → (∀ c ∈ cs, motive c) → motive (.elim e m s cs))
    (t : Term) : motive t :=
  Term.rec type var global metavar prim nat app bind pair proj letIn elim
    (List.forall_mem_nil _) (fun _ _ hc hcs => List.forall_mem_cons.2 ⟨hc, hcs⟩) t

/-! ## Equality of terms -/

namespace Term

mutual

def same : Term → Term → Bool
  | .type, .type => true
  | .var i, .var j => i == j
  | .global x, .global y => x == y
  | .metavar m, .metavar k => m == k
  | .prim p, .prim q => p == q
  | .nat n, .nat k => n == k
  | .app f icit x, .app g icit' y => f.same g && icit == icit' && x.same y
  | .bind b dom body, .bind b' dom' body' => b == b' && dom.same dom' && body.same body'
  | .pair a b s, .pair a' b' s' => a.same a' && b.same b' && s.same s'
  | .proj x p, .proj y q => x.same y && p == q
  | .letIn x erased ty val body, .letIn y erased' ty' val' body' =>
    x == y && erased == erased' && ty.same ty' && val.same val' && body.same body'
  | .elim e motive scrut cases, .elim e' motive' scrut' cases' =>
    e == e' && motive.same motive' && scrut.same scrut' && sameAll cases cases'
  | _, _ => false

def sameAll : List Term → List Term → Bool
  | [], [] => true
  | t :: ts, u :: us => t.same u && sameAll ts us
  | _, _ => false

end

theorem same_iff {t u : Term} : t.same u = true ↔ t = u := by
  induction t generalizing u with
  | elim e m s cs hm hs hcs =>
    have hall : ∀ {us : List Term}, sameAll cs us = true ↔ cs = us := by
      intro us
      induction cs generalizing us with
      | nil => cases us <;> simp [sameAll]
      | cons c cs ih =>
        obtain ⟨hc, hcs⟩ := List.forall_mem_cons.1 hcs
        cases us with
        | nil => simp [sameAll]
        | cons u us => simp [sameAll, hc, ih hcs]
    cases u <;> simp [same, hm, hs, hall, and_assoc]
  | _ => cases u <;> simp_all [same, and_assoc]

instance : DecidableEq Term := fun _ _ => decidable_of_iff _ same_iff

end Term

/-! ## Scoped terms -/

namespace Term

mutual

/-- Whether every index is bound, by a binder of the term or in a scope of this size. -/
def Scoped : Nat → Term → Prop
  | n, .var i => i.toNat < n
  | _, .type | _, .global _ | _, .metavar _ | _, .prim _ | _, .nat _ => True
  | n, .app f _ x => f.Scoped n ∧ x.Scoped n
  | n, .bind _ dom body => dom.Scoped n ∧ body.Scoped (n + 1)
  | n, .pair a b s => a.Scoped n ∧ b.Scoped n ∧ s.Scoped n
  | n, .proj x _ => x.Scoped n
  | n, .letIn _ _ ty val body => ty.Scoped n ∧ val.Scoped n ∧ body.Scoped (n + 1)
  | n, .elim _ motive scrut cases => motive.Scoped n ∧ scrut.Scoped n ∧ ScopedAll n cases

def ScopedAll : Nat → List Term → Prop
  | _, [] => True
  | n, t :: ts => t.Scoped n ∧ ScopedAll n ts

end

theorem scopedAll_iff {n : Nat} {ts : List Term} : ScopedAll n ts ↔ ∀ t ∈ ts, t.Scoped n := by
  induction ts with
  | nil => simp [ScopedAll]
  | cons t ts ih => simp [ScopedAll, ih]

theorem metaOccurrencesAll_eq (ts : List Term) :
    metaOccurrencesAll ts = ts.flatMap metaOccurrences := by
  induction ts with
  | nil => rfl
  | cons t ts ih => simp [metaOccurrencesAll, ih]

theorem globalsAll_eq (ts : List Term) : globalsAll ts = ts.flatMap globals := by
  induction ts with
  | nil => rfl
  | cons t ts ih => simp [globalsAll, ih]

theorem usesIndexAny_eq (i : Nat) (ts : List Term) : usesIndexAny i ts = ts.any (usesIndex i) := by
  induction ts with
  | nil => rfl
  | cons t ts ih => rw [usesIndexAny, ih, List.any_cons]

end Term

/-! ## Bounds -/

/-- What may be mentioned besides variables. -/
structure Bounds where
  metas : MetaId → Prop
  /-- The values that may stand for a global. -/
  globals : Name → Val → Prop
  /-- Whether no neutral value may hide something that computes. -/
  canonical : Prop

namespace Term

variable {B : Bounds} {n : Nat}

/-- Every index is bound in a scope of this size, and every metavariable is in bounds. -/
def Within (B : Bounds) (n : Nat) (t : Term) : Prop :=
  t.Scoped n ∧ ∀ m ∈ t.metaOccurrences, B.metas m

@[simp] theorem within_type : Term.type.Within B n := ⟨trivial, List.forall_mem_nil _⟩

@[simp] theorem within_var {i : Index} : (Term.var i).Within B n ↔ i.toNat < n :=
  and_iff_left (List.forall_mem_nil _)

@[simp] theorem within_global {x : Name} : (Term.global x).Within B n :=
  ⟨trivial, List.forall_mem_nil _⟩

@[simp] theorem within_metavar {m : MetaId} : (Term.metavar m).Within B n ↔ B.metas m := by
  show True ∧ (∀ k ∈ [m], B.metas k) ↔ _
  rw [List.forall_mem_singleton, true_and]

@[simp] theorem within_prim {p : Prim} : (Term.prim p).Within B n :=
  ⟨trivial, List.forall_mem_nil _⟩

@[simp] theorem within_nat {k : Nat} : (Term.nat k).Within B n := ⟨trivial, List.forall_mem_nil _⟩

@[simp] theorem within_app {f x : Term} {icit : Icit} :
    (Term.app f icit x).Within B n ↔ f.Within B n ∧ x.Within B n := by
  show (f.Scoped n ∧ x.Scoped n) ∧ (∀ m ∈ f.metaOccurrences ++ x.metaOccurrences, B.metas m) ↔ _
  rw [List.forall_mem_append]
  exact and_and_and_comm

@[simp] theorem within_bind {b : Binder} {dom body : Term} :
    (Term.bind b dom body).Within B n ↔ dom.Within B n ∧ body.Within B (n + 1) := by
  show (dom.Scoped n ∧ body.Scoped (n + 1)) ∧
    (∀ m ∈ dom.metaOccurrences ++ body.metaOccurrences, B.metas m) ↔ _
  rw [List.forall_mem_append]
  exact and_and_and_comm

@[simp] theorem within_pair {a b s : Term} :
    (Term.pair a b s).Within B n ↔ a.Within B n ∧ b.Within B n ∧ s.Within B n := by
  show (a.Scoped n ∧ b.Scoped n ∧ s.Scoped n) ∧
    (∀ m ∈ a.metaOccurrences ++ b.metaOccurrences ++ s.metaOccurrences, B.metas m) ↔ _
  rw [List.append_assoc, List.forall_mem_append, List.forall_mem_append, and_and_and_comm]
  exact and_congr_right fun _ => and_and_and_comm

@[simp] theorem within_proj {x : Term} {p : Proj} : (Term.proj x p).Within B n ↔ x.Within B n :=
  Iff.rfl

@[simp] theorem within_letIn {x : Name} {erased : Bool} {ty val body : Term} :
    (Term.letIn x erased ty val body).Within B n ↔
      ty.Within B n ∧ val.Within B n ∧ body.Within B (n + 1) := by
  show (ty.Scoped n ∧ val.Scoped n ∧ body.Scoped (n + 1)) ∧
    (∀ m ∈ ty.metaOccurrences ++ val.metaOccurrences ++ body.metaOccurrences, B.metas m) ↔ _
  rw [List.append_assoc, List.forall_mem_append, List.forall_mem_append, and_and_and_comm]
  exact and_congr_right fun _ => and_and_and_comm

@[simp] theorem within_elim {e : Eliminator} {m s : Term} {cs : List Term} :
    (Term.elim e m s cs).Within B n ↔ m.Within B n ∧ s.Within B n ∧ ∀ c ∈ cs, c.Within B n := by
  show (m.Scoped n ∧ s.Scoped n ∧ ScopedAll n cs) ∧
    (∀ k ∈ m.metaOccurrences ++ s.metaOccurrences ++ metaOccurrencesAll cs, B.metas k) ↔ _
  rw [List.forall_mem_append, List.forall_mem_append, scopedAll_iff, metaOccurrencesAll_eq]
  constructor
  · rintro ⟨⟨hm, hs, hcs⟩, ⟨hm', hs'⟩, hcs'⟩
    refine ⟨⟨hm, hm'⟩, ⟨hs, hs'⟩, fun c hc => ⟨hcs c hc, fun k hk => hcs' k ?_⟩⟩
    exact List.mem_flatMap.2 ⟨c, hc, hk⟩
  · rintro ⟨⟨hm, hm'⟩, ⟨hs, hs'⟩, hcs⟩
    refine ⟨⟨hm, hs, fun c hc => (hcs c hc).1⟩, ⟨hm', hs'⟩, fun k hk => ?_⟩
    obtain ⟨c, hc, hk⟩ := List.mem_flatMap.1 hk
    exact (hcs c hc).2 k hk

end Term

/-! ## Values

The values inside a value are those in its spine, its components, the type of its variable and the
values that its environment holds. A global is closed, whatever mentions it. -/

def Elim.vals : Elim → List Val
  | .app _ x => [x]
  | .proj _ => []
  | .cases _ motive cs => motive :: cs

def Spine.vals (sp : Spine) : List Val := sp.flatMap Elim.vals

def noLevels : Nat → Prop := fun _ => False

def anything {α : Type} : α → Prop := fun _ => True

def Head.Within (B : Bounds) (L : Nat → Prop) : Head → Prop
  | .var l => L l.toNat
  | .prim _ => True
  | .metavar m => B.metas m

/-- The elimination does not compute when it meets a head under a spine. -/
def Elim.Blocked (h : Head) (sp : Spine) : Elim → Prop
  | .app icit x => ¬ (h = .prim .succ ∧ sp = [] ∧ icit = .expl ∧ ∃ n, x = .nat n)
  | .proj _ => True
  | .cases e _ _ => Reduction.of e (.neutral h sp) = .stuck

def Spine.Blocked (h : Head) : Spine → Prop
  | [] => True
  | e :: sp => e.Blocked h sp ∧ Spine.Blocked h sp

/-- What is stuck on a metavariable does not compute. -/
theorem Spine.blocked_metavar {m : MetaId} : ∀ {sp : Spine}, Spine.Blocked (.metavar m) sp
  | [] => trivial
  | .app _ _ :: _ => ⟨fun h => (nomatch h.1), Spine.blocked_metavar⟩
  | .proj _ :: _ => ⟨trivial, Spine.blocked_metavar⟩
  | .cases e _ _ :: _ => ⟨by cases e <;> rfl, Spine.blocked_metavar⟩

/-- Every level that a value mentions satisfies `L`, every metavariable and every global is in
bounds, and the bodies of closures are scoped. Of the globals that a closure holds, only those that
its body mentions matter. -/
inductive Val.Within (B : Bounds) : (L : Nat → Prop) → Val → Prop
  | type {L : Nat → Prop} : Within B L .type
  | nat {L : Nat → Prop} {n : Nat} : Within B L (.nat n)
  | neutral {L : Nat → Prop} {h : Head} {sp : Spine} (head : h.Within B L)
      (blocked : B.canonical → Spine.Blocked h sp) (spine : ∀ v ∈ Spine.vals sp, Within B L v) :
      Within B L (.neutral h sp)
  | glued {L : Nat → Prop} {x : Name} {sp : Spine} {base : Val} (bound : B.globals x base)
      (closed : Within B noLevels base) (spine : ∀ v ∈ Spine.vals sp, Within B L v) :
      Within B L (.glued x sp base)
  | closure {L : Nat → Prop} {c : Closure} (dom : Within B L c.dom)
      (locals : ∀ v ∈ c.env.locals, Within B L v)
      (bound : ∀ x ∈ c.body.globals, ∀ v, c.env.global? x = some v → B.globals x v)
      (closed : ∀ x ∈ c.body.globals, ∀ v, c.env.global? x = some v → Within B noLevels v)
      (body : c.body.Within B (c.env.size + 1)) : Within B L (.closure c)
  | pair {L : Nat → Prop} {a b s : Val} (fst : Within B L a) (snd : Within B L b)
      (sigma : Within B L s) : Within B L (.pair a b s)

def Elim.Within (B : Bounds) (L : Nat → Prop) (e : Elim) : Prop := ∀ v ∈ e.vals, v.Within B L

def Spine.Within (B : Bounds) (L : Nat → Prop) (sp : Spine) : Prop :=
  ∀ v ∈ Spine.vals sp, v.Within B L

/-- The local variables of an environment and its globals with a name in `G` are in bounds, the
globals closed. -/
structure Env.Within (B : Bounds) (L : Nat → Prop) (G : Name → Prop) (env : Env) : Prop where
  locals : ∀ v ∈ env.locals, v.Within B L
  bound : ∀ x, G x → ∀ v, env.global? x = some v → B.globals x v
  closed : ∀ x, G x → ∀ v, env.global? x = some v → v.Within B noLevels

section

variable {B : Bounds} {L K : Nat → Prop} {G : Name → Prop}

theorem Elim.within_app {icit : Icit} {x : Val} : (Elim.app icit x).Within B L ↔ x.Within B L := by
  simp [Elim.Within, Elim.vals]

theorem Elim.within_proj {p : Proj} : (Elim.proj p).Within B L := by
  simp [Elim.Within, Elim.vals]

theorem Elim.within_cases {e : Eliminator} {m : Val} {cs : List Val} :
    (Elim.cases e m cs).Within B L ↔ m.Within B L ∧ ∀ c ∈ cs, c.Within B L := by
  simp [Elim.Within, Elim.vals]

theorem Spine.within_nil : Spine.Within B L [] := by
  simp [Spine.Within, Spine.vals]

theorem Spine.within_cons {e : Elim} {sp : Spine} :
    Spine.Within B L (e :: sp) ↔ e.Within B L ∧ Spine.Within B L sp := by
  simp only [Spine.Within, Elim.Within, Spine.vals, List.flatMap_cons, List.forall_mem_append]

/-- A neutral value is within bounds when its head and its spine are, and it does not compute where
values are canonical. -/
theorem Val.within_neutral {h : Head} {sp : Spine} :
    (Val.neutral h sp).Within B L ↔
      h.Within B L ∧ (B.canonical → Spine.Blocked h sp) ∧ Spine.Within B L sp := by
  constructor
  · rintro ⟨⟩
    exact ⟨‹_›, ‹_›, ‹_›⟩
  · rintro ⟨hh, hb, hs⟩
    exact .neutral hh hb hs

/-- A definition in a value is within bounds when it is a known one and its base is closed. -/
theorem Val.within_glued {x : Name} {sp : Spine} {base : Val} :
    (Val.glued x sp base).Within B L ↔
      B.globals x base ∧ base.Within B noLevels ∧ Spine.Within B L sp := by
  constructor
  · rintro ⟨⟩
    exact ⟨‹_›, ‹_›, ‹_›⟩
  · rintro ⟨hx, hb, hs⟩
    exact .glued hx hb hs

/-- A closure is within bounds when its domain, its environment and its body are. -/
theorem Val.within_closure {c : Closure} :
    (Val.closure c).Within B L ↔
      c.dom.Within B L ∧ c.env.Within B L (· ∈ c.body.globals) ∧
        c.body.Within B (c.env.size + 1) := by
  constructor
  · rintro ⟨⟩
    exact ⟨‹_›, ⟨‹_›, ‹_›, ‹_›⟩, ‹_›⟩
  · rintro ⟨hd, he, hb⟩
    exact .closure hd he.locals he.bound he.closed hb

theorem Val.within_pair {a b s : Val} :
    (Val.pair a b s).Within B L ↔ a.Within B L ∧ b.Within B L ∧ s.Within B L := by
  constructor
  · rintro ⟨⟩
    exact ⟨‹_›, ‹_›, ‹_›⟩
  · rintro ⟨ha, hb, hs⟩
    exact .pair ha hb hs

/-- More levels may be mentioned. -/
theorem Val.Within.mono {v : Val} (h : v.Within B L) (hLK : ∀ l, L l → K l) : v.Within B K := by
  induction h generalizing K with
  | type => exact .type
  | nat => exact .nat
  | @neutral L h sp hh hb _ ih =>
    refine .neutral ?_ hb fun v hv => ih v hv hLK
    cases h with
    | var l => exact hLK _ hh
    | prim p => trivial
    | metavar m => exact hh
  | glued hx hb _ _ ih => exact .glued hx hb fun v hv => ih v hv hLK
  | closure _ _ hg hg' hb ihd ihl _ => exact .closure (ihd hLK) (fun v hv => ihl v hv hLK) hg hg' hb
  | pair _ _ _ iha ihb ihs => exact .pair (iha hLK) (ihb hLK) (ihs hLK)

/-- A closed value is in bounds for all levels. -/
theorem Val.Within.of_closed {v : Val} (h : v.Within B noLevels) : v.Within B L :=
  h.mono fun _ hl => hl.elim

theorem Env.Within.mono {env : Env} (h : env.Within B L G) (hLK : ∀ l, L l → K l) :
    env.Within B K G :=
  ⟨fun v hv => (h.locals v hv).mono hLK, h.bound, h.closed⟩

/-- Fewer globals matter. -/
theorem Env.Within.narrow {env : Env} {F : Name → Prop} (h : env.Within B L G)
    (hFG : ∀ x, F x → G x) : env.Within B L F :=
  ⟨h.locals, fun x hx => h.bound x (hFG x hx), fun x hx => h.closed x (hFG x hx)⟩

theorem Env.Within.push {env : Env} {v : Val} (h : env.Within B L G) (hv : v.Within B L) :
    (env.push v).Within B L G :=
  ⟨List.forall_mem_cons.2 ⟨hv, h.locals⟩, h.bound, h.closed⟩

/-- A variable is in bounds if its level is. -/
theorem Val.within_var {l : Level} : (Val.var l).Within B L ↔ L l.toNat := by
  simp [Val.var, Val.within_neutral, Head.Within, Spine.within_nil, Spine.Blocked]

theorem Val.within_prim {p : Prim} : (Val.prim p).Within B L := by
  simp [Val.prim, Val.within_neutral, Head.Within, Spine.within_nil, Spine.Blocked]

theorem Val.within_metavar {m : MetaId} : (Val.metavar m).Within B L ↔ B.metas m := by
  simp [Val.metavar, Val.within_neutral, Head.Within, Spine.within_nil, Spine.Blocked]

end

/-! ## Wider bounds -/

structure Bounds.Le (B C : Bounds) : Prop where
  metas : ∀ m, B.metas m → C.metas m
  globals : ∀ x v, B.globals x v → C.globals x v
  canonical : C.canonical → B.canonical

def Bounds.without (B : Bounds) (m : MetaId) : Bounds :=
  { B with metas := fun n => B.metas n ∧ n ≠ m }

/-- Leaving out a metavariable narrows the bounds. -/
theorem Bounds.without_le (B : Bounds) (m : MetaId) : (B.without m).Le B :=
  ⟨fun _ h => h.1, fun _ _ => id, id⟩

/-- A term stays within bounds that are wider. -/
theorem Term.Within.widen {B C : Bounds} {n : Nat} {t : Term} (h : t.Within B n) (hBC : B.Le C) :
    t.Within C n :=
  ⟨h.1, fun m hm => hBC.metas m (h.2 m hm)⟩

/-- A value stays within bounds that are wider. -/
theorem Val.Within.widen {B C : Bounds} {L : Nat → Prop} {v : Val} (h : v.Within B L)
    (hBC : B.Le C) : v.Within C L := by
  induction h with
  | type => exact .type
  | nat => exact .nat
  | @neutral L h sp hh hb _ ih =>
    refine .neutral ?_ (fun hc => hb (hBC.canonical hc)) ih
    cases h with
    | var l => exact hh
    | prim p => trivial
    | metavar m => exact hBC.metas m hh
  | glued hx _ _ ihb ih => exact .glued (hBC.globals _ _ hx) ihb ih
  | closure _ _ hg _ hb ihd ihl ihg =>
    exact .closure ihd ihl (fun x hx v hv => hBC.globals x v (hg x hx v hv)) ihg (hb.widen hBC)
  | pair _ _ _ iha ihb ihs => exact .pair iha ihb ihs

/-- Pushing a value makes an environment one larger. -/
@[simp] theorem Env.size_push (env : Env) (v : Val) : (env.push v).size = env.size + 1 := by
  simp [Env.size, Env.push]

theorem Globals.mem_of_find? {g : Globals} {x : Name} {d : Definition} (h : g.find? x = some d) :
    (x, d) ∈ g.map.entries := Globals.mem_entries_iff.2 h

end Elaborator
