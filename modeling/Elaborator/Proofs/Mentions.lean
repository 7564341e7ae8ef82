import Elaborator.Proofs.Acyclicity
import Elaborator.Proofs.Invariant

/-! # The metavariables of values

Evaluation, forcing and reading back make no metavariables up: what occurs in a result occurs in
what it was made from or in a solution that was looked up on the way. `Val.Among A` bounds the
metavariables of a value by a set. The lemmas below carry the bound through every function on
values. Unlike the bounds of `Val.Within`, this one says nothing about variables, so it also holds
of values that are out of scope. -/

namespace Elaborator

/-- Every metavariable that occurs in the value is in `A`. -/
def Val.Among (A : MetaId → Prop) (v : Val) : Prop := ∀ q, v.Mentions q → A q

def Term.Among (A : MetaId → Prop) (t : Term) : Prop := ∀ q ∈ t.metaOccurrences, A q

structure Env.Among (A : MetaId → Prop) (env : Env) : Prop where
  locals : ∀ v ∈ env.locals, v.Among A
  globals : ∀ x v, env.global? x = some v → v.Among A

section

variable {A : MetaId → Prop}

theorem Val.Among.mono {A' : MetaId → Prop} {v : Val} (h : v.Among A) (hA : ∀ q, A q → A' q) :
    v.Among A' :=
  fun q hq => hA q (h q hq)

theorem Term.Among.mono {A' : MetaId → Prop} {t : Term} (h : t.Among A) (hA : ∀ q, A q → A' q) :
    t.Among A' :=
  fun q hq => hA q (h q hq)

/-- What is in bounds mentions only metavariables that are in bounds. -/
theorem Val.Within.among {B : Bounds} {L : Nat → Prop} {v : Val} (h : v.Within B L) :
    v.Among B.metas :=
  fun _ hq => h.metas_of_mentions hq

theorem Val.Ground.among {v : Val} (h : v.Ground) : v.Among A :=
  (Val.Within.among h).mono fun _ => False.elim

/-! ## Terms -/

namespace Term

@[simp] theorem among_type : Term.type.Among A := List.forall_mem_nil _

@[simp] theorem among_var {i : Index} : (Term.var i).Among A := List.forall_mem_nil _

@[simp] theorem among_global {x : Name} : (Term.global x).Among A := List.forall_mem_nil _

@[simp] theorem among_prim {p : Prim} : (Term.prim p).Among A := List.forall_mem_nil _

@[simp] theorem among_nat {n : Nat} : (Term.nat n).Among A := List.forall_mem_nil _

@[simp] theorem among_metavar {m : MetaId} : (Term.metavar m).Among A ↔ A m :=
  List.forall_mem_singleton

@[simp] theorem among_app {f x : Term} {icit : Icit} :
    (Term.app f icit x).Among A ↔ f.Among A ∧ x.Among A :=
  List.forall_mem_append

@[simp] theorem among_bind {b : Binder} {dom body : Term} :
    (Term.bind b dom body).Among A ↔ dom.Among A ∧ body.Among A :=
  List.forall_mem_append

@[simp] theorem among_proj {x : Term} {p : Proj} : (Term.proj x p).Among A ↔ x.Among A := Iff.rfl

@[simp] theorem among_pair {a b s : Term} :
    (Term.pair a b s).Among A ↔ a.Among A ∧ b.Among A ∧ s.Among A := by
  simp only [Among, metaOccurrences, List.forall_mem_append, and_assoc]

@[simp] theorem among_letIn {x : Name} {erased : Bool} {ty val body : Term} :
    (Term.letIn x erased ty val body).Among A ↔ ty.Among A ∧ val.Among A ∧ body.Among A := by
  simp only [Among, metaOccurrences, List.forall_mem_append, and_assoc]

@[simp] theorem among_elim {e : Eliminator} {m s : Term} {cs : List Term} :
    (Term.elim e m s cs).Among A ↔ m.Among A ∧ s.Among A ∧ ∀ c ∈ cs, c.Among A := by
  simp only [Among, metaOccurrences, metaOccurrencesAll_eq, List.forall_mem_append,
    List.forall_mem_flatMap, and_assoc]

end Term

/-! ## Values -/

namespace Val

theorem among_type : Val.type.Among A := fun _ hq => nomatch hq

theorem among_nat {n : Nat} : (Val.nat n).Among A := fun _ hq => nomatch hq

theorem among_neutral {h : Head} {sp : Spine} :
    (Val.neutral h sp).Among A ↔ (∀ m, h = .metavar m → A m) ∧ ∀ v ∈ Spine.vals sp, v.Among A := by
  constructor
  · intro hv
    refine ⟨?_, fun v mem q hq => hv q (.spine mem hq)⟩
    rintro m rfl
    exact hv m .head
  · rintro ⟨hhead, hspine⟩ q (_ | ⟨mem, hq⟩)
    · exact hhead q rfl
    · exact hspine _ mem q hq

theorem among_glued {x : Name} {sp : Spine} {base : Val} :
    (Val.glued x sp base).Among A ↔ base.Among A ∧ ∀ v ∈ Spine.vals sp, v.Among A := by
  constructor
  · intro hv
    exact ⟨fun q hq => hv q (.gluedBase hq), fun v mem q hq => hv q (.gluedSpine mem hq)⟩
  · rintro ⟨hbase, hspine⟩ q hq
    cases hq with
    | gluedSpine mem hq => exact hspine _ mem q hq
    | gluedBase hq => exact hbase q hq

theorem among_pair {a b s : Val} :
    (Val.pair a b s).Among A ↔ a.Among A ∧ b.Among A ∧ s.Among A := by
  constructor
  · intro hv
    exact ⟨fun q hq => hv q (.fst hq), fun q hq => hv q (.snd hq), fun q hq => hv q (.sigma hq)⟩
  · rintro ⟨ha, hb, hs⟩ q hq
    cases hq with
    | fst hq => exact ha q hq
    | snd hq => exact hb q hq
    | sigma hq => exact hs q hq

theorem among_var {l : Level} : (Val.var l).Among A :=
  among_neutral.2 ⟨by simp, List.forall_mem_nil _⟩

theorem among_prim {p : Prim} : (Val.prim p).Among A :=
  among_neutral.2 ⟨by simp, List.forall_mem_nil _⟩

end Val

/-- The metavariables of a term and of all that it refers to in an environment are in `A`. -/
structure Term.AmongIn (A : MetaId → Prop) (env : Env) (t : Term) : Prop where
  locals : ∀ v ∈ env.locals, v.Among A
  globals : ∀ x ∈ t.globals, ∀ v, env.global? x = some v → v.Among A
  metas : t.Among A

namespace Term.AmongIn

variable {env : Env} {t u : Term}

/-- A part of a term that mentions no further definition or metavariable is fit for the same
environment. -/
theorem part (h : t.AmongIn A env) (hglobals : ∀ x ∈ u.globals, x ∈ t.globals)
    (hmetas : ∀ m ∈ u.metaOccurrences, m ∈ t.metaOccurrences) : u.AmongIn A env :=
  ⟨h.locals, fun x hx => h.globals x (hglobals x hx), fun m hm => h.metas m (hmetas m hm)⟩

theorem push (h : t.AmongIn A env) {v : Val} (hv : v.Among A) : t.AmongIn A (env.push v) :=
  ⟨List.forall_mem_cons.2 ⟨hv, h.locals⟩, h.globals, h.metas⟩

end Term.AmongIn

/-- A term over metavariables of `A` is fit for every environment over such ones. -/
theorem Env.Among.term {env : Env} {t : Term} (henv : env.Among A) (ht : t.Among A) :
    t.AmongIn A env :=
  ⟨henv.locals, fun x _ => henv.globals x, ht⟩

theorem Env.Among.push {env : Env} {v : Val} (henv : env.Among A) (hv : v.Among A) :
    (env.push v).Among A :=
  ⟨List.forall_mem_cons.2 ⟨hv, henv.locals⟩, henv.globals⟩

/-- A closure is over `A` when its domain and its body in its environment are. -/
theorem Val.among_closure {c : Closure} :
    (Val.closure c).Among A ↔ c.dom.Among A ∧ c.body.AmongIn A c.env := by
  constructor
  · intro hv
    refine ⟨fun q hq => hv q (.dom hq), fun v mem q hq => hv q (.local mem hq), ?_,
      fun q hq => hv q (.body hq)⟩
    exact fun x mem v found q hq => hv q (.global mem found hq)
  · rintro ⟨hdom, hbody⟩ q hq
    cases hq with
    | dom hq => exact hdom q hq
    | body hq => exact hbody.metas q hq
    | «local» mem hq => exact hbody.locals _ mem q hq
    | global mem found hq => exact hbody.globals _ mem _ found q hq

/-! ## Evaluation, forcing and reading back -/

/-- Evaluation mentions no metavariable that the term and the environment do not. -/
theorem Val.among_invariant : EvalInvariant (Val.Among A) fun env t => t.AmongIn A env where
  type := among_type
  nat _ := among_nat
  prim _ := among_prim
  metavar h := among_neutral.2 ⟨by simpa using h.metas, List.forall_mem_nil _⟩
  var h hi := h.locals _ (List.mem_of_getElem? hi)
  global h hx := among_glued.2 ⟨h.globals _ (List.mem_singleton_self _) _ hx, List.forall_mem_nil _⟩
  part h hu := h.part (fun _ => Term.globals_of_mem_parts hu) fun _ =>
    Term.metaOccurrences_of_mem_parts hu
  body h hv :=
    (h.part (by simp +contextual [Term.globals])
      (by simp +contextual [Term.metaOccurrences])).push hv
  bind h hdom := by
    refine among_closure.2 ⟨hdom, h.part ?_ ?_⟩
    · simp +contextual [Term.globals]
    · simp +contextual [Term.metaOccurrences]
  apply hc hx := (among_closure.1 hc).2.push hx
  pair := among_pair
  glued hv he := by
    obtain ⟨hbase, hspine⟩ := among_glued.1 hv
    exact among_glued.2 ⟨hbase, List.forall_mem_append.2 ⟨he, hspine⟩⟩
  neutral hv he _ := by
    obtain ⟨hhead, hspine⟩ := among_neutral.1 hv
    exact among_neutral.2 ⟨hhead, List.forall_mem_append.2 ⟨he, hspine⟩⟩
  spine hv := (among_neutral.1 hv).2

/-- Reading back mentions no metavariable that the value and the solutions do not. -/
theorem Val.among_readInvariant :
    ReadInvariant (Val.Among A) (fun env t => t.AmongIn A env) (Term.Among A) where
  toEvalInvariant := among_invariant
  app hf hx := Term.among_app.2 ⟨hf, hx⟩
  proj hx := Term.among_proj.2 hx
  elim hm hs hcs := Term.among_elim.2 ⟨hm, hs, hcs⟩
  fresh _ := among_var
  dom hc := (among_closure.1 hc).1
  unfold hv := among_glued.1 hv
  readType := Term.among_type
  readNat _ := Term.among_nat
  readVar _ := Term.among_var
  readPrim _ := Term.among_prim
  readGlobal _ := Term.among_global
  readMeta hv := Term.among_metavar.2 ((among_neutral.1 hv).1 _ rfl)
  readBind _ hdom hbody := Term.among_bind.2 ⟨hdom, hbody⟩
  readPair ha hb hs := Term.among_pair.2 ⟨ha, hb, hs⟩

variable {fuel : Nat} {v w : Val}

theorem Term.eval_among {env : Env} {t : Term} (henv : env.Among A) (ht : t.Among A)
    (hv : t.eval fuel env = .ok v) : v.Among A :=
  Val.among_invariant.eval (henv.term ht) hv

theorem Closure.apply_among {c : Closure} {x : Val} (hc : (Val.closure c).Among A) (hx : x.Among A)
    (hw : c.apply fuel x = .ok w) : w.Among A :=
  Val.among_invariant.apply_closure hc hx hw

theorem Closure.enter_among {c : Closure} {n : Nat} (hc : (Val.closure c).Among A)
    (hw : c.enter fuel n = .ok w) : w.Among A :=
  Closure.apply_among hc Val.among_var hw

theorem Val.eliminate_among {e : Elim} (hv : v.Among A) (he : ∀ u ∈ e.vals, u.Among A)
    (hw : v.eliminate fuel e = .ok w) : w.Among A :=
  Val.among_invariant.eliminate hv he hw

theorem Val.apply_among {x : Val} (hv : v.Among A) (hx : x.Among A) (hw : v.apply fuel x = .ok w) :
    w.Among A :=
  Val.eliminate_among hv (Elim.forall_vals_app.2 hx) hw

variable {ms : MetaStore} (hms : ∀ m v, A m → ms.lookup m = some v → v.Among A)

include hms

theorem Val.forceMeta_among (hv : v.Among A) (hw : v.forceMeta fuel ms = .ok w) : w.Among A :=
  Val.among_invariant.forceMeta (fun m _ u h => hms m u ((Val.among_neutral.1 h).1 m rfl)) hv hw

theorem Val.force_among (hv : v.Among A) (hw : v.force fuel ms = .ok w) : w.Among A :=
  Val.among_readInvariant.force (fun m _ u h => hms m u ((Val.among_neutral.1 h).1 m rfl)) hv hw

theorem Val.quote_among {full : Bool} {n : Nat} {t : Term} (hv : v.Among A)
    (h : v.quote fuel ms full n = .ok t) : t.Among A :=
  Val.among_readInvariant.quote (fun m _ u h => hms m u ((Val.among_neutral.1 h).1 m rfl)) hv h

end

/-! ## Solutions -/

/-- A solution of `m` is refused: it needs `m` itself or another variable, or there is none because
a parameter is repeated. -/
def Error.Refuses (m : MetaId) (e : Error) : Prop :=
  e = .occurs m ∨ e = .nonLinearSpine m ∨ ∃ x, e = .scope m x

/-- The answer has a property, and every error says that a solution of `m` is refused. -/
structure Moving {α : Type} (m : MetaId) (r : Except Failure α) (Q : α → Prop) : Prop where
  answer : ∀ a, r = .ok a → Q a
  error : ∀ e, r = .error (.error e) → e.Refuses m

namespace Moving

variable {α β : Type} {m : MetaId} {Q : α → Prop} {R : β → Prop}

theorem ok {a : α} (h : Q a) : Moving m (.ok a) Q where
  answer b hb := by
    cases hb
    exact h
  error _ he := nomatch he

theorem refused {e : Error} (h : e.Refuses m) : Moving m (.error (.error e)) Q where
  answer _ ha := nomatch ha
  error d hd := by
    cases hd
    exact h

/-- A renaming moves through a sequence when it moves through its first part and through the rest.
-/
theorem bind {r : Except Failure α} {k : α → Except Failure β} (h : Moving m r Q)
    (hk : ∀ a, Q a → Moving m (k a) R) : Moving m (r >>= k) R := by
  cases hr : r with
  | ok a => exact hk a (h.answer a hr)
  | error f =>
    refine ⟨fun _ ha => (nomatch ha), fun e he => h.error e ?_⟩
    rw [hr]
    cases he
    rfl

end Moving

/-- Renaming a list of terms keeps their metavariables and refuses the one that is being solved. -/
theorem Term.renameAll_moving {m : MetaId} {params : List Level} {size depth : Nat} {ts : List Term}
    (h : ∀ t ∈ ts, Moving m (t.rename m params size depth) fun u =>
      u.metaOccurrences = t.metaOccurrences ∧ m ∉ t.metaOccurrences) :
    Moving m (renameAll m params size depth ts) fun us =>
      metaOccurrencesAll us = metaOccurrencesAll ts ∧ m ∉ metaOccurrencesAll ts := by
  induction ts with
  | nil => exact .ok ⟨rfl, List.not_mem_nil⟩
  | cons t ts ih =>
    obtain ⟨ht, hts⟩ := List.forall_mem_cons.1 h
    refine ht.bind fun u hu => (ih hts).bind fun us hus => .ok ?_
    simp [metaOccurrencesAll, hu, hus]

/-- A term that is moved into the scope of the parameters of `m` keeps its metavariables, and `m` is
none of them. -/
theorem Term.rename_moving (m : MetaId) (params : List Level) (size depth : Nat) (t : Term) :
    Moving m (t.rename m params size depth) fun u =>
      u.metaOccurrences = t.metaOccurrences ∧ m ∉ t.metaOccurrences := by
  induction t generalizing depth with
  | type | global | prim | nat => exact .ok ⟨rfl, List.not_mem_nil⟩
  | metavar n =>
    unfold Term.rename
    split
    · exact .refused (.inl rfl)
    · next hn => exact .ok ⟨rfl, fun h => hn (List.mem_singleton.1 h).symm⟩
  | var i =>
    unfold Term.rename
    split
    · exact .ok ⟨rfl, List.not_mem_nil⟩
    · split
      · exact ⟨fun _ h => (nomatch h), fun _ h => nomatch h⟩
      · split
        · exact .ok ⟨rfl, List.not_mem_nil⟩
        · exact .refused (.inr (.inr ⟨_, rfl⟩))
  | app f icit x hf hx =>
    refine (hf depth).bind fun u hu => (hx depth).bind fun w hw => .ok ?_
    simp [metaOccurrences, hu, hw]
  | bind b dom body hdom hbody =>
    refine (hdom depth).bind fun u hu => (hbody (depth + 1)).bind fun w hw => .ok ?_
    simp [metaOccurrences, hu, hw]
  | pair a b s ha hb hs =>
    refine (ha depth).bind fun u hu => (hb depth).bind fun v hv =>
      (hs depth).bind fun w hw => .ok ?_
    simp [metaOccurrences, hu, hv, hw]
  | proj x p hx => exact (hx depth).bind fun u hu => .ok hu
  | letIn x erased ty val body hty hval hbody =>
    refine (hty depth).bind fun u hu => (hval depth).bind fun v hv =>
      (hbody (depth + 1)).bind fun w hw => .ok ?_
    simp [metaOccurrences, hu, hv, hw]
  | elim e c s cs hc hs hcs =>
    refine (hc depth).bind fun u hu => (hs depth).bind fun v hv => ?_
    refine (Term.renameAll_moving fun t ht => hcs t ht depth).bind fun ws hws => .ok ?_
    simp [metaOccurrences, hu, hv, hws]

/-! ## Comparisons -/

def Comparison.Among (A : MetaId → Prop) : Comparison → Prop
  | .binders c d => (Val.closure c).Among A ∧ (Val.closure d).Among A
  | .pairs a b c d => (a.Among A ∧ b.Among A) ∧ c.Among A ∧ d.Among A
  | .numeral _ pred => pred.Among A
  | .spines sa sb | .sameGlobal sa sb =>
    (∀ v ∈ Spine.vals sa, v.Among A) ∧ ∀ v ∈ Spine.vals sb, v.Among A
  | .solve m sp rhs => A m ∧ (∀ v ∈ Spine.vals sp, v.Among A) ∧ rhs.Among A
  | .expandFun c v => (Val.closure c).Among A ∧ v.Among A
  | .expandPair a b v => (a.Among A ∧ b.Among A) ∧ v.Among A
  | .equal | .mismatch | .unfoldLeft | .unfoldRight => True

/-- A comparison goes on with parts of the two values. -/
theorem Comparison.of_among {A : MetaId → Prop} {a b : Val} (ha : a.Among A) (hb : b.Among A)
    (mode : Mode) : (Comparison.of mode a b).Among A := by
  have hc := Compares.of mode a b
  generalize Comparison.of mode a b = c at hc
  cases hc with
  | type | nat | mismatch | unfoldLeft | unfoldRight => trivial
  | binders => exact ⟨ha, hb⟩
  | pairs =>
    obtain ⟨hx, hy, -⟩ := Val.among_pair.1 ha
    obtain ⟨hz, hw, -⟩ := Val.among_pair.1 hb
    exact ⟨⟨hx, hy⟩, hz, hw⟩
  | numeralLeft => exact (Val.among_neutral.1 hb).2 _ List.mem_cons_self
  | numeralRight => exact (Val.among_neutral.1 ha).2 _ List.mem_cons_self
  | spines => exact ⟨(Val.among_neutral.1 ha).2, (Val.among_neutral.1 hb).2⟩
  | solveLeft => exact ⟨(Val.among_neutral.1 ha).1 _ rfl, (Val.among_neutral.1 ha).2, hb⟩
  | solveRight => exact ⟨(Val.among_neutral.1 hb).1 _ rfl, (Val.among_neutral.1 hb).2, ha⟩
  | expandFunLeft => exact ⟨ha, hb⟩
  | expandFunRight => exact ⟨hb, ha⟩
  | expandPairLeft => exact ⟨⟨(Val.among_pair.1 ha).1, (Val.among_pair.1 ha).2.1⟩, hb⟩
  | expandPairRight => exact ⟨⟨(Val.among_pair.1 hb).1, (Val.among_pair.1 hb).2.1⟩, ha⟩
  | sameGlobal => exact ⟨(Val.among_glued.1 ha).2, (Val.among_glued.1 hb).2⟩

end Elaborator
