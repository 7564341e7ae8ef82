import Elaborator.Elaborate
import Elaborator.Proofs.Mentions
import Elaborator.Proofs.Printing.Resolution
import Elaborator.Proofs.Zonk.Complete

/-! # The names of binders

Evaluation, forcing, reading back and zonking rename no binder: the binders of a result were binders
of what it was made from, or of a solution that was looked up on the way. `Val.BindersIn P` says
that all of them have names in `P`, also those of the values that a closure holds. The elaborator
gives names of its own to some binders (`Name.IsOwn`), so whatever it makes keeps to `P` as soon as
these names are in it. -/

namespace Elaborator

def Term.BindersIn (P : Name → Prop) (t : Term) : Prop := ∀ x ∈ t.binders, P x

/-- A binder of the value, or of a value that it holds or refers to, has the name `x`. -/
inductive Val.Binds (x : Name) : Val → Prop
  | spine {h : Head} {sp : Spine} {v : Val} (mem : v ∈ Spine.vals sp) (hx : Binds x v) :
      Binds x (.neutral h sp)
  | gluedSpine {y : Name} {sp : Spine} {base v : Val} (mem : v ∈ Spine.vals sp) (hx : Binds x v) :
      Binds x (.glued y sp base)
  | gluedBase {y : Name} {sp : Spine} {base : Val} (hx : Binds x base) : Binds x (.glued y sp base)
  | binder {c : Closure} (hx : x = c.binder.name) : Binds x (.closure c)
  | dom {c : Closure} (hx : Binds x c.dom) : Binds x (.closure c)
  | body {c : Closure} (hx : x ∈ c.body.binders) : Binds x (.closure c)
  | local {c : Closure} {v : Val} (mem : v ∈ c.env.locals) (hx : Binds x v) : Binds x (.closure c)
  | global {c : Closure} {y : Name} {v : Val} (mem : y ∈ c.body.globals)
      (found : c.env.global? y = some v) (hx : Binds x v) : Binds x (.closure c)
  | fst {a b s : Val} (hx : Binds x a) : Binds x (.pair a b s)
  | snd {a b s : Val} (hx : Binds x b) : Binds x (.pair a b s)
  | sigma {a b s : Val} (hx : Binds x s) : Binds x (.pair a b s)

/-- Every binder of the value has a name in `P`. -/
def Val.BindersIn (P : Name → Prop) (v : Val) : Prop := ∀ x, v.Binds x → P x

structure Env.BindersIn (P : Name → Prop) (env : Env) : Prop where
  locals : ∀ v ∈ env.locals, v.BindersIn P
  globals : ∀ x v, env.global? x = some v → v.BindersIn P

/-- The names that the elaborator gives to binders itself: those in the types of primitives, and one
for each parameter of a solution. -/
def Name.IsOwn (x : Name) : Prop :=
  x ∈ ([.underscore, "A", "B", "a", "b", "m"] : List Name) ∨ ∃ k : Nat, x = ⟨"$" ++ toString k⟩

section

variable {P : Name → Prop}

/-! ## Terms -/

namespace Term

@[simp] theorem bindersIn_type : Term.type.BindersIn P := List.forall_mem_nil _

@[simp] theorem bindersIn_var {i : Index} : (Term.var i).BindersIn P := List.forall_mem_nil _

@[simp] theorem bindersIn_global {x : Name} : (Term.global x).BindersIn P := List.forall_mem_nil _

@[simp] theorem bindersIn_metavar {m : MetaId} : (Term.metavar m).BindersIn P :=
  List.forall_mem_nil _

@[simp] theorem bindersIn_prim {p : Prim} : (Term.prim p).BindersIn P := List.forall_mem_nil _

@[simp] theorem bindersIn_nat {n : Nat} : (Term.nat n).BindersIn P := List.forall_mem_nil _

@[simp] theorem bindersIn_app {f x : Term} {icit : Icit} :
    (Term.app f icit x).BindersIn P ↔ f.BindersIn P ∧ x.BindersIn P :=
  List.forall_mem_append

@[simp] theorem bindersIn_bind {b : Binder} {dom body : Term} :
    (Term.bind b dom body).BindersIn P ↔ P b.name ∧ dom.BindersIn P ∧ body.BindersIn P := by
  simp only [BindersIn, binders, List.forall_mem_append, List.forall_mem_cons]
  tauto

@[simp] theorem bindersIn_proj {x : Term} {p : Proj} :
    (Term.proj x p).BindersIn P ↔ x.BindersIn P := Iff.rfl

@[simp] theorem bindersIn_pair {a b s : Term} :
    (Term.pair a b s).BindersIn P ↔ a.BindersIn P ∧ b.BindersIn P ∧ s.BindersIn P := by
  simp only [BindersIn, binders, List.forall_mem_append, and_assoc]

@[simp] theorem bindersIn_letIn {x : Name} {erased : Bool} {ty val body : Term} :
    (Term.letIn x erased ty val body).BindersIn P ↔
      P x ∧ ty.BindersIn P ∧ val.BindersIn P ∧ body.BindersIn P := by
  simp only [BindersIn, binders, List.forall_mem_append, List.forall_mem_cons]
  tauto

@[simp] theorem bindersIn_elim {e : Eliminator} {m s : Term} {cs : List Term} :
    (Term.elim e m s cs).BindersIn P ↔ m.BindersIn P ∧ s.BindersIn P ∧ ∀ c ∈ cs, c.BindersIn P := by
  simp only [BindersIn, binders, bindersAll_eq, List.forall_mem_append,
    List.forall_mem_flatMap, and_assoc]

/-- The parts that are evaluated first have no binders but those of the whole. -/
theorem BindersIn.part {t u : Term} (h : t.BindersIn P) (hu : u ∈ t.parts) : u.BindersIn P := by
  cases t <;> simp only [parts, List.mem_cons, List.not_mem_nil, or_false] at hu <;>
    simp at h <;> grind

end Term

/-- A metavariable is applied to variables, so there are no binders. -/
theorem Local.bindersIn_applyMeta (scope : Local) (m : MetaId) :
    (scope.applyMeta m).BindersIn P := by
  have hfold : ∀ (is : List Index) (t : Term), t.BindersIn P →
      (is.foldl (fun t i => Term.app t .expl (.var i)) t).BindersIn P := by
    intro is
    induction is with
    | nil => exact fun t ht => ht
    | cons i is ih => exact fun t ht => ih _ (Term.bindersIn_app.2 ⟨ht, Term.bindersIn_var⟩)
  exact hfold _ _ Term.bindersIn_metavar

/-! ## Values -/

namespace Val

theorem bindersIn_type : Val.type.BindersIn P := fun _ hx => nomatch hx

theorem bindersIn_nat {n : Nat} : (Val.nat n).BindersIn P := fun _ hx => nomatch hx

theorem bindersIn_neutral {h : Head} {sp : Spine} :
    (Val.neutral h sp).BindersIn P ↔ ∀ v ∈ Spine.vals sp, v.BindersIn P := by
  constructor
  · exact fun hv v mem x hx => hv x (.spine mem hx)
  · rintro hspine x ⟨mem, hx⟩
    exact hspine _ mem x hx

theorem bindersIn_glued {y : Name} {sp : Spine} {base : Val} :
    (Val.glued y sp base).BindersIn P ↔ base.BindersIn P ∧ ∀ v ∈ Spine.vals sp, v.BindersIn P := by
  constructor
  · intro hv
    exact ⟨fun x hx => hv x (.gluedBase hx), fun v mem x hx => hv x (.gluedSpine mem hx)⟩
  · rintro ⟨hbase, hspine⟩ x hx
    cases hx with
    | gluedSpine mem hx => exact hspine _ mem x hx
    | gluedBase hx => exact hbase x hx

theorem bindersIn_pair {a b s : Val} :
    (Val.pair a b s).BindersIn P ↔ a.BindersIn P ∧ b.BindersIn P ∧ s.BindersIn P := by
  constructor
  · intro hv
    exact ⟨fun x hx => hv x (.fst hx), fun x hx => hv x (.snd hx), fun x hx => hv x (.sigma hx)⟩
  · rintro ⟨ha, hb, hs⟩ x hx
    cases hx with
    | fst hx => exact ha x hx
    | snd hx => exact hb x hx
    | sigma hx => exact hs x hx

theorem bindersIn_var {l : Level} : (Val.var l).BindersIn P :=
  bindersIn_neutral.2 (List.forall_mem_nil _)

theorem bindersIn_prim {p : Prim} : (Val.prim p).BindersIn P :=
  bindersIn_neutral.2 (List.forall_mem_nil _)

end Val

/-- The binders of a term and of all that it refers to in an environment have names in `P`. -/
structure Term.EvalBindersIn (P : Name → Prop) (env : Env) (t : Term) : Prop where
  locals : ∀ v ∈ env.locals, v.BindersIn P
  globals : ∀ x ∈ t.globals, ∀ v, env.global? x = some v → v.BindersIn P
  binders : t.BindersIn P

namespace Term.EvalBindersIn

variable {env : Env} {t u : Term}

/-- A part of a term that mentions no further definition is fit for the same environment. -/
theorem part (h : t.EvalBindersIn P env) (hglobals : ∀ x ∈ u.globals, x ∈ t.globals)
    (hu : u.BindersIn P) : u.EvalBindersIn P env :=
  ⟨h.locals, fun x hx => h.globals x (hglobals x hx), hu⟩

theorem push (h : t.EvalBindersIn P env) {v : Val} (hv : v.BindersIn P) :
    t.EvalBindersIn P (env.push v) :=
  ⟨List.forall_mem_cons.2 ⟨hv, h.locals⟩, h.globals, h.binders⟩

end Term.EvalBindersIn

/-- A term over binder names of `P` is fit for every environment over such names. -/
theorem Env.BindersIn.term {env : Env} {t : Term} (henv : env.BindersIn P) (ht : t.BindersIn P) :
    t.EvalBindersIn P env :=
  ⟨henv.locals, fun x _ => henv.globals x, ht⟩

theorem Env.BindersIn.push {env : Env} {v : Val} (henv : env.BindersIn P) (hv : v.BindersIn P) :
    (env.push v).BindersIn P :=
  ⟨List.forall_mem_cons.2 ⟨hv, henv.locals⟩, henv.globals⟩

/-- A closure is over names of `P` when its binder, its domain and its body in its environment are.
-/
theorem Val.bindersIn_closure {c : Closure} :
    (Val.closure c).BindersIn P ↔
      P c.binder.name ∧ c.dom.BindersIn P ∧ c.body.EvalBindersIn P c.env := by
  constructor
  · intro hv
    refine ⟨hv _ (.binder rfl), fun x hx => hv x (.dom hx),
      fun v mem x hx => hv x (.local mem hx), ?_, fun x hx => hv x (.body hx)⟩
    exact fun y mem v found x hx => hv x (.global mem found hx)
  · rintro ⟨hname, hdom, hbody⟩ x hx
    cases hx with
    | binder hx => exact hx ▸ hname
    | dom hx => exact hdom x hx
    | body hx => exact hbody.binders x hx
    | «local» mem hx => exact hbody.locals _ mem x hx
    | global mem found hx => exact hbody.globals _ mem _ found x hx

/-! ## Evaluation, forcing and reading back -/

/-- Evaluation makes no binder names: it hands on those of the term and of the environment. -/
theorem Val.bindersIn_invariant :
    EvalInvariant (Val.BindersIn P) fun env t => t.EvalBindersIn P env where
  type := bindersIn_type
  nat _ := bindersIn_nat
  prim _ := bindersIn_prim
  metavar _ := bindersIn_neutral.2 (List.forall_mem_nil _)
  var h hi := h.locals _ (List.mem_of_getElem? hi)
  global h hx :=
    bindersIn_glued.2 ⟨h.globals _ (List.mem_singleton_self _) _ hx, List.forall_mem_nil _⟩
  part h hu := h.part (fun _ => Term.globals_of_mem_parts hu) (h.binders.part hu)
  body h hv :=
    (h.part (by simp +contextual [Term.globals]) (Term.bindersIn_letIn.1 h.binders).2.2.2).push hv
  bind h hdom := by
    obtain ⟨hname, -, hbody⟩ := Term.bindersIn_bind.1 h.binders
    exact bindersIn_closure.2 ⟨hname, hdom, h.part (by simp +contextual [Term.globals]) hbody⟩
  apply hc hx := (bindersIn_closure.1 hc).2.2.push hx
  pair := bindersIn_pair
  glued hv he := by
    obtain ⟨hbase, hspine⟩ := bindersIn_glued.1 hv
    exact bindersIn_glued.2 ⟨hbase, List.forall_mem_append.2 ⟨he, hspine⟩⟩
  neutral hv he _ := bindersIn_neutral.2 (List.forall_mem_append.2 ⟨he, bindersIn_neutral.1 hv⟩)
  spine hv := bindersIn_neutral.1 hv

/-- Reading back makes no binder names either. -/
theorem Val.bindersIn_readInvariant :
    ReadInvariant (Val.BindersIn P) (fun env t => t.EvalBindersIn P env) (Term.BindersIn P) where
  toEvalInvariant := bindersIn_invariant
  app hf hx := Term.bindersIn_app.2 ⟨hf, hx⟩
  proj hx := Term.bindersIn_proj.2 hx
  elim hm hs hcs := Term.bindersIn_elim.2 ⟨hm, hs, hcs⟩
  fresh _ := bindersIn_var
  dom hc := (bindersIn_closure.1 hc).2.1
  unfold hv := bindersIn_glued.1 hv
  readType := Term.bindersIn_type
  readNat _ := Term.bindersIn_nat
  readVar _ := Term.bindersIn_var
  readPrim _ := Term.bindersIn_prim
  readGlobal _ := Term.bindersIn_global
  readMeta _ := Term.bindersIn_metavar
  readBind hc hdom hbody := Term.bindersIn_bind.2 ⟨(bindersIn_closure.1 hc).1, hdom, hbody⟩
  readPair ha hb hs := Term.bindersIn_pair.2 ⟨ha, hb, hs⟩

variable {fuel : Nat} {v w : Val}

/-- Evaluating a term gives a value over the binder names of the term and its environment. -/
theorem Term.eval_bindersIn {env : Env} {t : Term} (henv : env.BindersIn P) (ht : t.BindersIn P)
    (hv : t.eval fuel env = .ok v) : v.BindersIn P :=
  Val.bindersIn_invariant.eval (henv.term ht) hv

theorem Closure.apply_bindersIn {c : Closure} {x : Val} (hc : (Val.closure c).BindersIn P)
    (hx : x.BindersIn P) (hw : c.apply fuel x = .ok w) : w.BindersIn P :=
  Val.bindersIn_invariant.apply_closure hc hx hw

theorem Closure.enter_bindersIn {c : Closure} {n : Nat} (hc : (Val.closure c).BindersIn P)
    (hw : c.enter fuel n = .ok w) : w.BindersIn P :=
  Closure.apply_bindersIn hc Val.bindersIn_var hw

theorem Val.eliminate_bindersIn {e : Elim} (hv : v.BindersIn P) (he : ∀ u ∈ e.vals, u.BindersIn P)
    (hw : v.eliminate fuel e = .ok w) : w.BindersIn P :=
  Val.bindersIn_invariant.eliminate hv he hw

theorem Val.apply_bindersIn {x : Val} (hv : v.BindersIn P) (hx : x.BindersIn P)
    (hw : v.apply fuel x = .ok w) : w.BindersIn P :=
  Val.eliminate_bindersIn hv (Elim.forall_vals_app.2 hx) hw

def MetaStore.SolvedBindersIn (P : Name → Prop) (ms : MetaStore) : Prop :=
  ∀ m v, ms.lookup m = some v → v.BindersIn P

variable {ms : MetaStore} (hms : ms.SolvedBindersIn P)

include hms

/-- Forcing metavariables brings in the names of the solutions only, which are among `P` already. -/
theorem Val.forceMeta_bindersIn (hv : v.BindersIn P) (hw : v.forceMeta fuel ms = .ok w) :
    w.BindersIn P :=
  Val.bindersIn_invariant.forceMeta (fun m _ u _ => hms m u) hv hw

theorem Val.force_bindersIn (hv : v.BindersIn P) (hw : v.force fuel ms = .ok w) : w.BindersIn P :=
  Val.bindersIn_readInvariant.force (fun m _ u _ => hms m u) hv hw

/-- Reading a value back keeps its binder names. -/
theorem Val.quote_bindersIn {full : Bool} {n : Nat} {t : Term} (hv : v.BindersIn P)
    (h : v.quote fuel ms full n = .ok t) : t.BindersIn P :=
  Val.bindersIn_readInvariant.quote (fun m _ u _ => hms m u) hv h

/-! ## Zonking -/

omit hms

def Zonked.BindersIn (P : Name → Prop) : Zonked → Prop
  | .solved v => v.BindersIn P
  | .term t => t.BindersIn P

include hms

theorem Zonked.toTerm_bindersIn {z : Zonked} {n : Nat} {t : Term} (hz : z.BindersIn P)
    (h : z.toTerm fuel ms n = .ok t) : t.BindersIn P := by
  cases z with
  | solved v => exact Val.quote_bindersIn hms hz h
  | term u =>
    cases h
    exact hz

/-- A part that is zonked and read back. -/
theorem Term.zonk_bindersIn_of_head {env : Env} {t u : Term}
    (hhead : ∀ z, t.zonkHead fuel ms env = .ok z → z.BindersIn P) (h : t.zonk fuel ms env = .ok u) :
    u.BindersIn P := by
  obtain ⟨z, hz, h⟩ := bind_ok h
  exact Zonked.toTerm_bindersIn hms (hhead z hz) h

theorem Term.zonkHead_bindersIn {env : Env} {t : Term} {z : Zonked} (henv : env.BindersIn P)
    (ht : t.BindersIn P) (h : t.zonkHead fuel ms env = .ok z) : z.BindersIn P := by
  induction t generalizing env z with
  | type | var | global | prim | nat =>
    cases h
    exact ht
  | metavar m =>
    cases zonkHead_cases h with
    | unsolved _ => exact ht
    | solved hm => exact hms m _ hm
  | app f icit x ihf ihx =>
    obtain ⟨hf, hx⟩ := bindersIn_app.1 ht
    cases zonkHead_cases h with
    | app head arg =>
      exact bindersIn_app.2
        ⟨ihf henv hf head, zonk_bindersIn_of_head hms (fun _ => ihx henv hx) arg⟩
    | applied head arg result =>
      exact Val.eliminate_bindersIn (ihf henv hf head)
        (Elim.forall_vals_app.2 (eval_bindersIn henv hx arg)) result
  | proj x p ih =>
    have hx := bindersIn_proj.1 ht
    cases zonkHead_cases h with
    | proj head => exact bindersIn_proj.2 (ih henv hx head)
    | projected head result =>
      exact Val.eliminate_bindersIn (ih henv hx head) (List.forall_mem_nil _) result
  | bind b dom body ihdom ihbody =>
    obtain ⟨hname, hdom, hbody⟩ := bindersIn_bind.1 ht
    have hinner : (env.push (.fresh env.size)).BindersIn P := henv.push Val.bindersIn_var
    cases zonkHead_cases h with
    | bind domain inner =>
      exact bindersIn_bind.2 ⟨hname, zonk_bindersIn_of_head hms (fun _ => ihdom henv hdom) domain,
        zonk_bindersIn_of_head hms (fun _ => ihbody hinner hbody) inner⟩
  | pair a b s iha ihb ihs =>
    obtain ⟨ha, hb, hs⟩ := bindersIn_pair.1 ht
    cases zonkHead_cases h with
    | pair fst snd sigma =>
      exact bindersIn_pair.2 ⟨zonk_bindersIn_of_head hms (fun _ => iha henv ha) fst,
        zonk_bindersIn_of_head hms (fun _ => ihb henv hb) snd,
          zonk_bindersIn_of_head hms (fun _ => ihs henv hs) sigma⟩
  | letIn x erased ty val body ihty ihval ihbody =>
    obtain ⟨hname, hty, hval, hbody⟩ := bindersIn_letIn.1 ht
    have hinner : (env.push (.fresh env.size)).BindersIn P := henv.push Val.bindersIn_var
    cases zonkHead_cases h with
    | letIn type value inner =>
      exact bindersIn_letIn.2 ⟨hname, zonk_bindersIn_of_head hms (fun _ => ihty henv hty) type,
        zonk_bindersIn_of_head hms (fun _ => ihval henv hval) value,
        zonk_bindersIn_of_head hms (fun _ => ihbody hinner hbody) inner⟩
  | elim e m s cs ihm ihs ihcs =>
    obtain ⟨hm, hs, hcs⟩ := bindersIn_elim.1 ht
    have hcases {cs' : List Term} (hzonk : cs.mapM (Term.zonk fuel ms env) = .ok cs') : ∀ c ∈ cs',
        c.BindersIn P := by
      intro c' hc'
      obtain ⟨c, hc, hc'⟩ := exists_mem_of_mapM hzonk hc'
      exact zonk_bindersIn_of_head hms (fun _ => ihcs c hc henv (hcs c hc)) hc'
    cases zonkHead_cases h with
    | elim motive cases head =>
      exact bindersIn_elim.2
        ⟨zonk_bindersIn_of_head hms (fun _ => ihm henv hm) motive, ihs henv hs head, hcases cases⟩
    | eliminated motive cases head motiveValue caseValues result read =>
      have hmotive :=
        eval_bindersIn henv (zonk_bindersIn_of_head hms (fun _ => ihm henv hm) motive) motiveValue
      refine Val.quote_bindersIn hms (Val.eliminate_bindersIn (ihs henv hs head) ?_ result) read
      refine Elim.forall_vals_cases.2 ⟨hmotive, fun v hv => ?_⟩
      obtain ⟨c, hc, hval⟩ := exists_mem_of_mapM caseValues hv
      exact eval_bindersIn henv (hcases cases c hc) hval

/-- Zonking a term keeps its binder names and those of the solutions it writes in. -/
theorem Term.zonk_bindersIn {env : Env} {t u : Term} (henv : env.BindersIn P) (ht : t.BindersIn P)
    (h : t.zonk fuel ms env = .ok u) : u.BindersIn P :=
  Term.zonk_bindersIn_of_head hms (fun _ => Term.zonkHead_bindersIn hms henv ht) h

end

/-! ## Types of primitives -/

section

variable {P : Name → Prop}

theorem piVal_bindersIn {icit : Icit} {x : Name} {dom : Val}
    {locals : List Val} {body : Term} (hx : P x) (hdom : dom.BindersIn P)
    (hlocals : ∀ v ∈ locals, v.BindersIn P) (hbody : body.BindersIn P) :
    (piVal icit x dom locals body).BindersIn P :=
  Val.bindersIn_closure.2 ⟨hx, hdom, hlocals, fun _ _ _ h => (nomatch h), hbody⟩

/-- The types of the primitives have binders with names of the elaborator. -/
theorem Prim.bindersIn_supports (hown : ∀ x : Name, x.IsOwn → P x) :
    Prim.Supports P (fun _ => Term.BindersIn P) (Val.BindersIn P) Yields where
  name x hx := hown x (.inl hx)
  term_type := Term.bindersIn_type
  term_prim := Term.bindersIn_prim
  term_var _ := Term.bindersIn_var
  term_app hf hx := Term.bindersIn_app.2 ⟨hf, hx⟩
  term_pi hx hdom hbody := Term.bindersIn_bind.2 ⟨hx, hdom, hbody⟩
  val_type := Val.bindersIn_type
  val_prim := Val.bindersIn_prim
  val_nat := Val.bindersIn_nat
  val_pi := piVal_bindersIn
  val_apps p args _ hargs := Val.bindersIn_neutral.2 (Spine.forall_vals_apps.2 hargs)
  val_spine hv := Val.bindersIn_neutral.1 hv
  ok h _ ha := Except.ok.inj ha ▸ h
  bind hr hk b hb := by
    obtain ⟨a, ha, hb⟩ := bind_ok hb
    exact hk a (hr a ha) b hb
  missingIndices _ h := nomatch h
  apply hv hx _ h := Val.apply_bindersIn hv hx h

end

end Elaborator
