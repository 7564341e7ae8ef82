import Elaborator.Action
import Elaborator.Proofs.Scope.Eval
import Elaborator.Zonk

/-! # Local contexts in scope

The variables of a local context are added one after the other, and the type of each was made in the
context of those further outside. A variable that stands for itself brings a level of its own, one
that stands for a value brings none. So the levels that values of a context may mention grow with it
(`Telescope`), and all are below its size.

The second half is about what is made with a context: text, trace lines and zonked terms. -/

namespace Elaborator

/-! ## Contexts -/

/-- The variables of a context with their values, innermost first, and the levels that may be
mentioned in it. -/
inductive Telescope (B : Bounds) : List Entry → List Val → (L : Nat → Prop) → Prop
  | nil : Telescope B [] [] noLevels
  | cons {es : List Entry} {vs : List Val} {L K : Nat → Prop} {e : Entry} {v : Val}
      (outer : Telescope B es vs L) (type : e.ty.Within B L) (value : v.Within B K)
      (grows : ∀ l, L l → K l) (below : ∀ l, K l → l < vs.length + 1) :
      Telescope B (e :: es) (v :: vs) K

namespace Telescope

variable {B : Bounds} {es : List Entry} {vs : List Val} {L : Nat → Prop}

theorem length_eq (h : Telescope B es vs L) : es.length = vs.length := by
  induction h with
  | nil => rfl
  | cons _ _ _ _ _ ih => rw [List.length_cons, List.length_cons, ih]

/-- Every level that may be mentioned is in scope. -/
theorem lt_length (h : Telescope B es vs L) : ∀ l, L l → l < vs.length := by
  cases h with
  | nil => exact fun _ hl => hl.elim
  | cons _ _ _ _ below => exact below

/-- Each value is in bounds. -/
theorem values (h : Telescope B es vs L) : ∀ v ∈ vs, v.Within B L := by
  induction h with
  | nil => exact List.forall_mem_nil _
  | cons _ _ value grows _ ih =>
    exact List.forall_mem_cons.2 ⟨value, fun v hv => (ih v hv).mono grows⟩

/-- Each type is in bounds, also seen from further inside. -/
theorem types (h : Telescope B es vs L) : ∀ e ∈ es, e.ty.Within B L := by
  induction h with
  | nil => exact List.forall_mem_nil _
  | cons _ type _ grows _ ih =>
    exact List.forall_mem_cons.2 ⟨type.mono grows, fun e he => (ih e he).mono grows⟩

end Telescope

/-- A context in which exactly the levels that satisfy `L` may be mentioned. -/
structure Local.Within (B : Bounds) (L : Nat → Prop) (scope : Local) : Prop where
  telescope : Telescope B scope.entries scope.env.locals L
  bound : ∀ x, anything x → ∀ v, scope.env.global? x = some v → B.globals x v
  closed : ∀ x, anything x → ∀ v, scope.env.global? x = some v → v.Within B noLevels

structure Globals.Within (B : Bounds) (g : Globals) : Prop where
  env : g.env.Within B noLevels anything
  types : ∀ e ∈ g.map.entries, e.2.ty.Within B noLevels

namespace Local.Within

variable {B : Bounds} {L : Nat → Prop} {scope : Local}

theorem env (h : scope.Within B L) : scope.env.Within B L anything :=
  ⟨h.telescope.values, h.bound, h.closed⟩

theorem lt_size (h : scope.Within B L) : ∀ l, L l → l < scope.size := h.telescope.lt_length

/-- A value of a context mentions levels below its size. -/
theorem val (h : scope.Within B L) {v : Val} (hv : v.Within B L) : v.Within B (· < scope.size) :=
  hv.mono h.lt_size

/-- A context has as many names as variables. -/
theorem length_names (h : scope.Within B L) : scope.names.length = scope.size := by
  rw [Local.names, List.length_map]
  exact h.telescope.length_eq

theorem empty {g : Globals} (hg : g.Within B) : (Local.empty g).Within B noLevels :=
  ⟨.nil, hg.env.bound, hg.env.closed⟩

theorem enterType (h : scope.Within B L) : scope.enterType.Within B L :=
  ⟨h.telescope, h.bound, h.closed⟩

theorem enterIf (h : scope.Within B L) (erased : Bool) : (scope.enterIf erased).Within B L := by
  cases erased with
  | false => exact h
  | true => exact h.enterType

/-- A variable that stands for itself may be mentioned from then on. -/
theorem bind (h : scope.Within B L) {ty : Val} (hty : ty.Within B L) (x : Name)
    (erased inserted : Bool) :
    (scope.bind x ty erased inserted).Within B (fun l => L l ∨ l = scope.size) := by
  refine ⟨.cons h.telescope hty (Val.within_var.2 (.inr rfl)) (fun _ hl => .inl hl) ?_,
    h.bound, h.closed⟩
  rintro l (hl | rfl)
  · exact Nat.lt_succ_of_lt (h.lt_size l hl)
  · exact Nat.lt_succ_self _

/-- A variable that stands for a value adds no level. -/
theorem define (h : scope.Within B L) {ty v : Val} (hty : ty.Within B L)
    (hv : v.Within B L) (x : Name) (erased : Bool) : (scope.define x ty erased v).Within B L :=
  ⟨.cons h.telescope hty hv (fun _ hl => hl) fun l hl => Nat.lt_succ_of_lt (h.lt_size l hl),
    h.bound, h.closed⟩

/-- A variable that is defined to stand for itself may be mentioned as well. -/
theorem defineFresh (h : scope.Within B L) {ty : Val} (hty : ty.Within B L) (x : Name)
    (erased : Bool) :
    (scope.define x ty erased (.fresh scope.size)).Within B (fun l => L l ∨ l = scope.size) :=
  let hb := h.bind hty x erased false
  ⟨.cons h.telescope hty (Val.within_var.2 (.inr rfl)) (fun _ hl => .inl hl) hb.lt_size,
    h.bound, h.closed⟩

/-- The variable that a name means is in scope, and so is its type. -/
theorem lookup (h : scope.Within B L) {x : Name} {i : Index} {e : Entry}
    (hx : scope.lookup x = some (i, e)) : (Term.var i).Within B scope.size ∧ e.ty.Within B L := by
  obtain ⟨⟨e', k⟩, hfind, heq⟩ := Option.map_eq_some_iff.1 hx
  cases heq
  have hmem := List.mem_of_find?_eq_some hfind
  have hk : k < scope.entries.length := by simpa using List.snd_lt_of_mem_zipIdx hmem
  refine ⟨Term.within_var.2 ?_, h.telescope.types _ (List.fst_mem_of_mem_zipIdx hmem)⟩
  rw [h.telescope.length_eq] at hk
  exact hk

/-- A metavariable that is applied to variables of a context is in its scope. -/
theorem applyMeta (h : scope.Within B L) {m : MetaId} (hm : B.metas m) :
    (scope.applyMeta m).Within B scope.size := by
  have hbound : ∀ i ∈ scope.boundIndices, i.toNat < scope.size := by
    intro i hi
    simp only [Local.boundIndices, List.mem_reverse, List.mem_filterMap] at hi
    obtain ⟨⟨e, k⟩, hmem, hi⟩ := hi
    have hk : k < scope.entries.length := by simpa using List.snd_lt_of_mem_zipIdx hmem
    rw [h.telescope.length_eq] at hk
    split at hi
    · cases hi
      exact hk
    · cases hi
  -- Each application adds one variable, so the term stays in scope from left to right.
  have hfold : ∀ (is : List Index) (t : Term), (∀ i ∈ is, i.toNat < scope.size) →
      t.Within B scope.size →
      (is.foldl (fun t i => Term.app t .expl (.var i)) t).Within B scope.size := by
    intro is
    induction is with
    | nil => exact fun t _ ht => ht
    | cons i is ih =>
      intro t his ht
      obtain ⟨hi, his⟩ := List.forall_mem_cons.1 his
      exact ih _ his (Term.within_app.2 ⟨ht, Term.within_var.2 hi⟩)
  exact hfold _ _ hbound (Term.within_metavar.2 hm)

end Local.Within

/-! ## Text

Printing looks names up but refuses no variable: one without a name is printed as its number. -/

theorem Name.next_safely (x : Name) : Safely x.next anything := by
  unfold Name.next
  split
  · exact .ok trivial
  · split
    · exact .ite (fun _ => .ok trivial) fun _ => .error id
    · exact .ok trivial

theorem Term.freshBinder_safely (names : List Name) (x : Name) (body : Term) :
    Safely (freshBinder names x body) anything := by
  unfold freshBinder
  generalize names.length + body.globals.length + 1 = tries
  induction tries generalizing x with
  | zero => exact .error id
  | succ n ih =>
    exact .ite (fun _ => (Name.next_safely x).bind fun y _ => ih y) fun _ => .ok trivial

theorem Term.namedAll_safely {names : List Name} {ts : List Term}
    (h : ∀ t ∈ ts, Safely (t.named names) anything) : Safely (namedAll names ts) anything := by
  induction ts with
  | nil => exact .ok trivial
  | cons t ts ih =>
    obtain ⟨ht, hts⟩ := List.forall_mem_cons.1 h
    exact ht.bind fun _ _ => (ih hts).bind fun _ _ => .pure trivial

/-- Naming the variables of a term never meets one out of scope. -/
theorem Term.named_safely (names : List Name) (t : Term) : Safely (t.named names) anything := by
  induction t generalizing names with
  | type | global | metavar | prim | nat => exact .ok trivial
  | var i =>
    refine (inScope_safely i.toNat names.length).bind fun b _ =>
      .ite (fun _ => ?_) fun _ => .pure trivial
    split <;> exact .pure trivial
  | app f icit x hf hx => exact (hf names).bind fun _ _ => (hx names).bind fun _ _ => .pure trivial
  | bind b dom body hdom hbody =>
    refine (freshBinder_safely names b.name body).bind fun x _ =>
      (hbody (x :: names)).bind fun _ _ => ?_
    split
    · exact .pure trivial
    · exact (hdom names).bind fun _ _ => .pure trivial
    · exact (hdom names).bind fun _ _ => .pure trivial
  | pair a b s ha hb _ => exact (ha names).bind fun _ _ => (hb names).bind fun _ _ => .pure trivial
  | proj x p hx => exact (hx names).bind fun _ _ => .pure trivial
  | letIn x erased ty val body hty hval hbody =>
    refine (freshBinder_safely names x body).bind fun y _ => (hty names).bind fun _ _ => ?_
    exact (hval names).bind fun _ _ => (hbody (y :: names)).bind fun _ _ => .pure trivial
  | elim e m s cs hm hs hcs =>
    refine (hm names).bind fun _ _ => (hs names).bind fun _ _ => ?_
    exact (namedAll_safely fun c hc => hcs c hc names).bind fun _ _ => .pure trivial

theorem Term.text_safely (names : List Name) (t : Term) : Safely (t.text names) anything :=
  ((t.named_safely names).map (R := anything) fun _ _ => trivial).map fun _ _ => trivial

/-- The message of an error is always shown. -/
theorem Error.message_safely (e : Error) : Safely e.message anything := by
  have term (size : Nat) (names : Option (List Name)) (t : Term) :
      Safely (showTerm size names t) anything := by
    unfold showTerm
    split <;> exact t.text_safely _
  induction e with
  | conversion size lhs rhs names =>
    exact (term size names lhs).bind fun _ _ => (term size names rhs).bind fun _ _ => .pure trivial
  | verification e ih => exact ih.bind fun _ _ => .pure trivial
  | located span e ih => exact ih
  | _ => exact .pure trivial

section

variable {B : Bounds} {L : Nat → Prop} {ms : MetaStore}

theorem Val.text_safely (hms : ms.SolvedWithin B) {v : Val} (hv : v.Within B L) {names : List Name}
    (hL : ∀ l, L l → l < names.length) (fuel : Nat) : Safely (v.text fuel ms names) anything :=
  (Val.quote_safely hms hv hL fuel false).bind fun t _ => t.text_safely names

/-- A value is shown safely in the context it belongs to. -/
theorem Local.text_safely (hms : ms.SolvedWithin B) {scope : Local}
    (hs : scope.Within B L) {v : Val} (hv : v.Within B L) (fuel : Nat) :
    Safely (scope.text fuel ms v) anything :=
  Val.text_safely hms hv (hs.length_names ▸ hs.lt_size) fuel

/-- Each type of a context can be read back in the scope of the variables further outside. -/
theorem Local.describe_safely (hms : ms.SolvedWithin B) {scope : Local} (hs : scope.Within B L)
    (fuel : Nat) : Safely (scope.describe fuel ms) anything := by
  have entries : ∀ {es : List Entry} {vs : List Val} {K : Nat → Prop}, Telescope B es vs K →
      Safely (describeEntries fuel ms es) anything := by
    intro es vs K h
    induction h with
    | nil => exact .ok trivial
    | @cons es vs L K e v outer type value grows below ih =>
      have hlen : ∀ l, L l → l < (es.map (·.name)).length := by
        intro l hl
        rw [List.length_map, outer.length_eq]
        exact outer.lt_length l hl
      exact ih.bind fun _ _ => (Val.text_safely hms type hlen fuel).bind fun _ _ => .pure trivial
  exact (entries hs.telescope).bind fun _ _ => .pure trivial

/-! ## Zonking -/

def Zonked.Within (B : Bounds) (L : Nat → Prop) (n : Nat) : Zonked → Prop
  | .solved v => v.Within B L
  | .term t => t.Within B n

theorem Zonked.toTerm_safely (hms : ms.SolvedWithin B) {z : Zonked} {n : Nat} (hz : z.Within B L n)
    (hL : ∀ l, L l → l < n) (fuel : Nat) : Safely (z.toTerm fuel ms n) (Term.Within B n) := by
  cases z with
  | solved v => exact Val.quote_safely hms hz hL fuel false
  | term t => exact .ok hz

/-- An environment in which a term can be zonked: its values are in bounds, and levels are below its
size. -/
structure Env.Scope (B : Bounds) (L : Nat → Prop) (env : Env) : Prop where
  within : env.Within B L anything
  lt_size : ∀ l, L l → l < env.size

/-- Going under a binder. -/
theorem Env.Scope.enter {env : Env} (h : env.Scope B L) :
    (env.push (.fresh env.size)).Scope B (fun l => L l ∨ l = env.size) := by
  refine ⟨(h.within.mono fun _ hl => .inl hl).push (Val.within_var.2 (.inr rfl)), ?_⟩
  rintro l (hl | rfl)
  · rw [Env.size_push]
    exact Nat.lt_succ_of_lt (h.lt_size l hl)
  · rw [Env.size_push]
    exact Nat.lt_succ_self _

/-- Zonking a part, reading it back and going on with the term. -/
theorem Zonked.bind_safely (hms : ms.SolvedWithin B) {env : Env} (henv : env.Scope B L) {fuel : Nat}
    {r : Except Fault Zonked} (h : Safely r (Zonked.Within B L env.size)) {α : Type} {Q : α → Prop}
    {k : Term → Except Fault α} (hk : ∀ t, t.Within B env.size → Safely (k t) Q) :
    Safely (r >>= fun z => z.toTerm fuel ms env.size >>= k) Q :=
  h.bind fun _ hz => (Zonked.toTerm_safely hms hz henv.lt_size fuel).bind hk

theorem Term.zonkAll_safely (hms : ms.SolvedWithin B) {env : Env}
    (henv : env.Scope B L) {fuel : Nat} {ts : List Term}
    (h : ∀ t ∈ ts, Safely (t.zonkHead fuel ms env) (Zonked.Within B L env.size)) :
    Safely (zonkAll fuel ms env ts) (fun us => ∀ u ∈ us, u.Within B env.size) := by
  induction ts with
  | nil => exact .ok (List.forall_mem_nil _)
  | cons t ts ih =>
    obtain ⟨ht, hts⟩ := List.forall_mem_cons.1 h
    refine Zonked.bind_safely hms henv ht fun u hu => ?_
    exact (ih hts).bind fun us hus => .pure (List.forall_mem_cons.2 ⟨hu, hus⟩)

/-- Zonking a term within bounds is safe. -/
theorem Term.zonkHead_safely (hms : ms.SolvedWithin B) (fuel : Nat) {env : Env}
    (henv : env.Scope B L) {t : Term} (ht : t.Within B env.size) :
    Safely (t.zonkHead fuel ms env) (Zonked.Within B L env.size) := by
  induction t generalizing env L with
  | type => exact .ok Term.within_type
  | var i => exact .ok ht
  | global x => exact .ok Term.within_global
  | prim p => exact .ok Term.within_prim
  | nat n => exact .ok Term.within_nat
  | metavar m =>
    unfold Term.zonkHead
    split
    · next v hv => exact .ok (hms m v (Term.within_metavar.1 ht) hv).of_closed
    · exact .ok ht
  | app f icit x hf hx =>
    obtain ⟨htf, htx⟩ := Term.within_app.1 ht
    refine (hf henv htf).bind fun z hz => ?_
    cases z with
    | solved v =>
      refine (Term.eval_safely henv.within htx fuel).bind fun vx hvx => ?_
      exact (Val.eliminate_safely hz (Elim.within_app.2 hvx) fuel).bind fun w hw => .pure hw
    | term f =>
      exact Zonked.bind_safely hms henv (hx henv htx) fun u hu => .pure (Term.within_app.2 ⟨hz, hu⟩)
  | proj x p hx =>
    refine (hx henv (Term.within_proj.1 ht)).bind fun z hz => ?_
    cases z with
    | solved v => exact (Val.eliminate_safely hz Elim.within_proj fuel).bind fun w hw => .pure hw
    | term x => exact .pure (Term.within_proj.2 hz)
  | bind b dom body hdom hbody =>
    obtain ⟨htdom, htbody⟩ := Term.within_bind.1 ht
    have hinner := henv.enter
    refine Zonked.bind_safely hms henv (hdom henv htdom) fun d hd => ?_
    refine Zonked.bind_safely hms hinner (hbody hinner (by rwa [Env.size_push])) fun u hu =>
      .pure ?_
    rw [Env.size_push] at hu
    exact Term.within_bind.2 ⟨hd, hu⟩
  | pair a b s ha hb hs =>
    obtain ⟨hta, htb, hts⟩ := Term.within_pair.1 ht
    refine Zonked.bind_safely hms henv (ha henv hta) fun ua hua => ?_
    refine Zonked.bind_safely hms henv (hb henv htb) fun ub hub => ?_
    refine Zonked.bind_safely hms henv (hs henv hts) fun us hus => .pure ?_
    exact Term.within_pair.2 ⟨hua, hub, hus⟩
  | letIn x erased ty val body hty hval hbody =>
    obtain ⟨htty, htval, htbody⟩ := Term.within_letIn.1 ht
    have hinner := henv.enter
    refine Zonked.bind_safely hms henv (hty henv htty) fun ut hut => ?_
    refine Zonked.bind_safely hms henv (hval henv htval) fun uv huv => ?_
    refine Zonked.bind_safely hms hinner (hbody hinner (by rwa [Env.size_push])) fun u hu =>
      .pure ?_
    rw [Env.size_push] at hu
    exact Term.within_letIn.2 ⟨hut, huv, hu⟩
  | elim e m s cs hm hs hcs =>
    obtain ⟨htm, hts, htcs⟩ := Term.within_elim.1 ht
    refine Zonked.bind_safely hms henv (hm henv htm) fun um hum => ?_
    refine (Term.zonkAll_safely hms henv fun c hc => hcs c hc henv (htcs c hc)).bind
      fun ucs hucs => ?_
    refine (hs henv hts).bind fun z hz => ?_
    cases z with
    | solved v =>
      -- With the solution in its place the case analysis computes, and the result is read back.
      refine (Term.eval_safely henv.within hum fuel).bind fun vm hvm => ?_
      refine (Safely.mapM fun c hc => Term.eval_safely henv.within (hucs c hc) fuel).bind
        fun vcs hvcs => ?_
      refine (Val.eliminate_safely hz (Elim.within_cases.2 ⟨hvm, hvcs⟩) fuel).bind fun w hw => ?_
      exact (Val.quote_safely hms hw henv.lt_size fuel false).bind fun t ht => .pure ht
    | term us => exact .pure (Term.within_elim.2 ⟨hum, hz, hucs⟩)

/-- Zonking keeps a term in scope. -/
theorem Term.zonk_safely (hms : ms.SolvedWithin B) (fuel : Nat) {env : Env}
    (henv : env.Scope B L) {t : Term} (ht : t.Within B env.size) :
    Safely (t.zonk fuel ms env) (Term.Within B env.size) :=
  (zonkHead_safely hms fuel henv ht).bind fun _ hz => Zonked.toTerm_safely hms hz henv.lt_size fuel

end

end Elaborator
