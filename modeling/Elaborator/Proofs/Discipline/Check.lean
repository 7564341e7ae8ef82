import Elaborator.Proofs.Discipline.Basic

/-! # Elaboration keeps to its disciplines

Both directions of elaboration, and the search for instances, keep to every discipline whose laws
hold. One lemma per rule; the knot is tied by induction on the fuel
(`Discipline.Laws.checker_runs`).

The levels of a context, not just its size, are what its types have to respect. A let-binding makes
the context larger without a new level, which is why the type of its body still makes sense
outside. -/

namespace Elaborator

open Elaborator.Action

/-- An error that a search may swallow is no internal one. -/
theorem Error.inner_ne_internal_of_isSoft {e : Error} (h : e.isSoft = true) (text : MarkedText) :
    e.inner ≠ .internal text := by
  induction e with
  | located span e ih => exact ih h
  | conversion => nofun
  | _ => cases h

/-- Names are filled in without a change of the kind of an error. -/
theorem Error.inner_withNames {e : Error} {names : List Name} {text : MarkedText}
    (h : (e.withNames names).inner = .internal text) : e.inner = .internal text := by
  induction e with
  | conversion size lhs rhs known => cases known <;> cases h
  | located span e ih => exact ih h
  | _ => exact h

namespace Discipline

structure CheckerOk (D : Discipline) (k : Checker) : Prop where
  check : ∀ {w L scope tm ty}, D.ScopeOk w L scope → tm.BindersIn D.NameOk → D.ValOk w L ty →
    D.Runs False w (k.check scope tm ty) fun u => D.TermOk u scope.size
  synth : ∀ {w L scope tm}, D.ScopeOk w L scope → tm.BindersIn D.NameOk →
    D.Runs False w (k.synth scope tm) fun u => D.TypedOk u L scope.size

theorem runs_ite {D : Discipline} {quiet : Prop} {w : D.World} {α : Type} {p : Prop} [Decidable p]
    {x y : Action α} {Q : D.World → α → Prop} (hx : p → D.Runs quiet w x Q)
    (hy : ¬ p → D.Runs quiet w y Q) : D.Runs quiet w (if p then x else y) Q := by
  split
  · next h => exact hx h
  · next h => exact hy h

namespace Laws

variable {D : Discipline} {su : Setup} (hD : D.Laws su) {quiet : Prop} {w u : D.World}
  {L : Nat → Prop} {scope : Local} {fuel : Nat}

/-! ## Consequences of the laws -/

section

include hD

/-- An action that stays in its world runs in it. -/
theorem runs_of_reads {α : Type} {x : Action α} {P : α → Prop} {Q : D.World → α → Prop}
    (h : D.Reads w x P) (hQ : ∀ a, P a → Q w a) : D.Runs quiet w x Q := by
  have hx : D.Runs quiet w (x >>= Pure.pure) Q := hD.read h fun a ha => hD.pure (hQ a ha)
  rwa [bind_pure] at hx

theorem equation_later {q : Equation} (hw : D.Later w u) (h : q.All (D.ValOk w L)) :
    q.All (D.ValOk u L) :=
  ⟨hD.val_later hw h.lhsTy, hD.val_later hw h.rhsTy, hD.val_later hw h.lhs, hD.val_later hw h.rhs⟩

theorem typed_later {n : Nat} {r : Term × Val} (hw : D.Later w u) (h : D.TypedOk w L n r) :
    D.TypedOk u L n r :=
  ⟨hD.term_later hw h.1, hD.val_later hw h.2⟩

theorem scope_enterIf (hs : D.ScopeOk w L scope) (erased : Bool) :
    D.ScopeOk w L (scope.enterIf erased) := by
  cases erased with
  | false => exact hs
  | true => exact hD.scope_enterType hs

/-- A variable that a scope finds is a well-formed term with a well-formed type. -/
theorem scope_lookup (hs : D.ScopeOk w L scope) {x : Name} {i : Index} {e : Entry}
    (hx : scope.lookup x = some (i, e)) : D.TypedOk w L scope.size (.var i, e.ty) := by
  obtain ⟨⟨e', k⟩, hfind, heq⟩ := Option.map_eq_some_iff.1 hx
  cases heq
  obtain ⟨hvar, hty⟩ := hD.scope_entry hs (List.mem_of_find?_eq_some hfind)
  exact ⟨hvar, hty⟩

theorem term_applyImplicits {n : Nat} {t : Term} {args : List Term} (ht : D.TermOk w n t)
    (hargs : ∀ x ∈ args, D.TermOk w n x) : D.TermOk w n (t.applyImplicits args) := by
  unfold Term.applyImplicits
  induction args generalizing t with
  | nil => exact ht
  | cons x args ih =>
    obtain ⟨hx, hargs⟩ := List.forall_mem_cons.1 hargs
    exact ih (hD.term_app ht hx) hargs

theorem val_scrutTy {e : Eliminator} {ty : Val} (h : e.scrutTy? = some ty) : D.ValOk w L ty := by
  cases e <;> cases h <;> exact hD.val_prim

end

/-! ## Metavariables for what is left out -/

section

include hD

/-- Unifying in a scope keeps the discipline. -/
theorem unifyIn_runs (hs : D.ScopeOk w L scope) {a b : Val} (ha : D.ValOk w L a)
    (hb : D.ValOk w L b) : D.Runs quiet w (unifyIn fuel su scope a b) fun _ _ => True :=
  hD.mapError (fun _ _ => Error.inner_withNames) (hD.unify hs ha hb)

theorem newMetaVal_runs (hs : D.ScopeOk w L scope) :
    D.Runs quiet w (newMetaVal fuel scope) fun u => D.ValOk u L := by
  refine hD.bind (hD.newMeta hs) fun u m hu hm => ?_
  exact hD.runs_of_reads (hD.eval (hD.scope_later hu hs) hm) fun _ => id

/-- Instantiating the implicit arguments of a type gives a type and arguments that are well formed.
-/
theorem instantiate_runs (hs : D.ScopeOk w L scope) {ty : Val} (hty : D.ValOk w L ty) :
    D.Runs quiet w (instantiate fuel scope ty) fun u r => D.ValOk u L r.1 ∧ ∀ t ∈ r.2,
      D.TermOk u scope.size t := by
  induction fuel generalizing w ty with
  | zero => exact hD.outOfFuel
  | succ fuel ih =>
    refine hD.read (hD.force hty) fun v hv => ?_
    split
    · refine runs_ite (fun _ => ?_) fun _ => hD.pure ⟨hty, List.forall_mem_nil _⟩
      refine hD.bind (hD.newMeta hs) fun u m hu hm => ?_
      have hs := hD.scope_later hu hs
      refine hD.read (hD.eval hs hm) fun x hx => hD.read (hD.apply (hD.val_later hu hv) hx)
        fun rest hrest => ?_
      refine hD.bind (ih hs hrest) fun z r hz hr => hD.pure ⟨hr.1, ?_⟩
      exact List.forall_mem_cons.2 ⟨hD.term_later hz hm, hr.2⟩
    · exact hD.pure ⟨hty, List.forall_mem_nil _⟩

theorem freshPi_runs (hs : D.ScopeOk w L scope) {x : Name} (hx : D.NameOk x) {icit : Icit}
    {erased : Bool} : D.Runs quiet w (freshPi fuel scope x icit erased) fun u => D.ValOk u L := by
  refine hD.bind (hD.newMeta hs) fun u dom hu hdom => ?_
  have hs := hD.scope_later hu hs
  refine hD.read (hD.eval hs hdom) fun vdom hvdom => ?_
  refine hD.bind (hD.newMeta (hD.scope_bind hs hvdom)) fun z body hz hbody => ?_
  rw [Local.size_bind] at hbody
  have hpi := hD.term_bind (b := ⟨.pi icit, x, erased⟩) hx (hD.term_later hz hdom) hbody
  exact hD.runs_of_reads (hD.eval (hD.scope_later hz hs) hpi) fun _ => id

/-- Fitting a term of one type to an expected one gives a well-formed term. -/
theorem subsume_runs (hs : D.ScopeOk w L scope) {term : Term} {found expected : Val}
    (hterm : D.TermOk w scope.size term) (hfound : D.ValOk w L found)
    (hexpected : D.ValOk w L expected) :
    D.Runs quiet w (subsume fuel su scope term found expected) fun u => D.TermOk u scope.size := by
  refine hD.transaction (hD.unify hs hfound hexpected) ?_ ?_ ?_
  · exact fun u _ hu _ => hD.pure (hD.term_later hu hterm)
  · -- Only a type that does not fit is tried again with implicit arguments.
    intro u e hu hsoft
    simp only [hsoft, if_true]
    refine hD.bind (hD.note (hD.scope_later hu hs) (hD.val_later hu hfound) .insertImplicits)
      fun v _ hv _ => ?_
    have hwv := hD.trans hu hv
    have hs := hD.scope_later hwv hs
    refine hD.bind (hD.attempt (Q := fun z args => ∀ x ∈ args, D.TermOk z scope.size x) ?_)
      fun z args hz hargs => ?_
    · refine hD.bind (hD.instantiate_runs hs (hD.val_later hwv hfound)) fun y r hy hr => ?_
      have hexpected := hD.val_later (hD.trans hwv hy) hexpected
      refine hD.bind (hD.unify (hD.scope_later hy hs) hr.1 hexpected) fun z _ hz _ => hD.pure ?_
      simpa using fun x hx => hD.term_later hz (hr.2 x hx)
    · cases args with
      | none =>
        refine hD.refuse fun text htext => ?_
        exact Error.inner_ne_internal_of_isSoft hsoft text (Error.inner_withNames htext)
      | some args =>
        exact hD.pure
          (hD.term_applyImplicits (hD.term_later (hD.trans hwv hz) hterm) (hargs args rfl))
  · intro e hsoft
    simp [hsoft]

/-- The two sides that a scrutinee's type equates are well formed. -/
theorem scrutEquation_runs (hs : D.ScopeOk w L scope) {ty : Val} (hty : D.ValOk w L ty) :
    D.Runs quiet w (scrutEquation fuel su scope ty) fun u q => q.All (D.ValOk u L) := by
  refine hD.read (hD.force hty) fun v hv => ?_
  cases hq : Equation.ofType? v with
  | some q =>
    have hq := hD.val_equation hv hq
    exact hD.bind (hD.unifyIn_runs hs hq.lhsTy hq.rhsTy) fun u _ hu _ =>
      hD.pure (hD.equation_later hu hq)
  | none =>
    refine hD.bind (hD.newMeta hs) fun u side hu hside => ?_
    refine hD.bind (hD.newMeta (hD.scope_later hu hs)) fun v lhs hv hlhs => ?_
    have hwv := hD.trans hu hv
    refine hD.bind (hD.newMeta (hD.scope_later hwv hs)) fun z rhs hz hrhs => ?_
    have hwz := hD.trans hwv hz
    have hs := hD.scope_later hwz hs
    refine hD.read (hD.eval hs (hD.term_later (hD.trans hv hz) hside)) fun vside hvside => ?_
    refine hD.read (hD.eval hs (hD.term_later hz hlhs)) fun vlhs hvlhs => ?_
    refine hD.read (hD.eval hs hrhs) fun vrhs hvrhs => ?_
    have hq : Equation.All (D.ValOk z L) ⟨vside, vside, vlhs, vrhs⟩ :=
      ⟨hvside, hvside, hvlhs, hvrhs⟩
    refine hD.bind (hD.unifyIn_runs hs (hD.val_later hwz hty) (hD.val_equationType hq))
      fun y _ hy _ => ?_
    exact hD.pure (hD.equation_later hy hq)

/-! ## Rules that need no other part elaborated -/

theorem synthVar_runs (hs : D.ScopeOk w L scope) {x : Name} :
    D.Runs quiet w (synthVar su scope x) fun u => D.TypedOk u L scope.size := by
  unfold synthVar
  split
  · next i e he =>
    exact runs_ite (fun _ => hD.refuse nofun) fun _ => hD.pure (hD.scope_lookup hs he)
  · split
    · next d hd =>
      refine runs_ite (fun _ => hD.refuse nofun) fun _ => hD.pure ⟨hD.term_global, ?_⟩
      exact hD.definition hd
    · split
      · next p _ => exact hD.pure ⟨hD.term_prim, hD.val_primType p⟩
      · exact hD.refuse nofun

theorem sndType_runs (hs : D.ScopeOk w L scope) {term : Term}
    (hterm : D.TermOk w scope.size term) {c : Closure} (hc : D.ValOk w L (.closure c)) :
    D.Runs quiet w (sndType fuel scope term c) fun u => D.ValOk u L :=
  hD.read (hD.eval hs (hD.term_proj hterm)) fun _ hv =>
    hD.runs_of_reads (hD.apply hc hv) fun _ => id

/-- The last step of a projection, on the type that is reached, gives a typed term. -/
theorem projectLast_runs (hs : D.ScopeOk w L scope) {term : Term}
    (hterm : D.TermOk w scope.size term) {ty v : Val} (hty : D.ValOk w L ty) (hv : D.ValOk w L v)
    {field : Field} {i : Nat} :
    D.Runs quiet w (projectLast fuel scope field i term ty v) fun u =>
      D.TypedOk u L scope.size := by
  refine runs_ite (fun _ => ?_) fun _ => runs_ite (fun _ => hD.pure ⟨hterm, hty⟩) fun _ => ?_
  · exact hD.read (hD.text hs hv) fun _ _ => hD.refuse nofun
  · exact hD.read (hD.text hs hty) fun _ _ => hD.refuse nofun

/-- A projection by any field gives a typed term. -/
theorem project_runs (hs : D.ScopeOk w L scope) {term : Term}
    (hterm : D.TermOk w scope.size term) {ty : Val} (hty : D.ValOk w L ty)
    {field : Field} {i : Nat} :
    D.Runs quiet w (project fuel scope field i term ty) fun u => D.TypedOk u L scope.size := by
  induction fuel generalizing w i term ty with
  | zero => exact hD.outOfFuel
  | succ fuel ih =>
    refine hD.read (hD.force hty) fun v hv => ?_
    split
    · refine runs_ite (fun _ => hD.projectLast_runs hs hterm hty hv) fun _ => ?_
      refine runs_ite (fun _ => ?_) fun _ => runs_ite (fun _ => ?_) fun _ => ?_
      · refine hD.bind (hD.sndType_runs hs hterm hv) fun u ty hu hty => hD.pure ⟨?_, hty⟩
        exact hD.term_proj (hD.term_later hu hterm)
      · refine runs_ite (fun _ => hD.refuse nofun) fun _ => hD.pure ⟨hD.term_proj hterm, ?_⟩
        exact (hD.val_closure hv).2
      · refine hD.bind (hD.sndType_runs hs hterm hv) fun u ty hu hty => ?_
        exact ih (hD.scope_later hu hs) (hD.term_proj (hD.term_later hu hterm)) hty
    · exact hD.projectLast_runs hs hterm hty hv

/-- The new metavariable of a default motive is in the scope of the variables of the motive, which
are only defined, not bound: the metavariable is not applied to them. -/
theorem defaultMotive_runs (hs : D.ScopeOk w L scope) {ty : Val} (hty : D.ValOk w L ty) :
    D.Runs quiet w (defaultMotive fuel scope ty) fun u => D.TermOk u scope.size := by
  induction fuel generalizing w L scope ty with
  | zero => exact hD.outOfFuel
  | succ fuel ih =>
    refine hD.read (hD.force hty) fun v hv => ?_
    split
    · obtain ⟨hname, hdomain⟩ := hD.val_closure hv
      refine hD.read (hD.quote hs hdomain (Nat.le_refl _)) fun dom hdom =>
        hD.read (hD.enter hv) fun rest hrest => ?_
      refine hD.bind (ih (hD.scope_defineFresh hs hdomain) hrest) fun u body hu hbody => hD.pure ?_
      rw [Local.size_define] at hbody
      exact hD.term_bind hname (hD.term_later hu hdom) hbody
    · exact hD.newMeta hs

end

/-! ## The other rules -/

section

variable {k : Checker} (hk : D.CheckerOk k) {erased : Bool} {x : Name}

include hD hk

/-- A part that is checked in a context with the same variables. -/
theorem checkIf_runs (hs : D.ScopeOk w L scope) {tm : Surface}
    (htm : tm.BindersIn D.NameOk) {ty : Val} (hty : D.ValOk w L ty) :
    D.Runs False w (k.check (scope.enterIf erased) tm ty) fun u => D.TermOk u scope.size := by
  have h := hk.check (hD.scope_enterIf hs erased) htm hty
  rwa [Local.size_enterIf] at h

/-- A type annotation elaborates to a well-formed term. -/
theorem checkType_runs (hs : D.ScopeOk w L scope) {tm : Surface} (htm : tm.BindersIn D.NameOk) :
    D.Runs False w (k.check scope.enterType tm .type) fun u => D.TermOk u scope.size :=
  hk.check (hD.scope_enterType hs) htm hD.val_type

/-- A part under a new variable that stands for itself. -/
theorem checkUnder_runs (hs : D.ScopeOk w L scope) {tm : Surface} (htm : tm.BindersIn D.NameOk)
    {ty bty : Val} (hty : D.ValOk w L ty) (hbty : D.ValOk w (fun l => L l ∨ l = scope.size) bty)
    {inserted : Bool} :
    D.Runs False w (k.check (scope.bind x ty erased inserted) tm bty) fun u =>
      D.TermOk u (scope.size + 1) := by
  have h : D.Runs False w (k.check (scope.bind x ty erased inserted) tm bty) _ :=
    hk.check (hD.scope_bind hs hty) htm hbty
  rwa [Local.size_bind] at h

theorem letBinding_runs (hs : D.ScopeOk w L scope) {ty : Option Surface} {val : Surface}
    (hty : ∀ t ∈ ty, t.BindersIn D.NameOk) (hval : val.BindersIn D.NameOk) :
    D.Runs False w (letBinding fuel k scope erased ty val)
      fun u r => D.TermOk u scope.size r.1 ∧ D.ValOk u L r.2.1 ∧ D.TermOk u scope.size r.2.2 := by
  cases ty with
  | some ty =>
    refine hD.bind (hD.checkType_runs hk hs (hty ty rfl)) fun u ty hu hty => ?_
    have hs := hD.scope_later hu hs
    refine hD.read (hD.eval hs hty) fun vty hvty => ?_
    refine hD.bind (hD.checkIf_runs hk hs hval hvty) fun z val hz hval => hD.pure ?_
    exact ⟨hD.term_later hz hty, hD.val_later hz hvty, hval⟩
  | none =>
    refine hD.bind (hk.synth (hD.scope_enterIf hs erased) hval) fun u r hu hr => ?_
    rw [Local.size_enterIf] at hr
    refine hD.read (hD.quote (hD.scope_later hu hs) hr.2 (Nat.le_refl _)) fun ty hty => hD.pure ?_
    exact ⟨hty, hr.2, hr.1⟩

/-- A pair checked against a sum type gives a well-formed term. -/
theorem checkPair_runs (hs : D.ScopeOk w L scope) {a b : Surface} (ha : a.BindersIn D.NameOk)
    (hb : b.BindersIn D.NameOk) {sigma : Closure} (hsigma : D.ValOk w L (.closure sigma)) {ty : Val}
    (hty : D.ValOk w L ty) :
    D.Runs False w (checkPair fuel k scope a b sigma ty) fun u => D.TermOk u scope.size := by
  refine hD.bind (hD.checkIf_runs hk hs ha (hD.val_closure hsigma).2) fun u a hu ha => ?_
  have hs := hD.scope_later hu hs
  refine hD.read (hD.eval hs ha) fun va hva => hD.read (hD.apply (hD.val_later hu hsigma) hva)
    fun bty hbty => ?_
  refine hD.bind (hk.check hs hb hbty) fun z b hz hb => ?_
  have hty := hD.val_later (hD.trans hu hz) hty
  refine hD.read (hD.quote (hD.scope_later hz hs) hty (Nat.le_refl _)) fun s hsigma => hD.pure ?_
  exact hD.term_pair (hD.term_later hz ha) hb hsigma

/-- The binder is named by the function or, if that leaves the name out, by its type. -/
theorem checkLam_runs (hs : D.ScopeOk w L scope) (hx : D.NameOk x) {body : Surface}
    (hbody : body.BindersIn D.NameOk) {pi : Closure} (hpi : D.ValOk w L (.closure pi))
    {icit : Icit} :
    D.Runs False w (checkLam fuel k scope icit x body pi) fun u => D.TermOk u scope.size := by
  obtain ⟨hname, hdomain⟩ := hD.val_closure hpi
  have hchosen : D.NameOk (if x.isUnderscore then pi.binder.name else x) := by
    split
    · exact hname
    · exact hx
  refine hD.read (hD.enter hpi) fun bty hbty => ?_
  refine hD.bind (hD.checkUnder_runs hk hs hbody hdomain hbty) fun u body hu hbody => ?_
  refine hD.read (hD.quote (hD.scope_later hu hs) (hD.val_later hu hdomain) (Nat.le_refl _))
    fun dom hdom => hD.pure ?_
  exact hD.term_bind hchosen hdom hbody

/-- The implicit function that is put around a term gives a well-formed term. -/
theorem insertLam_runs (hs : D.ScopeOk w L scope) {tm : Surface} (htm : tm.BindersIn D.NameOk)
    {pi : Closure} (hpi : D.ValOk w L (.closure pi)) :
    D.Runs False w (insertLam fuel k scope tm pi) fun u => D.TermOk u scope.size := by
  obtain ⟨hname, hdomain⟩ := hD.val_closure hpi
  refine hD.read (hD.enter hpi) fun bty hbty => ?_
  refine hD.bind (hD.checkUnder_runs hk hs htm hdomain hbty) fun u body hu hbody => ?_
  refine hD.read (hD.quote (hD.scope_later hu hs) (hD.val_later hu hdomain) (Nat.le_refl _))
    fun dom hdom => hD.pure ?_
  exact hD.term_bind hname hdom hbody

theorem checkLet_runs (hs : D.ScopeOk w L scope) (hx : D.NameOk x) {ty : Option Surface}
    {val body : Surface} (hty : ∀ t ∈ ty, t.BindersIn D.NameOk) (hval : val.BindersIn D.NameOk)
    (hbody : body.BindersIn D.NameOk) {expected : Val} (hexpected : D.ValOk w L expected) :
    D.Runs False w (checkLet fuel k scope erased x ty val body expected) fun u =>
      D.TermOk u scope.size := by
  refine hD.bind (hD.letBinding_runs hk hs hty hval) fun u r hu hr => ?_
  obtain ⟨hty, hvty, hval⟩ := hr
  have hs := hD.scope_later hu hs
  refine hD.read (hD.eval hs hval) fun v hv => ?_
  refine hD.bind (hk.check (hD.scope_define hs hvty hv) hbody (hD.val_later hu hexpected))
    fun z body hz hbody => ?_
  rw [Local.size_define] at hbody
  exact hD.pure (hD.term_letIn hx (hD.term_later hz hty) (hD.term_later hz hval) hbody)

theorem synthBinderType_runs (hs : D.ScopeOk w L scope) (hx : D.NameOk x) {dom body : Surface}
    (hdom : dom.BindersIn D.NameOk) (hbody : body.BindersIn D.NameOk) {kind : BinderKind} :
    D.Runs False w (synthBinderType fuel k scope kind erased x dom body) fun u =>
      D.TypedOk u L scope.size := by
  refine hD.bind (hD.checkType_runs hk hs hdom) fun u dom hu hdom => ?_
  have hs := hD.scope_enterType (hD.scope_later hu hs)
  refine hD.read (hD.eval hs hdom) fun vdom hvdom => ?_
  refine hD.bind (hD.checkUnder_runs hk hs hbody hvdom hD.val_type) fun z body hz hbody =>
    hD.pure ?_
  exact ⟨hD.term_bind hx (hD.term_later hz hdom) hbody, hD.val_type⟩

theorem synthLam_runs (hs : D.ScopeOk w L scope) (hx : D.NameOk x) {dom body : Surface}
    (hdom : dom.BindersIn D.NameOk) (hbody : body.BindersIn D.NameOk) {icit : Icit} :
    D.Runs False w (synthLam fuel k scope icit erased x dom body) fun u =>
      D.TypedOk u L scope.size := by
  refine hD.bind (hD.checkType_runs hk hs hdom) fun u dom hu hdom => ?_
  have hs := hD.scope_later hu hs
  refine hD.read (hD.eval hs hdom) fun vdom hvdom => ?_
  have hinner : D.ScopeOk u _ (scope.bind x vdom (erased || icit == .impl) false) :=
    hD.scope_bind hs hvdom
  refine hD.bind (hk.synth hinner hbody) fun z r hz hr => ?_
  have hinner := hD.scope_later hz hinner
  have hdom := hD.term_later hz hdom
  rw [Local.size_bind] at hr
  refine hD.read (hD.quote hinner hr.2 (Nat.le_refl _)) fun bty hbty => ?_
  rw [Local.size_bind] at hbty
  have hpi := hD.term_bind (b := ⟨.pi icit, x, erased⟩) hx hdom hbty
  refine hD.read (hD.eval (hD.scope_later hz hs) hpi) fun pi hpi => hD.pure ?_
  exact ⟨hD.term_bind hx hdom hr.1, hpi⟩

theorem synthLet_runs (hs : D.ScopeOk w L scope) (hx : D.NameOk x) {ty : Option Surface}
    {val body : Surface} (hty : ∀ t ∈ ty, t.BindersIn D.NameOk) (hval : val.BindersIn D.NameOk)
    (hbody : body.BindersIn D.NameOk) :
    D.Runs False w (synthLet fuel k scope erased x ty val body) fun u =>
      D.TypedOk u L scope.size := by
  refine hD.bind (hD.letBinding_runs hk hs hty hval) fun u r hu hr => ?_
  obtain ⟨hty, hvty, hval⟩ := hr
  have hs := hD.scope_later hu hs
  refine hD.read (hD.eval hs hval) fun v hv => ?_
  refine hD.bind (hk.synth (hD.scope_define hs hvty hv) hbody) fun z q hz hq => ?_
  rw [Local.size_define] at hq
  exact hD.pure ⟨hD.term_letIn hx (hD.term_later hz hty) (hD.term_later hz hval) hq.1, hq.2⟩

theorem synthPair_runs (hs : D.ScopeOk w L scope) {a b : Surface} (ha : a.BindersIn D.NameOk)
    (hb : b.BindersIn D.NameOk) :
    D.Runs False w (synthPair fuel k scope a b) fun u => D.TypedOk u L scope.size := by
  refine hD.bind (hk.synth hs ha) fun u ra hu hra => ?_
  have hs := hD.scope_later hu hs
  refine hD.bind (hk.synth hs hb) fun z rb hz hrb => ?_
  have hs := hD.scope_later hz hs
  refine hD.read (hD.quote hs (hD.val_later hz hra.2) (Nat.le_refl _)) fun dom hdom => ?_
  -- The type of the second component is read back as if it were under the binder already.
  refine hD.read (hD.quote hs hrb.2 (Nat.le_succ _)) fun cod hcod => ?_
  have hsigma := hD.term_bind (b := ⟨.sigma, .underscore, false⟩) hD.underscore hdom hcod
  refine hD.read (hD.eval hs hsigma) fun v hv => hD.pure ?_
  exact ⟨hD.term_pair (hD.term_later hz hra.1) hrb.1 hsigma, hv⟩

/-- Cases checked against their types give well-formed terms. -/
theorem checkAll_runs (hs : D.ScopeOk w L scope) {tms : List Surface}
    (htms : ∀ tm ∈ tms, tm.BindersIn D.NameOk) {tys : List Val}
    (htys : ∀ ty ∈ tys, D.ValOk w L ty) :
    D.Runs False w (checkAll (k.check scope) tms tys) fun u ts =>
      ∀ t ∈ ts, D.TermOk u scope.size t := by
  induction tms generalizing w tys with
  | nil => exact hD.pure (List.forall_mem_nil _)
  | cons tm tms ih =>
    cases tys with
    | nil => exact hD.pure (List.forall_mem_nil _)
    | cons ty tys =>
      obtain ⟨htm, htms⟩ := List.forall_mem_cons.1 htms
      obtain ⟨hty, htys⟩ := List.forall_mem_cons.1 htys
      refine hD.bind (hk.check hs htm hty) fun u t hu ht => ?_
      refine hD.bind (ih (hD.scope_later hu hs) htms fun ty h => hD.val_later hu (htys ty h))
        fun z ts hz hts => ?_
      exact hD.pure (List.forall_mem_cons.2 ⟨hD.term_later hz ht, hts⟩)

/-- A motive, written or left out, gives a well-formed term. -/
theorem elaborateMotive_runs (hs : D.ScopeOk w L scope) {motive : Option Surface}
    (hmotive : ∀ t ∈ motive, t.BindersIn D.NameOk) {motiveTy : Val} (hty : D.ValOk w L motiveTy) :
    D.Runs False w (elaborateMotive fuel k scope motive motiveTy) fun u =>
      D.TermOk u scope.size := by
  cases motive with
  | some m => exact hk.check (hD.scope_enterType hs) (hmotive m rfl) hty
  | none => exact hD.defaultMotive_runs (hD.scope_enterType hs) hty

theorem checkBy_runs (hs : D.ScopeOk w L scope) {tm : Surface}
    (htm : tm.BindersIn D.NameOk) {ty v : Val} (hty : D.ValOk w L ty) (hv : D.ValOk w L v) :
    D.Runs False w (checkBy fuel su k scope tm ty (CheckRule.of tm v)) fun u =>
      D.TermOk u scope.size := by
  have switch : D.Runs False w (checkBy fuel su k scope tm ty .switch) fun u =>
      D.TermOk u scope.size := by
    refine hD.bind (hk.synth hs htm) fun u r hu hr => ?_
    exact hD.subsume_runs (hD.scope_later hu hs) hr.1 hr.2 (hD.val_later hu hty)
  -- The type is looked at only to find a binder, so a rule holds at most the closure of the type.
  have insertOr {other : CheckRule}
      (h : D.Runs False w (checkBy fuel su k scope tm ty other) fun u => D.TermOk u scope.size) :
      D.Runs False w (checkBy fuel su k scope tm ty (CheckRule.insertOr tm v other))
        fun u => D.TermOk u scope.size := by
    unfold CheckRule.insertOr
    split
    · split
      · exact hD.insertLam_runs hk hs htm hv
      · exact h
    · exact h
  unfold CheckRule.of
  split
  · exact hD.pure hD.term_type
  · exact hD.hole hs hty
  · split
    · obtain ⟨ha, hb⟩ := Surface.bindersIn_pair.1 htm
      exact hD.checkPair_runs hk hs ha hb hv hty
    · exact insertOr switch
  · split
    · obtain ⟨-, hx, hbody⟩ := Surface.bindersIn_abs.1 htm
      exact hD.checkLam_runs hk hs hx hbody hv
    · exact insertOr switch
  · obtain ⟨hlty, hval, hx, hbody⟩ := Surface.bindersIn_letIn.1 htm
    exact insertOr (hD.checkLet_runs hk hs hx hlty hval hbody hty)
  · exact insertOr switch

/-- One step of checking keeps the discipline when the recursive calls do. -/
theorem checkStep_runs (hs : D.ScopeOk w L scope) {tm : Surface}
    (htm : tm.BindersIn D.NameOk) {ty : Val} (hty : D.ValOk w L ty) :
    D.Runs False w (checkStep fuel su k scope tm ty) fun u => D.TermOk u scope.size := by
  unfold checkStep
  split
  · exact hD.mapError (fun _ _ h => by simpa using h) (hk.check hs htm hty)
  · refine hD.bind (hD.note hs hty .check) fun u _ hu _ => ?_
    have hs := hD.scope_later hu hs
    have hty := hD.val_later hu hty
    refine hD.bind (runs_ite (fun _ => hD.note hs hty .checkScope) fun _ => hD.pure trivial)
      fun z _ hz _ => ?_
    have hty := hD.val_later hz hty
    exact hD.read (hD.force hty) fun v hv => hD.checkBy_runs hk (hD.scope_later hz hs) htm hty hv

theorem synthApp_runs (hs : D.ScopeOk w L scope) {f : Term} {fty : Val}
    (hf : D.TermOk w scope.size f) (hfty : D.ValOk w L fty) {icit : Icit} {arg : Surface}
    (harg : arg.BindersIn D.NameOk) :
    D.Runs False w (synthApp fuel su k scope f fty icit arg) fun u => D.TypedOk u L scope.size := by
  induction fuel generalizing w f fty with
  | zero => exact hD.outOfFuel
  | succ fuel ih =>
    refine hD.bind (hD.note hs hfty (.apply icit)) fun u _ hu _ => ?_
    have hs := hD.scope_later hu hs
    have hf := hD.term_later hu hf
    have hfty := hD.val_later hu hfty
    refine hD.read (hD.force hfty) fun v hv => ?_
    split
    · refine runs_ite (fun _ => ?_) fun _ => runs_ite (fun _ => ?_) fun _ =>
        runs_ite (fun _ => ?_) fun _ => ?_
      · refine hD.bind (hD.newMeta hs) fun z m hz hm => ?_
        have hs := hD.scope_later hz hs
        refine hD.read (hD.eval hs hm) fun x hx => hD.read (hD.apply (hD.val_later hz hv) hx)
          fun rest hrest => ?_
        exact ih hs (hD.term_app (hD.term_later hz hf) hm) hrest
      · refine hD.bind (hD.checkIf_runs hk hs harg (hD.val_closure hv).2) fun z x hz hx => ?_
        refine hD.read (hD.eval (hD.scope_later hz hs) hx) fun vx hvx => ?_
        refine hD.read (hD.apply (hD.val_later hz hv) hvx) fun rest hrest => hD.pure ?_
        exact ⟨hD.term_app (hD.term_later hz hf) hx, hrest⟩
      · exact hD.read (hD.text hs hfty) fun _ _ => hD.refuse nofun
      · exact hD.read (hD.text hs hv) fun _ _ => hD.refuse nofun
    · refine hD.bind (hD.freshPi_runs hs hD.underscore) fun z pi hz hpi => ?_
      have hs := hD.scope_later hz hs
      refine hD.bind (hD.unifyIn_runs hs (hD.val_later hz hv) hpi) fun y _ hy _ => ?_
      exact ih (hD.scope_later hy hs) (hD.term_later (hD.trans hz hy) hf) (hD.val_later hy hpi)
    · exact hD.read (hD.text hs hv) fun _ _ => hD.refuse nofun

theorem elaborateScrut_runs (hs : D.ScopeOk w L scope) {e : Eliminator} {scrut : Surface}
    (hscrut : scrut.BindersIn D.NameOk) :
    D.Runs False w (elaborateScrut fuel su k scope e scrut)
      fun u r => D.TermOk u scope.size r.1 ∧ ∀ q ∈ r.2, q.All (D.ValOk u L) := by
  unfold elaborateScrut
  split
  · next ty hty =>
    refine hD.bind (hk.check hs hscrut (hD.val_scrutTy hty)) fun u t hu ht => hD.pure ⟨ht, ?_⟩
    exact fun _ h => nomatch h
  · refine hD.bind (hk.synth hs hscrut) fun u r hu hr => ?_
    refine hD.bind (hD.scrutEquation_runs (hD.scope_later hu hs) hr.2) fun z q hz hq => hD.pure ?_
    exact ⟨hD.term_later hz hr.1, by simpa using hq⟩

/-- An eliminator keeps the discipline, from its scrutinee to its last case. -/
theorem synthElim_runs (hs : D.ScopeOk w L scope) {e : Eliminator} {motive : Option Surface}
    {scrut : Surface} {cases : List Surface} (hmotive : ∀ t ∈ motive, t.BindersIn D.NameOk)
    (hscrut : scrut.BindersIn D.NameOk) (hcases : ∀ c ∈ cases, c.BindersIn D.NameOk) :
    D.Runs False w (synthElim fuel su k scope e motive scrut cases) fun u =>
      D.TypedOk u L scope.size := by
  refine runs_ite (fun _ => hD.refuse nofun) fun _ => ?_
  refine hD.bind (hD.elaborateScrut_runs hk hs hscrut) fun u r hu hr => ?_
  obtain ⟨hscrut, hq⟩ := hr
  have hs := hD.scope_later hu hs
  refine hD.read (hD.eval hs hscrut) fun vscrut hvscrut =>
    hD.read (hD.motiveTy hq) fun motiveTy hmotiveTy => ?_
  refine hD.bind (hD.elaborateMotive_runs hk hs hmotive hmotiveTy) fun z motive hz hmotive => ?_
  have hs := hD.scope_later hz hs
  have hvscrut := hD.val_later hz hvscrut
  refine hD.read (hD.eval hs hmotive) fun vmotive hvmotive => ?_
  refine hD.read (hD.signature hvmotive hvscrut fun p hp => hD.equation_later hz (hq p hp))
    fun sig hsig => ?_
  refine hD.bind (hD.checkAll_runs hk hs hcases hsig.1) fun y cases hy hcases => hD.pure ?_
  have hscrut := hD.term_later (hD.trans hz hy) hscrut
  exact ⟨hD.term_elim (hD.term_later hy hmotive) hscrut hcases, hD.val_later hy hsig.2⟩

theorem synthForm_runs (hs : D.ScopeOk w L scope) {tm : Surface} (htm : tm.BindersIn D.NameOk) :
    D.Runs False w (synthForm fuel su k scope tm) fun u => D.TypedOk u L scope.size := by
  unfold synthForm
  split
  · exact hD.mapError (fun _ _ h => by simpa using h) (hk.synth hs htm)
  · exact hD.pure ⟨hD.term_type, hD.val_type⟩
  · exact hD.pure ⟨hD.term_nat, hD.val_prim⟩
  · next p => exact hD.pure ⟨hD.term_prim, hD.val_primType p⟩
  · exact hD.synthVar_runs hs
  · refine hD.bind (hD.newMetaVal_runs hs) fun u ty hu hty => ?_
    refine hD.bind (hD.hole (hD.scope_later hu hs) hty) fun z t hz ht => hD.pure ?_
    exact ⟨ht, hD.val_later hz hty⟩
  · obtain ⟨hf, harg⟩ := Surface.bindersIn_app.1 htm
    refine hD.bind (hk.synth hs hf) fun u r hu hr => ?_
    exact hD.synthApp_runs hk (hD.scope_later hu hs) hr.1 hr.2 harg
  · obtain ⟨hdom, hx, hbody⟩ := Surface.bindersIn_abs.1 htm
    exact hD.synthLam_runs hk hs hx (hdom _ rfl) hbody
  · obtain ⟨-, hx, -⟩ := Surface.bindersIn_abs.1 htm
    refine hD.bind (hD.freshPi_runs hs hx) fun u pi hu hpi => ?_
    refine hD.bind (hk.check (hD.scope_later hu hs) htm hpi) fun z t hz ht => hD.pure ?_
    exact ⟨ht, hD.val_later hz hpi⟩
  · obtain ⟨hty, hval, hx, hbody⟩ := Surface.bindersIn_letIn.1 htm
    exact hD.synthLet_runs hk hs hx hty hval hbody
  · obtain ⟨hdom, hx, hbody⟩ := Surface.bindersIn_pi.1 htm
    exact hD.synthBinderType_runs hk hs hx hdom hbody
  · obtain ⟨hdom, hx, hbody⟩ := Surface.bindersIn_sigma.1 htm
    exact hD.synthBinderType_runs hk hs hx hdom hbody
  · obtain ⟨ha, hb⟩ := Surface.bindersIn_pair.1 htm
    exact hD.synthPair_runs hk hs ha hb
  · refine hD.bind (hk.synth hs htm) fun u r hu hr => ?_
    exact hD.project_runs (hD.scope_later hu hs) hr.1 hr.2
  · obtain ⟨hx, hty⟩ := Surface.bindersIn_ann.1 htm
    refine hD.bind (hD.checkType_runs hk hs hty) fun u ty hu hty => ?_
    have hs := hD.scope_later hu hs
    refine hD.read (hD.eval hs hty) fun vty hvty => ?_
    exact hD.bind (hk.check hs hx hvty) fun z t hz ht => hD.pure ⟨ht, hD.val_later hz hvty⟩
  · obtain ⟨hmotive, hscrut, hcases⟩ := Surface.bindersIn_elim.1 htm
    exact hD.synthElim_runs hk hs hmotive hscrut hcases

/-- One step of synthesis keeps the discipline when the recursive calls do. -/
theorem synthStep_runs (hs : D.ScopeOk w L scope) {tm : Surface} (htm : tm.BindersIn D.NameOk) :
    D.Runs False w (synthStep fuel su k scope tm) fun u => D.TypedOk u L scope.size := by
  unfold synthStep
  split
  · exact hD.mapError (fun _ _ h => by simpa using h) (hk.synth hs htm)
  · refine hD.bind (runs_ite (fun _ => hD.note hs hD.val_type .synthScope) fun _ => hD.pure trivial)
      fun u _ hu _ => ?_
    have hs := hD.scope_later hu hs
    refine hD.bind (hD.synthForm_runs hk hs htm) fun z r hz hr => ?_
    refine hD.bind (hD.note (hD.scope_later hz hs) hr.2 (.synth r.1)) fun y _ hy _ => hD.pure ?_
    exact hD.typed_later hy hr

end

section

include hD

/-- With any fuel, the two directions tied together keep to the discipline. -/
theorem checker_runs (fuel : Nat) : D.CheckerOk ⟨check fuel su, synth fuel su⟩ := by
  induction fuel with
  | zero => exact ⟨fun _ _ _ => hD.outOfFuel, fun _ _ => hD.outOfFuel⟩
  | succ fuel ih =>
    exact ⟨fun hs htm hty => hD.checkStep_runs ih hs htm hty,
      fun hs htm => hD.synthStep_runs ih hs htm⟩

/-! ## Instance search -/

/-- A candidate is a term of the context, with its type. -/
theorem candidates_ok (hs : D.ScopeOk w L scope) :
    ∀ c ∈ candidates su scope, D.TypedOk w L scope.size (c.term, c.ty) := by
  refine List.forall_mem_append.2 ⟨?_, ?_⟩
  · intro c hc
    obtain ⟨⟨e, i⟩, hmem, hsome⟩ := List.mem_filterMap.1 hc
    dsimp only at hsome
    split at hsome <;> cases hsome
    obtain ⟨hvar, hty⟩ := hD.scope_entry hs hmem
    exact ⟨hvar, hty⟩
  · intro c hc
    obtain ⟨⟨x, d⟩, hmem, hsome⟩ := List.mem_filterMap.1 hc
    dsimp only at hsome
    split at hsome <;> cases hsome
    exact ⟨hD.term_global,
      hD.definition (Globals.find?_of_mem_definitions (List.mem_reverse.1 hmem))⟩

section

variable {goal : Val} {c : Candidate}

theorem tryDirect_runs (hs : D.ScopeOk w L scope) (hgoal : D.ValOk w L goal)
    (hc : D.TypedOk w L scope.size (c.term, c.ty)) :
    D.Runs quiet w (tryDirect fuel su scope goal c) fun u r =>
      ∀ t ∈ r, D.TermOk u scope.size t := by
  refine hD.attempt (hD.bind (hD.unify hs hc.2 hgoal) fun u _ hu _ => hD.pure ?_)
  simpa using hD.term_later hu hc.1

theorem tryApplied_runs (hs : D.ScopeOk w L scope) (hgoal : D.ValOk w L goal)
    (hc : D.TypedOk w L scope.size (c.term, c.ty)) :
    D.Runs quiet w (tryApplied fuel su scope goal c) fun u r =>
      ∀ t ∈ r, D.TermOk u scope.size t := by
  refine hD.attempt (hD.bind (hD.instantiate_runs hs hc.2) fun u r hu hr => ?_)
  refine runs_ite (fun _ => hD.pure fun _ h => nomatch h) fun _ => ?_
  refine hD.bind (hD.unify (hD.scope_later hu hs) hr.1 (hD.val_later hu hgoal)) fun z _ hz _ =>
    hD.pure ?_
  have hterm := hD.term_later (hD.trans hu hz) hc.1
  simpa using hD.term_applyImplicits hterm fun x hx => hD.term_later hz (hr.2 x hx)

/-- A function that is a candidate keeps the discipline when the search for its argument does. -/
theorem tryFunction_runs (hs : D.ScopeOk w L scope) (hgoal : D.ValOk w L goal)
    (hc : D.TypedOk w L scope.size (c.term, c.ty)) {search : Val → Action (Option Term)}
    (hsearch : ∀ u goal, D.Later w u → D.ValOk u L goal →
      D.Runs True u (search goal) fun z r => ∀ t ∈ r, D.TermOk z scope.size t) :
    D.Runs quiet w (tryFunction fuel su search scope goal c) fun u r =>
      ∀ t ∈ r, D.TermOk u scope.size t := by
  have nothing {u : D.World} : ∀ t ∈ (none : Option Term), D.TermOk u scope.size t :=
    fun _ h => nomatch h
  refine hD.attempt (hD.bind (hD.instantiate_runs hs hc.2) fun u r hu hr => ?_)
  refine hD.read (hD.force hr.1) fun v hv => ?_
  split
  · refine runs_ite (fun _ => ?_) fun _ => hD.pure nothing
    refine hD.bind (hD.newMetaVal_runs (hD.scope_later hu hs)) fun z arg hz harg => ?_
    have hwz := hD.trans hu hz
    have hv := hD.val_later hz hv
    refine hD.read (hD.apply hv harg) fun ty hty => ?_
    refine hD.bind (hD.unify (hD.scope_later hwz hs) hty (hD.val_later hwz hgoal))
      fun y _ hy _ => ?_
    have hwy := hD.trans hwz hy
    refine hD.bind (hsearch y _ hwy (hD.val_later hy (hD.val_closure hv).2))
      fun m found hm hfound => ?_
    cases found with
    | none => exact hD.pure nothing
    | some witness =>
      have hs := hD.scope_later (hD.trans hwy hm) hs
      have hwitness := hfound witness rfl
      refine hD.read (hD.eval hs hwitness) fun vw hvw => ?_
      refine hD.bind (hD.unify hs (hD.val_later (hD.trans hy hm) harg) hvw) fun n _ hn _ =>
        hD.pure ?_
      have hun := hD.trans hz (hD.trans hy (hD.trans hm hn))
      have happlied := hD.term_applyImplicits (hD.term_later (hD.trans hu hun) hc.1)
        fun x hx => hD.term_later hun (hr.2 x hx)
      simpa using hD.term_app happlied (hD.term_later hn hwitness)
  · exact hD.pure nothing

theorem tryCandidate_runs (hs : D.ScopeOk w L scope) (hgoal : D.ValOk w L goal)
    (hc : D.TypedOk w L scope.size (c.term, c.ty)) {search : Val → Action (Option Term)}
    (hsearch : ∀ u goal, D.Later w u → D.ValOk u L goal →
      D.Runs True u (search goal) fun z r => ∀ t ∈ r, D.TermOk z scope.size t) :
    D.Runs quiet w (tryCandidate fuel su search scope goal c) fun u r =>
      ∀ t ∈ r, D.TermOk u scope.size t := by
  refine hD.bind (hD.tryDirect_runs hs hgoal hc) fun u r hu hr => ?_
  cases r with
  | some t => exact hD.pure hr
  | none =>
    have hs := hD.scope_later hu hs
    have hgoal := hD.val_later hu hgoal
    have hc := hD.typed_later hu hc
    refine hD.bind (hD.tryApplied_runs hs hgoal hc) fun z r hz hr => ?_
    cases r with
    | some t => exact hD.pure hr
    | none =>
      refine hD.tryFunction_runs (hD.scope_later hz hs) (hD.val_later hz hgoal)
        (hD.typed_later hz hc) ?_
      exact fun y goal hy => hsearch y goal (hD.trans hu (hD.trans hz hy))

/-- Trying candidates in turn keeps the discipline when each attempt does. -/
theorem tryCandidates_runs (hs : D.ScopeOk w L scope)
    {attempt : Candidate → Action (Option Term)} {depth : Nat}
    (hattempt : ∀ u c, D.Later w u → D.TypedOk u L scope.size (c.term, c.ty) →
      D.Runs quiet u (attempt c) fun z r => ∀ t ∈ r, D.TermOk z scope.size t) {cs : List Candidate}
    (hcs : ∀ c ∈ cs, D.TypedOk w L scope.size (c.term, c.ty)) :
    D.Runs quiet w (tryCandidates attempt scope depth cs) fun u r =>
      ∀ t ∈ r, D.TermOk u scope.size t := by
  induction cs generalizing w with
  | nil => exact hD.pure fun _ h => nomatch h
  | cons c cs ih =>
    obtain ⟨hc, hcs⟩ := List.forall_mem_cons.1 hcs
    refine hD.bind hD.tryInstance fun u _ hu _ => hD.bind (hattempt u c hu (hD.typed_later hu hc))
      fun z r hz hr => ?_
    cases r with
    | some t => exact hD.pure hr
    | none =>
      have hwz := hD.trans hu hz
      refine ih (hD.scope_later hwz hs) (fun y c hy => hattempt y c (hD.trans hwz hy))
        fun c hc => ?_
      exact hD.typed_later hwz (hcs c hc)

end

/-- A search for an instance finds well-formed terms only. -/
theorem search_runs (hs : D.ScopeOk w L scope) {goal : Val} (hgoal : D.ValOk w L goal)
    (depth : Nat) :
    D.Runs quiet w (search fuel su scope depth goal) fun u r =>
      ∀ t ∈ r, D.TermOk u scope.size t := by
  induction depth generalizing w quiet goal with
  | zero => exact hD.pure fun _ h => nomatch h
  | succ depth ih =>
    refine hD.tryCandidates_runs hs (fun u c hu hc => ?_) (hD.candidates_ok hs)
    refine hD.tryCandidate_runs (hD.scope_later hu hs) (hD.val_later hu hgoal) hc
      fun z goal hz hgoal => ?_
    exact ih (hD.scope_later (hD.trans hu hz) hs) hgoal

/-- Filling a hole with what the search finds keeps the discipline. -/
theorem fillHole_runs {hole : Hole} (hs : D.ScopeOk w L hole.scope) (hty : D.ValOk w L hole.ty)
    (hterm : D.TermOk w hole.scope.size hole.term) :
    D.Runs quiet w (fillHole fuel su hole) fun _ _ => True := by
  refine hD.read (hD.eval hs hterm) fun v hv => hD.read (hD.force hv) fun _ _ => ?_
  refine runs_ite (fun _ => ?_) fun _ => hD.pure trivial
  refine hD.bind (hD.search_runs hs hty su.config.instanceDepth) fun u r hu hr => ?_
  have hs := hD.scope_later hu hs
  cases r with
  | none => exact hD.read (hD.text hs (hD.val_later hu hty)) fun _ _ => hD.refuse nofun
  | some witness =>
    refine hD.bind hD.foundInstance fun z _ hz _ => ?_
    have hs := hD.scope_later hz hs
    refine hD.read (hD.eval hs (hD.term_later hz (hr witness rfl))) fun x hx => ?_
    exact hD.unifyIn_runs hs (hD.val_later (hD.trans hu hz) hv) hx

end

end Laws

end Discipline

end Elaborator
