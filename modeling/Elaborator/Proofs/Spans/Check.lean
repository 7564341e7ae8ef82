import Elaborator.Check
import Elaborator.Proofs.Fuel.Unify
import Elaborator.Proofs.Spans.Basic

/-! # Spans are transparent

A span only says where a part of a term was read from. Elaboration passes through it and puts the
place on an error that comes out, so two terms that are the same up to spans are elaborated in the
same way: with the same answer and in the same state, or with errors that are the same without their
places (`check_strip`).

Going through a span takes one unit of fuel. So the term with more spans needs more fuel, and the
comparison is between `fuel` for the first term and at least `fuel + n` for a second term with `n`
spans (`checker_respans`). This is also how elaboration behaves with more fuel on one and the same
term. There is one lemma for each rule; those that elaborate no part of the term do not look at
spans at all. -/

namespace Elaborator

open Elaborator.Action

def Error.SameCause (e e' : Error) : Prop := e.inner = e'.inner

namespace Error.SameCause

variable {e e' : Error}

theorem refl (e : Error) : SameCause e e := rfl

/-- A position put on an error does not change its cause. -/
theorem locateLeft (h : SameCause e e') (span : Span) : SameCause (e.locate span) e' :=
  (inner_locate span e).trans h

theorem locateRight (h : SameCause e e') (span : Span) : SameCause e (e'.locate span) :=
  h.trans (inner_locate span e').symm

end Error.SameCause

section

variable {α : Type} {x y : Action α} (h : GoesOn Error.SameCause x y) (span : Span)

include h

/-- A place that is put on the first error is not looked at. -/
theorem Action.GoesOn.locateLeft :
    GoesOn Error.SameCause (Action.mapError (·.locate span) x) y := by
  constructor
  intro s
  have hends := h.ends s
  unfold Action.mapError
  generalize x s = u at hends ⊢
  generalize y s = v at hends ⊢
  cases hends with
  | starved => exact .starved _ _
  | error h => exact .error (h.locateLeft span) _
  | same =>
    cases u with
    | ok a t => exact .same _
    | error e t =>
      cases e with
      | fault f => exact .same _
      | error e => exact .error ((Error.SameCause.refl e).locateLeft span) _

/-- A place that is put on the second error is not looked at. -/
theorem Action.GoesOn.locateRight :
    GoesOn Error.SameCause x (Action.mapError (·.locate span) y) := by
  constructor
  intro s
  have hends := h.ends s
  unfold Action.mapError
  generalize x s = u at hends ⊢
  generalize y s = v at hends ⊢
  cases hends with
  | starved => exact .starved _ _
  | error h => exact .error (h.locateRight span) _
  | same =>
    cases u with
    | ok a t => exact .same _
    | error e t =>
      cases e with
      | fault f => exact .same _
      | error e => exact .error ((Error.SameCause.refl e).locateRight span) _

end

section

variable {E : Error → Error → Prop} {su : Setup} {fuel fuel' : Nat} (h : fuel ≤ fuel')

include h

/-! ## Parts that elaborate no term -/

/-- Unifying in a scope goes on with more fuel. -/
theorem unifyIn_goesOn (scope : Local) (a b : Val) : GoesOn E (unifyIn fuel su scope a b)
    (unifyIn fuel' su scope a b) :=
  .of_eq (.mapError (fun _ _ he => he ▸ rfl)
    ((unifiesLonger su.globals h).unify .solving scope.size a b))

theorem Action.GoesOn.eval (env : Env) (t : Term) :
    GoesOn E (liftM (t.eval fuel env) : Action Val) (liftM (t.eval fuel' env)) :=
  .lift (Term.eval_prolongs h env t)

theorem Action.GoesOn.apply (c : Closure) (x : Val) :
    GoesOn E (liftM (c.apply fuel x) : Action Val) (liftM (c.apply fuel' x)) :=
  .lift (Closure.apply_prolongs h c x)

theorem Action.GoesOn.enter (c : Closure) (n : Nat) :
    GoesOn E (liftM (c.enter fuel n) : Action Val) (liftM (c.enter fuel' n)) :=
  .lift (Closure.enter_prolongs h c n)

theorem newMetaVal_goesOn (scope : Local) :
    GoesOn E (newMetaVal fuel scope) (newMetaVal fuel' scope) :=
  .after _ fun t => .eval h scope.env t

theorem instantiate_goesOn (scope : Local) (ty : Val) :
    GoesOn E (instantiate fuel scope ty) (instantiate fuel' scope ty) := by
  induction fuel generalizing fuel' ty with
  | zero => exact .starved _
  | succ fuel ih =>
    obtain ⟨fuel', rfl⟩ := Nat.exists_eq_add_of_le' (Nat.le_trans (Nat.le_add_left 1 fuel) h)
    have hle := Nat.le_of_succ_le_succ h
    refine (GoesOn.force hle ty).bind fun v => ?_
    cases v with
    | closure c =>
      refine .ite (.after _ fun m => ?_) (.refl _)
      refine (GoesOn.eval hle scope.env m).bind fun v => (GoesOn.apply hle c v).bind fun rest => ?_
      exact (ih hle rest).bind fun r => .refl _
    | type | neutral | glued | pair | nat => exact .refl _

theorem freshPi_goesOn (scope : Local) (x : Name) (icit : Icit) (erased : Bool) :
    GoesOn E (freshPi fuel scope x icit erased) (freshPi fuel' scope x icit erased) :=
  .after _ fun dom => (GoesOn.eval h scope.env dom).bind fun _ => .after _ fun _ =>
    .eval h scope.env _

/-- Fitting a term to an expected type goes on with more fuel. -/
theorem subsume_goesOn (scope : Local) (term : Term) (found expected : Val) :
    GoesOn E (subsume fuel su scope term found expected)
      (subsume fuel' su scope term found expected) := by
  have hunify := fun ty => (unifiesLonger su.globals h).unify .solving scope.size ty expected
  refine (hunify found).transaction.bind fun r => ?_
  cases r with
  | ok => exact .refl _
  | error e =>
    refine .ite (.after _ fun _ => ?_) (.refl _)
    refine GoesOn.bind (.attempt ?_) fun args => .refl _
    exact (instantiate_goesOn h scope found).bind fun r => (hunify r.1).bind fun _ => .refl _

theorem sndType_goesOn (scope : Local) (term : Term) (sigma : Closure) :
    GoesOn E (sndType fuel scope term sigma) (sndType fuel' scope term sigma) :=
  (GoesOn.eval h scope.env _).bind fun fst => .apply h sigma fst

theorem Action.GoesOn.refuseText {α : Type} (scope : Local) (v : Val) (e : MarkedText → Error) :
    GoesOn E (Action.text fuel scope v >>= fun s => (Action.refuse (e s) : Action α))
      (Action.text fuel' scope v >>= fun s => Action.refuse (e s)) :=
  (GoesOn.text h scope v).bind fun _ => .refl _

theorem projectLast_goesOn (scope : Local) (field : Field) (i : Nat) (term : Term) (ty v : Val) :
    GoesOn E (projectLast fuel scope field i term ty v)
      (projectLast fuel' scope field i term ty v) :=
  .ite (.refuseText h scope v _) (.ite (.refl _) (.refuseText h scope ty _))

/-- A projection goes on with more fuel. -/
theorem project_goesOn (scope : Local) (field : Field) (i : Nat) (term : Term) (ty : Val) :
    GoesOn E (project fuel scope field i term ty) (project fuel' scope field i term ty) := by
  induction fuel generalizing fuel' i term ty with
  | zero => exact .starved _
  | succ fuel ih =>
    obtain ⟨fuel', rfl⟩ := Nat.exists_eq_add_of_le' (Nat.le_trans (Nat.le_add_left 1 fuel) h)
    have hle := Nat.le_of_succ_le_succ h
    refine (GoesOn.force hle ty).bind fun v => ?_
    cases v with
    | closure c =>
      have hsnd : GoesOn E (sndType fuel scope term c) (sndType fuel' scope term c) :=
        sndType_goesOn hle scope term c
      refine .ite (projectLast_goesOn hle scope field i term ty _)
        (.ite (hsnd.bind fun ty => .refl _) ?_)
      exact .ite (.refl _) (hsnd.bind fun ty => ih hle (i + 1) (.proj term .snd) ty)
    | type | neutral | glued | pair | nat => exact projectLast_goesOn hle scope field i term ty _

theorem defaultMotive_goesOn (scope : Local) (ty : Val) :
    GoesOn E (defaultMotive fuel scope ty) (defaultMotive fuel' scope ty) := by
  induction fuel generalizing fuel' scope ty with
  | zero => exact .starved _
  | succ fuel ih =>
    obtain ⟨fuel', rfl⟩ := Nat.exists_eq_add_of_le' (Nat.le_trans (Nat.le_add_left 1 fuel) h)
    have hle := Nat.le_of_succ_le_succ h
    refine (GoesOn.force hle ty).bind fun v => ?_
    cases v with
    | closure c =>
      refine (GoesOn.quote hle scope.size c.dom).bind fun dom =>
        (GoesOn.enter hle c scope.size).bind fun rest => ?_
      exact (ih hle _ rest).bind fun t => .refl _
    | type | neutral | glued | pair | nat => exact .refl _

theorem scrutEquation_goesOn (scope : Local) (ty : Val) :
    GoesOn E (scrutEquation fuel su scope ty) (scrutEquation fuel' su scope ty) := by
  refine (GoesOn.force h ty).bind fun v => ?_
  cases Equation.ofType? v with
  | some q => exact (unifyIn_goesOn h scope q.lhsTy q.rhsTy).bind fun _ => .refl _
  | none =>
    refine .after _ fun side => .after _ fun lhs => .after _ fun rhs => ?_
    refine (GoesOn.eval h scope.env side).bind fun sideTy =>
      (GoesOn.eval h scope.env lhs).bind fun lhs => ?_
    refine (GoesOn.eval h scope.env rhs).bind fun rhs => ?_
    exact (unifyIn_goesOn h scope ty _).bind fun _ => .refl _

end

/-! ## Checking -/

/-- What one checker does with a term, the other one does with every term that is the same up to at
most `n` spans. -/
structure Checker.Respans (n : Nat) (k k' : Checker) : Prop where
  check : ∀ (scope : Local) {tm tm' : Surface} (ty : Val), tm.Respans n tm' →
    GoesOn Error.SameCause (k.check scope tm ty) (k'.check scope tm' ty)
  synth : ∀ (scope : Local) {tm tm' : Surface}, tm.Respans n tm' →
    GoesOn Error.SameCause (k.synth scope tm) (k'.synth scope tm')

inductive CheckRule.Alike (R : Surface → Surface → Prop) : CheckRule → CheckRule → Prop
  | typeInType : Alike R .typeInType .typeInType
  | hole (name : Option Name) (search : Bool) : Alike R (.hole name search) (.hole name search)
  | pair {a a' b b' : Surface} (ha : R a a') (hb : R b b') (sigma : Closure) :
      Alike R (.pair a b sigma) (.pair a' b' sigma)
  | lam {body body' : Surface} (icit : Icit) (x : Name) (hbody : R body body') (pi : Closure) :
      Alike R (.lam icit x body pi) (.lam icit x body' pi)
  | insertLam (pi : Closure) : Alike R (.insertLam pi) (.insertLam pi)
  | letIn {ty ty' : Option Surface} {val val' body body' : Surface} (erased : Bool) (x : Name)
      (hty : Option.Rel R ty ty') (hval : R val val') (hbody : R body body') :
      Alike R (.letIn erased x ty val body) (.letIn erased x ty' val' body')
  | switch : Alike R .switch .switch

namespace CheckRule

variable {R : Surface → Surface → Prop} {tm tm' : Surface}

/-- Whether a term is an implicit function or a hole can be seen from its form. -/
theorem bindsImplicit_alike (h : tm.Alike R tm') : tm.bindsImplicit = tm'.bindsImplicit := by
  cases h with
  | abs icit => cases icit <;> rfl
  | _ => rfl

/-- Whether an implicit function is put around a term does not depend on positions. -/
theorem insertOr_alike (h : tm.Alike R tm') (ty : Val) {other other' : CheckRule}
    (ho : other.Alike R other') : Alike R (insertOr tm ty other) (insertOr tm' ty other') := by
  cases ty with
  | closure c =>
    rw [insertOr, insertOr, bindsImplicit_alike h]
    split
    · exact .insertLam c
    · exact ho
  | type | neutral | glued | pair | nat => exact ho

/-- Terms of the same form are checked by the same rule. -/
theorem of_alike (h : tm.Alike R tm') (ty : Val) : Alike R (of tm ty) (of tm' ty) := by
  have hswitch := insertOr_alike h ty .switch
  cases h with
  | hole name search => exact .hole name search
  | letIn erased x hty hval hbody =>
    exact insertOr_alike (.letIn erased x hty hval hbody) ty (.letIn erased x hty hval hbody)
  | type =>
    cases ty with
    | type => exact .typeInType
    | closure | neutral | glued | pair | nat => exact hswitch
  | pair ha hb =>
    cases ty with
    | closure c =>
      simp only [of]
      split
      · exact .pair ha hb c
      · exact hswitch
    | type | neutral | glued | pair | nat => exact hswitch
  | abs icit erased x hty hbody =>
    cases hty with
    | some h => cases ty <;> exact hswitch
    | none =>
      cases ty with
      | closure c =>
        simp only [of]
        split
        · exact .lam icit x hbody c
        · exact hswitch
      | type | neutral | glued | pair | nat => exact hswitch
  | _ => cases ty <;> exact hswitch

end CheckRule

section

variable {su : Setup} {fuel fuel' n : Nat} {k k' : Checker} (hle : fuel ≤ fuel')
  (hk : k.Respans n k')

include hle hk

/-- A definition goes on in the same way with other positions in its type and its value. -/
theorem letBinding_respans (scope : Local) (erased : Bool) {ty ty' : Option Surface}
    {val val' : Surface} (hty : Option.Rel (Surface.Respans n) ty ty') (hval : val.Respans n val') :
    GoesOn Error.SameCause (letBinding fuel k scope erased ty val)
      (letBinding fuel' k' scope erased ty' val') := by
  cases hty with
  | some hty =>
    refine (hk.check scope.enterType .type hty).bind fun ty =>
      (GoesOn.eval hle scope.env ty).bind fun vty => ?_
    exact (hk.check (scope.enterIf erased) vty hval).bind fun val => .refl _
  | none =>
    refine (hk.synth (scope.enterIf erased) hval).bind fun r => ?_
    exact (GoesOn.quote hle scope.size r.2).bind fun ty => .refl _

theorem checkPair_respans (scope : Local) {a a' b b' : Surface} (ha : a.Respans n a')
    (hb : b.Respans n b') (sigma : Closure) (ty : Val) :
    GoesOn Error.SameCause (checkPair fuel k scope a b sigma ty)
      (checkPair fuel' k' scope a' b' sigma ty) := by
  refine (hk.check (scope.enterIf sigma.binder.erased) sigma.dom ha).bind fun a => ?_
  refine (GoesOn.eval hle scope.env a).bind fun va => (GoesOn.apply hle sigma va).bind fun bty => ?_
  exact (hk.check scope bty hb).bind fun b => (GoesOn.quote hle scope.size ty).bind fun s => .refl _

theorem checkLam_respans (scope : Local) (icit : Icit) (x : Name) {body body' : Surface}
    (hbody : body.Respans n body') (pi : Closure) :
    GoesOn Error.SameCause (checkLam fuel k scope icit x body pi)
      (checkLam fuel' k' scope icit x body' pi) := by
  refine (GoesOn.enter hle pi scope.size).bind fun bty => (hk.check _ bty hbody).bind fun body => ?_
  exact (GoesOn.quote hle scope.size pi.dom).bind fun dom => .refl _

theorem insertLam_respans (scope : Local) {tm tm' : Surface} (htm : tm.Respans n tm')
    (pi : Closure) :
    GoesOn Error.SameCause (insertLam fuel k scope tm pi) (insertLam fuel' k' scope tm' pi) := by
  refine (GoesOn.enter hle pi scope.size).bind fun bty => (hk.check _ bty htm).bind fun body => ?_
  exact (GoesOn.quote hle scope.size pi.dom).bind fun dom => .refl _

theorem checkLet_respans (scope : Local) (erased : Bool) (x : Name) {ty ty' : Option Surface}
    {val val' body body' : Surface} (hty : Option.Rel (Surface.Respans n) ty ty')
    (hval : val.Respans n val') (hbody : body.Respans n body') (expected : Val) :
    GoesOn Error.SameCause (checkLet fuel k scope erased x ty val body expected)
      (checkLet fuel' k' scope erased x ty' val' body' expected) := by
  refine (letBinding_respans hle hk scope erased hty hval).bind fun r => ?_
  refine (GoesOn.eval hle scope.env r.2.2).bind fun v => ?_
  exact (hk.check (scope.define x r.2.1 erased v) expected hbody).bind fun body => .refl _

/-- Every rule of checking goes on in the same way with other positions. -/
theorem checkBy_respans (scope : Local) {tm tm' : Surface} (htm : tm.Respans n tm') (ty : Val)
    {rule rule' : CheckRule} (hrule : rule.Alike (Surface.Respans n) rule') :
    GoesOn Error.SameCause (checkBy fuel su k scope tm ty rule)
      (checkBy fuel' su k' scope tm' ty rule') := by
  cases hrule with
  | typeInType => exact .refl _
  | hole name search => exact .refl _
  | pair ha hb sigma => exact checkPair_respans hle hk scope ha hb sigma ty
  | lam icit x hbody pi => exact checkLam_respans hle hk scope icit x hbody pi
  | insertLam pi => exact insertLam_respans hle hk scope htm pi
  | letIn erased x hty hval hbody => exact checkLet_respans hle hk scope erased x hty hval hbody ty
  | switch => exact (hk.synth scope htm).bind fun r => subsume_goesOn hle scope r.1 r.2 ty

/-! ## Synthesis -/

theorem synthBinderType_respans (scope : Local) (kind : BinderKind) (erased : Bool) (x : Name)
    {dom dom' body body' : Surface} (hdom : dom.Respans n dom') (hbody : body.Respans n body') :
    GoesOn Error.SameCause (synthBinderType fuel k scope kind erased x dom body)
      (synthBinderType fuel' k' scope kind erased x dom' body') := by
  refine (hk.check scope.enterType .type hdom).bind fun dom => ?_
  refine (GoesOn.eval hle scope.enterType.env dom).bind fun vdom => ?_
  exact (hk.check _ .type hbody).bind fun body => .refl _

theorem synthLam_respans (scope : Local) (icit : Icit) (erased : Bool) (x : Name)
    {dom dom' body body' : Surface} (hdom : dom.Respans n dom') (hbody : body.Respans n body') :
    GoesOn Error.SameCause (synthLam fuel k scope icit erased x dom body)
      (synthLam fuel' k' scope icit erased x dom' body') := by
  refine (hk.check scope.enterType .type hdom).bind fun dom => (GoesOn.eval hle scope.env dom).bind
    fun vdom => ?_
  refine (hk.synth _ hbody).bind fun r => (GoesOn.quote hle _ r.2).bind fun bty => ?_
  exact (GoesOn.eval hle scope.env _).bind fun pi => .refl _

theorem synthLet_respans (scope : Local) (erased : Bool) (x : Name) {ty ty' : Option Surface}
    {val val' body body' : Surface} (hty : Option.Rel (Surface.Respans n) ty ty')
    (hval : val.Respans n val') (hbody : body.Respans n body') :
    GoesOn Error.SameCause (synthLet fuel k scope erased x ty val body)
      (synthLet fuel' k' scope erased x ty' val' body') := by
  refine (letBinding_respans hle hk scope erased hty hval).bind fun r => ?_
  refine (GoesOn.eval hle scope.env r.2.2).bind fun v => ?_
  exact (hk.synth (scope.define x r.2.1 erased v) hbody).bind fun r => .refl _

theorem synthPair_respans (scope : Local) {a a' b b' : Surface} (ha : a.Respans n a')
    (hb : b.Respans n b') :
    GoesOn Error.SameCause (synthPair fuel k scope a b) (synthPair fuel' k' scope a' b') := by
  refine (hk.synth scope ha).bind fun ra => (hk.synth scope hb).bind fun rb => ?_
  refine (GoesOn.quote hle scope.size ra.2).bind fun dom =>
    (GoesOn.quote hle _ rb.2).bind fun cod => ?_
  exact (GoesOn.eval hle scope.env _).bind fun s => .refl _

theorem synthApp_respans (scope : Local) (f : Term) (fty : Val) (icit : Icit) {x x' : Surface}
    (hx : x.Respans n x') :
    GoesOn Error.SameCause (synthApp fuel su k scope f fty icit x)
      (synthApp fuel' su k' scope f fty icit x') := by
  induction fuel generalizing fuel' f fty with
  | zero => exact .starved _
  | succ fuel ih =>
    obtain ⟨fuel', rfl⟩ := Nat.exists_eq_add_of_le' (Nat.le_trans (Nat.le_add_left 1 fuel) hle)
    have hle := Nat.le_of_succ_le_succ hle
    refine .after _ fun _ => (GoesOn.force hle fty).bind fun v => ?_
    cases v with
    | closure c =>
      refine .ite ?_ (.ite ?_ (.ite (.refuseText hle scope fty _) (.refuseText hle scope _ _)))
      · refine .after _ fun m => (GoesOn.eval hle scope.env m).bind fun v => ?_
        exact (GoesOn.apply hle c v).bind fun rest => ih hle (.app f .impl m) rest
      · refine (hk.check _ c.dom hx).bind fun x => (GoesOn.eval hle scope.env x).bind fun v => ?_
        exact (GoesOn.apply hle c v).bind fun ty => .refl _
    | neutral h sp =>
      cases h with
      | metavar m =>
        refine (freshPi_goesOn hle scope .underscore icit false).bind fun pi => ?_
        exact (unifyIn_goesOn hle scope (.neutral (.metavar m) sp) pi).bind fun _ => ih hle f pi
      | var | prim => exact .refuseText hle scope _ _
    | type | glued | pair | nat => exact .refuseText hle scope _ _

theorem elaborateScrut_respans (scope : Local) (e : Eliminator) {scrut scrut' : Surface}
    (hscrut : scrut.Respans n scrut') :
    GoesOn Error.SameCause (elaborateScrut fuel su k scope e scrut)
      (elaborateScrut fuel' su k' scope e scrut') := by
  unfold elaborateScrut
  cases e.scrutTy? with
  | some ty => exact (hk.check scope ty hscrut).bind fun t => .refl _
  | none =>
    refine (hk.synth scope hscrut).bind fun r => ?_
    exact (scrutEquation_goesOn hle scope r.2).bind fun q => .refl _

theorem elaborateMotive_respans (scope : Local) {motive motive' : Option Surface}
    (hmotive : Option.Rel (Surface.Respans n) motive motive') (motiveTy : Val) :
    GoesOn Error.SameCause (elaborateMotive fuel k scope motive motiveTy)
      (elaborateMotive fuel' k' scope motive' motiveTy) := by
  cases hmotive with
  | some hm => exact hk.check scope.enterType motiveTy hm
  | none => exact defaultMotive_goesOn hle scope.enterType motiveTy

omit hle in
/-- Cases go on in the same way with other positions. -/
theorem checkAll_respans (scope : Local) {tms tms' : List Surface}
    (htms : List.Forall₂ (Surface.Respans n) tms tms') (tys : List Val) :
    GoesOn Error.SameCause (checkAll (k.check scope) tms tys)
      (checkAll (k'.check scope) tms' tys) := by
  induction htms generalizing tys with
  | nil => exact .refl _
  | cons htm _ ih =>
    cases tys with
    | nil => exact .refl _
    | cons ty tys => exact (hk.check scope ty htm).bind fun t => (ih tys).bind fun ts => .refl _

/-- An eliminator goes on in the same way with other positions. -/
theorem synthElim_respans (scope : Local) (e : Eliminator) {motive motive' : Option Surface}
    {scrut scrut' : Surface} {cases cases' : List Surface}
    (hmotive : Option.Rel (Surface.Respans n) motive motive') (hscrut : scrut.Respans n scrut')
    (hcases : List.Forall₂ (Surface.Respans n) cases cases') :
    GoesOn Error.SameCause (synthElim fuel su k scope e motive scrut cases)
      (synthElim fuel' su k' scope e motive' scrut' cases') := by
  rw [synthElim, synthElim, hcases.length_eq]
  refine .ite (.refl _) ?_
  refine (elaborateScrut_respans hle hk scope e hscrut).bind fun r => ?_
  refine (GoesOn.eval hle scope.env r.1).bind fun vscrut => .after _ fun motiveTy => ?_
  refine (elaborateMotive_respans hle hk scope hmotive motiveTy).bind fun motive => ?_
  refine (GoesOn.eval hle scope.env motive).bind fun vmotive => ?_
  refine (GoesOn.lift (Eliminator.signature_prolongs hle e vmotive vscrut r.2)).bind fun sig => ?_
  exact (checkAll_respans hk scope hcases sig.caseTys).bind fun cases => .refl _

/-- Every form of synthesis goes on in the same way with other positions. -/
theorem synthForm_respans (scope : Local) {tm tm' : Surface} (htm : tm.Respans n tm')
    (halike : tm.Alike (Surface.Respans n) tm') :
    GoesOn Error.SameCause (synthForm fuel su k scope tm) (synthForm fuel' su k' scope tm') := by
  cases halike with
  | type | nat | prim | var => exact .refl _
  | hole name search => exact (newMetaVal_goesOn hle scope).bind fun ty => .refl _
  | app icit hf hx =>
    exact (hk.synth scope hf).bind fun r => synthApp_respans hle hk scope r.1 r.2 icit hx
  | abs icit erased x hty hbody =>
    cases hty with
    | some hdom => exact synthLam_respans hle hk scope icit erased x hdom hbody
    | none =>
      refine (freshPi_goesOn hle scope x icit erased).bind fun pi => ?_
      exact (hk.check scope pi htm).bind fun t => .refl _
  | letIn erased x hty hval hbody => exact synthLet_respans hle hk scope erased x hty hval hbody
  | pi icit erased x hdom hbody =>
    exact synthBinderType_respans hle hk scope (.pi icit) erased x hdom hbody
  | sigma erased x hdom hbody =>
    exact synthBinderType_respans hle hk scope .sigma erased x hdom hbody
  | pair ha hb => exact synthPair_respans hle hk scope ha hb
  | proj field hx =>
    exact (hk.synth scope hx).bind fun r => project_goesOn hle scope field 0 r.1 r.2
  | ann hx hty =>
    refine (hk.check scope.enterType .type hty).bind fun ty =>
      (GoesOn.eval hle scope.env ty).bind fun vty => ?_
    exact (hk.check scope vty hx).bind fun t => .refl _
  | elim e hmotive hscrut hcases => exact synthElim_respans hle hk scope e hmotive hscrut hcases

/-! ## The two directions -/

/-- One step of checking, at terms that have no span around them. -/
theorem checkStep_respans (scope : Local) {tm tm' : Surface} (htm : tm.Respans n tm')
    (halike : tm.Alike (Surface.Respans n) tm') (ty : Val) :
    GoesOn Error.SameCause (checkStep fuel su k scope tm ty)
      (checkStep fuel' su k' scope tm' ty) := by
  have hrule : ∀ v, GoesOn Error.SameCause (checkBy fuel su k scope tm ty (CheckRule.of tm v))
      (checkBy fuel' su k' scope tm' ty (CheckRule.of tm' v)) :=
    fun v => checkBy_respans hle hk scope htm ty (CheckRule.of_alike halike v)
  cases halike with
  | _ => exact .after _ fun _ => .after _ fun _ => (GoesOn.force hle ty).bind fun v => hrule v

/-- One step of synthesis, at terms that have no span around them. -/
theorem synthStep_respans (scope : Local) {tm tm' : Surface} (htm : tm.Respans n tm')
    (halike : tm.Alike (Surface.Respans n) tm') :
    GoesOn Error.SameCause (synthStep fuel su k scope tm) (synthStep fuel' su k' scope tm') := by
  have hform : GoesOn Error.SameCause (synthForm fuel su k scope tm)
      (synthForm fuel' su k' scope tm') :=
    synthForm_respans hle hk scope htm halike
  cases halike with
  | _ => exact .after _ fun _ => hform.bind fun r => .refl _

end

/-- If elaboration with `fuel` goes on, so does elaboration with one unit more. -/
theorem checker_respans_succ (su : Setup) {fuel fuel' n : Nat}
    (ih : ∀ {fuel' n}, fuel + n ≤ fuel' →
      Checker.Respans n ⟨check fuel su, synth fuel su⟩ ⟨check fuel' su, synth fuel' su⟩)
    (h : fuel + 1 + n ≤ fuel') :
    Checker.Respans n ⟨check (fuel + 1) su, synth (fuel + 1) su⟩
      ⟨check fuel' su, synth fuel' su⟩ := by
  -- A span around the second term takes a unit of its fuel. There are at most `n` of them, so
  -- enough is left.
  induction fuel' generalizing n with
  | zero => omega
  | succ fuel' ihf =>
    have hle : fuel ≤ fuel' := by omega
    constructor
    · intro scope tm tm' ty htm
      rcases htm.view with ⟨span, t, rfl, ht⟩ | ⟨span, t, k, rfl, rfl, ht⟩ | halike
      · exact ((ih (show fuel + n ≤ fuel' + 1 by omega)).check scope ty ht).locateLeft span
      · exact ((ihf (show fuel + 1 + k ≤ fuel' by omega)).check scope ty ht).locateRight span
      · exact checkStep_respans hle (ih (by omega)) scope htm halike ty
    · intro scope tm tm' htm
      rcases htm.view with ⟨span, t, rfl, ht⟩ | ⟨span, t, k, rfl, rfl, ht⟩ | halike
      · exact ((ih (show fuel + n ≤ fuel' + 1 by omega)).synth scope ht).locateLeft span
      · exact ((ihf (show fuel + 1 + k ≤ fuel' by omega)).synth scope ht).locateRight span
      · exact synthStep_respans hle (ih (by omega)) scope htm halike

/-- With fuel for `n` spans on top, elaboration of a term goes on like that of a term that is the
same up to spans. -/
theorem checker_respans (su : Setup) {fuel fuel' n : Nat} (h : fuel + n ≤ fuel') :
    Checker.Respans n ⟨check fuel su, synth fuel su⟩ ⟨check fuel' su, synth fuel' su⟩ := by
  induction fuel generalizing fuel' n with
  | zero => exact ⟨fun _ _ _ _ _ => .starved _, fun _ _ _ _ => .starved _⟩
  | succ fuel ih => exact checker_respans_succ su (fun h => ih h) h

/-- **Spans are transparent**: in every setup, context and state, and for every expected type, a
term is checked, and its type is found, as if it had no spans at all. Unless the fuel runs out, both
terms have the same result and leave the same state, with the same holes in it, or they fail in the
same state with errors that are the same without their places. The term with spans needs at most one
unit of fuel more for each of them. -/
theorem check_strip (su : Setup) (scope : Local) (tm : Surface) (ty : Val) (fuel : Nat) :
    GoesOn Error.SameCause (check fuel su scope tm ty) (check fuel su scope tm.strip ty) ∧
    GoesOn Error.SameCause (check fuel su scope tm.strip ty)
      (check (fuel + tm.spans) su scope tm ty) ∧
    GoesOn Error.SameCause (synth fuel su scope tm) (synth fuel su scope tm.strip) ∧
    GoesOn Error.SameCause (synth fuel su scope tm.strip)
      (synth (fuel + tm.spans) su scope tm) := by
  obtain ⟨hstrip, hspans⟩ := tm.strip_strip
  have hto := checker_respans su (Nat.le_refl (fuel + 0))
  have hfrom := checker_respans su (Nat.le_refl (fuel + tm.spans))
  have hstripped : tm.Respans 0 tm.strip := ⟨hstrip.symm, Nat.le_of_eq hspans⟩
  have hspanned : tm.strip.Respans tm.spans tm := ⟨hstrip, Nat.le_refl _⟩
  exact ⟨hto.check scope ty hstripped, hfrom.check scope ty hspanned, hto.synth scope hstripped,
    hfrom.synth scope hspanned⟩

end Elaborator
