import Elaborator.Proofs.Replay.Verify
import Elaborator.Proofs.StoreGrowth

/-! # Verifying what was elaborated

The verifier repeats what the elaborator did. As long as the elaborator makes no metavariables and
puts nothing into the term, the two take the same steps: they meet the same types in the same scopes
and compare the same values, so whatever the elaborator accepts the verifier accepts too
(`checker_replays`).

Both conditions matter. What the elaborator puts in is made of values that are read back, and the
verifier finds other types for it than the elaborator had; and while a metavariable is open,
unification may answer without having compared anything. -/

namespace Elaborator

open Elaborator.Action

/-! ## Terms as they are written -/

/-- The term that a chain of projections starts from. -/
def Term.root : Term → Term
  | .proj x _ => x.root
  | t => t

@[inherit_doc Term.root]
def Surface.root : Surface → Surface
  | .proj x _ => x.root
  | .spanned _ x => x.root
  | tm => tm

/-- The core term is the surface term word for word. Only names are replaced by what they mean, a
field by the projections that lead to it, and no type is left out that a core term has. That would
be the type of a pair, which is read back; and an annotation is there only once, in the surface
term. Both may be refused by the verifier (`Session.verify_refuses_pair` and
`Session.verify_refuses_annotation`). -/
inductive Surface.Spells : Surface → Term → Prop
  | type : Spells .type .type
  | nat {n : Nat} : Spells (.nat n) (.nat n)
  | prim {p : Prim} : Spells (.prim p) (.prim p)
  | local {x : Name} {i : Index} : Spells (.var x) (.var i)
  | global {x : Name} : Spells (.var x) (.global x)
  | constant {x : Name} {p : Prim} : Spells (.var x) (.prim p)
  | app {f x : Surface} {f' x' : Term} {icit : Icit} (hf : Spells f f') (hx : Spells x x') :
      Spells (.app f icit x) (.app f' icit x')
  | abs {dom body : Surface} {dom' body' : Term} {icit : Icit} {erased : Bool} {x : Name}
      (hdom : Spells dom dom') (hbody : Spells body body') :
      Spells (.abs icit erased x (some dom) body) (.bind ⟨.lam icit, x, erased⟩ dom' body')
  | pi {dom body : Surface} {dom' body' : Term} {icit : Icit} {erased : Bool} {x : Name}
      (hdom : Spells dom dom') (hbody : Spells body body') : Spells (.pi icit erased x dom body)
      (.bind ⟨.pi icit, x, erased⟩ dom' body')
  | sigma {dom body : Surface} {dom' body' : Term} {erased : Bool} {x : Name}
      (hdom : Spells dom dom') (hbody : Spells body body') :
      Spells (.sigma erased x dom body) (.bind ⟨.sigma, x, erased⟩ dom' body')
  | letIn {ty val body : Surface} {ty' val' body' : Term} {erased : Bool} {x : Name}
      (hty : Spells ty ty') (hval : Spells val val') (hbody : Spells body body') :
      Spells (.letIn erased x (some ty) val body) (.letIn x erased ty' val' body')
  | proj {x : Surface} {x' : Term} {field : Field} {p : Proj} (hx : Spells x.root x'.root) :
      Spells (.proj x field) (.proj x' p)
  | elim {e : Eliminator} {m s : Surface} {m' s' : Term} {cs : List Surface} {cs' : List Term}
      (hm : Spells m m') (hs : Spells s s') (hcs : List.Forall₂ Spells cs cs') :
      Spells (.elim e (some m) s cs) (.elim e m' s' cs')
  | spanned {span : Span} {x : Surface} {x' : Term} (hx : Spells x x') : Spells (.spanned span x) x'

def Surface.Written (tm : Surface) : Prop := ∃ t, tm.Spells t

/-- Terms that spell core terms are written out in full. -/
theorem Surface.written_of_spells {tms : List Surface} {ts : List Term}
    (h : List.Forall₂ Surface.Spells tms ts) : ∀ tm ∈ tms, tm.Written := by
  induction h with
  | nil => exact List.forall_mem_nil _
  | cons h _ ih => exact List.forall_mem_cons.2 ⟨⟨_, h⟩, ih⟩

/-- Only a projection spells one. -/
theorem Surface.Spells.root_eq {tm : Surface} {t : Term} (h : tm.root.Spells t) : t.root = t := by
  fun_induction Surface.root tm with
  | case1 x _ ih => exact ih h
  | case2 _ x ih => exact ih h
  | case3 tm hproj hspanned =>
    cases h with
    | proj => exact absurd rfl (hproj _ _)
    | spanned => exact absurd rfl (hspanned _ _)
    | _ => rfl

/-- A term is written out in full when the pair that its projections start from is. -/
theorem Surface.Written.of_root {tm : Surface} (h : tm.root.Written) : tm.Written := by
  fun_induction Surface.root tm with
  | case1 x field ih =>
    obtain ⟨t, ht⟩ := h
    exact ⟨.proj t .fst, .proj (ht.root_eq.symm ▸ ht)⟩
  | case2 _ x ih =>
    obtain ⟨t, ht⟩ := ih h
    exact ⟨t, .spanned ht⟩
  | case3 => exact h

/-- Only an implicit function spells one. -/
theorem Surface.Spells.bindsImplicit {x : Name} {erased : Bool} {dom body : Term} :
    ∀ {tm : Surface}, tm.Spells (.bind ⟨.lam .impl, x, erased⟩ dom body) → tm.bindsImplicit = true
  | .abs .., .abs _ _ => rfl
  | .spanned _ _, .spanned h => h.bindsImplicit

/-! ## Runs taken apart -/

section

variable {α β : Type} {f : α → Action β} {b : β} {s t : State}

theorem bind_lift_ok {r : Except Fault α} (h : ((liftM r : Action α) >>= f) s = .ok b t) :
    ∃ a, r = .ok a ∧ f a s = .ok b t := by
  obtain ⟨a, u, hr, hf⟩ := bind_eq_ok.1 h
  obtain ⟨ha, rfl⟩ := lift_eq_ok.1 hr
  exact ⟨a, ha, hf⟩

/-- The metavariables are read before a computation without state. -/
theorem bind_metas_ok {f : MetaStore → Action β} (h : (metas >>= f) s = .ok b t) :
    f s.metas s = .ok b t := by
  obtain ⟨ms, u, hms, hf⟩ := bind_eq_ok.1 h
  obtain ⟨rfl, rfl⟩ := metas_eq_ok.1 hms
  exact hf

theorem bind_force_ok {f : Val → Action β} {fuel : Nat} {v : Val}
    (h : (force fuel v >>= f) s = .ok b t) :
    ∃ w, v.force fuel s.metas = .ok w ∧ f w s = .ok b t := by
  obtain ⟨w, u, hw, hf⟩ := bind_eq_ok.1 h
  obtain ⟨hforce, rfl⟩ := lift_eq_ok.1 (bind_metas_ok hw)
  exact ⟨w, hforce, hf⟩

theorem bind_quote_ok {f : Term → Action β} {fuel n : Nat} {v : Val}
    (h : (quote fuel n v >>= f) s = .ok b t) :
    ∃ w, v.quote fuel s.metas false n = .ok w ∧ f w s = .ok b t := by
  obtain ⟨w, u, hw, hf⟩ := bind_eq_ok.1 h
  obtain ⟨hquote, rfl⟩ := lift_eq_ok.1 (bind_metas_ok hw)
  exact ⟨w, hquote, hf⟩

/-- An event is noted, and the metavariables stay as they are. -/
theorem bind_emitWith_ok {f : Unit → Action β} {e : MetaStore → Event}
    (h : (emitWith e >>= f) s = .ok b t) : ∃ u, u.metas = s.metas ∧ f () u = .ok b t := by
  obtain ⟨⟨⟩, u, hu, hf⟩ := bind_eq_ok.1 h
  refine ⟨u, ?_, hf⟩
  cases hu
  rfl

theorem bind_emitIf_ok {f : Unit → Action β} {c : Prop} [Decidable c] {e : MetaStore → Event}
    (h : ((if c then emitWith e else pure ()) >>= f) s = .ok b t) :
    ∃ u, u.metas = s.metas ∧ f () u = .ok b t := by
  split at h
  · exact bind_emitWith_ok h
  · exact ⟨s, rfl, h⟩

/-- The counter never goes down. -/
theorem Action.Keeps.next_le {x : Action α} (hx : Keeps MetaStore.Grows x) {a : α}
    (h : x s = .ok a t) : s.metas.next ≤ t.metas.next :=
  (hx.related (.of_ok h)).next

/-- A new metavariable counts. -/
theorem newMeta_next_lt {scope : Local} {a : Term} (h : newMeta scope s = .ok a t) :
    s.metas.next < t.metas.next := by
  cases h
  exact Nat.lt_succ_self _

end

/-- A term that was checked in a run without new metavariables. -/
structure CheckReplay (g : Globals) (L : Nat → Prop) (scope : Local)
    (tm : Surface) (t : Term) (ty : Val) : Prop where
  term : t.Within .normal scope.size
  fits : tm.Spells t → Verify.Fits g L scope t ty

/-- A term that was synthesized in a run without new metavariables, with its type. Only a projection
makes projections. -/
structure SynthReplay (g : Globals) (L : Nat → Prop) (scope : Local)
    (tm : Surface) (t : Term) (ty : Val) : Prop where
  term : t.Within .normal scope.size
  type : ty.Within .normal L
  root : tm.root.Spells t.root → tm.Spells t
  finds : tm.Spells t → Verify.Finds g scope t ty

/-- What is known of `t` at the end of a way to a field that has led to `x`, past `i` components. -/
structure ProjectReplay (g : Globals) (L : Nat → Prop)
    (scope : Local) (i : Nat) (x : Term) (xty : Val) (t : Term) (ty : Val) : Prop where
  term : t.Within .normal scope.size
  type : ty.Within .normal L
  root : t.root = x.root
  chain : (i = 0 ∨ ∃ y p, x = .proj y p) → ∃ y p, t = .proj y p
  finds : Verify.Finds g scope x xty → Verify.Finds g scope t ty

/-- A source position plays no part in checking. -/
theorem CheckReplay.spanned {g : Globals} {L : Nat → Prop} {scope : Local}
    {tm : Surface} {t : Term} {ty : Val} {span : Span} (h : CheckReplay g L scope tm t ty) :
    CheckReplay g L scope (.spanned span tm) t ty := by
  refine ⟨h.term, ?_⟩
  rintro ⟨⟩
  exact h.fits ‹_›

/-- A source position plays no part in synthesis. -/
theorem SynthReplay.spanned {g : Globals} {L : Nat → Prop} {scope : Local}
    {tm : Surface} {t : Term} {ty : Val} {span : Span} (h : SynthReplay g L scope tm t ty) :
    SynthReplay g L scope (.spanned span tm) t ty := by
  refine ⟨h.term, h.type, fun hroot => .spanned (h.root hroot), ?_⟩
  rintro ⟨⟩
  exact h.finds ‹_›

structure Checker.Replays (g : Globals) (k : Checker) : Prop where
  keeps : k.Keeps MetaStore.Grows
  check : ∀ {L scope tm ty s t s'}, scope.Within .normal L → ty.Within .normal L → tm.Written →
    k.check scope tm ty s = .ok t s' → s'.metas.next = s.metas.next → CheckReplay g L scope tm t ty
  synth : ∀ {L scope tm s r s'}, scope.Within .normal L → tm.Written →
    k.synth scope tm s = .ok r s' → s'.metas.next = s.metas.next → SynthReplay g L scope tm r.1 r.2

/-! ## Synthesis -/

section

variable {su : Setup} {k : Checker} (hk : k.Replays su.globals) {L : Nat → Prop} {scope : Local}
  (hs : scope.Within .normal L) {fuel : Nat} {s s' : State} {r : Term × Val}

/-- A value of a context. -/
theorem Local.Within.eval {B : Bounds} (hs : scope.Within B L) {t : Term}
    (ht : t.Within B scope.size) {v : Val} (h : t.eval fuel scope.env = .ok v) : v.Within B L :=
  (Term.eval_safely hs.env ht fuel).answer v h

include hk hs

/-- An annotated function gets the same type when it is checked again. -/
theorem synthLam_replays {icit : Icit} {erased : Bool} {x : Name} {dom body : Surface}
    (hdom : dom.Written) (hbody : body.Written)
    (h : synthLam fuel k scope icit erased x dom body s = .ok r s')
    (hn : s'.metas.next = s.metas.next) :
    SynthReplay su.globals L scope (.abs icit erased x (some dom) body) r.1 r.2 := by
  obtain ⟨dom', u, hdomRun, h⟩ := bind_eq_ok.1 h
  obtain ⟨vdom, hvdom, h⟩ := bind_lift_ok h
  obtain ⟨⟨body', bty⟩, u', hbodyRun, h⟩ := bind_eq_ok.1 h
  obtain ⟨tbty, htbty, h⟩ := bind_quote_ok h
  obtain ⟨pi, hpi, h⟩ := bind_lift_ok h
  obtain ⟨rfl, rfl⟩ := pure_eq_ok.1 h
  have hle := (hk.keeps.check ..).next_le hdomRun
  have hle' := (hk.keeps.synth ..).next_le hbodyRun
  have rdom := hk.check hs.enterType .type hdom hdomRun (by omega)
  have hinner := hs.bind (hs.eval rdom.term hvdom) x (erased || icit == .impl) false
  have rbody := hk.synth hinner hbody hbodyRun (by omega)
  have htbtyWithin : tbty.Within .normal (scope.size + 1) :=
    (Val.quote_safely (MetaStore.solvedWithin_normal _) rbody.type hinner.lt_size fuel false).answer
      tbty htbty
  refine ⟨Term.within_bind.2 ⟨rdom.term, rbody.term⟩,
    hs.eval (Term.within_bind.2 ⟨rdom.term, htbtyWithin⟩) hpi, id, fun hspells => ?_⟩
  cases hspells with
  | abs hdom hbody => exact .lam hs (rdom.fits hdom) hvdom (rbody.finds hbody) rbody.type htbty hpi

/-- A function type or a pair type. -/
theorem synthBinderType_replays {tm : Surface} {kind : BinderKind} {erased : Bool} {x : Name}
    {dom body : Surface} (hkind : kind.isLam = false) (hroot : tm.root = tm) (hdom : dom.Written)
    (hbody : body.Written)
    (htm : ∀ {dom' body' : Term}, tm.Spells (.bind ⟨kind, x, erased⟩ dom' body') →
      dom.Spells dom' ∧ body.Spells body')
    (h : synthBinderType fuel k scope kind erased x dom body s = .ok r s')
    (hn : s'.metas.next = s.metas.next) : SynthReplay su.globals L scope tm r.1 r.2 := by
  obtain ⟨dom', u, hdomRun, h⟩ := bind_eq_ok.1 h
  obtain ⟨vdom, hvdom, h⟩ := bind_lift_ok h
  obtain ⟨body', u', hbodyRun, h⟩ := bind_eq_ok.1 h
  obtain ⟨rfl, rfl⟩ := pure_eq_ok.1 h
  have hle := (hk.keeps.check ..).next_le hdomRun
  have hle' := (hk.keeps.check ..).next_le hbodyRun
  have rdom := hk.check hs.enterType .type hdom hdomRun (by omega)
  have hvdomWithin := hs.eval rdom.term hvdom
  have rbody :=
    hk.check (hs.enterType.bind hvdomWithin x false false) .type hbody hbodyRun (by omega)
  refine ⟨Term.within_bind.2 ⟨rdom.term, rbody.term⟩, .type, fun h => hroot ▸ h, fun hspells => ?_⟩
  obtain ⟨hdom, hbody⟩ := htm hspells
  exact .binderType hs hkind (rdom.fits hdom) hvdom hvdomWithin (rbody.fits hbody)

/-- The type and the value of a let-binding. -/
theorem letBinding_replays {erased : Bool} {ty val : Surface} (hty : ty.Written)
    (hval : val.Written) {p : Term × Val × Term}
    (h : letBinding fuel k scope erased (some ty) val s = .ok p s')
    (hn : s'.metas.next = s.metas.next) :
    CheckReplay su.globals L scope.enterType ty p.1 .type ∧ p.1.eval fuel scope.env = .ok p.2.1 ∧
      CheckReplay su.globals L (scope.enterIf erased) val p.2.2 p.2.1 := by
  obtain ⟨ty', u, htyRun, h⟩ := bind_eq_ok.1 h
  obtain ⟨vty, hvty, h⟩ := bind_lift_ok h
  obtain ⟨val', u', hvalRun, h⟩ := bind_eq_ok.1 h
  obtain ⟨rfl, rfl⟩ := pure_eq_ok.1 h
  have hle := (hk.keeps.check ..).next_le htyRun
  have hle' := (hk.keeps.check ..).next_le hvalRun
  have rty := hk.check hs.enterType .type hty htyRun (by omega)
  exact ⟨rty, hvty, hk.check (hs.enterIf erased) (hs.eval rty.term hvty) hval hvalRun (by omega)⟩

/-- An annotated definition gets the same type when it is checked again. -/
theorem synthLet_replays {erased : Bool} {x : Name} {ty val body : Surface} (hty : ty.Written)
    (hval : val.Written) (hbody : body.Written)
    (h : synthLet fuel k scope erased x (some ty) val body s = .ok r s')
    (hn : s'.metas.next = s.metas.next) :
    SynthReplay su.globals L scope (.letIn erased x (some ty) val body) r.1 r.2 := by
  obtain ⟨⟨ty', vty, val'⟩, u, hletRun, h⟩ := bind_eq_ok.1 h
  obtain ⟨v, hv, h⟩ := bind_lift_ok h
  obtain ⟨⟨body', bty⟩, u', hbodyRun, h⟩ := bind_eq_ok.1 h
  obtain ⟨rfl, rfl⟩ := pure_eq_ok.1 h
  have hle := (letBinding_keeps MetaStore.Grows.tracksFresh hk.keeps ..).next_le hletRun
  have hle' := (hk.keeps.synth ..).next_le hbodyRun
  obtain ⟨rty, hvty, rval⟩ := letBinding_replays hk hs hty hval hletRun (by omega)
  have hval' : val'.Within .normal scope.size := Local.size_enterIf scope erased ▸ rval.term
  have hinner := hs.define (hs.eval rty.term hvty) (hs.eval hval' hv) x erased
  have rbody := hk.synth hinner hbody hbodyRun (by omega)
  refine ⟨Term.within_letIn.2 ⟨rty.term, hval', ?_⟩, rbody.type, id, fun hspells => ?_⟩
  · exact Local.size_define scope .. ▸ rbody.term
  · cases hspells with
    | letIn hty hval hbody =>
      exact .letIn hs (rty.fits hty) hvty (rval.fits hval) hv (rbody.finds hbody)

/-- An application of a function that was synthesized. -/
theorem synthApp_replays {tmf x : Surface} {f : Term} {fty : Val} {icit : Icit}
    (rf : SynthReplay su.globals L scope tmf f fty) (hx : x.Written)
    (h : synthApp fuel su k scope f fty icit x s = .ok r s') (hn : s'.metas.next = s.metas.next) :
    SynthReplay su.globals L scope (.app tmf icit x) r.1 r.2 := by
  cases fuel with
  | zero => cases h
  | succ fuel =>
    obtain ⟨u, hu, h⟩ := bind_emitWith_ok h
    obtain ⟨v, hforce, h⟩ := bind_force_ok h
    have hv : v.Within .normal L :=
      (Val.force_safely (MetaStore.solvedWithin_normal _) rf.type fuel).answer v hforce
    cases v with
    | closure c =>
      dsimp only at h
      by_cases himplicit : c.binder.kind = .pi .impl ∧ icit = .expl
      · -- A metavariable for the implicit argument would be new.
        rw [if_pos himplicit] at h
        obtain ⟨m, u', hm, h⟩ := bind_eq_ok.1 h
        obtain ⟨vm, -, h⟩ := bind_lift_ok h
        obtain ⟨rest, -, h⟩ := bind_lift_ok h
        have hlt := newMeta_next_lt hm
        have hle := (synthApp_keeps MetaStore.Grows.tracksFresh hk.keeps ..).next_le h
        rw [hu] at hlt
        omega
      · by_cases hkind : c.binder.kind = .pi icit
        · rw [if_neg himplicit, if_pos hkind] at h
          obtain ⟨x', u', hxRun, h⟩ := bind_eq_ok.1 h
          obtain ⟨vx, hvx, h⟩ := bind_lift_ok h
          obtain ⟨ty, hty, h⟩ := bind_lift_ok h
          obtain ⟨rfl, rfl⟩ := pure_eq_ok.1 h
          have hdom := (Val.within_closure.1 hv).1
          have rx := hk.check (hs.enterIf _) hdom hx hxRun (hn.trans (congrArg _ hu.symm))
          have hx' : x'.Within .normal scope.size := Local.size_enterIf scope _ ▸ rx.term
          refine ⟨Term.within_app.2 ⟨rf.term, hx'⟩, ?_, id, fun hspells => ?_⟩
          · exact (Closure.apply_safely hv (hs.eval hx' hvx) fuel).answer ty hty
          · cases hspells with
            | app hf hx => exact .app hs (rf.finds hf) rf.type hforce hkind (rx.fits hx) hvx hty
        · rw [if_neg himplicit, if_neg hkind] at h
          split at h
          · exact (refuse_text_ne_ok h).elim
          · exact (refuse_text_ne_ok h).elim
    | neutral head sp =>
      cases head with
      | metavar m => exact (Val.within_neutral.1 hv).1.elim
      | var | prim => exact (refuse_text_ne_ok h).elim
    | type | glued | pair | nat => exact (refuse_text_ne_ok h).elim

omit hk in
/-- A variable or a definition gets the same type when it is looked up again. -/
theorem synthVar_replays (hg : su.globals.Within .normal) {x : Name}
    (h : synthVar su scope x s = .ok r s') : SynthReplay su.globals L scope (.var x) r.1 r.2 := by
  unfold synthVar at h
  cases hlookup : scope.lookup x with
  | some p =>
    obtain ⟨i, e⟩ := p
    obtain ⟨hterm, hty⟩ := hs.lookup hlookup
    rw [hlookup] at h
    dsimp only at h
    split at h
    · cases h
    · next herased =>
      obtain ⟨rfl, rfl⟩ := pure_eq_ok.1 h
      exact ⟨hterm, hty, id, fun _ => .var hs hlookup (eq_false_of_ne_true herased)⟩
  | none =>
    rw [hlookup] at h
    cases hd : su.globals.find? x with
    | some d =>
      rw [hd] at h
      dsimp only at h
      split at h
      · cases h
      · next herased =>
        obtain ⟨rfl, rfl⟩ := pure_eq_ok.1 h
        have hty : d.ty.Within .normal L := (hg.types _ (Globals.mem_of_find? hd)).of_closed
        exact ⟨Term.within_global, hty, id, fun _ => .global hd (eq_false_of_ne_true herased)⟩
    | none =>
      rw [hd] at h
      cases hp : Prim.ofName? x.text with
      | some p =>
        rw [hp] at h
        obtain ⟨rfl, rfl⟩ := pure_eq_ok.1 h
        exact ⟨Term.within_prim, Prim.within_supports.primType p, id, fun _ => .prim p⟩
      | none =>
        rw [hp] at h
        cases h

omit hk in
/-- The way to a field is a chain of projections, whose types the verifier finds one by one. -/
theorem project_replays {field : Field} {i : Nat} {x : Term} {xty : Val}
    (hx : x.Within .normal scope.size) (hxty : xty.Within .normal L)
    (h : project fuel scope field i x xty s = .ok r s') :
    ProjectReplay su.globals L scope i x xty r.1 r.2 := by
  induction fuel generalizing i x xty with
  | zero => cases h
  | succ fuel ih =>
    have last {v : Val} (h : projectLast fuel scope field i x xty v s = .ok r s') :
        ProjectReplay su.globals L scope i x xty r.1 r.2 := by
      unfold projectLast at h
      split at h
      · exact (refuse_text_ne_ok h).elim
      · next hi =>
        split at h
        · obtain ⟨rfl, rfl⟩ := pure_eq_ok.1 h
          exact ⟨hx, hxty, rfl, fun hchain => hchain.resolve_left hi, id⟩
        · exact (refuse_text_ne_ok h).elim
    obtain ⟨v, hforce, h⟩ := bind_force_ok h
    have hv : v.Within .normal L :=
      (Val.force_safely (MetaStore.solvedWithin_normal _) hxty fuel).answer v hforce
    cases v with
    | closure c =>
      dsimp only at h
      by_cases hkind : c.binder.kind = .sigma
      · rw [if_neg (not_not.2 hkind)] at h
        have hproj (p : Proj) : (Term.proj x p).Within .normal scope.size := Term.within_proj.2 hx
        have second {ty : Val} {u : State} (h : sndType fuel scope x c s = .ok ty u) :
            u = s ∧ ProjectReplay su.globals L scope i x xty (.proj x .snd) ty := by
          obtain ⟨w, hw, happly⟩ := bind_lift_ok h
          obtain ⟨hty, rfl⟩ := lift_eq_ok.1 happly
          have hwithin := (Closure.apply_safely hv (hs.eval (hproj .fst) hw) fuel).answer ty hty
          exact ⟨rfl, hproj .snd, hwithin, rfl, fun _ => ⟨x, .snd, rfl⟩,
            fun hfinds => .snd hfinds hxty hforce hkind hw hty⟩
        by_cases hsnd : field = .snd
        · rw [if_pos hsnd] at h
          obtain ⟨ty, u, hty, h⟩ := bind_eq_ok.1 h
          obtain ⟨rfl, rfl⟩ := pure_eq_ok.1 h
          exact (second hty).2
        · rw [if_neg hsnd] at h
          split at h
          · split at h
            · cases h
            · next herased =>
              obtain ⟨rfl, rfl⟩ := pure_eq_ok.1 h
              exact ⟨hproj .fst, (Val.within_closure.1 hv).1, rfl, fun _ => ⟨x, .fst, rfl⟩,
                fun hfinds => .fst hfinds hxty hforce hkind (eq_false_of_ne_true herased)⟩
          · obtain ⟨ty, u, hty, hrest⟩ := bind_eq_ok.1 h
            obtain ⟨hu, step⟩ := second hty
            rw [hu] at hrest
            have rest := ih step.term step.type hrest
            exact ⟨rest.term, rest.type, rest.root.trans step.root,
              fun _ => rest.chain (.inr ⟨x, .snd, rfl⟩),
              fun hfinds => rest.finds (step.finds hfinds)⟩
      · rw [if_pos hkind] at h
        exact last h
    | type | neutral | glued | pair | nat => exact last h

omit hk in
/-- Two types that were made equal. -/
theorem Matches.of_unifyIn {a b : Val} (ha : a.Within .normal L) (hb : b.Within .normal L)
    (h : unifyIn fuel su scope a b s = .ok () s') : Matches su.globals L a b :=
  .of_unify ha hb hs.lt_size (mapError_eq_ok.1 h)

omit hk in
/-- Without new metavariables, the type of the scrutinee states the equation. -/
theorem scrutEquation_replays {ty : Val} (hty : ty.Within .normal L) {q : Equation}
    (h : scrutEquation fuel su scope ty s = .ok q s') (hn : s'.metas.next = s.metas.next) :
    ∃ v, ty.force fuel s.metas = .ok v ∧ Equation.ofType? v = some q ∧
      q.All (Val.Within .normal L) ∧ Matches su.globals L q.lhsTy q.rhsTy := by
  obtain ⟨v, hforce, h⟩ := bind_force_ok h
  have hv : v.Within .normal L :=
    (Val.force_safely (MetaStore.solvedWithin_normal _) hty fuel).answer v hforce
  cases hq : Equation.ofType? v with
  | some q' =>
    rw [hq] at h
    obtain ⟨⟨⟩, u, hsides, h⟩ := bind_eq_ok.1 h
    obtain ⟨rfl, rfl⟩ := pure_eq_ok.1 h
    have hwithin := Prim.within_supports.equation hv hq
    exact ⟨v, hforce, hq, hwithin, .of_unifyIn hs hwithin.lhsTy hwithin.rhsTy hsides⟩
  | none =>
    rw [hq] at h
    obtain ⟨side, u₁, hside, h⟩ := bind_eq_ok.1 h
    obtain ⟨lhs, u₂, hlhs, h⟩ := bind_eq_ok.1 h
    obtain ⟨rhs, u₃, hrhs, h⟩ := bind_eq_ok.1 h
    obtain ⟨vside, -, h⟩ := bind_lift_ok h
    obtain ⟨vlhs, -, h⟩ := bind_lift_ok h
    obtain ⟨vrhs, -, h⟩ := bind_lift_ok h
    obtain ⟨⟨⟩, u₄, hunify, h⟩ := bind_eq_ok.1 h
    obtain ⟨rfl, rfl⟩ := pure_eq_ok.1 h
    -- The type is no equation yet: the three metavariables for its sides would be new.
    have h₁ := newMeta_next_lt hside
    have h₂ := newMeta_next_lt hlhs
    have h₃ := newMeta_next_lt hrhs
    have h₄ := (unifyIn_keeps MetaStore.Grows.tracksFresh ..).next_le hunify
    omega

/-- A scrutinee gets the type its eliminator asks for when it is checked again. -/
theorem elaborateScrut_replays {e : Eliminator} {scrut : Surface} (hscrut : scrut.Written)
    {p : Term × Option Equation} (h : elaborateScrut fuel su k scope e scrut s = .ok p s')
    (hn : s'.metas.next = s.metas.next) :
    p.1.Within .normal scope.size ∧ (∀ q ∈ p.2, q.All (Val.Within .normal L)) ∧
      (scrut.Spells p.1 → Verify.Scrutinee su.globals L scope e p.1 p.2) := by
  unfold elaborateScrut at h
  cases hty : e.scrutTy? with
  | some ty =>
    rw [hty] at h
    obtain ⟨scrut', u, hscrutRun, h⟩ := bind_eq_ok.1 h
    obtain ⟨rfl, rfl⟩ := pure_eq_ok.1 h
    have rscrut := hk.check hs (Prim.within_supports.scrutTy hty) hscrut hscrutRun hn
    exact ⟨rscrut.term, fun _ h => (nomatch h), fun hspells => .plain hty (rscrut.fits hspells)⟩
  | none =>
    rw [hty] at h
    obtain ⟨⟨scrut', ty⟩, u, hscrutRun, h⟩ := bind_eq_ok.1 h
    obtain ⟨q, u', hqRun, h⟩ := bind_eq_ok.1 h
    obtain ⟨rfl, rfl⟩ := pure_eq_ok.1 h
    have hle := (hk.keeps.synth ..).next_le hscrutRun
    have hle' := (scrutEquation_keeps MetaStore.Grows.tracksFresh ..).next_le hqRun
    have rscrut := hk.synth hs hscrut hscrutRun (by omega)
    obtain ⟨v, hforce, hq, hwithin, hsides⟩ := scrutEquation_replays hs rscrut.type hqRun (by omega)
    refine ⟨rscrut.term, ?_,
      fun hspells => .equation hty (rscrut.finds hspells) rscrut.type hforce hq hsides⟩
    rintro _ ⟨⟩
    exact hwithin

theorem checkAll_replays {tms : List Surface} (htms : ∀ tm ∈ tms, tm.Written) {tys : List Val}
    (htys : ∀ ty ∈ tys, ty.Within .normal L) {ts : List Term}
    (h : checkAll (k.check scope) tms tys s = .ok ts s') (hn : s'.metas.next = s.metas.next) :
    (∀ t ∈ ts, t.Within .normal scope.size) ∧
      (List.Forall₂ Surface.Spells tms ts → ∀ p ∈ ts.zip tys,
        Verify.Fits su.globals L scope p.1 p.2) := by
  induction tms generalizing tys ts s with
  | nil =>
    obtain ⟨rfl, rfl⟩ := pure_eq_ok.1 h
    exact ⟨List.forall_mem_nil _, fun _ => List.forall_mem_nil _⟩
  | cons tm tms ih =>
    cases tys with
    | nil =>
      obtain ⟨rfl, rfl⟩ := pure_eq_ok.1 h
      exact ⟨List.forall_mem_nil _, fun _ => List.forall_mem_nil _⟩
    | cons ty tys =>
      obtain ⟨htm, htms⟩ := List.forall_mem_cons.1 htms
      obtain ⟨hty, htys⟩ := List.forall_mem_cons.1 htys
      obtain ⟨t, u, htRun, h⟩ := bind_eq_ok.1 h
      obtain ⟨ts', u', htsRun, h⟩ := bind_eq_ok.1 h
      obtain ⟨rfl, rfl⟩ := pure_eq_ok.1 h
      have hle := (hk.keeps.check ..).next_le htRun
      have hle' := (checkAll_keeps MetaStore.Grows.tracksFresh hk.keeps ..).next_le htsRun
      have rt := hk.check hs hty htm htRun (by omega)
      obtain ⟨hwithin, hfits⟩ := ih htms htys htsRun (by omega)
      refine ⟨List.forall_mem_cons.2 ⟨rt.term, hwithin⟩, fun hspells => ?_⟩
      cases hspells with
      | cons ht hts => exact List.forall_mem_cons.2 ⟨rt.fits ht, hfits hts⟩

/-- An eliminator with a written motive gets the same type when it is checked again. -/
theorem synthElim_replays {e : Eliminator} {motive scrut : Surface} {cases : List Surface}
    (hmotive : motive.Written) (hscrut : scrut.Written) (hcases : ∀ c ∈ cases, c.Written)
    (h : synthElim fuel su k scope e (some motive) scrut cases s = .ok r s')
    (hn : s'.metas.next = s.metas.next) :
    SynthReplay su.globals L scope (.elim e (some motive) scrut cases) r.1 r.2 := by
  by_cases hlength : cases.length = e.numCases
  · rw [synthElim, if_neg (not_not.2 hlength)] at h
    obtain ⟨⟨scrut', q⟩, u, hscrutRun, h⟩ := bind_eq_ok.1 h
    obtain ⟨vscrut, hvscrut, h⟩ := bind_lift_ok h
    obtain ⟨motiveTy, hmotiveTy, h⟩ := bind_lift_ok h
    obtain ⟨motive', u', hmotiveRun, h⟩ := bind_eq_ok.1 h
    obtain ⟨vmotive, hvmotive, h⟩ := bind_lift_ok h
    obtain ⟨sig, hsig, h⟩ := bind_lift_ok h
    obtain ⟨cases', u'', hcasesRun, h⟩ := bind_eq_ok.1 h
    obtain ⟨rfl, rfl⟩ := pure_eq_ok.1 h
    have h₁ := (elaborateScrut_keeps MetaStore.Grows.tracksFresh hk.keeps ..).next_le hscrutRun
    have h₂ := (hk.keeps.check ..).next_le hmotiveRun
    have h₃ := (checkAll_keeps MetaStore.Grows.tracksFresh hk.keeps ..).next_le hcasesRun
    obtain ⟨hscrut', hq, hscrutinee⟩ := elaborateScrut_replays hk hs hscrut hscrutRun (by omega)
    have hmotiveTy' := (Prim.within_supports.motiveTy hq).answer motiveTy hmotiveTy
    have rmotive := hk.check hs.enterType hmotiveTy' hmotive hmotiveRun (by omega)
    have hvscrut' := hs.eval hscrut' hvscrut
    have hsig' :=
      (Prim.within_supports.signature (hs.eval rmotive.term hvmotive) hvscrut' hq).answer sig hsig
    obtain ⟨hcases', hfits⟩ := checkAll_replays hk hs hcases hsig'.1 hcasesRun (by omega)
    refine ⟨Term.within_elim.2 ⟨rmotive.term, hscrut', hcases'⟩, hsig'.2, id, fun hspells => ?_⟩
    cases hspells with
    | elim hm hsc hcs =>
      exact .elim hs (hcs.length_eq.symm.trans hlength) (hscrutinee hsc) hmotiveTy (rmotive.fits hm)
        hvmotive hvscrut hsig (hfits hcs)
  · rw [synthElim, if_pos hlength] at h
    cases h

/-- The rule for each form of a term. -/
theorem synthForm_replays (hg : su.globals.Within .normal) {tm : Surface} (htm : tm.Written)
    (h : synthForm fuel su k scope tm s = .ok r s') (hn : s'.metas.next = s.metas.next) :
    SynthReplay su.globals L scope tm r.1 r.2 := by
  obtain ⟨t, ht⟩ := htm
  cases ht with
  | type =>
    obtain ⟨rfl, rfl⟩ := pure_eq_ok.1 h
    exact ⟨Term.within_type, .type, id, fun _ => .type⟩
  | nat =>
    obtain ⟨rfl, rfl⟩ := pure_eq_ok.1 h
    exact ⟨Term.within_nat, Val.within_prim, id, fun _ => .nat _⟩
  | @prim p =>
    obtain ⟨rfl, rfl⟩ := pure_eq_ok.1 h
    exact ⟨Term.within_prim, Prim.within_supports.primType p, id, fun _ => .prim p⟩
  | «local» | global | constant => exact synthVar_replays hs hg h
  | app hf hx =>
    obtain ⟨⟨f, fty⟩, u, hfRun, h⟩ := bind_eq_ok.1 h
    have hle := (hk.keeps.synth ..).next_le hfRun
    have hle' := (synthApp_keeps MetaStore.Grows.tracksFresh hk.keeps ..).next_le h
    have rf := hk.synth hs ⟨_, hf⟩ hfRun (by omega)
    exact synthApp_replays hk hs rf ⟨_, hx⟩ h (by omega)
  | abs hdom hbody => exact synthLam_replays hk hs ⟨_, hdom⟩ ⟨_, hbody⟩ h hn
  | pi hdom hbody =>
    refine synthBinderType_replays hk hs rfl rfl ⟨_, hdom⟩ ⟨_, hbody⟩ ?_ h hn
    rintro _ _ ⟨⟩
    exact ⟨‹_›, ‹_›⟩
  | sigma hdom hbody =>
    refine synthBinderType_replays hk hs rfl rfl ⟨_, hdom⟩ ⟨_, hbody⟩ ?_ h hn
    rintro _ _ ⟨⟩
    exact ⟨‹_›, ‹_›⟩
  | letIn hty hval hbody => exact synthLet_replays hk hs ⟨_, hty⟩ ⟨_, hval⟩ ⟨_, hbody⟩ h hn
  | proj hx =>
    obtain ⟨⟨x, xty⟩, u, hxRun, h⟩ := bind_eq_ok.1 h
    have hle := (hk.keeps.synth ..).next_le hxRun
    have hle' := (project_keeps MetaStore.Grows.tracksFresh ..).next_le h
    have rx := hk.synth hs (.of_root ⟨_, hx⟩) hxRun (by omega)
    have way : ProjectReplay su.globals L scope 0 x xty r.1 r.2 :=
      project_replays hs rx.term rx.type h
    obtain ⟨y, p, hr⟩ := way.chain (.inl rfl)
    obtain ⟨t, ty⟩ := r
    subst hr
    refine ⟨way.term, way.type, fun h => .proj h, ?_⟩
    rintro ⟨⟩
    have hroot : y.root = x.root := way.root
    exact way.finds (rx.finds (rx.root (hroot ▸ ‹_›)))
  | elim hm hsc hcs =>
    exact synthElim_replays hk hs ⟨_, hm⟩ ⟨_, hsc⟩ (Surface.written_of_spells hcs) h hn
  | spanned hx =>
    have rx := hk.synth hs ⟨_, hx⟩ (mapError_eq_ok.1 h) hn
    exact rx.spanned

/-- One step of synthesis that makes no metavariable can be replayed when the recursive calls can.
-/
theorem synthStep_replays (hg : su.globals.Within .normal) {tm : Surface} (htm : tm.Written)
    (h : synthStep fuel su k scope tm s = .ok r s') (hn : s'.metas.next = s.metas.next) :
    SynthReplay su.globals L scope tm r.1 r.2 := by
  cases tm with
  | spanned span x =>
    obtain ⟨_, ⟨⟩⟩ := htm
    exact (hk.synth hs ⟨_, ‹_›⟩ (mapError_eq_ok.1 h) hn).spanned
  | type | nat | prim | var | app | abs | pi | sigma | letIn | pair | proj | ann | hole | elim =>
    obtain ⟨u, hu, h⟩ := bind_emitIf_ok h
    obtain ⟨⟨term, ty⟩, u', hform, h⟩ := bind_eq_ok.1 h
    obtain ⟨u'', hu'', h⟩ := bind_emitWith_ok h
    obtain ⟨rfl, rfl⟩ := pure_eq_ok.1 h
    rw [hu''] at hn
    exact synthForm_replays hk hs hg htm hform (hn.trans (congrArg _ hu.symm))

/-! ## Checking -/

omit hk hs in
/-- Without new metavariables no implicit argument is put in. -/
theorem instantiate_settled {ty : Val} {p : Val × List Term}
    (h : instantiate fuel scope ty s = .ok p s') (hn : s'.metas.next = s.metas.next) :
    p = (ty, []) := by
  cases fuel with
  | zero => cases h
  | succ fuel =>
    obtain ⟨v, -, h⟩ := bind_force_ok h
    cases v with
    | closure c =>
      dsimp only at h
      split at h
      · obtain ⟨m, u, hm, h⟩ := bind_eq_ok.1 h
        obtain ⟨vm, -, h⟩ := bind_lift_ok h
        obtain ⟨rest, -, h⟩ := bind_lift_ok h
        obtain ⟨q, u', hrest, h⟩ := bind_eq_ok.1 h
        obtain ⟨-, rfl⟩ := pure_eq_ok.1 h
        have hlt := newMeta_next_lt hm
        have hle := (instantiate_keeps MetaStore.Grows.tracksFresh ..).next_le hrest
        omega
      · exact (pure_eq_ok.1 h).1.symm
    | type | neutral | glued | pair | nat => exact (pure_eq_ok.1 h).1.symm

omit hk in
/-- Without new metavariables, a term that is used at another type stays as it is, and the types are
equal. -/
theorem subsume_replays {term t : Term} {found expected : Val} (hfound : found.Within .normal L)
    (hexpected : expected.Within .normal L)
    (h : subsume fuel su scope term found expected s = .ok t s')
    (hn : s'.metas.next = s.metas.next) : t = term ∧ Matches su.globals L found expected := by
  have hT := MetaStore.Grows.tracksFresh.toTracks
  obtain ⟨res, u, hres, h⟩ := bind_eq_ok.1 h
  have hle :=
    (Keeps.transaction hT (unify_keeps (MetaStore.Grows.tracksFresh.solutions _) ..)).next_le hres
  rcases transaction_eq_ok.1 hres with ⟨⟨⟩, u', rfl, hunify, -⟩ | ⟨e, u', rfl, -, -⟩
  · exact ⟨(pure_eq_ok.1 h).1.symm, .of_unify hfound hexpected hs.lt_size hunify⟩
  · dsimp only at h
    split at h
    · obtain ⟨u₁, hu₁, h⟩ := bind_emitWith_ok h
      obtain ⟨args, u₂, hargs, h⟩ := bind_eq_ok.1 h
      cases args with
      | none => cases h
      | some args =>
        obtain ⟨rfl, rfl⟩ := pure_eq_ok.1 h
        obtain ⟨w, hw, ms, hms, hkept⟩ := attempt_eq_ok_some.1 hargs
        obtain ⟨⟨ty, args'⟩, w', hinst, hw⟩ := bind_eq_ok.1 hw
        obtain ⟨⟨⟩, w'', hunify, hw⟩ := bind_eq_ok.1 hw
        obtain ⟨hargs', rfl⟩ := pure_eq_ok.1 hw
        obtain ⟨-, -, hnext⟩ := MetaStore.discard_eq_ok_iff.1 hms
        have h₁ := (instantiate_keeps MetaStore.Grows.tracksFresh ..).next_le hinst
        have h₂ := (unify_keeps (MetaStore.Grows.tracksFresh.solutions _) ..).next_le hunify
        have hopened : u₁.opened.metas.next = u.metas.next := by
          rw [← hu₁]
          rfl
        have hdone : ms.next = s.metas.next := by
          rw [← hkept] at hn
          exact hn
        -- No metavariable was created, so no implicit argument was inserted.
        cases instantiate_settled hinst (by omega)
        cases hargs'
        exact ⟨rfl, .of_unify hfound hexpected hs.lt_size hunify⟩
    · cases h

/-- An implicit function that is put around a term is not written there. -/
theorem insertLam_replays {tm : Surface} (htm : tm.Written)
    (hplain : tm.bindsImplicit = false) {c : Closure}
    (hc : (Val.closure c).Within .normal L) {t : Term}
    (h : insertLam fuel k scope tm c s = .ok t s') (hn : s'.metas.next = s.metas.next) (ty : Val) :
    CheckReplay su.globals L scope tm t ty := by
  obtain ⟨bty, hbty, h⟩ := bind_lift_ok h
  obtain ⟨body, u, hbodyRun, h⟩ := bind_eq_ok.1 h
  obtain ⟨dom, hdom, h⟩ := bind_quote_ok h
  obtain ⟨rfl, rfl⟩ := pure_eq_ok.1 h
  have hdomWithin := (Val.within_closure.1 hc).1
  have hbtyWithin : bty.Within .normal fun l => L l ∨ l = scope.size :=
    (Closure.enter_safely hc (fun _ hl => .inl hl) (.inr rfl) fuel).answer bty hbty
  have rbody := hk.check (hs.bind hdomWithin c.binder.name true true) hbtyWithin htm hbodyRun hn
  refine ⟨Term.within_bind.2 ⟨?_, Local.size_bind scope .. ▸ rbody.term⟩, fun hspells => ?_⟩
  · exact (Val.quote_safely (MetaStore.solvedWithin_normal _) hdomWithin hs.lt_size fuel
      false).answer dom hdom
  · exact absurd hspells.bindsImplicit (ne_true_of_eq_false hplain)

theorem checkLet_replays {erased : Bool} {x : Name} {ty val body : Surface} (hty : ty.Written)
    (hval : val.Written) (hbody : body.Written) {expected : Val}
    (hexpected : expected.Within .normal L) {t : Term}
    (h : checkLet fuel k scope erased x (some ty) val body expected s = .ok t s')
    (hn : s'.metas.next = s.metas.next) :
    CheckReplay su.globals L scope (.letIn erased x (some ty) val body) t expected := by
  obtain ⟨⟨ty', vty, val'⟩, u, hletRun, h⟩ := bind_eq_ok.1 h
  obtain ⟨v, hv, h⟩ := bind_lift_ok h
  obtain ⟨body', u', hbodyRun, h⟩ := bind_eq_ok.1 h
  obtain ⟨rfl, rfl⟩ := pure_eq_ok.1 h
  have hle := (letBinding_keeps MetaStore.Grows.tracksFresh hk.keeps ..).next_le hletRun
  have hle' := (hk.keeps.check ..).next_le hbodyRun
  obtain ⟨rty, hvty, rval⟩ := letBinding_replays hk hs hty hval hletRun (by omega)
  have hval' : val'.Within .normal scope.size := Local.size_enterIf scope erased ▸ rval.term
  have hinner := hs.define (hs.eval rty.term hvty) (hs.eval hval' hv) x erased
  have rbody := hk.check hinner hexpected hbody hbodyRun (by omega)
  refine ⟨Term.within_letIn.2 ⟨rty.term, hval', ?_⟩, fun hspells => ?_⟩
  · exact Local.size_define scope .. ▸ rbody.term
  · cases hspells with
    | letIn hty hval hbody =>
      obtain ⟨found, hmatch, hfinds⟩ := (rbody.fits hbody).found
      exact ⟨found, hmatch, .letIn hs (rty.fits hty) hvty (rval.fits hval) hv hfinds⟩

/-- A term whose type is found first and then compared. -/
theorem checkSwitch_replays {tm : Surface} (htm : tm.Written) {ty : Val}
    (hty : ty.Within .normal L) {t : Term} (h : checkBy fuel su k scope tm ty .switch s = .ok t s')
    (hn : s'.metas.next = s.metas.next) : CheckReplay su.globals L scope tm t ty := by
  obtain ⟨⟨term, found⟩, u, htermRun, h⟩ := bind_eq_ok.1 h
  have hle := (hk.keeps.synth ..).next_le htermRun
  have hle' := (subsume_keeps MetaStore.Grows.tracksFresh ..).next_le h
  have rterm := hk.synth hs htm htermRun (by omega)
  obtain ⟨rfl, hmatch⟩ := subsume_replays hs rterm.type hty h (by omega)
  exact ⟨rterm.term, fun hspells => ⟨found, hmatch, rterm.finds hspells⟩⟩

/-- An implicit function type may call for an implicit function first. -/
theorem checkInsert_replays {tm : Surface} (htm : tm.Written) {ty v : Val} (hv : v.Within .normal L)
    {rule : CheckRule}
    {t : Term} (hrule : checkBy fuel su k scope tm ty rule s = .ok t s' →
      CheckReplay su.globals L scope tm t ty)
    (h : checkBy fuel su k scope tm ty (CheckRule.insertOr tm v rule) s = .ok t s')
    (hn : s'.metas.next = s.metas.next) : CheckReplay su.globals L scope tm t ty := by
  unfold CheckRule.insertOr at h
  split at h
  · split at h
    · next hinsert => exact insertLam_replays hk hs htm (eq_false_of_ne_true hinsert.2) hv h hn ty
    · exact hrule h
  · exact hrule h

/-- The rule that a term without a span is checked by. -/
theorem checkBy_replays {tm : Surface} (htm : tm.Written)
    (hplain : ∀ span x, tm ≠ .spanned span x) {ty v : Val} {ms : MetaStore}
    (hty : ty.Within .normal L) (hforce : ty.force fuel ms = .ok v) {t : Term}
    (h : checkBy fuel su k scope tm ty (CheckRule.of tm v) s = .ok t s')
    (hn : s'.metas.next = s.metas.next) : CheckReplay su.globals L scope tm t ty := by
  have hv : v.Within .normal L :=
    (Val.force_safely (MetaStore.solvedWithin_normal _) hty fuel).answer v hforce
  have hswitch : ∀ {t}, checkBy fuel su k scope tm ty .switch s = .ok t s' →
      CheckReplay su.globals L scope tm t ty :=
    fun h => checkSwitch_replays hk hs htm hty h hn
  obtain ⟨_, ht⟩ := id htm
  cases ht with
  | spanned => exact absurd rfl (hplain _ _)
  | type =>
    cases v with
    | type =>
      obtain ⟨rfl, rfl⟩ := pure_eq_ok.1 h
      exact ⟨Term.within_type, fun _ => ⟨.type, .type hty hforce, .type⟩⟩
    | neutral | glued | closure | pair | nat => exact checkInsert_replays hk hs htm hv hswitch h hn
  | letIn hlet hval hbody =>
    refine checkInsert_replays hk hs htm hv (fun h => ?_) h hn
    exact checkLet_replays hk hs ⟨_, hlet⟩ ⟨_, hval⟩ ⟨_, hbody⟩ hty h hn
  | nat | prim | «local» | global | constant | app | abs | pi | sigma | proj | elim =>
    exact checkInsert_replays hk hs htm hv hswitch h hn

/-- One step of checking that makes no metavariable can be replayed when the recursive calls can. -/
theorem checkStep_replays {tm : Surface} (htm : tm.Written) {ty : Val}
    (hty : ty.Within .normal L) {t : Term} (h : checkStep fuel su k scope tm ty s = .ok t s')
    (hn : s'.metas.next = s.metas.next) : CheckReplay su.globals L scope tm t ty := by
  cases tm with
  | spanned span x =>
    obtain ⟨_, ⟨⟩⟩ := htm
    exact (hk.check hs hty ⟨_, ‹_›⟩ (mapError_eq_ok.1 h) hn).spanned
  | type | nat | prim | var | app | abs | pi | sigma | letIn | pair | proj | ann | hole | elim =>
    obtain ⟨u, hu, h⟩ := bind_emitWith_ok h
    obtain ⟨u', hu', h⟩ := bind_emitIf_ok h
    obtain ⟨v, hforce, h⟩ := bind_force_ok h
    refine checkBy_replays hk hs htm (fun _ _ h => nomatch h) hty hforce h ?_
    rw [hn, hu', hu]

end

/-- With any fuel, elaboration is repeated by the verifier. -/
theorem checker_replays {su : Setup} (hg : su.globals.Within .normal) (fuel : Nat) :
    Checker.Replays su.globals ⟨check fuel su, synth fuel su⟩ := by
  induction fuel with
  | zero =>
    exact ⟨checker_keeps MetaStore.Grows.tracksFresh 0 su, fun _ _ _ h => (nomatch h),
      fun _ _ h => (nomatch h)⟩
  | succ fuel ih =>
    exact ⟨checker_keeps MetaStore.Grows.tracksFresh (fuel + 1) su,
      fun hs hty htm h hn => checkStep_replays ih hs htm hty h hn,
      fun hs htm h hn => synthStep_replays ih hs hg htm h hn⟩

end Elaborator
