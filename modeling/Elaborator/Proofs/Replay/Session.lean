import Elaborator.Proofs.Replay.Check
import Elaborator.Proofs.Session.History

/-! # The verifier after the elaborator

A session elaborates a term and then has it verified. The verifier does not accept everything that
the elaborator accepts (`Session.verify_refuses_solution`): the solution of a metavariable has
placeholders where a function needs the types of its parameters. It does accept what the elaborator
put nothing into (`Session.Built.verify_accepts`). A pair gets a type put into it and an annotation
is lost, and either may be refused after a definition was replaced (`Session.verify_refuses_pair`,
`Session.verify_refuses_annotation`). -/

namespace Elaborator

open Elaborator.Action

/-! ## Sessions that were built by definitions -/

/-- A session that was made by successful definitions, under any settings. -/
inductive Session.Built : Session → Prop
  | new (config : Config) : Built (Session.new config)
  | configure {s : Session} (config : Config) (h : s.Built) : Built { s with config }
  | define {s t : Session} {fuel : Nat} {defs : List Def} {names : List Name} (h : s.Built)
      (run : Session.define fuel defs s = .ok names t) : Built t

/-- The values of the globals are closed and computed as far as possible. -/
def Globals.Normal (g : Globals) : Prop :=
  ∀ e ∈ g.map.entries, e.2.val.Within .normal noLevels ∧ e.2.ty.Within .normal noLevels

namespace Globals.Normal

variable {g : Globals} (hg : g.Normal)

include hg

/-- Definitions in normal form mention no metavariable. -/
theorem ground : g.Ground := fun e he =>
  ⟨(hg e he).1.widen Bounds.normal_le_noMetas, (hg e he).2.widen Bounds.normal_le_noMetas⟩

theorem within : g.Within .normal where
  env :=
    { locals := List.forall_mem_nil _
      bound := fun _ _ _ _ => trivial
      closed := by
        intro x _ v hv
        obtain ⟨d, hd, rfl⟩ := Globals.global?_env hv
        exact (hg (x, d) (Globals.mem_of_find? hd)).1 }
  types e he := (hg e he).2

/-- A ground term has a value in normal form over such definitions. -/
theorem eval {t : Term} (ht : t.Ground) {fuel : Nat} {v : Val} (h : t.eval fuel g.env = .ok v) :
    v.Within .normal noLevels :=
  (Term.eval_safely hg.within.env ⟨ht.closed, fun m hm => by rw [ht.metaFree] at hm; cases hm⟩
    fuel).answer v h

theorem insert {x : Name} {d : Definition} (hval : d.val.Within .normal noLevels)
    (hty : d.ty.Within .normal noLevels) : (g.insert x d).Normal := by
  intro e he
  rcases Globals.mem_entries_insert he with rfl | he
  · exact ⟨hval, hty⟩
  · exact hg e he

end Globals.Normal

/-- A definition adds a value and a type that are computed from elaborated terms. -/
theorem Globals.Normal.add {config : Config} {g : Globals} {x : Name} {d : Definition}
    (hg : g.Normal) (hnew : g.Adds config x d) : (g.insert x d).Normal := by
  obtain ⟨hterm, q, f, hq, hty⟩ := hnew.elaborated hg.ground
  obtain ⟨fuel, hval⟩ := hnew.evaluated
  exact hg.insert (hg.eval hterm hval) (hg.eval hq hty)

/-- The globals of a session that was built by definitions are computed as far as possible. -/
theorem Session.Built.normal {s : Session} (h : s.Built) : s.globals.Normal := by
  induction h with
  | new config => exact List.forall_mem_nil _
  | configure config _ ih => exact ih
  | @define s t fuel defs names _ run ih =>
    have heffect := define_effect fuel s defs
    rw [Command.after_of_ok run] at heffect
    exact heffect.keeps ih .add (fun h => nomatch h) fun h => nomatch h

/-! ## What is accepted twice -/

/-- At the end the term is zonked, and its type is read back and evaluated. -/
theorem finish_eq_ok {fuel : Nat} {scope : Local} {term : Term} {ty : Val}
    {r : Term × Val} {s t : State} (h : finish fuel scope term ty s = .ok r t) :
    t = s ∧ term.zonk fuel s.metas scope.env = .ok r.1 ∧
      ∃ q, ty.quote fuel s.metas false scope.size = .ok q ∧ q.eval fuel scope.env = .ok r.2 := by
  have h := bind_metas_ok h
  by_cases hpostponed : s.metas.hasPostponed = true
  · rw [if_pos hpostponed] at h
    cases h
  · rw [if_neg hpostponed] at h
    -- The rest of the steps can only refuse: they do not change the state.
    obtain ⟨term', hzonk, h⟩ := bind_lift_ok h
    obtain ⟨q, hq, h⟩ := bind_quote_ok h
    obtain ⟨holes, u, hopen, h⟩ := bind_eq_ok.1 h
    obtain ⟨_, _, ⟨⟩, hopen⟩ := bind_eq_ok.1 hopen
    obtain ⟨-, rfl⟩ := lift_eq_ok.1 hopen
    by_cases hholes : (!holes.isEmpty) = true
    · rw [if_pos hholes] at h
      cases h
    · rw [if_neg hholes] at h
      by_cases hunknown : (!(Term.addNew term'.metas q.metas).isEmpty) = true
      · rw [if_pos hunknown] at h
        cases h
      · rw [if_neg hunknown] at h
        obtain ⟨v, hv, h⟩ := bind_lift_ok h
        obtain ⟨rfl, rfl⟩ := pure_eq_ok.1 h
        exact ⟨rfl, hzonk, q, hq, hv⟩

/-- **What the elaborator puts nothing into, the verifier accepts.** Over definitions, let a term be
elaborated without a new metavariable, so that the result is the term as it was written. Then the
verifier, whenever it returns, finds a type for it, and this type, whenever the two are compared, is
equal to the one from elaboration. -/
theorem Session.Built.verify_accepts {s t : Session} (hs : s.Built) {fuel : Nat} {erased : Bool}
    {tm : Surface} {term : Term} {ty : Val} (h : elaborateAs fuel erased tm s = .ok (term, ty) t)
    (hmetas : t.metas.next = s.metas.next) (hspells : tm.Spells term) (fuel' fuel'' : Nat) :
    Accepts (verify fuel' s.globals erased term) fun r =>
      Accepts (sameType fuel'' s.globals r.1 ty) anything := by
  have hg := hs.normal.within
  have hT := MetaStore.Grows.tracksFresh
  obtain ⟨u, hu, hsame⟩ := elaborateAs_eq_ok h
  rw [hsame] at hmetas
  obtain ⟨⟨⟩, s₁, hreset, hu⟩ := bind_eq_ok.1 hu
  obtain ⟨⟨term', ty'⟩, s₂, hsynth, hu⟩ := bind_eq_ok.1 hu
  obtain ⟨⟨⟩, s₃, hretry, hu⟩ := bind_eq_ok.1 hu
  obtain ⟨⟨⟩, s₄, hsearch, hu⟩ := bind_eq_ok.1 hu
  obtain ⟨⟨⟩, s₅, hretry', hu⟩ := bind_eq_ok.1 hu
  have h₀ : s₁.metas.next = s.metas.next := by
    cases hreset
    rfl
  have h₁ := ((checker_keeps hT fuel _).synth ..).next_le hsynth
  have h₂ := (retryAll_keeps (hT.solutions _) ..).next_le hretry
  have h₃ := (searchInstances_keeps hT ..).next_le hsearch
  have h₄ := (retryAll_keeps (hT.solutions _) ..).next_le hretry'
  obtain ⟨rfl, hzonk, q, hq, hty⟩ := finish_eq_ok hu
  have hscope := (Local.Within.empty hg).enterIf erased
  have replay := (checker_replays hg fuel).synth hscope ⟨term, hspells⟩ hsynth (by omega)
  -- The term has no metavariables, so zonking has not changed it.
  rw [Term.zonk_settled replay.term] at hzonk
  cases hzonk
  refine (replay.finds hspells fuel').imp fun r hr => ?_
  rw [hr]
  have henv : ((Local.empty s.globals).enterIf erased).env = s.globals.scopeEnv 0 := by
    cases erased <;> rfl
  rw [Local.size_enterIf] at hq
  rw [henv] at hty
  have hechoes : ty'.Echoes s.globals fuel noLevels 0 ty := ⟨replay.type, _, q, fuel, hq, hty⟩
  exact (hechoes.accepts fuel'').mapError _

/-- A function that is called in a term which has all its types. -/
theorem Session.verify_accepts_succ :
    let succ : Def :=
  ⟨"f", false, none, .abs .expl false "x" (some (.prim .nat)) (.app (.prim .succ) .expl (.var "x"))⟩
    let tm : Surface := .abs .expl false "x" (some (.prim .nat)) (.app (.var "f") .expl (.var "x"))
    ∃ s, define 20 [succ] (.new {}) = .ok ["f"] s ∧
    ∃ term ty t, elaborateAs 20 false tm s = .ok (term, ty) t ∧ t.metas.next = s.metas.next ∧
      tm.Spells term ∧
      Accepts (verify 20 s.globals false term) fun r =>
        Accepts (sameType 20 s.globals r.1 ty) anything := by
  intro succ tm
  let run : Command (List Name × Term × Bool) := do
    let names ← define 20 [succ]
    let s ← get
    let r ← elaborateAs 20 false tm
    let t ← get
    return (names, r.1, decide (t.metas.next = s.metas.next))
  let answer : Term := .lam .expl "x" (.prim .nat) (.app (.global "f") .expl (.var ⟨0⟩))
  have hrun : run.run' (.new {}) = some ([("f" : Name)], answer, true) := by decide +kernel
  obtain ⟨u, h⟩ := Command.ok_of_run hrun
  obtain ⟨names, s, hs, h⟩ := Command.bind_eq_ok h
  have h := Command.bind_get_ok h
  obtain ⟨⟨term, ty⟩, t, ht, h⟩ := Command.bind_eq_ok h
  have h := Command.bind_get_ok h
  obtain ⟨hnames, hanswer⟩ := Prod.mk.inj (EStateM.Result.ok.inj h).1
  obtain ⟨hterm, hnext⟩ := Prod.mk.inj hanswer
  subst hnames hterm
  have hnext := of_decide_eq_true hnext
  refine ⟨s, hs, _, ty, t, ht, hnext, .abs .prim (.app .global .local), ?_⟩
  exact Built.verify_accepts (.define (.new {}) hs) ht hnext
    (.abs .prim (.app .global .local)) 20 20

/-- In `let f : Nat -> Nat = _ in \(x : Nat). (ReflHEq : HEq {Nat} {Nat} (f x) x)` the hole is
solved by a function whose parameter has the type `Type` as a placeholder. The elaborator accepts
the term and the verifier refuses it. -/
theorem Session.verify_refuses_solution :
    let f_x : Surface := .app (.var "f") .expl (.var "x")
    let equation : Surface :=
      .app (.app (.app (.app (.prim .heq) .impl (.prim .nat)) .impl (.prim .nat)) .expl f_x)
        .expl (.var "x")
    let tm : Surface :=
      .letIn false "f" (some (.pi .expl false .underscore (.prim .nat) (.prim .nat)))
      (.hole none false) (.abs .expl false "x" (some (.prim .nat)) (.ann (.prim .refl) equation))
    ∃ term ty t, elaborateAs 20 false tm (.new {}) = .ok (term, ty) t ∧
      ∃ size lhs rhs names u, verify 20 .empty false term .empty =
        .error (.error (.conversion size lhs rhs names)) u := by
  intro f_x equation tm
  have hrefused : (match elaborateAs 20 false tm (.new {}) with
      | .ok r _ => match verify 20 .empty false r.1 .empty with
        | .error (.error (.conversion _ _ _ _)) _ => true
        | _ => false
      | .error _ _ => false) = true := by decide +kernel
  split at hrefused
  · next r t hr =>
    split at hrefused
    · next hverify => exact ⟨r.1, r.2, t, hr, _, _, _, _, _, hverify⟩
    · cases hrefused
  · cases hrefused

/-! ## What cannot be accepted twice

An elaborated term no longer has the annotations of the written one, and the type of a pair is read
back into it. Both lose what a global stood for. A definition may be replaced if no term mentions
it, but the types of other definitions still hold its old value. The elaborator compares with that
one, and the verifier with what the name means now. So terms as they are written (`Surface.Spells`)
have no pairs and no annotations. -/

/-- The verifier finds another type than the one that is asked for. -/
def Verify.Refuses (g : Globals) (term : Term) : Prop :=
  ∃ size lhs rhs names t,
    verify 20 g false term .empty = .error (.error (.conversion size lhs rhs names)) t

def Verify.refuses (g : Globals) (term : Term) : Bool :=
  match verify 20 g false term .empty with
  | .error (.error (.conversion ..)) _ => true
  | _ => false

/-- The test of a refusal is right about it. -/
theorem Verify.Refuses.of_eq_true {g : Globals} {term : Term} (h : Verify.refuses g term = true) :
    Verify.Refuses g term := by
  unfold Verify.refuses at h
  split at h
  · next hverify => exact ⟨_, _, _, _, _, hverify⟩
  · cases h

/-- The term is elaborated without a new metavariable, and the verifier refuses the result. -/
def Session.RefusesTerm (s : Session) (tm : Surface) : Prop :=
  ∃ term ty t, elaborateAs 20 false tm s = .ok (term, ty) t ∧ t.metas.next = s.metas.next ∧
    Verify.Refuses s.globals term

/-- A term that is refused after two groups of definitions, the second of which may replace some of
the first. -/
theorem Session.refuses_of_run (defs defs' : List Def) (tm : Surface)
    (h : EStateM.run' (do
      let _ ← define 20 defs
      let _ ← define 20 defs'
      let s ← get
      let r ← elaborateAs 20 false tm
      let t ← get
      return (Verify.refuses s.globals r.1, decide (t.metas.next = s.metas.next)) :
    Command (Bool × Bool)) (.new { allowRedefinition := true }) = some (true, true)) :
    ∃ s : Session, s.Built ∧ s.RefusesTerm tm := by
  obtain ⟨u, h⟩ := Command.ok_of_run h
  obtain ⟨_, s₁, hs₁, h⟩ := Command.bind_eq_ok h
  obtain ⟨_, s₂, hs₂, h⟩ := Command.bind_eq_ok h
  have h := Command.bind_get_ok h
  obtain ⟨⟨term, ty⟩, t, ht, h⟩ := Command.bind_eq_ok h
  have h := Command.bind_get_ok h
  obtain ⟨hrefuses, hnext⟩ := Prod.mk.inj (EStateM.Result.ok.inj h).1
  refine ⟨s₂, .define (.define (.new _) hs₁) hs₂, term, ty, t, ht, of_decide_eq_true hnext, ?_⟩
  exact Verify.Refuses.of_eq_true hrefuses

/-- With `T = Nat`, `g = \(p : Nat * Nat). 0` and `k : T * T -> Nat = g`, the term of `k` does not
mention `T`. After `T = Bool` the elaborator still accepts `k (0, 0)`, and puts the type `T * T`
into it. -/
theorem Session.verify_refuses_pair :
    ∃ s : Session, s.Built ∧ s.RefusesTerm (.app (.var "k") .expl (.pair (.nat 0) (.nat 0))) :=
  refuses_of_run
    [⟨"T", false, none, .prim .nat⟩,
      ⟨"g", false, none,
        .abs .expl false "p" (some (.sigma false .underscore (.prim .nat) (.prim .nat))) (.nat 0)⟩,
      ⟨"k", false,
        some (.pi .expl false .underscore (.sigma false .underscore (.var "T") (.var "T"))
          (.prim .nat)), .var "g"⟩]
    [⟨"T", false, none, .prim .bool⟩] _ (by decide +kernel)

/-- With `T = Nat`, `z : T = 0` and `h : Bool -> Nat`, let `T = Bool` replace `T`. Then the
elaborator accepts `h (z : T)`: `z` still has the type `T`, and `T` is `Bool`. For the verifier `z`
has the type `Nat`. -/
theorem Session.verify_refuses_annotation :
    ∃ s : Session, s.Built ∧ s.RefusesTerm (.app (.var "h") .expl (.ann (.var "z") (.var "T"))) :=
  refuses_of_run
    [⟨"T", false, none, .prim .nat⟩, ⟨"z", false, some (.var "T"), .nat 0⟩,
      ⟨"h", false, none, .abs .expl false "b" (some (.prim .bool)) (.nat 0)⟩]
    [⟨"T", false, none, .prim .bool⟩] _ (by decide +kernel)

end Elaborator
