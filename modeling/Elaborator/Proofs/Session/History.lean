import Elaborator.Proofs.Run
import Elaborator.Proofs.Scope.Elaborate

/-! # Histories of a session

A session goes through a sequence of operations, some of which fail, and a failed one may have done
a part of its work. `Op.after_effect` says once and for all what an operation can do to the
definitions, however it ends. An invariant of all histories then needs to be shown for one added
definition and for one removed definition (`Session.Reached.globals_induct`). -/

namespace Elaborator

open Elaborator.Action

structure Session.Framed (s t : Session) : Prop where
  config : t.config = s.config
  globals : t.globals = s.globals

namespace Session.Framed

theorem rfl {s : Session} : s.Framed s := ⟨Eq.refl _, Eq.refl _⟩

theorem trans {s t u : Session} (h : s.Framed t) (h' : t.Framed u) : s.Framed u :=
  ⟨h'.config.trans h.config, h'.globals.trans h.globals⟩

end Session.Framed

/-! ## Runs of commands

A command is a sequence of actions, so its runs are taken apart in the same way. -/

namespace Command

variable {α β : Type}

def after (x : Command α) (s : Session) : Session :=
  match x s with
  | .ok _ t => t
  | .error _ t => t

theorem bind_eq_ok {x : Command α} {f : α → Command β} {b : β} {s t : Session}
    (h : (x >>= f) s = .ok b t) : ∃ a u, x s = .ok a u ∧ f a u = .ok b t := by
  change EStateM.bind x f s = _ at h
  unfold EStateM.bind at h
  cases hx : x s with
  | ok a u =>
    rw [hx] at h
    exact ⟨a, u, rfl, h⟩
  | error e u =>
    rw [hx] at h
    cases h

/-- An answer comes with the session after it. -/
theorem ok_of_run {x : Command α} {a : α} {s : Session} (h : x.run' s = some a) :
    ∃ t, x s = .ok a t :=
  Action.ok_of_run h

/-- The session is read without a change. -/
theorem bind_get_ok {f : Session → Command β} {b : β} {s t : Session}
    (h : (get >>= f) s = .ok b t) : f s s = .ok b t := h

theorem lift_eq_ok {r : Except Fault α} {a : α} {s t : Session}
    (h : (liftM r : Command α) s = .ok a t) : r = .ok a ∧ t = s := by
  cases r with
  | ok b =>
    cases h
    exact ⟨rfl, rfl⟩
  | error f => cases h

theorem after_of_ok {x : Command α} {a : α} {s t : Session} (h : x s = .ok a t) :
    x.after s = t := by
  rw [after, h]

/-- A sequence ends where its first part fails, or else where its second part ends. -/
theorem after_bind {P : Session → Prop} {x : Command α} {f : α → Command β} {s : Session}
    (hx : P (x.after s)) (hf : ∀ a t, x s = .ok a t → P t → P ((f a).after t)) :
    P ((x >>= f).after s) := by
  have unfolded : (x >>= f) s = EStateM.bind x f s := rfl
  simp only [after, unfolded, EStateM.bind] at hx ⊢
  cases hs : x s with
  | ok a t =>
    rw [hs] at hx
    exact hf a t hs hx
  | error e t =>
    rw [hs] at hx
    exact hx

/-- The command leaves the settings and the definitions as they are, however it ends. -/
def Frames (x : Command α) : Prop := ∀ s : Session, s.Framed (x.after s)

namespace Frames

theorem pure (a : α) : Frames (pure a : Command α) := fun _ => .rfl

theorem get : Frames (get : Command Session) := fun _ => .rfl

theorem refuse (e : Error) : Frames (Session.refuse e : Command α) := fun _ => .rfl

theorem lift (r : Except Fault α) : Frames (liftM r : Command α) := by
  intro s
  cases r with
  | ok a => exact .rfl
  | error f => exact .rfl

theorem run (x : Action α) : Frames (Session.run x) := by
  intro s
  rw [after, Session.run]
  cases x { metas := s.metas, holes := [], log := s.log } with
  | ok a t => exact ⟨rfl, rfl⟩
  | error e t => exact ⟨rfl, rfl⟩

theorem bind {x : Command α} {f : α → Command β} (hx : Frames x) (hf : ∀ a, Frames (f a)) :
    Frames (x >>= f) :=
  fun s => after_bind (P := s.Framed) (hx s) fun a t _ ht => ht.trans (hf a t)

theorem ite {c : Prop} [Decidable c] {x y : Command α} (hx : Frames x) (hy : Frames y) :
    Frames (if c then x else y) := by
  split
  · exact hx
  · exact hy

/-- A command that frames leaves the definitions and the settings as they were. -/
theorem of_ok {x : Command α} (hx : Frames x) {a : α} {s t : Session} (h : x s = .ok a t) :
    s.Framed t := by
  have hframe := hx s
  rw [after_of_ok h] at hframe
  exact hframe

end Frames

end Command

namespace Session

open Command

variable {s t : Session} (fuel : Nat)

/-- Elaborating a term leaves the definitions and the settings as they were. -/
theorem elaborateAs_frames (erased : Bool) (tm : Surface) : Frames (elaborateAs fuel erased tm) :=
  .bind .get fun _ => .run _

/-- Verifying a term leaves the definitions and the settings as they were. -/
theorem verifyAs_frames (erased : Bool) (term : Term) (ty : Val) :
    Frames (verifyAs fuel erased term ty) :=
  .bind .get fun _ => .run _

theorem verifyIfAsked_frames (erased : Bool) (term : Term) (ty : Val) :
    Frames (verifyIfAsked fuel erased term ty) :=
  .bind .get fun _ => .ite (.bind (verifyAs_frames _ _ _ _) fun _ => .pure _) (.pure _)

/-- Checking the type of a term leaves the definitions and the settings as they were. -/
theorem typecheck_frames (tm : Surface) : Frames (typecheck fuel tm) :=
  .bind (elaborateAs_frames _ _ _) fun _ => .bind (verifyIfAsked_frames _ _ _ _) fun _ =>
      .bind .get fun _ =>
    .bind (.lift _) fun _ => .bind (.lift _) fun _ => .pure _

theorem checkFree_frames (x : Name) : Frames (checkFree x) := by
  refine .bind .get fun s => .ite (.ite ?_ (.refuse _)) (.pure _)
  split
  · exact .refuse _
  · exact .pure _

/-- A name may be defined if it is not defined yet, or if redefinition is allowed and nothing else
uses it. -/
theorem checkFree_eq_ok {x : Name} (h : checkFree x s = .ok () t) :
    t = s ∧ (s.globals.contains x = true →
      s.config.allowRedefinition = true ∧ s.globals.dependents x = []) := by
  have h := Command.bind_get_ok h
  by_cases hdefined : s.globals.contains x = true
  · rw [if_pos hdefined] at h
    by_cases hallowed : s.config.allowRedefinition = true
    · rw [if_pos hallowed] at h
      cases hused : s.globals.dependents x with
      | nil =>
        rw [hused] at h
        cases h
        exact ⟨rfl, fun _ => ⟨hallowed, rfl⟩⟩
      | cons user rest =>
        rw [hused] at h
        cases h
    · rw [if_neg hallowed] at h
      cases h
  · rw [if_neg hdefined] at h
    cases h
    exact ⟨rfl, fun h => absurd h hdefined⟩

/-- An action that a session runs starts with the session's store and log and leaves its store
behind. -/
theorem run_eq_ok {α : Type} {x : Action α} {a : α} (h : Session.run x s = .ok a t) :
    ∃ u, x { metas := s.metas, holes := [], log := s.log } = .ok a u ∧ t.metas = u.metas := by
  unfold Session.run at h
  split at h
  · next b u hx =>
    cases h
    exact ⟨u, hx, rfl⟩
  · cases h

variable {fuel}

/-- What a session elaborates comes from a run of the elaborator over its definitions. -/
theorem elaborateAs_eq_ok {erased : Bool} {tm : Surface} {r : Term × Val}
    (h : elaborateAs fuel erased tm s = .ok r t) :
    ∃ u, elaborate fuel ⟨s.config, s.globals⟩ erased tm
      { metas := s.metas, holes := [], log := s.log } = .ok r u ∧ t.metas = u.metas :=
  run_eq_ok (Command.bind_get_ok h)

/-- What was verified has a type. -/
theorem verifyIfAsked_eq_ok {erased : Bool} {term : Term} {ty : Val} {e : Option Erased}
    (h : verifyIfAsked fuel erased term ty s = .ok e t) (hverify : s.config.verify = true) :
    ∃ u r v, verify fuel s.globals erased term u = .ok r v := by
  have h := Command.bind_get_ok h
  rw [if_pos hverify] at h
  obtain ⟨e', s₁, hverified, -⟩ := Command.bind_eq_ok h
  obtain ⟨u, hu, -⟩ := run_eq_ok (Command.bind_get_ok hverified)
  have hisolated := mapError_eq_ok.1 hu
  unfold Action.isolated at hisolated
  split at hisolated
  · next hx =>
    obtain ⟨r, v, hr, -⟩ := Action.bind_eq_ok.1 hx
    exact ⟨_, r, v, hr⟩
  · cases hisolated

end Session

/-! ## What an operation does -/

/-- The definition `d` of `x` may be added to definitions, under these settings. -/
structure Globals.Adds (config : Config) (g : Globals) (x : Name) (d : Definition) : Prop where
  free : g.contains x = true → config.allowRedefinition = true ∧ g.dependents x = []
  elaborated : g.Ground → Elaborated g (d.term, d.ty)
  verified : config.verify = true → ∃ fuel erased s r t, verify fuel g erased d.term s = .ok r t
  evaluated : ∃ fuel, d.term.eval fuel g.env = .ok d.val

inductive Op
  | define (defs : List Def)
  | delete (x : Name)
  | clear
  | typecheck (tm : Surface)
  | elaborate (tm : Surface)
  | configure (config : Config)

def Op.after (fuel : Nat) (s : Session) : Op → Session
  | .define defs => (Session.define fuel defs).after s
  | .delete x => (Session.delete x).after s
  | .clear => Session.clear.after s
  | .typecheck tm => (Session.typecheck fuel tm).after s
  | .elaborate tm => (Session.elaborateAs fuel false tm).after s
  | .configure config => { s with config }

/-- What an operation can make of the definitions `g`. -/
inductive Op.Effect (config : Config) (g : Globals) : Op → Globals → Prop
  | keep {op : Op} : Effect config g op g
  | add {defs : List Def} {h : Globals} {x : Name} {d : Definition}
      (before : Effect config g (.define defs) h) (new : h.Adds config x d) :
      Effect config g (.define defs) (h.insert x d)
  | erase {x : Name} (unused : g.dependents x = []) : Effect config g (.delete x) (g.erase x)
  | clear : Effect config g .clear .empty

/-- What holds of the definitions and is kept at each step of an operation holds afterwards. -/
theorem Op.Effect.keeps {I : Globals → Prop} {config : Config} {g h : Globals} {op : Op}
    (heffect : op.Effect config g h) (start : I g)
    (add : ∀ {k x d}, I k → k.Adds config x d → I (k.insert x d))
    (erase : ∀ {x}, op = .delete x → g.dependents x = [] → I (g.erase x))
    (clear : op = .clear → I .empty) : I h := by
  induction heffect with
  | keep => exact start
  | add _ new ih => exact add (ih (fun h => nomatch h) fun h => nomatch h) new
  | erase unused => exact erase rfl unused
  | clear => exact clear rfl

namespace Session

open Command

variable (fuel : Nat) (s : Session)

/-- A definition is added, or everything stays as it is. -/
theorem defineOne_adds (d : Def) :
    ((defineOne fuel d).after s).config = s.config ∧
      (((defineOne fuel d).after s).globals = s.globals ∨
        ∃ e, s.globals.Adds s.config d.name e ∧ ((defineOne fuel d).after s).globals =
          s.globals.insert d.name e) := by
  let Done (t : Session) : Prop := t.config = s.config ∧
    (t.globals = s.globals ∨ ∃ e,
      s.globals.Adds s.config d.name e ∧ t.globals = s.globals.insert d.name e)
  have kept : ∀ {t : Session}, s.Framed t → Done t := fun h => ⟨h.config, .inl h.globals⟩
  -- Whichever step fails, the definitions were not touched yet: only the last step stores
  -- something.
  refine after_bind (P := Done) (kept (checkFree_frames d.name s)) fun _ s₁ hfree _ => ?_
  obtain ⟨rfl, hfree⟩ := checkFree_eq_ok hfree
  have helabs := elaborateAs_frames fuel d.erased d.surface
  refine after_bind (P := Done) (kept (helabs s₁)) fun r s₂ helab _ => ?_
  have hs₂ := helabs.of_ok helab
  have hverifies := verifyIfAsked_frames fuel d.erased r.1 r.2
  refine after_bind (P := Done) (kept (hs₂.trans (hverifies s₂))) fun e s₃ hverify _ => ?_
  have hs₃ := hs₂.trans (hverifies.of_ok hverify)
  refine after_bind (P := Done) (x := get) (kept hs₃) fun _ _ hget _ => ?_
  cases hget
  refine after_bind (P := Done) (kept (hs₃.trans (Frames.lift _ s₃))) fun val s₄ hval _ => ?_
  obtain ⟨hval, rfl⟩ := lift_eq_ok hval
  refine ⟨hs₃.config,
    .inr ⟨⟨r.1, val, r.2, d.erased, e⟩, ⟨hfree, fun hg => ?_, fun hask => ?_, fuel, ?_⟩, ?_⟩⟩
  · obtain ⟨u, hu, -⟩ := elaborateAs_eq_ok helab
    exact ((elaborate_ends _ hg fuel d.erased d.surface _).2 _ _ hu).2
  · obtain ⟨u, q, v, hq⟩ := verifyIfAsked_eq_ok hverify (hs₂.config ▸ hask)
    rw [hs₂.globals] at hq
    exact ⟨fuel, d.erased, u, q, v, hq⟩
  · rw [← hs₃.globals]
    exact hval
  · exact congrArg (fun g : Globals => g.insert d.name _) hs₃.globals

/-- Definitions are added one by one, until one fails. -/
theorem define_effect (defs : List Def) :
    Op.Effect s.config s.globals (.define defs) ((define fuel defs).after s).globals := by
  let Done (t : Session) : Prop :=
    t.config = s.config ∧ Op.Effect s.config s.globals (.define defs) t.globals
  -- A definition that fails ends the batch, and those before it stay.
  have hone : ∀ d t, Done t → Done ((defineOne fuel d).after t) := by
    rintro d t ⟨hconfig, ht⟩
    obtain ⟨hconfig', hadds⟩ := defineOne_adds fuel t d
    rw [hconfig] at hconfig' hadds
    refine ⟨hconfig', ?_⟩
    rcases hadds with hsame | ⟨e, hnew, hinsert⟩
    · rw [hsame]
      exact ht
    · rw [hinsert]
      exact .add ht hnew
  have hall : ∀ (ds : List Def) (t : Session), Done t →
      Done ((ds.forM (defineOne fuel)).after t) := by
    intro ds
    induction ds with
    | nil => exact fun t ht => ht
    | cons d ds ih => exact fun t ht => after_bind (P := Done) (hone d t ht) fun _ u _ hu => ih u hu
  have hstart : Done s := ⟨rfl, .keep⟩
  have hadded : Done
      ((defs.forM (defineOne fuel) >>= fun _ => pure (defs.map (·.name)) : Command _).after s) :=
    after_bind (P := Done) (hall defs s hstart) fun _ _ _ hu => hu
  have hdone : Done ((define fuel defs).after s) := by
    refine after_bind (P := Done) (x := get) hstart fun _ _ hget _ => ?_
    cases hget
    by_cases hallowed : (!s.config.allowRedefinition) = true
    · rw [if_pos hallowed]
      cases defs.find? fun d => s.globals.contains d.name with
      | some d => exact hstart
      | none => exact hadded
    · rw [if_neg hallowed]
      exact hadded
  exact hdone.2

/-- A definition is removed if no other one uses it. -/
theorem delete_effect (x : Name) :
    Op.Effect s.config s.globals (.delete x) ((delete x).after s).globals := by
  refine after_bind (P := fun t => Op.Effect s.config s.globals (.delete x) t.globals) (x := get)
    .keep fun _ _ hget _ => ?_
  cases hget
  by_cases hdefined : s.globals.contains x = true
  · rw [if_pos hdefined]
    cases hused : s.globals.dependents x with
    | cons user rest => exact .keep
    | nil => exact .erase hused
  · rw [if_neg hdefined]
    exact .keep

end Session

/-- **What an operation does to the definitions**, whether it succeeds or fails. -/
theorem Op.after_effect (fuel : Nat) (s : Session) (op : Op) :
    op.Effect s.config s.globals (op.after fuel s).globals := by
  have kept : ∀ {t : Session}, s.Framed t → op.Effect s.config s.globals t.globals := by
    intro t ht
    rw [ht.globals]
    exact .keep
  cases op with
  | define defs => exact Session.define_effect fuel s defs
  | delete x => exact Session.delete_effect s x
  | clear => exact .clear
  | typecheck tm => exact kept (Session.typecheck_frames fuel tm s)
  | elaborate tm => exact kept (Session.elaborateAs_frames fuel false tm s)
  | configure config => exact .keep

/-! ## Histories -/

/-- A session that a new one has become by operations, each of which was allowed when it was
done. -/
inductive Session.Reached (allowed : Session → Op → Prop) : Session → Prop
  | new (config : Config) : Reached allowed (.new config)
  | step {s : Session} {op : Op} (before : s.Reached allowed) (fuel : Nat) (hop : allowed s op) :
      Reached allowed (op.after fuel s)

/-- The value and the type of a new definition are closed and free of metavariables if those of the
others are. -/
theorem Globals.Ground.add {config : Config} {g : Globals} (hg : g.Ground) {x : Name}
    {d : Definition} (hnew : g.Adds config x d) : (g.insert x d).Ground := by
  intro e he
  rcases Globals.mem_entries_insert he with rfl | he
  · obtain ⟨hterm, q, f, hq, hty⟩ := hnew.elaborated hg
    obtain ⟨fuel, hval⟩ := hnew.evaluated
    exact ⟨(hg.eval_safely hterm fuel).answer d.val hval, (hg.eval_safely hq f).answer d.ty hty⟩
  · exact hg e he

theorem Globals.Ground.erase {g : Globals} (hg : g.Ground) (x : Name) : (g.erase x).Ground :=
  fun e he => hg e (Globals.mem_entries_erase he)

/-- What holds without definitions, and is kept when one is added or removed, holds of the
definitions all along. -/
theorem Session.Reached.globals_induct {allowed : Session → Op → Prop} {I : Globals → Prop}
    (empty : I .empty)
    (add : ∀ {s op g x d}, allowed s op → g.Ground → g.Consistent → I g → g.Adds s.config x d →
      I (g.insert x d))
    (erase : ∀ {s x}, allowed s (.delete x) → s.globals.Consistent → I s.globals →
      s.globals.dependents x = [] → I (s.globals.erase x))
    {s : Session} (h : s.Reached allowed) :
    s.globals.Ground ∧ s.globals.Consistent ∧ I s.globals := by
  induction h with
  | new config => exact ⟨.empty, .empty, empty⟩
  | @step s op _ fuel hop ih =>
    refine (op.after_effect fuel s).keeps (I := fun g => g.Ground ∧ g.Consistent ∧ I g) ih ?_ ?_
      fun _ => ⟨.empty, .empty, empty⟩
    · rintro g x d ⟨hground, hconsistent, hg⟩ hnew
      exact ⟨hground.add hnew, hconsistent.insert x d, add hop hground hconsistent hg hnew⟩
    · rintro x rfl hunused
      obtain ⟨hground, hconsistent, hg⟩ := ih
      exact ⟨hground.erase x, hconsistent.erase x, erase hop hconsistent hg hunused⟩

section

variable {allowed : Session → Op → Prop} {s : Session}

/-- The definitions of a session that is reached are ground. -/
theorem Session.Reached.ground (h : s.Reached allowed) : s.globals.Ground :=
  (h.globals_induct (I := anything) trivial (fun _ _ _ _ _ => trivial) fun _ _ _ _ => trivial).1

/-- The names of the definitions are listed, and nothing else is. -/
theorem Session.Reached.consistent (h : s.Reached allowed) : s.globals.Consistent :=
  (h.globals_induct (I := anything) trivial (fun _ _ _ _ _ => trivial) fun _ _ _ _ => trivial).2.1

end

end Elaborator
