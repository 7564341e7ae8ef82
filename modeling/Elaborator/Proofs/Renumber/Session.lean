import Elaborator.Proofs.Renumber.Elaborate
import Elaborator.Proofs.Renumber.Verify
import Elaborator.Proofs.Session.History

/-! # Independence of the history

Metavariables are numbered through the whole session, and the store of the last elaboration stays in
it. Neither has an influence on what a term means: `Session.typecheck_history_independent` compares
two sessions with the same settings and definitions, of which one may have checked any number of
terms more. Both accept the same terms with the same result. Both refuse a term with the same error,
except that the metavariables in it have other numbers.

Elaboration begins with a reset, so from there on both stores know the same at different numbers
(`Session.Moved`). The answer of an elaboration mentions no metavariables, and so the stores do not
matter after it. -/

namespace Elaborator

open Elaborator.Action

/-- The same settings and definitions, and stores that know the same. The definitions mention no
metavariables. -/
structure Session.Moved (d : Nat) (s s' : Session) : Prop where
  framed : s.Framed s'
  metaFree : s.globals.MetaFree
  metas : s.metas.Moved d d s'.metas

/-! ## Two runs of commands -/

namespace Command

variable {α β : Type} {d : Nat} {R : α → α → Prop} {S : β → β → Prop} {s s' : Session}

inductive Ended (d : Nat) (R : α → α → Prop) :
    EStateM.Result Failure Session α → EStateM.Result Failure Session α → Prop
  | ok {a b : α} {s s' : Session} (answer : R a b) (session : s.Moved d s') :
      Ended d R (.ok a s) (.ok b s')
  | error {e e' : Failure} (failure : e' = e.renumber d) (s s' : Session) :
      Ended d R (.error e s) (.error e' s')

namespace Ended

/-- Two sequences end alike when their first commands do and the rest does from there. -/
theorem bind {x y : Command α} {f g : α → Command β} (hx : Ended d R (x s) (y s'))
    (hf : ∀ a b t t', R a b → t.Moved d t' → Ended d S (f a t) (g b t')) :
    Ended d S ((x >>= f) s) ((y >>= g) s') := by
  show Ended d S (EStateM.bind x f s) (EStateM.bind y g s')
  unfold EStateM.bind
  generalize x s = u at hx ⊢
  generalize y s' = v at hx ⊢
  cases hx with
  | ok h hs => exact hf _ _ _ _ h hs
  | error h => exact .error h _ _

theorem get (hs : s.Moved d s') :
    Ended d (Session.Moved d) ((get : Command Session) s) ((get : Command Session) s') := .ok hs hs

/-- The same computation without state. -/
theorem lift {r q : Except Fault α} (h : q = r) (hs : s.Moved d s') :
    Ended d Eq ((liftM r : Command α) s) ((liftM q : Command α) s') := by
  subst h
  cases q with
  | ok a => exact .ok rfl hs
  | error f => exact .error rfl _ _

theorem run {x y : Action α} (hs : s.Framed s') (hfree : s.globals.MetaFree)
    (h : Action.Ended d d R (x { metas := s.metas, holes := [], log := s.log })
      (y { metas := s'.metas, holes := [], log := s'.log })) :
    Ended d R (Session.run x s) (Session.run y s') := by
  unfold Session.run
  generalize x { metas := s.metas, holes := [], log := s.log } = u at h ⊢
  generalize y { metas := s'.metas, holes := [], log := s'.log } = v at h ⊢
  cases h with
  | ok h ht => exact .ok h ⟨⟨hs.config, hs.globals⟩, hfree, ht.metas⟩
  | error h => exact .error h _ _

end Ended

end Command

/-! ## Checking a term -/

namespace Session

open Command

variable {d : Nat} {s s' : Session} (fuel : Nat)

/-- Elaboration gives the same, whatever the stores know. -/
theorem elaborateAs_ended (hs : s.Framed s') (hfree : s.globals.MetaFree)
    (hnext : s'.metas.next = s.metas.next + d) (erased : Bool) (tm : Surface) :
    Ended d SameClosed (elaborateAs fuel erased tm s) (elaborateAs fuel erased tm s') := by
  refine .run hs hfree ?_
  rw [hs.config, hs.globals]
  exact elaborate_ended hfree fuel erased tm hnext

/-- Verification has metavariables of its own, and it is about a term that mentions none. -/
theorem verifyAs_ended (hs : s.Moved d s') (erased : Bool) {term : Term}
    (hterm : term.metaOccurrences = []) {ty : Val} (hty : ty.Fixed) :
    Ended d Eq (verifyAs fuel erased term ty s) (verifyAs fuel erased term ty s') := by
  refine .run hs.framed hs.metaFree ?_
  rw [hs.framed.globals]
  have hstate : State.Moved d d { metas := s.metas, holes := [], log := s.log }
      { metas := s'.metas, holes := [], log := s'.log } := ⟨hs.metas, rfl⟩
  have hkind (e : Error) : Error.verification (e.renumber d) = (Error.verification e).renumber d :=
    rfl
  refine (InStep.mapError hkind (.isolated ?_)).ends _ _ hstate
  refine (verify_tracks hs.metaFree erased hterm).bind fun r => ?_
  exact (sameType_tracks hs.metaFree r.1 hty).bind fun _ => .pure rfl

/-- Checking what was elaborated once more ends alike in both sessions. -/
theorem verifyIfAsked_ended (hs : s.Moved d s') (erased : Bool) {term : Term}
    (hterm : term.metaOccurrences = []) {ty : Val} (hty : ty.Fixed) :
    Ended d Eq (verifyIfAsked fuel erased term ty s) (verifyIfAsked fuel erased term ty s') := by
  refine (Ended.get hs).bind fun u u' t t' hu ht => ?_
  rw [hu.framed.config]
  split
  · exact (verifyAs_ended fuel ht erased hterm hty).bind fun e e' _ _ h => .ok (congrArg some h)
  · exact .ok rfl ht

/-- Type checking a term ends alike in two sessions whose metavariables are `d` apart. -/
theorem typecheck_ended (hs : s.Framed s') (hfree : s.globals.MetaFree)
    (hnext : s'.metas.next = s.metas.next + d) (tm : Surface) :
    Ended d Eq (typecheck fuel tm s) (typecheck fuel tm s') := by
  refine (elaborateAs_ended fuel hs hfree hnext false tm).bind fun r r' t t' hr ht => ?_
  obtain ⟨rfl, hterm, hty⟩ := hr
  refine (verifyIfAsked_ended fuel ht false hterm hty).bind fun e e' t t' he ht => ?_
  obtain rfl := he
  refine (Ended.get ht).bind fun u u' t t' hu ht => ?_
  rw [hu.framed.config, hu.framed.globals]
  have hnormal :=
    Term.normalize_eq fuel hu.metaFree.env_renumber hterm u.config.fullNorm u'.metas u.metas
  refine (Ended.lift hnormal ht).bind fun normal normal' t t' hnormal ht => ?_
  refine (Ended.lift (hty.quote_eq false 0 u'.metas u.metas) ht).bind fun ty ty' _ _ hty => .ok ?_
  rw [hnormal, hty]

end Session

/-! ## The outcome -/

/-- The second error is the first one with `d` added to every metavariable, and so is its
message. -/
def Error.Shifted (d : Nat) (e e' : Error) : Prop :=
  e' = e.renumber d ∧ e'.message = MarkedText.renumber d <$> e.message

/-- The same error in a session whose next metavariable is `?a` and in one whose next metavariable
is `?b`: the numbers of the metavariables in it differ by as much as `a` and `b`. -/
def Error.Agrees (a b : Nat) (e e' : Error) : Prop :=
  (a ≤ b ∧ e.Shifted (b - a) e') ∨ (b ≤ a ∧ e'.Shifted (a - b) e)

/-- The same outcome of a command in such sessions. -/
inductive Command.SameOutcome {α : Type} (a b : Nat) :
    EStateM.Result Failure Session α → EStateM.Result Failure Session α → Prop
  | ok (x : α) (s s' : Session) : SameOutcome a b (.ok x s) (.ok x s')
  | error {e e' : Error} (h : e.Agrees a b e') (s s' : Session) :
      SameOutcome a b (.error (.error e) s) (.error (.error e') s')
  | fault (f : Fault) (s s' : Session) :
      SameOutcome a b (.error (.fault f) s) (.error (.fault f) s')

namespace Command

variable {α : Type} {a b : Nat} {u v : EStateM.Result Failure Session α}

theorem SameOutcome.symm (h : SameOutcome a b u v) : SameOutcome b a v u := by
  cases h with
  | ok x s s' => exact .ok x s' s
  | error h s s' => exact .error (Or.symm h) s' s
  | fault f s s' => exact .fault f s' s

/-- Runs that end alike up to a renumbering have the same outcome. -/
theorem Ended.sameOutcome (hab : a ≤ b) (h : Ended (b - a) Eq u v) : SameOutcome a b u v := by
  cases h with
  | ok h hs =>
    subst h
    exact .ok _ _ _
  | @error e e' h s s' =>
    subst h
    cases e with
    | error e => exact .error (.inl ⟨hab, rfl, e.message_renumber⟩) s s'
    | fault f => exact .fault f s s'

end Command

/-- **History independence.** Take two sessions with the same settings and the same definitions,
which mention no metavariables. They may differ in what they know about metavariables and in the
next number. A term is accepted in one of them exactly if it is accepted in the other one, and
everything that is found out about it is the same. If it is refused, then the errors are the same up
to the numbers of metavariables, which differ by the difference of the next numbers, in texts as
well. -/
theorem Session.typecheck_history_independent (fuel : Nat) (tm : Surface) {s₁ s₂ : Session}
    (hconfig : s₁.config = s₂.config) (hglobals : s₁.globals = s₂.globals)
    (hfree : s₁.globals.MetaFree) :
    Command.SameOutcome s₁.metas.next s₂.metas.next (typecheck fuel tm s₁)
      (typecheck fuel tm s₂) := by
  rcases Nat.le_total s₁.metas.next s₂.metas.next with hle | hle
  · have hnext := (Nat.add_sub_of_le hle).symm
    exact (typecheck_ended fuel ⟨hconfig.symm, hglobals.symm⟩ hfree hnext tm).sameOutcome hle
  · have hnext := (Nat.add_sub_of_le hle).symm
    exact ((typecheck_ended fuel ⟨hconfig, hglobals⟩ (hglobals ▸ hfree) hnext tm).sameOutcome
      hle).symm

/-- The error about `\x. ?h` shows the type of the hole, which is a metavariable, and another one in
the second attempt. -/
theorem Session.typecheck_repeated :
    let f : Def := ⟨"f", false, none, .abs .expl false "x" (some (.prim .nat)) (.var "x")⟩
    let tm : Surface := .abs .expl false "x" none (.hole (some "h") false)
    let s := (define 20 [f]).after (.new {})
    let t := (typecheck 20 tm).after s
    s.metas.next = 0 ∧ t.metas.next = 3 ∧ ((typecheck 20 tm).run' s).isNone ∧
      Command.SameOutcome 0 3 (typecheck 20 tm s) (typecheck 20 tm t) := by
  intro f tm s t
  have hs : s.metas.next = 0 := by decide +kernel
  have ht : t.metas.next = 3 := by decide +kernel
  have hframed : s.Framed t := typecheck_frames 20 tm s
  have hfree : s.globals.MetaFree := ⟨by decide +kernel, by decide +kernel⟩
  refine ⟨hs, ht, by decide +kernel, ?_⟩
  rw [← hs, ← ht]
  exact typecheck_history_independent 20 tm hframed.config.symm hframed.globals.symm hfree

end Elaborator
