import Elaborator.Proofs.Modes.Unsolving

/-! # Convertible values

Conversion has an answer for two values only if it has one for the parts that it compares
(`Comparison.converts`). It treats metavariables like constants, so what is convertible to something
stuck on a metavariable has that metavariable in it: it is stuck on it as well, or it is a function
or a pair made of things that are (`Answers.occurs`). Globals are an exception, because the
metavariable may only show when they are unfolded. -/

namespace Elaborator

open Elaborator.Action

/-! ## Answers of conversion -/

namespace Action

variable {α : Type} {M : Event → Prop} {σ : MetaId → Option Val} {P : Prop} {x : Action α}
  {Q : α → Prop} {E : Error → Prop}

/-- From some state with the solutions `σ` the action has an answer, without an event of the kind
`M`. -/
def Answers (M : Event → Prop) (σ : MetaId → Option Val) (x : Action α) : Prop :=
  ∃ s a t, s.metas.lookup = σ ∧ x s = .ok a t ∧ ¬ s.Notes M t

theorem Barring.answers (hx : Barring M σ P x Q E) :
    Barring M σ P x (fun _ => Answers M σ x) E where
  follows := hx.follows
  ok hP hs hst hquiet := ⟨(hx.ok hP hs hst hquiet).1, _, _, _, hs, hst, hquiet⟩
  error := hx.error

/-- What holds of every quiet run of an action holds as soon as it has one. -/
theorem Answers.elim {R : Prop} (h : Answers M σ x) (hx : Barring M σ True x (fun _ => R) E) :
    R := by
  obtain ⟨s, a, t, hs, hst, hquiet⟩ := h
  exact (hx.ok trivial hs hst hquiet).2

theorem not_answers_fault {f : Fault} : ¬ Answers M σ (throw (.fault f) : Action α) :=
  fun h => h.elim (E := anything) (.fault f)

/-- A mismatch never answers. -/
theorem not_answers_mismatch {fuel size : Nat} {a b : Val} :
    ¬ Answers M σ (mismatch fuel size a b) :=
  fun h => h.elim (mismatch_barring ..)

end Action

section

variable {M : Event → Prop} {σ : MetaId → Option Val} {g : Globals}

/-- A run of rigid unification without barred events is itself an answer, and fails only where the
values differ. -/
theorem unify_rigid_answers {P : Prop} (fuel size : Nat) (a b : Val) :
    Barring M σ P (unify fuel .rigid g size a b)
      (fun _ => Answers M σ (unify fuel .rigid g size a b)) Error.Differs :=
  (Barring.of_looks ((unify_looks ..).imp (fun _ => id) fun _ _ => trivial)
    fun _ => unify_looks ..).answers

theorem unifySpines_rigid_answers {P : Prop} (fuel size : Nat) (a b : Val) (sa sb : Spine) :
    Barring M σ P (unifySpines (unify fuel .rigid g size) (mismatch fuel size a b) sa sb)
      (fun _ => Answers M σ (unifySpines (unify fuel .rigid g size) (mismatch fuel size a b) sa sb))
        Error.Differs := by
  have looks {τ : MetaId → Option Val} :=
    unifySpines_looks (σ := τ) (unify_looks (g := g) fuel size) fuel size a b sa sb
  exact (Barring.of_looks (looks.imp (fun _ => id) fun _ _ => trivial) fun _ => looks).answers

/-- What is known about the parts of two forced values that are convertible, for each way to compare
them. -/
def Comparison.Converts (M : Event → Prop) (σ : MetaId → Option Val) (g : Globals)
    (fuel size : Nat) (a b : Val) : Comparison → Prop
  | .equal | .solve .. => True
  | .mismatch => False
  | .binders c d =>
    (c.binder.kind.isLam = false → Answers M σ (unify fuel .rigid g size c.dom d.dom)) ∧
      ∀ f x y, c.enter f size = .ok x → d.enter f size = .ok y →
        Answers M σ (unify fuel .rigid g (size + 1) x y)
  | .pairs x y z w =>
    Answers M σ (unify fuel .rigid g size x z) ∧ Answers M σ (unify fuel .rigid g size y w)
  | .numeral n pred => Answers M σ (unify fuel .rigid g size (.nat n) pred)
  | .spines sa sb =>
    Answers M σ (unifySpines (unify fuel .rigid g size) (Elaborator.mismatch fuel size a b) sa sb)
  | .expandFun c v =>
    ∀ f x y, c.enter f size = .ok x →
      v.eliminate f (.app c.binder.kind.icit (.fresh size)) = .ok y →
      Answers M σ (unify fuel .rigid g (size + 1) x y)
  | .expandPair x y v =>
    (∀ f w, v.eliminate f (.proj .fst) = .ok w → Answers M σ (unify fuel .rigid g size x w)) ∧
      ∀ f w, v.eliminate f (.proj .snd) = .ok w → Answers M σ (unify fuel .rigid g size y w)
  | .sameGlobal sa sb =>
    Answers M σ (unifySpines (unify fuel .rigid g size) (Elaborator.mismatch fuel size a b) sa sb) ∨
      ∀ a' b', a.UnfoldsTo σ a' → b.UnfoldsTo σ b' → Answers M σ (unify fuel .rigid g size a' b')
  | .unfoldLeft => ∀ a', a.UnfoldsTo σ a' → Answers M σ (unify fuel .rigid g size a' b)
  | .unfoldRight => ∀ b', b.UnfoldsTo σ b' → Answers M σ (unify fuel .rigid g size a b')

/-- Conversion has an answer only if it has one for the parts, and it notes which values it
compares. -/
theorem Comparison.converts {fuel size : Nat} {a b a' b' : Val}
    (h : Answers M σ (unify (fuel + 1) .rigid g size a b)) (ha : a.ForcesTo σ a')
    (hb : b.ForcesTo σ b') :
    (∃ ms, ¬ M (.unify ms size a' b')) ∧
      (Comparison.of .rigid a' b').Converts M σ g fuel size a' b' := by
  refine h.elim (E := anything) ?_
  refine (Barring.forceMeta fuel a).bind fun a₁ => (Barring.forceMeta fuel b).bind fun b₁ => ?_
  refine (Barring.emitWith _).bind fun _ => ?_
  -- Forcing gives the same values again.
  refine Barring.imp (P := True)
    (Q := fun _ => (Comparison.of .rigid a₁ b₁).Converts M σ g fuel size a₁ b₁)
    (E := anything) ?_ (fun _ => trivial) (fun h _ hc => ?_) fun _ _ => id
  swap
  · obtain ⟨⟨⟨-, ha₁⟩, hb₁⟩, hquiet⟩ := h
    obtain rfl := ha.unique ha₁
    obtain rfl := hb.unique hb₁
    exact ⟨hquiet, hc⟩
  have part {P : Prop} (n : Nat) (x y : Val) : Barring M σ P (unify fuel .rigid g n x y)
      (fun _ => Answers M σ (unify fuel .rigid g n x y)) anything :=
    (unify_rigid_answers fuel n x y).imp id (fun _ _ => id) fun _ _ _ => trivial
  have spines {P : Prop} (sa sb : Spine) : Barring M σ P
      (unifySpines (unify fuel .rigid g size) (Elaborator.mismatch fuel size a₁ b₁) sa sb)
        (fun _ => Answers M σ
        (unifySpines (unify fuel .rigid g size) (Elaborator.mismatch fuel size a₁ b₁) sa sb))
          anything :=
    (unifySpines_rigid_answers fuel size a₁ b₁ sa sb).imp id (fun _ _ => id) fun _ _ _ => trivial
  cases hc : Comparison.of .rigid a₁ b₁ with
  | equal => exact .pure fun _ => trivial
  | solve m sp rhs => exact absurd hc Comparison.of_rigid_ne_solve
  | mismatch => exact (mismatch_barring ..).imp id (fun _ _ => id) fun _ _ _ => trivial
  | binders c d =>
    have hdoms : Barring M σ True
        (if c.binder.kind.isLam then pure () else unify fuel .rigid g size c.dom d.dom)
        (fun _ => c.binder.kind.isLam = false → Answers M σ (unify fuel .rigid g size c.dom d.dom))
          anything := by
      by_cases hlam : c.binder.kind.isLam = true
      · simp only [hlam, if_true]
        exact .pure fun _ h => nomatch h
      · simp only [hlam]
        exact (part size c.dom d.dom).imp id (fun _ _ h _ => h) fun _ _ => id
    refine hdoms.bind fun _ => ?_
    refine (Barring.lift fun _ _ h => h).bind fun x =>
      (Barring.lift fun _ _ h => h).bind fun y => ?_
    refine (part (size + 1) x y).imp id (fun h _ hxy => ⟨h.1.1.2, fun f x' y' hx' hy' => ?_⟩)
      fun _ _ => id
    obtain rfl := Closure.apply_twice _ _ c (.fresh size) x x' h.1.2 hx'
    obtain rfl := Closure.apply_twice _ _ d (.fresh size) y y' h.2 hy'
    exact hxy
  | pairs x y z w =>
    refine (part size x z).bind fun _ =>
      (part size y w).imp id (fun h _ hyw => ⟨h.2, hyw⟩) fun _ _ => id
  | numeral n pred => exact part ..
  | spines sa sb => exact spines sa sb
  | expandFun c v =>
    refine (Barring.lift fun _ _ h => h).bind fun x =>
      (Barring.lift fun _ _ h => h).bind fun y => ?_
    refine (part (size + 1) x y).imp id (fun h _ hxy f x' y' hx' hy' => ?_) fun _ _ => id
    obtain rfl := Closure.apply_twice _ _ c (.fresh size) x x' h.1.2 hx'
    obtain rfl := Val.eliminate_twice _ _ v _ y y' h.2 hy'
    exact hxy
  | expandPair x y v =>
    refine (Barring.lift fun _ _ h => h).bind fun fst => (part size x fst).bind fun _ => ?_
    refine (Barring.lift fun _ _ h => h).bind fun snd =>
      (part size y snd).imp id (fun h _ hy => ?_) fun _ _ => id
    obtain ⟨⟨⟨-, hfst⟩, hx⟩, hsnd⟩ := h
    refine ⟨fun f w hw => ?_, fun f w hw => ?_⟩
    · obtain rfl := Val.eliminate_twice _ _ v _ fst w hfst hw
      exact hx
    · obtain rfl := Val.eliminate_twice _ _ v _ snd w hsnd hw
      exact hy
  | sameGlobal sa sb =>
    refine (spines sa sb).transaction.bind fun r => ?_
    cases r with
    | ok _ =>
      refine .pure fun h => .inl ?_
      rcases h.2 with ⟨_, -, hspines⟩ | ⟨_, hr, -⟩
      · exact hspines
      · cases hr
    | error e =>
      -- The spines differ, so conversion went on with what the globals stand for.
      refine .ite ?_ (.refuse fun _ => trivial)
      refine (Barring.force fuel a₁).bind fun w => (Barring.force fuel b₁).bind fun u => ?_
      refine (part size w u).imp id (fun h _ hwu => .inr fun a' b' ha' hb' => ?_) fun _ _ => id
      obtain rfl := h.1.2.unique ha'
      obtain rfl := h.2.unique hb'
      exact hwu
  | unfoldLeft =>
    refine (Barring.force fuel a₁).bind fun w =>
      (part size w b₁).imp id (fun h _ hw a' ha' => ?_) fun _ _ => id
    obtain rfl := h.2.unique ha'
    exact hw
  | unfoldRight =>
    refine (Barring.force fuel b₁).bind fun w =>
      (part size a₁ w).imp id (fun h _ hw b' hb' => ?_) fun _ _ => id
    obtain rfl := h.2.unique hb'
    exact hw

end

/-! ## Occurrences -/

def Val.IsGlued : Val → Prop
  | .glued .. => True
  | _ => False

def Event.MeetsGlobal : Event → Prop
  | .unify _ _ a b => a.IsGlued ∨ b.IsGlued
  | _ => False

section

variable {σ : MetaId → Option Val} {size : Nat} {t : Term} {m : MetaId}

/-- A metavariable at the head of a spine occurs in the term that the spine reads back to. -/
theorem Spine.occurs_of_quote {quote : Val → Except Fault Term} {head : Term} {sp : Spine}
    (h : Spine.quote quote head sp = .ok t) (hm : m ∈ head.metaOccurrences) :
    m ∈ t.metaOccurrences := by
  induction sp generalizing t with
  | nil =>
    cases h
    exact hm
  | cons e sp ih =>
    cases e with
    | app icit x =>
      obtain ⟨u, hu, h⟩ := bind_ok h
      obtain ⟨y, -, h⟩ := bind_ok h
      cases h
      exact List.mem_append_left _ (ih hu)
    | proj p =>
      obtain ⟨u, hu, h⟩ := bind_ok h
      cases h
      show m ∈ u.metaOccurrences
      exact ih hu
    | «cases» e motive cs =>
      obtain ⟨u, hu, h⟩ := bind_ok h
      obtain ⟨y, -, h⟩ := bind_ok h
      obtain ⟨us, -, h⟩ := bind_ok h
      cases h
      exact List.mem_append_left _ (List.mem_append_right _ (ih hu))

/-- What is stuck on an unsolved metavariable stays as it is. -/
theorem Val.ForcesTo.stuck {ms : MetaStore} {sp : Spine} (hm : ms.lookup m = none) :
    (Val.neutral (.metavar m) sp).ForcesTo ms.lookup (.neutral (.metavar m) sp) := by
  refine ⟨ms, 1, rfl, Val.forceMeta_open ?_⟩
  rintro _ _ ⟨⟩
  exact hm

namespace Val.QuotesTo

/-- A value is forced first when it is read back. -/
theorem forced {v : Val} (h : v.QuotesTo σ size t) : ∃ w, v.ForcesTo σ w ∧ w.QuotesTo σ size t := by
  obtain ⟨ms, fuel, rfl, h⟩ := h
  cases fuel with
  | zero => cases h
  | succ fuel =>
    obtain ⟨w, hw, h⟩ := bind_ok h
    refine ⟨w, ⟨ms, fuel, rfl, hw⟩, ms, fuel + 1, rfl, ?_⟩
    cases fuel with
    | zero => cases hw
    | succ fuel =>
      rw [Val.quote, Val.forceMeta_open]
      · exact h
      · rintro m sp rfl
        exact Val.forceMeta_unsolved hw

/-- An unsolved metavariable at the head of a value occurs in the term that the value reads back to.
-/
theorem metavar {sp : Spine} (h : (Val.neutral (.metavar m) sp).QuotesTo σ size t)
    (hm : σ m = none) : m ∈ t.metaOccurrences := by
  obtain ⟨ms, fuel, rfl, h⟩ := h
  cases fuel with
  | zero => cases h
  | succ fuel =>
    obtain ⟨w, hw, h⟩ := bind_ok h
    obtain rfl := (Val.ForcesTo.stuck hm).unique ⟨ms, fuel, rfl, hw⟩
    exact Spine.occurs_of_quote h (List.mem_singleton_self m)

/-- A closure reads back to a binder over its body. -/
theorem closure {c : Closure} (h : (Val.closure c).QuotesTo σ size t) :
    ∃ fuel x dom body, c.enter fuel size = .ok x ∧ x.QuotesTo σ (size + 1) body ∧
      t = .bind c.binder dom body := by
  obtain ⟨ms, fuel, rfl, h⟩ := h
  cases fuel with
  | zero => cases h
  | succ fuel =>
    obtain ⟨w, hw, h⟩ := bind_ok h
    obtain rfl := Val.forceMeta_settled rfl hw
    obtain ⟨dom, -, h⟩ := bind_ok h
    obtain ⟨x, hx, h⟩ := bind_ok h
    obtain ⟨body, hbody, h⟩ := bind_ok h
    cases h
    exact ⟨fuel, x, dom, body, hx, ⟨ms, fuel, rfl, hbody⟩, rfl⟩

/-- A pair reads back to a pair. -/
theorem pair {x y s : Val} (h : (Val.pair x y s).QuotesTo σ size t) :
    ∃ tx ty ts, x.QuotesTo σ size tx ∧ t = .pair tx ty ts := by
  obtain ⟨ms, fuel, rfl, h⟩ := h
  cases fuel with
  | zero => cases h
  | succ fuel =>
    obtain ⟨w, hw, h⟩ := bind_ok h
    obtain rfl := Val.forceMeta_settled rfl hw
    obtain ⟨tx, hx, h⟩ := bind_ok h
    obtain ⟨ty, -, h⟩ := bind_ok h
    obtain ⟨ts, -, h⟩ := bind_ok h
    cases h
    exact ⟨tx, ty, ts, ⟨ms, fuel, rfl, hx⟩, rfl⟩

end Val.QuotesTo

variable {M : Event → Prop} {g : Globals}

/-- Convertible neutral values have the same head. -/
theorem Comparison.head_eq_of_converts {f : Nat} {a b : Val} {h k : Head} {sa sb : Spine}
    (hc : (Comparison.ofNeutrals .rigid h sa k sb).Converts M σ g f size a b) : h = k := by
  by_contra hne
  unfold Comparison.ofNeutrals at hc
  rw [if_neg hne] at hc
  exact hc

/-- A metavariable occurs in what it is convertible to, under any eliminations, as long as no global
comes up. -/
theorem Answers.occurs (hM : ∀ e, Event.MeetsGlobal e → M e) {f : Nat} {a b rhs : Val} {sp : Spine}
    (h : Answers M σ (unify f .rigid g size a b)) (ht : rhs.QuotesTo σ size t)
    (hab : a.ForcesTo σ (.neutral (.metavar m) sp) ∧ b.ForcesTo σ rhs ∨
      a.ForcesTo σ rhs ∧ b.ForcesTo σ (.neutral (.metavar m) sp)) : m ∈ t.metaOccurrences := by
  induction f generalizing size a b rhs sp t with
  | zero => exact absurd h not_answers_fault
  | succ f ih =>
    have hm : σ m = none := hab.elim (fun h => h.1.unsolved) fun h => h.2.unsolved
    -- The metavariable is expanded to a function or to a pair, and is stuck as before in what is
    -- compared then.
    have expanded {a' b' : Val} (unfold : Comparison)
        (hc : (Comparison.ofNeutral .rigid (.metavar m) sp rhs unfold).Converts M σ g f size a' b')
        (hneutral : ∀ k sp', rhs ≠ .neutral k sp') (hglued : ¬ rhs.IsGlued) :
          m ∈ t.metaOccurrences := by
      have stuck (e : Elim) : (Val.neutral (.metavar m) (e :: sp)).ForcesTo σ
          (.neutral (.metavar m) (e :: sp)) := by
        obtain ⟨ms, -, rfl, -⟩ := ht
        exact .stuck hm
      cases rhs with
      | type => exact hc.elim
      | nat n => cases n <;> exact hc.elim
      | neutral k sp' => exact absurd rfl (hneutral k sp')
      | glued x sp' base => exact absurd trivial hglued
      | closure c =>
        obtain ⟨fuel, x, dom, body, hx, hbody, rfl⟩ := ht.closure
        obtain ⟨x', hx', hbody⟩ := hbody.forced
        by_cases hlam : c.binder.kind.isLam = true
        · simp only [Comparison.ofNeutral, hlam, if_true] at hc
          cases fuel with
          | zero => cases hx
          | succ fuel =>
            have hrec := ih (hc (fuel + 1) x _ hx rfl) hbody (.inr ⟨hx', stuck _⟩)
            exact List.mem_append_right _ hrec
        · simp only [Comparison.ofNeutral, hlam] at hc
          exact hc.elim
      | pair x y s =>
        obtain ⟨tx, ty, ts, htx, rfl⟩ := ht.pair
        obtain ⟨x', hx', htx⟩ := htx.forced
        have hrec := ih (hc.1 1 _ rfl) htx (.inr ⟨hx', stuck _⟩)
        exact List.mem_append_left _ (List.mem_append_left _ hrec)
    rcases hab with ⟨ha, hb⟩ | ⟨ha, hb⟩
    · obtain ⟨⟨ms, hquiet⟩, hc⟩ := Comparison.converts h ha hb
      cases rhs with
      | neutral k sp' =>
        obtain rfl := Comparison.head_eq_of_converts hc
        exact ht.metavar hm
      | glued x sp' base => exact (hquiet (hM _ (Or.inr trivial))).elim
      | type | nat | closure | pair => exact expanded .unfoldRight hc (fun _ _ h => nomatch h) id
    · obtain ⟨⟨ms, hquiet⟩, hc⟩ := Comparison.converts h ha hb
      cases rhs with
      | neutral k sp' =>
        obtain rfl := Comparison.head_eq_of_converts hc
        exact ht.metavar hm
      | glued x sp' base => exact (hquiet (hM _ (Or.inl trivial))).elim
      | type | nat | closure | pair => exact expanded .unfoldLeft hc (fun _ _ h => nomatch h) id

end

end Elaborator
