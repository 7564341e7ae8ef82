import Elaborator.Proofs.Scope.Basic
import Elaborator.Proofs.StoreGrowth

/-! # What instance search leaves behind

Every way to use a candidate is an attempt. An attempt that finds nothing takes back what it did to
the store, also what an inner attempt kept, and what is tried next starts where it started. So a
search that finds nothing, or ends with an error, leaves no trace but the numbers that it used up
(`Action.Restores`).

A search that finds something has built it from candidates only: a candidate, applied to new
metavariables for its implicit parameters, and possibly to another such term, which was searched for
with less depth (`Witness`). -/

namespace Elaborator

open Elaborator.Action

/-! ## Finding nothing -/

namespace State

/-- What is known about metavariables and what the open transactions have saved is the same. -/
def SameKnowledge (s t : State) : Prop := t.metas.now = s.metas.now ∧ t.metas.saved = s.metas.saved

theorem SameKnowledge.trans {s t u : State} (h : s.SameKnowledge t) (h' : t.SameKnowledge u) :
    s.SameKnowledge u :=
  ⟨h'.1.trans h.1, h'.2.trans h.2⟩

/-- Undoing a transaction that was just opened, with all transactions inside it closed. -/
theorem Undone.sameKnowledge {s t u : State} (h : t.Undone u) (ht : s.opened.metas.Grows t.metas) :
    s.SameKnowledge u := by
  obtain ⟨ms, hpop, rfl⟩ := h
  obtain ⟨hsaved, -⟩ := MetaStore.pop_eq_ok_iff.1 hpop
  obtain ⟨hnow, hrest⟩ := List.cons.inj (ht.saved.symm.trans hsaved)
  exact ⟨hnow.symm, hrest.symm⟩

end State

namespace Action

variable {α β : Type}

/-- Wherever the action finds nothing, and wherever it has an error, nothing else is known than
before. -/
structure Restores (x : Action (Option α)) : Prop where
  nothing : ∀ {s t}, x s = .ok none t → s.SameKnowledge t
  error : ∀ {s t e}, x s = .error (.error e) t → s.SameKnowledge t

namespace Restores

theorem nothingFound : Restores (pure none : Action (Option α)) where
  nothing := by
    intro s t h
    obtain ⟨-, rfl⟩ := pure_eq_ok.1 h
    exact ⟨rfl, rfl⟩
  error h := absurd h pure_ne_error

/-- Whatever an attempt does that keeps to the discipline of transactions is taken back. -/
theorem attempt {x : Action (Option α)} (hx : Keeps MetaStore.Grows x) : Restores (attempt x) where
  nothing := by
    intro s t h
    obtain ⟨u, hu | ⟨e, -, hu⟩, hundone⟩ := attempt_eq_ok_none.1 h
    · exact hundone.sameKnowledge (hx.related (.of_ok hu))
    · exact hundone.sameKnowledge (hx.related (.of_error hu))
  error := by
    intro s t e h
    obtain ⟨-, u, hu, hundone⟩ := attempt_eq_error.1 h
    exact hundone.sameKnowledge (hx.related (.of_error hu))

/-- If the first action finds something, it is the result. Else the second one goes on from where
the first one started. -/
theorem orElse {x : Action (Option α)} {f : Option α → Action (Option β)} (hx : Restores x)
    (hfound : ∀ a, ∃ b, f (some a) = pure (some b)) (helse : Restores (f none)) :
    Restores (x >>= f) where
  nothing := by
    intro s t h
    obtain ⟨r, u, hu, h⟩ := bind_eq_ok.1 h
    cases r with
    | none => exact (hx.nothing hu).trans (helse.nothing h)
    | some a =>
      obtain ⟨b, hb⟩ := hfound a
      rw [hb] at h
      cases (pure_eq_ok.1 h).1
  error := by
    intro s t e h
    rcases bind_eq_error.1 h with h | ⟨r, u, hu, h⟩
    · exact hx.error h
    · cases r with
      | none => exact (hx.nothing hu).trans (helse.error h)
      | some a =>
        obtain ⟨b, hb⟩ := hfound a
        rw [hb] at h
        exact absurd h pure_ne_error

/-- Events are no knowledge. -/
theorem afterEmit (e : Event) {x : Action (Option α)} (hx : Restores x) :
    Restores (emit e >>= fun _ => x) where
  nothing := by
    intro s t h
    obtain ⟨_, u, hu, h⟩ := bind_eq_ok.1 h
    have hrest := hx.nothing h
    cases hu
    exact hrest
  error := by
    intro s t d h
    rcases bind_eq_error.1 h with h | ⟨_, u, hu, h⟩
    · cases h
    · have hrest := hx.error h
      cases hu
      exact hrest

end Restores

end Action

section

variable {fuel : Nat} {su : Setup} {scope : Local}

/-- A candidate that is of no use leaves the knowledge as it was. -/
theorem tryCandidate_restores {search : Val → Action (Option Term)}
    (hs : ∀ goal, Keeps MetaStore.Grows (search goal)) (goal : Val) (c : Candidate) :
    Restores (tryCandidate fuel su search scope goal c) := by
  have hgrows := MetaStore.Grows.tracksFresh
  obtain ⟨direct, hdirect, hdirectEq⟩ := tryDirect_isAttempt hgrows fuel su scope goal c
  obtain ⟨applied, happlied, happliedEq⟩ := tryApplied_isAttempt hgrows fuel su scope goal c
  obtain ⟨function, hfunction, hfunctionEq⟩ := tryFunction_isAttempt hgrows fuel su hs scope goal c
  rw [tryCandidate, hdirectEq, happliedEq, hfunctionEq]
  refine (Restores.attempt hdirect).orElse (fun t => ⟨t, rfl⟩) ?_
  exact (Restores.attempt happlied).orElse (fun t => ⟨t, rfl⟩) (.attempt hfunction)

/-- Trying candidates in turn leaves the knowledge as it was when none is of use. -/
theorem tryCandidates_restores {attempt : Candidate → Action (Option Term)}
    (h : ∀ c, Restores (attempt c)) (depth : Nat) (cs : List Candidate) :
    Restores (tryCandidates attempt scope depth cs) := by
  induction cs with
  | nil => exact .nothingFound
  | cons c cs ih => exact .afterEmit _ ((h c).orElse (fun t => ⟨t, rfl⟩) ih)

/-- The inner searches need no induction here: whatever they keep, the attempt around them takes it
back. -/
theorem search_restores (depth : Nat) (goal : Val) :
    Restores (search fuel su scope depth goal) := by
  cases depth with
  | zero => exact .nothingFound
  | succ depth =>
    apply tryCandidates_restores
    intro c
    exact tryCandidate_restores (search_keeps MetaStore.Grows.tracksFresh fuel su scope depth) goal
      c

end

/-! ## New metavariables -/

/-- The metavariables were made one after the other on the way from `s` to `t`, and they are still
there. -/
structure MetaStore.Makes (s t : MetaStore) (ms : List MetaId) : Prop where
  increasing : ms.Pairwise fun m n => m.toNat < n.toNat
  new : ∀ m ∈ ms, s.next ≤ m.toNat
  there : ∀ m ∈ ms, (t.now.cells.find? m.toNat).isSome

namespace MetaStore.Makes

theorem nil (s t : MetaStore) : s.Makes t [] := ⟨.nil, List.forall_mem_nil _, List.forall_mem_nil _⟩

theorem fresh (s : MetaStore) : s.Makes s.fresh.2 [s.fresh.1] := by
  refine ⟨List.pairwise_singleton _ _, List.forall_mem_singleton.2 (Nat.le_refl _),
    List.forall_mem_singleton.2 ?_⟩
  simp [MetaStore.fresh]

/-- Metavariables made between two stores are made between an earlier and a later one too. -/
theorem mono {r s t u : MetaStore} {ms : List MetaId} (h : s.Makes t ms) (hrs : r.Grows s)
    (htu : t.Grows u) : r.Makes u ms :=
  ⟨h.increasing, fun m hm => Nat.le_trans hrs.next (h.new m hm),
    fun m hm => htu.made _ (h.there m hm)⟩

/-- What is made later gets larger numbers. -/
theorem append {s t u : MetaStore} {ms ns : List MetaId} (h : s.Makes t ms) (h' : t.Makes u ns)
    (hst : s.Grows t) (htu : t.Grows u) : s.Makes u (ms ++ ns) := by
  refine ⟨List.pairwise_append.2 ⟨h.increasing, h'.increasing, fun m hm n hn => ?_⟩, ?_, ?_⟩
  · exact Nat.lt_of_lt_of_le (t.below_now _ (h.there m hm)) (h'.new n hn)
  · exact List.forall_mem_append.2 ⟨h.new, fun n hn => Nat.le_trans hst.next (h'.new n hn)⟩
  · exact List.forall_mem_append.2 ⟨fun m hm => htu.made _ (h.there m hm), h'.there⟩

end MetaStore.Makes

/-- A new metavariable is the next one of the store, applied to the variables of its scope. -/
theorem newMeta_eq_ok {scope : Local} {m : Term} {s t : State} (h : newMeta scope s = .ok m t) :
    m = scope.applyMeta s.metas.fresh.1 ∧ t.metas = s.metas.fresh.2 := by
  cases h
  exact ⟨rfl, rfl⟩

/-- The implicit arguments of a function are new metavariables that may use the variables of the
context. -/
theorem instantiate_makes {fuel : Nat} {scope : Local} {ty rest : Val}
    {args : List Term} {s t : State} (h : instantiate fuel scope ty s = .ok (rest, args) t) :
    ∃ ms, args = ms.map scope.applyMeta ∧ s.metas.Makes t.metas ms := by
  induction fuel generalizing ty rest args s with
  | zero => cases h
  | succ fuel ih =>
    have hdone {u : State} {v : Val}
        (h : (pure (v, []) : Action (Val × List Term)) u = .ok (rest, args) t) :
        ∃ ms, args = ms.map scope.applyMeta ∧ s.metas.Makes t.metas ms := by
      cases (pure_eq_ok.1 h).1
      exact ⟨[], rfl, .nil _ _⟩
    obtain ⟨v, u, hu, h⟩ := bind_eq_ok.1 h
    obtain ⟨_, _, hms, hu⟩ := bind_eq_ok.1 hu
    obtain ⟨rfl, rfl⟩ := metas_eq_ok.1 hms
    obtain ⟨-, rfl⟩ := lift_eq_ok.1 hu
    cases v with
    | closure c =>
      by_cases hkind : c.binder.kind = .pi .impl
      · simp only [hkind, if_true] at h
        obtain ⟨m, s₁, hm, h⟩ := bind_eq_ok.1 h
        obtain ⟨_, s₂, hs₂, h⟩ := bind_eq_ok.1 h
        obtain ⟨_, s₃, hs₃, h⟩ := bind_eq_ok.1 h
        obtain ⟨-, rfl⟩ := lift_eq_ok.1 hs₂
        obtain ⟨-, rfl⟩ := lift_eq_ok.1 hs₃
        obtain ⟨⟨ty', args'⟩, s₄, hrest, h⟩ := bind_eq_ok.1 h
        obtain ⟨heq, rfl⟩ := pure_eq_ok.1 h
        cases heq
        obtain ⟨rfl, hfresh⟩ := newMeta_eq_ok hm
        obtain ⟨ms, rfl, hms⟩ := ih hrest
        have hgrows := (instantiate_keeps MetaStore.Grows.tracksFresh ..).related (.of_ok hrest)
        rw [hfresh] at hms hgrows
        exact ⟨_ :: ms, rfl, (MetaStore.Makes.fresh _).append hms (.of_fresh _) hgrows⟩
      · simp only [hkind, if_false] at h
        exact hdone h
    | type | neutral | glued | pair | nat => exact hdone h

/-! ## What is found -/

/-- A variable or a global that may be used as an instance: its name begins like the names of
instances, the elaborator did not put it in, and it is not erased unless the context is in a
type. -/
inductive Admissible (su : Setup) (scope : Local) : Term → Prop
  | var {i : Nat} {e : Entry} (entry : scope.entries[i]? = some e)
      (named : e.name.text.startsWith su.config.instancePrefix) (visible : e.inserted = false)
      (allowed : e.erased = true → scope.inType = true) : Admissible su scope (.var ⟨i⟩)
  | global {x : Name} {d : Definition} (entry : su.globals.find? x = some d)
      (named : x.text.startsWith su.config.instancePrefix)
      (allowed : d.erased = true → scope.inType = true) :
      Admissible su scope (.global x)

/-- The terms that a search of this depth may find, with the metavariables in them from left to
right: a variable or global, applied to metavariables as implicit arguments and then possibly to one
explicit argument, which a search of less depth may find. -/
inductive Witness (su : Setup) (scope : Local) : (depth : Nat) → Term → List MetaId → Prop
  | applied {depth : Nat} {c : Term} (ms : List MetaId) (head : Admissible su scope c) :
      Witness su scope (depth + 1) (c.applyImplicits (ms.map scope.applyMeta)) ms
  | function {depth : Nat} {c w : Term} {ns : List MetaId} (ms : List MetaId)
      (head : Admissible su scope c) (arg : Witness su scope depth w ns) :
      Witness su scope (depth + 1) (.app (c.applyImplicits (ms.map scope.applyMeta)) .expl w)
        (ms ++ ns)

/-- A candidate is a variable or a definition with an instance name that the mode of the scope
allows. -/
theorem admissible_of_mem_candidates {su : Setup} {scope : Local} {c : Candidate}
    (h : c ∈ candidates su scope) : Admissible su scope c.term := by
  rcases List.mem_append.1 h with h | h
  · obtain ⟨⟨e, i⟩, hmem, hc⟩ := List.mem_filterMap.1 h
    obtain ⟨hif, hc⟩ := Option.ite_none_right_eq_some.1 hc
    cases hc
    simp only [Bool.and_eq_true, Bool.not_eq_true', Bool.or_eq_true] at hif
    refine .var (List.mem_zipIdx_iff_getElem?.1 hmem) hif.2 hif.1.1 ?_
    intro (he : e.erased = true)
    exact hif.1.2.resolve_right (by simp [he])
  · obtain ⟨⟨x, d⟩, hmem, hc⟩ := List.mem_filterMap.1 h
    obtain ⟨hif, hc⟩ := Option.ite_none_right_eq_some.1 hc
    cases hc
    simp only [Bool.and_eq_true, Bool.not_eq_true', Bool.or_eq_true] at hif
    refine .global (Globals.find?_of_mem_definitions (List.mem_reverse.1 hmem)) hif.2 ?_
    intro (he : d.erased = true)
    exact hif.1.resolve_right (by simp [he])

/-- Whatever the action finds is a witness, and the metavariables in it are new. -/
structure FindsWitness (su : Setup) (scope : Local) (depth : Nat) (x : Action (Option Term)) :
    Prop where
  found : ∀ {s w t}, x s = .ok (some w) t →
    ∃ ms, Witness su scope depth w ms ∧ s.metas.Makes t.metas ms

namespace FindsWitness

variable {su : Setup} {scope : Local} {depth : Nat} {x : Action (Option Term)}

theorem nothingFound : FindsWitness su scope depth (pure none) := by
  constructor
  intro s w t h
  cases (pure_eq_ok.1 h).1

/-- An attempt that finds something keeps the metavariables that were made for it. -/
theorem attempt (hx : FindsWitness su scope depth x) : FindsWitness su scope depth (attempt x) := by
  constructor
  intro s w t h
  obtain ⟨u, hu, ms, hdiscard, rfl⟩ := attempt_eq_ok_some.1 h
  obtain ⟨ns, hw, hns⟩ := hx.found hu
  obtain ⟨-, hnow, -⟩ := MetaStore.discard_eq_ok_iff.1 hdiscard
  refine ⟨ns, hw, hns.increasing, hns.new, fun m hm => ?_⟩
  rw [hnow]
  exact hns.there m hm

/-- An action followed by an alternative finds a witness when both parts do. -/
theorem orElse {f : Option Term → Action (Option Term)} (hx : FindsWitness su scope depth x)
    (hkeeps : Keeps MetaStore.Grows x) (hfound : ∀ w, f (some w) = pure (some w))
    (helse : FindsWitness su scope depth (f none)) : FindsWitness su scope depth (x >>= f) := by
  constructor
  intro s w t h
  obtain ⟨r, u, hu, h⟩ := bind_eq_ok.1 h
  cases r with
  | none =>
    obtain ⟨ms, hw, hms⟩ := helse.found h
    exact ⟨ms, hw, hms.mono (hkeeps.related (.of_ok hu)) (.refl _)⟩
  | some v =>
    rw [hfound] at h
    obtain ⟨hv, rfl⟩ := pure_eq_ok.1 h
    cases hv
    exact hx.found hu

theorem afterEmit (e : Event) (hx : FindsWitness su scope depth x) :
    FindsWitness su scope depth (emit e >>= fun _ => x) := by
  constructor
  intro s w t h
  obtain ⟨_, u, hu, h⟩ := bind_eq_ok.1 h
  have hrest := hx.found h
  cases hu
  exact hrest

end FindsWitness

section

variable {fuel depth : Nat} {su : Setup} {scope : Local} {c : Candidate}

/-- A candidate that fits the goal as it stands is a witness. -/
theorem tryDirect_findsWitness (hc : Admissible su scope c.term) (goal : Val) :
    FindsWitness su scope (depth + 1) (tryDirect fuel su scope goal c) := by
  refine .attempt ⟨?_⟩
  intro s w t h
  obtain ⟨_, u, -, h⟩ := bind_eq_ok.1 h
  obtain ⟨heq, rfl⟩ := pure_eq_ok.1 h
  cases heq
  exact ⟨[], .applied [] hc, .nil _ _⟩

/-- A candidate that fits the goal once its implicit arguments are instantiated is a witness. -/
theorem tryApplied_findsWitness (hc : Admissible su scope c.term) (goal : Val) :
    FindsWitness su scope (depth + 1) (tryApplied fuel su scope goal c) := by
  refine .attempt ⟨?_⟩
  intro s w t h
  obtain ⟨⟨ty, args⟩, u, hu, h⟩ := bind_eq_ok.1 h
  obtain ⟨ms, rfl, hms⟩ := instantiate_makes hu
  dsimp only at h
  split at h
  · cases (pure_eq_ok.1 h).1
  · obtain ⟨_, v, hv, h⟩ := bind_eq_ok.1 h
    obtain ⟨heq, rfl⟩ := pure_eq_ok.1 h
    cases heq
    have hgrows := (unify_keeps (MetaStore.Grows.tracksFresh.solutions _) ..).related (.of_ok hv)
    exact ⟨ms, .applied ms hc, hms.mono (.refl _) hgrows⟩

/-- A function that is applied to what the search finds for its argument is a witness, one level
deeper. -/
theorem tryFunction_findsWitness (hc : Admissible su scope c.term)
    {search : Val → Action (Option Term)} (hkeeps : ∀ goal, Keeps MetaStore.Grows (search goal))
    (hsearch : ∀ goal, FindsWitness su scope depth (search goal)) (goal : Val) :
    FindsWitness su scope (depth + 1) (tryFunction fuel su search scope goal c) := by
  have hgrows := MetaStore.Grows.tracksFresh
  refine .attempt ⟨?_⟩
  intro s w t h
  obtain ⟨⟨ty, args⟩, u, hu, h⟩ := bind_eq_ok.1 h
  obtain ⟨ms, rfl, hms⟩ := instantiate_makes hu
  have hsu := (instantiate_keeps hgrows ..).related (.of_ok hu)
  obtain ⟨v, u₁, hv, h⟩ := bind_eq_ok.1 h
  cases v with
  | closure pi =>
    by_cases hkind : pi.binder.kind = .pi .expl
    · simp only [hkind, if_true] at h
      obtain ⟨arg, u₂, harg, h⟩ := bind_eq_ok.1 h
      obtain ⟨ty', u₃, hty', h⟩ := bind_eq_ok.1 h
      obtain ⟨_, u₄, hunify, h⟩ := bind_eq_ok.1 h
      obtain ⟨found, u₅, hfound, h⟩ := bind_eq_ok.1 h
      cases found with
      | none => cases (pure_eq_ok.1 h).1
      | some arg' =>
        obtain ⟨value, u₆, hvalue, h⟩ := bind_eq_ok.1 h
        obtain ⟨_, u₇, hunify', h⟩ := bind_eq_ok.1 h
        obtain ⟨heq, rfl⟩ := pure_eq_ok.1 h
        cases heq
        obtain ⟨ns, hwitness, hns⟩ := (hsearch _).found hfound
        -- What happens before and after the inner search keeps what is there.
        have hbefore : u.metas.Grows u₄.metas := by
          have h₁ := (Keeps.force hgrows.toTracks ..).related (.of_ok hv)
          have h₂ := (newMetaVal_keeps hgrows ..).related (.of_ok harg)
          have h₃ := (Keeps.lift hgrows.toTracks _).related (.of_ok hty')
          have h₄ := (unify_keeps (hgrows.solutions _) ..).related (.of_ok hunify)
          exact h₁.trans (h₂.trans (h₃.trans h₄))
        have hafter : u₅.metas.Grows u₇.metas := by
          have h₁ := (Keeps.lift hgrows.toTracks _).related (.of_ok hvalue)
          have h₂ := (unify_keeps (hgrows.solutions _) ..).related (.of_ok hunify')
          exact h₁.trans h₂
        have hinner := (hkeeps _).related (.of_ok hfound)
        refine ⟨ms ++ ns, .function ms hc hwitness, ?_⟩
        exact hms.append (hns.mono hbefore hafter) hsu (hbefore.trans (hinner.trans hafter))
    · simp only [hkind, if_false] at h
      cases (pure_eq_ok.1 h).1
  | type | neutral | glued | pair | nat => cases (pure_eq_ok.1 h).1

theorem tryCandidate_findsWitness (hc : Admissible su scope c.term)
    {search : Val → Action (Option Term)} (hkeeps : ∀ goal, Keeps MetaStore.Grows (search goal))
    (hsearch : ∀ goal, FindsWitness su scope depth (search goal)) (goal : Val) :
    FindsWitness su scope (depth + 1) (tryCandidate fuel su search scope goal c) := by
  have hgrows := MetaStore.Grows.tracksFresh
  refine (tryDirect_findsWitness hc goal).orElse (tryDirect_keeps hgrows ..) (fun _ => rfl) ?_
  refine (tryApplied_findsWitness hc goal).orElse (tryApplied_keeps hgrows ..) (fun _ => rfl) ?_
  exact tryFunction_findsWitness hc hkeeps hsearch goal

/-- Trying candidates in turn finds a witness when each attempt does. -/
theorem tryCandidates_findsWitness {attempt : Candidate → Action (Option Term)}
    {cs : List Candidate} (hkeeps : ∀ c, Keeps MetaStore.Grows (attempt c))
    (h : ∀ c ∈ cs, FindsWitness su scope depth (attempt c)) (left : Nat) :
    FindsWitness su scope depth (tryCandidates attempt scope left cs) := by
  induction cs with
  | nil => exact .nothingFound
  | cons c cs ih =>
    obtain ⟨hc, hcs⟩ := List.forall_mem_cons.1 h
    exact .afterEmit _ (hc.orElse (hkeeps c) (fun _ => rfl) (ih hcs))

/-- What the search gives back is a witness of at most the depth it was given. -/
theorem search_findsWitness (depth : Nat) (goal : Val) :
    FindsWitness su scope depth (search fuel su scope depth goal) := by
  have hgrows := MetaStore.Grows.tracksFresh
  induction depth generalizing goal with
  | zero => exact .nothingFound
  | succ depth ih =>
    have hinner := search_keeps hgrows fuel su scope depth
    apply tryCandidates_findsWitness
    · intro c
      exact tryCandidate_keeps hgrows fuel su hinner scope goal c
    · intro c hc
      exact tryCandidate_findsWitness (admissible_of_mem_candidates hc) hinner ih goal

end

/-- **Instance search leaves nothing behind and builds what it may.** A search that finds nothing,
or ends with an error, leaves the solutions, the waiting problems and the open transactions exactly
as they were. A search that finds a term has depth left, and the term is a witness for that depth
whose metavariables are new: they have numbers that were not given out before, in increasing order,
and they are in the store that the search leaves. -/
theorem search_admissible (fuel : Nat) (su : Setup)
    (scope : Local) (depth : Nat) (goal : Val) (s : State) :
    (∀ t, (search fuel su scope depth goal s = .ok none t ∨
        ∃ e, search fuel su scope depth goal s = .error (.error e) t) →
      t.metas.now.cells = s.metas.now.cells ∧ t.metas.now.postponed = s.metas.now.postponed ∧
        t.metas.saved = s.metas.saved) ∧
    ∀ w t, search fuel su scope depth goal s = .ok (some w) t →
      1 ≤ depth ∧ ∃ ms, Witness su scope depth w ms ∧ s.metas.Makes t.metas ms := by
  constructor
  · intro t h
    have hsame : s.SameKnowledge t := by
      rcases h with h | ⟨e, h⟩
      · exact (search_restores depth goal).nothing h
      · exact (search_restores depth goal).error h
    exact ⟨congrArg _ hsame.1, congrArg _ hsame.1, hsame.2⟩
  · intro w t h
    obtain ⟨ms, hw, hms⟩ := (search_findsWitness depth goal).found h
    refine ⟨?_, ms, hw, hms⟩
    cases hw <;> exact Nat.le_add_left _ _

/-- With `instBool : Bool` and `instNat : {A : Type} -> Bool -> Nat`, a search of depth two finds
`instNat {?2} instBool` for `Nat`: `?0` was there before, and `?1` was made for an attempt that did
not fit. A search of depth one finds nothing, and the problem that waits for `?0` still waits. -/
theorem search_admissible_chained :
    let bool : Definition := ⟨.prim .true, .prim .true, .prim .bool, false, none⟩
    let zero : Term := .lam .expl "b" (.prim .bool) (.nat 0)
    let value : Closure := ⟨⟨.lam .impl, "A", false⟩, .type, ⟨[], []⟩, zero⟩
    let ty : Closure :=
      ⟨⟨.pi .impl, "A", false⟩, .type, ⟨[], []⟩, .pi .expl "b" (.prim .bool) (.prim .nat)⟩
    let nat : Definition := ⟨.lam .impl "A" .type zero, .closure value, .closure ty, false, none⟩
    let su : Setup := ⟨{}, (Globals.empty.insert "instBool" bool).insert "instNat" nat⟩
    let s : State := ⟨MetaStore.empty.fresh.2.postpone ⟨0⟩ ⟨0, .metavar ⟨0⟩, .prim .nat⟩, [], []⟩
    let w : Term := .app (.app (.global "instNat") .impl (.metavar ⟨2⟩)) .expl (.global "instBool")
    (∃ t ms, search 9 su (.empty su.globals) 2 (.prim .nat) s = .ok (some w) t ∧
      Witness su (.empty su.globals) 2 w ms ∧ s.metas.Makes t.metas ms) ∧
    ∃ t, search 9 su (.empty su.globals) 1 (.prim .nat) s = .ok none t ∧
      t.metas.now.postponed.find? 0 = some [⟨0, .metavar ⟨0⟩, .prim .nat⟩] := by
  intro bool zero value ty nat su s w
  constructor
  · obtain ⟨t, h⟩ : ∃ t, search 9 su (.empty su.globals) 2 (.prim .nat) s = .ok (some w) t :=
      ok_of_run (by decide +kernel)
    obtain ⟨-, ms, hw, hms⟩ := (search_admissible 9 su (.empty su.globals) 2 (.prim .nat) s).2 w t h
    exact ⟨t, ms, h, hw, hms⟩
  · obtain ⟨t, h⟩ : ∃ t, search 9 su (.empty su.globals) 1 (.prim .nat) s = .ok none t :=
      ok_of_run (by decide +kernel)
    obtain ⟨-, hwaits, -⟩ :=
      (search_admissible 9 su (.empty su.globals) 1 (.prim .nat) s).1 t (.inl h)
    exact ⟨t, h, by rw [hwaits]; rfl⟩

end Elaborator
