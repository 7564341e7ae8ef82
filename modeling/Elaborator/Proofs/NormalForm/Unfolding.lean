import Elaborator.Proofs.Erasure
import Elaborator.Proofs.NormalForm.Idempotence
import Elaborator.Proofs.Replay.Session

/-! # Normalizing with globals unfolded

Evaluation leaves globals folded, and reading back unfolds them where they stand. If the successor
is applied to a global, nothing computes at first, and the successor of a literal may come out: with
`x = 0`, the full normal form of `S x` is `S 0`, and the full normal form of `S 0` is `1`
(`Session.normalize_full_repeats`). This is the only thing that can be left to compute. Without it
the full normal form is its own full normal form, and with it a second normalization ends the matter
(`Session.Built.normalize_full`). -/

namespace Elaborator

open Elaborator.Action

/-- The verifier refuses metavariables. -/
theorem Verify.Visits.metaFree {g : Globals} {scope : Local} {t : Term} {e : Erased}
    (h : Visits g scope t e) : t.metaOccurrences = [] := by
  induction h with
  | type | var | global | prim | nat => rfl
  | app _ _ _ ihf ihx => rw [Term.metaOccurrences, ihf, ihx, List.nil_append]
  | lam _ _ ihd ihb | binderType _ _ _ ihd ihb =>
    rw [Term.metaOccurrences, ihd, ihb, List.nil_append]
  | pair _ _ _ ihs iha ihb =>
    rw [Term.metaOccurrences, iha, ihb, ihs, List.nil_append, List.nil_append]
  | fst _ ih | snd _ ih => exact ih
  | letIn _ _ _ iht ihv ihb =>
    rw [Term.metaOccurrences, iht, ihv, ihb, List.nil_append, List.nil_append]
  | elim _ _ _ _ ihm ihs ihcs =>
    rw [Term.metaOccurrences, Term.metaOccurrencesAll_eq, ihm, ihs]
    refine List.flatMap_eq_nil_iff.2 fun c hc => ?_
    obtain ⟨k, hk⟩ := List.mem_iff_getElem?.1 hc
    exact ihcs k c hk

/-- A term that the checker accepts mentions no metavariable. -/
theorem verify_metaFree {fuel : Nat} {g : Globals} {erased : Bool} {t : Term} {s u : State}
    {r : Val × Erased} (h : verify fuel g erased t s = .ok r u) : t.metaOccurrences = [] :=
  (Verify.infer_visits t h).metaFree

/-- A term without globals and metavariables has a normal form without successors of literals, which
is its own normal form. -/
theorem Term.normalize_closed {g : Globals}
    {ms : MetaStore} {full : Bool} {fuel : Nat} {t nf : Term} (hglobals : t.globals = [])
    (hmetas : t.metaOccurrences = []) (h : t.normalize fuel ms full g.env = .ok nf) :
    nf.hasSuccLiteral = false ∧ ∃ fuel₀, ∀ fuel' ≥ fuel₀,
      nf.normalize fuel' ms full g.env = .ok nf := by
  obtain ⟨v, hv, hnf⟩ := bind_ok h
  have ht : t.SettledIn (fun _ => False) (fun _ => False) full (g.scopeEnv 0) :=
    Term.settledIn_scopeEnv (by simp [hglobals]) (by simp [hglobals]) (by simp [hmetas]) 0
  have hreads := (ht.eval hv).readsAs (fun _ => False.elim) hnf
  have hplain := hreads.hasSuccLiteral_eq_false fun _ _ => id
  obtain ⟨w, hw, -⟩ :=
    hreads.comesBack (g := g) (fun _ => False.elim) (fun _ _ => False.elim) hplain
  exact ⟨hplain, hw.normalize⟩

/-- **What is left of a term after normalizing it with globals unfolded.** Over definitions, let a
verified term have a full normal form. If no successor of a literal occurs in it, it is its own full
normal form. Otherwise it is not, but normalizing it once more gives a term that is its own full
normal form. -/
theorem Session.Built.normalize_full {s : Session} (hs : s.Built) {fuel₁ fuel₂ : Nat}
    {erased : Bool} {t nf : Term} {st u : State} {r : Val × Erased} {ms : MetaStore}
    (hverified : verify fuel₁ s.globals erased t st = .ok r u)
    (h : t.normalize fuel₂ ms true s.globals.env = .ok nf) :
    (nf.hasSuccLiteral = false → ∃ fuel₀, ∀ fuel ≥ fuel₀,
      nf.normalize fuel ms true s.globals.env = .ok nf) ∧
    (nf.hasSuccLiteral = true → ∀ fuel, nf.normalize fuel ms true s.globals.env ≠ .ok nf) ∧
    ∀ fuel nf', nf.normalize fuel ms true s.globals.env = .ok nf' →
      ∃ fuel₀, ∀ fuel' ≥ fuel₀, nf'.normalize fuel' ms true s.globals.env = .ok nf' := by
  obtain ⟨v, hv, hnf⟩ := bind_ok h
  have hunfolds : ∀ x ∈ t.globals, ∀ v, s.globals.env.global? x = some v →
      v.Settled (fun _ => False) anything true :=
    fun x _ v hv => (hs.normal.within.env.closed x trivial v hv).settled
  have ht : t.SettledIn (fun _ => False) anything true (s.globals.scopeEnv 0) :=
    Term.settledIn_scopeEnv (fun _ _ _ _ => trivial) (fun _ => hunfolds)
      (by simp [verify_metaFree hverified]) 0
  have hreads := (ht.eval hv).readsAs (fun _ => False.elim) hnf
  obtain ⟨hmetas, hglobals⟩ := hreads.mentions
  -- The normal form mentions neither globals nor metavariables, so nothing surprising happens from
  -- here on.
  have hagain : ∀ {fuel nf'}, nf.normalize fuel ms true s.globals.env = .ok nf' →
      nf'.hasSuccLiteral = false ∧
      ∃ fuel₀, ∀ fuel' ≥ fuel₀, nf'.normalize fuel' ms true s.globals.env = .ok nf' :=
    Term.normalize_closed (hglobals rfl) (List.eq_nil_iff_forall_not_mem.2 hmetas)
  refine ⟨fun hplain => ?_, fun hsucc fuel hsame => ?_, fun fuel nf' hnf' => (hagain hnf').2⟩
  · obtain ⟨w, hw, -⟩ := hreads.comesBack (g := s.globals) (fun _ => False.elim) (by simp) hplain
    exact hw.normalize
  · rw [(hagain hsame).1] at hsucc
    cases hsucc

/-- Makes definitions, has a term verified over them and gives its full normal form. -/
def Session.normalizeOver (fuel : Nat) (defs : List Def) (t : Term) : Command (List Name × Term) :=
  do
  let names ← define fuel defs
  let s ← get
  let _ ← run (verify fuel s.globals false t)
  let nf ← t.normalize fuel .empty true s.globals.env
  return (names, nf)

/-- Normalizing over definitions adds them to the session, checks the term and reads its value back
in full. -/
theorem Session.normalizeOver_eq_some {fuel : Nat} {defs : List Def} {t nf : Term}
    {names : List Name} {s : Session} (h : (normalizeOver fuel defs t).run' s = some (names, nf)) :
    ∃ s', define fuel defs s = .ok names s' ∧
      (∃ st r u, verify fuel s'.globals false t st = .ok r u) ∧
      t.normalize fuel .empty true s'.globals.env = .ok nf := by
  obtain ⟨s₃, h⟩ := Command.ok_of_run h
  obtain ⟨names', s₁, hdefine, h⟩ := Command.bind_eq_ok h
  have h := Command.bind_get_ok h
  obtain ⟨r, s₂, hverify, h⟩ := Command.bind_eq_ok h
  obtain ⟨u, hverify, -⟩ := run_eq_ok hverify
  obtain ⟨nf', s₄, hnf, h⟩ := Command.bind_eq_ok h
  cases h
  exact ⟨s₁, hdefine, ⟨_, r, u, hverify⟩, (Command.lift_eq_ok hnf).1⟩

/-- With `f = \(x : Nat). S x`, the full normal form of `\(y : Nat). f y` has a successor in it, but
not that of a literal. -/
theorem Session.normalize_full_function :
    let f : Def :=
  ⟨"f", false, none, .abs .expl false "x" (some (.prim .nat)) (.app (.prim .succ) .expl (.var "x"))⟩
    let t : Term := .lam .expl "y" (.prim .nat) (.app (.global "f") .expl (.var ⟨0⟩))
    let nf : Term := .lam .expl "y" (.prim .nat) (.app (.prim .succ) .expl (.var ⟨0⟩))
    ∃ s, define 20 [f] (.new {}) = .ok ["f"] s ∧
      (∃ st r u, verify 20 s.globals false t st = .ok r u) ∧
      t.normalize 20 .empty true s.globals.env = .ok nf ∧
      ∃ fuel₀, ∀ fuel ≥ fuel₀, nf.normalize fuel .empty true s.globals.env = .ok nf := by
  intro f t nf
  have hrun : (normalizeOver 20 [f] t).run' (.new {}) = some ([("f" : Name)], nf) := by
    decide +kernel
  obtain ⟨s, hs, ⟨st, r, u, hverified⟩, hnf⟩ := normalizeOver_eq_some hrun
  exact ⟨s, hs, ⟨st, r, u, hverified⟩, hnf,
    (Built.normalize_full (.define (.new {}) hs) hverified hnf).1 rfl⟩

/-- With `x = 0`, the full normal form of `S x` is `S 0`, and that of `S 0` is `1`. -/
theorem Session.normalize_full_repeats :
    let x : Def := ⟨"x", false, none, .nat 0⟩
    let succ (t : Term) : Term := .app (.prim .succ) .expl t
    ∃ s, define 20 [x] (.new {}) = .ok ["x"] s ∧
      (∃ st r u, verify 20 s.globals false (succ (.global "x")) st = .ok r u) ∧
      (succ (.global "x")).normalize 20 .empty true s.globals.env = .ok (succ (.nat 0)) ∧
      (succ (.nat 0)).normalize 20 .empty true s.globals.env = .ok (.nat 1) := by
  intro x succ
  have hrun : (normalizeOver 20 [x] (succ (.global "x"))).run' (.new {}) =
      some ([("x" : Name)], succ (.nat 0)) := by
    decide +kernel
  obtain ⟨s, hs, hverified, hnf⟩ := normalizeOver_eq_some hrun
  exact ⟨s, hs, hverified, hnf, rfl⟩

end Elaborator
