import Elaborator.Fault

/-!
# De Bruijn indices and levels

A scope of size `n` holds `n` variables. A `Level` counts them from the outermost one and is stable
when the scope grows, so values use levels. An `Index` counts from the innermost one, so terms use
indices. The two conversions are the same map, `n - 1 - k`, and are defined exactly on what is in
scope.

Indices and levels are machine words, and the test whether one is in scope needs its successor
(`extendScope`). The sizes of the scopes that a computation enters are plain numbers.
-/

namespace Elaborator

/-- A variable counted from the innermost one of its scope. -/
@[ext] structure Index where
  toNat : Nat
deriving DecidableEq, Repr, Inhabited

/-- A variable counted from the outermost one of its scope. -/
@[ext] structure Level where
  toNat : Nat
deriving DecidableEq, Repr, Inhabited

def extendScope (size : Nat) : Except Fault Nat :=
  if size + 1 < wordLimit then .ok (size + 1) else .error .overflow

/-- Whether the `k`-th variable is in a scope of this size. The scopes that hold it are at least as
large as one that has room for `k` variables and one more. -/
def inScope (k size : Nat) : Except Fault Bool := return (← extendScope k) ≤ size

def Index.inScope (i : Index) (size : Nat) : Except Fault Bool :=
  Elaborator.inScope i.toNat size

def Level.inScope (l : Level) (size : Nat) : Except Fault Bool :=
  Elaborator.inScope l.toNat size

def Index.toLevel (i : Index) (size : Nat) : Except Fault Level := do
  if ← i.inScope size then
    return ⟨size - 1 - i.toNat⟩
  else
    throw (.unboundIndex i.toNat size)

def Level.toIndex (l : Level) (size : Nat) : Except Fault Index := do
  if ← l.inScope size then
    return ⟨size - 1 - l.toNat⟩
  else
    throw (.unboundLevel l.toNat size)

/-! ## Where the conversions are defined -/

/-- A variable is in scope exactly if its successor can be formed and is at most the size. -/
theorem inScope_eq_ok_iff {k size : Nat} {b : Bool} :
    Elaborator.inScope k size = .ok b ↔ k + 1 < wordLimit ∧ b = decide (k + 1 ≤ size) := by
  unfold Elaborator.inScope extendScope
  split
  · next h => exact ⟨fun e => ⟨h, (Except.ok.inj e).symm⟩, fun e => congrArg Except.ok e.2.symm⟩
  · next h => exact ⟨fun e => (nomatch e), fun e => absurd e.1 h⟩

/-- Exactly the variables in scope have a level. -/
theorem Index.toLevel_eq_ok_iff {i : Index} {size : Nat} {l : Level} :
    i.toLevel size = .ok l ↔
      i.toNat + 1 < wordLimit ∧ i.toNat + 1 ≤ size ∧ l.toNat = size - 1 - i.toNat := by
  obtain ⟨k⟩ := i
  obtain ⟨j⟩ := l
  cases h : Elaborator.inScope k size with
  | error f =>
    refine ⟨fun e => ?_, fun e => ?_⟩
    · simp [Index.toLevel, Index.inScope, h, bind, Except.bind] at e
    · rw [inScope_eq_ok_iff.2 ⟨e.1, rfl⟩] at h
      cases h
  | ok b =>
    obtain ⟨hw, rfl⟩ := inScope_eq_ok_iff.1 h
    by_cases hs : k + 1 ≤ size <;>
      simp only [Index.toLevel, Index.inScope, h, bind, Except.bind, pure, Except.pure, throw,
        throwThe, MonadExceptOf.throw, hs, hw, decide_true, decide_false, if_true,
        Bool.false_eq_true, if_false, Except.ok.injEq, Level.mk.injEq, true_and, false_and, eq_comm,
        reduceCtorEq]

/-- Exactly the variables in scope have an index. -/
theorem Level.toIndex_eq_ok_iff {l : Level} {size : Nat} {i : Index} :
    l.toIndex size = .ok i ↔
      l.toNat + 1 < wordLimit ∧ l.toNat + 1 ≤ size ∧ i.toNat = size - 1 - l.toNat := by
  obtain ⟨k⟩ := l
  obtain ⟨j⟩ := i
  cases h : Elaborator.inScope k size with
  | error f =>
    refine ⟨fun e => ?_, fun e => ?_⟩
    · simp [Level.toIndex, Level.inScope, h, bind, Except.bind] at e
    · rw [inScope_eq_ok_iff.2 ⟨e.1, rfl⟩] at h
      cases h
  | ok b =>
    obtain ⟨hw, rfl⟩ := inScope_eq_ok_iff.1 h
    by_cases hs : k + 1 ≤ size <;>
      simp only [Level.toIndex, Level.inScope, h, bind, Except.bind, pure, Except.pure, throw,
        throwThe, MonadExceptOf.throw, hs, hw, decide_true, decide_false, if_true,
        Bool.false_eq_true, if_false, Except.ok.injEq, Index.mk.injEq, true_and, false_and, eq_comm,
        reduceCtorEq]

end Elaborator
