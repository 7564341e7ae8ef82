/-!
# Faults

A computation of this library ends in one of three ways: with an answer, with an `Error` that is
reported to the user, or with a `Fault`. Faults are what well-formed input never meets (a variable
outside its scope, an elimination of a value that has no such elimination), together with running
out of fuel, which says nothing about the input at all.
-/

namespace Elaborator

/-- Indices, levels, metavariable numbers and name suffixes are below this bound. -/
def wordLimit : Nat := Nat.pow 2 32

/-- Numeral literals are below this bound. -/
def numeralLimit : Nat := Nat.pow 2 64

/-- Why a computation stopped without an answer and without an error to report. -/
inductive Fault
  /-- The fuel ran out. A longer run may still end in any way. -/
  | outOfFuel
  | unboundIndex (index size : Nat)
  | unboundLevel (level size : Nat)
  /-- A global is evaluated in an environment that does not hold it. -/
  | unboundGlobal (name : String)
  /-- A value is eliminated in a way that its type cannot allow. -/
  | illTyped
  | missingCase
  /-- The signature of the equality eliminator is asked for without the equality's indices. -/
  | missingIndices
  | overflow
  /-- A transaction of the metavariable store is closed although none is open. -/
  | noSnapshot
deriving DecidableEq, Repr

end Elaborator
