import Elaborator.Surface
import Elaborator.Term.Printer

/-!
# Errors

What can be wrong with a term or a command of the user. `Error.message` is the text of an error and
the only place where errors are put into words.

Exactly the conversion errors are soft (`Error.isSoft`): two terms that were compared are just not
equal, so another way may still work. All other errors end the elaboration.
-/

namespace Elaborator

/-- Causes for refusing a term or a command. Types that a cause mentions are kept as printed text,
in which the metavariables are marked. -/
inductive Error
  /-- Two terms in a scope of this size are not equal. The names of the scope, innermost first, are
  filled in where they are known. -/
  | conversion (size : Nat) (lhs rhs : Term) (names : Option (List Name))
  /-- A solution needs a variable that the metavariable does not have. -/
  | scope (m : MetaId) (var : String)
  | occurs (m : MetaId)
  /-- A metavariable is applied to the same variable twice. -/
  | nonLinearSpine (m : MetaId)
  | unboundVariable (x : Name)
  | erasedUsage (x : Name)
  | notAFunction (ty : MarkedText)
  /-- An explicit argument for an implicit parameter, or the other way round. -/
  | plicityMismatch (ty : MarkedText)
  | notASigma (ty : MarkedText)
  | fieldNotFound (field : String) (ty : MarkedText)
  | wrongCaseCount (eliminator : String) (expected found : Nat)
  | notAnEquality (ty : MarkedText)
  | duplicateHole (x : Name)
  | noInstance (hole : Name) (ty : MarkedText)
  | unsolvedHoles (holes : List MarkedText)
  | unsolvedMetas (ms : List MetaId)
  | unsolvedConstraints (ms : List MetaId)
  | redefinition (x : Name)
  | stillUsed (x user : Name)
  | verification (e : Error)
  | internal (text : MarkedText)
  | located (span : Span) (e : Error)
deriving Inhabited

namespace Error

/-- Whether the error only says that two terms are not equal. -/
def isSoft : Error → Bool
  | .conversion .. => true
  | .located _ e => e.isSoft
  | _ => false

def locate (span : Span) : Error → Error
  | .located s e => .located s e
  | e => .located span e

def withNames (names : List Name) : Error → Error
  | .conversion size lhs rhs none => .conversion size lhs rhs (some names)
  | .located span e => .located span (e.withNames names)
  | e => e

def span? : Error → Option Span
  | .located span _ => some span
  | .verification e => e.span?
  | _ => none

def inner : Error → Error
  | .located _ e => e.inner
  | e => e

/-- A place does not change whether an error is soft. -/
@[simp] theorem isSoft_locate (span : Span) (e : Error) : (e.locate span).isSoft = e.isSoft := by
  cases e <;> rfl

/-- Names do not change whether an error is soft. -/
@[simp] theorem isSoft_withNames (names : List Name) (e : Error) :
    (e.withNames names).isSoft = e.isSoft := by
  fun_induction withNames names e <;> simp_all [isSoft]

/-- A place is not part of the inner error. -/
@[simp] theorem inner_locate (span : Span) (e : Error) : (e.locate span).inner = e.inner := by
  cases e <;> rfl

/-- The text of a term in an error. Names that do not fit the scope are replaced by `$0`, `$1`,
... -/
def showTerm (size : Nat) (names : Option (List Name)) (t : Term) : Except Fault MarkedText :=
  match names with
  | some ns => t.text (if ns.length = size then ns else levelNames size)
  | none => t.text (levelNames size)

def showMetas (ms : List MetaId) : MarkedText := .intercalate ", " (ms.map .metavar)

def message : Error → Except Fault MarkedText
  | .conversion size lhs rhs names => do
    let l ← showTerm size names lhs
    let r ← showTerm size names rhs
    return "could not match " ++ l ++ " with " ++ r
  | .scope m x =>
    return "variable " ++ x ++ " is not in scope in the solution of " ++ .metavar m
  | .occurs m => return .metavar m ++ " occurs in its own solution"
  | .nonLinearSpine m => return .metavar m ++ " is applied to the same variable more than once"
  | .unboundVariable x => return s!"name not found: {x}"
  | .erasedUsage x => return s!"erased variable {x} used in a runtime position"
  | .notAFunction ty => return "expected a function type in application, got " ++ ty
  | .plicityMismatch ty => return "plicity mismatch: " ++ ty
  | .notASigma ty => return "expected a sigma type in projection, got " ++ ty
  | .fieldNotFound field ty => return s!"no field named {field} in " ++ ty
  | .wrongCaseCount e expected found => return s!"{e} expects {expected} cases, got {found}"
  | .notAnEquality ty => return "expected an equality, got " ++ ty
  | .duplicateHole x => return s!"hole ?{x} appears more than once"
  | .noInstance x ty => return s!"no instance found for ?{x} : " ++ ty
  | .unsolvedHoles holes => return "unsolved holes: " ++ .intercalate ", " holes
  | .unsolvedMetas ms => return "unsolved metas: " ++ showMetas ms
  | .unsolvedConstraints ms => return "unsolved constraints remain on " ++ showMetas ms
  | .redefinition x => return s!"cannot redefine global {x}"
  | .stillUsed x user => return s!"global {x} is still used by {user}"
  | .verification e => return "verification failed: " ++ (← e.message)
  | .internal text => return "internal error: " ++ text
  | .located _ e => e.message

def doc (e : Error) : Except Fault Doc := do
  let text ← e.inner.message
  return (Doc.empty.styledText "Error" (some .error)).text ": " |>.text text

end Error

end Elaborator
