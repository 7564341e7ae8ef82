import Elaborator.Elaborate
import Elaborator.Verify

/-!
# Sessions

A session holds the definitions that were made so far. Commands elaborate terms over them, add
definitions, remove them and look them up. A command that fails leaves the definitions that it
already made.

Metavariables are numbered through the whole session, so their numbers in errors tell commands
apart.
-/

namespace Elaborator

/-- The fuel that commands are given unless there is a reason for more or less. It bounds the depth
of a computation, not its length. -/
def defaultFuel : Nat := 20000

structure Def where
  name : Name
  erased : Bool
  ty : Option Surface
  value : Surface

def Def.surface (d : Def) : Surface :=
  match d.ty with
  | some ty => .ann d.value ty
  | none => d.value

structure Checked where
  term : Term
  ty : Term
  /-- What is left of it at run time, if terms are verified. -/
  erased : Option Erased
  normal : Term

/-- Settings and definitions, with the metavariables of the last elaboration. -/
structure Session where
  config : Config
  globals : Globals
  metas : MetaStore
  log : List Event

abbrev Command := EStateM Failure Session

namespace Session

def new (config : Config) : Session := ⟨config, .empty, .empty, []⟩

instance : Inhabited Session := ⟨new {}⟩

def ofExcept {α : Type} : Except Fault α → Command α
  | .ok a => pure a
  | .error f => throw (.fault f)

instance : MonadLift (Except Fault) Command := ⟨ofExcept⟩

def refuse {α : Type} (e : Error) : Command α := throw (.error e)

def run {α : Type} (x : Action α) : Command α := fun s =>
  match x { metas := s.metas, holes := [], log := s.log } with
  | .ok a t => .ok a { s with metas := t.metas, log := t.log }
  | .error e t => .error e { s with metas := t.metas, log := t.log }

/-! ## Terms -/

def elaborateAs (fuel : Nat) (erased : Bool) (tm : Surface) : Command (Term × Val) := do
  let s ← get
  run (Elaborator.elaborate fuel { config := s.config, globals := s.globals } erased tm)

/-- Verifies an elaborated term, and compares the type found with the one from elaboration. -/
def verifyAs (fuel : Nat) (erased : Bool) (term : Term) (ty : Val) : Command Erased := do
  let g := (← get).globals
  run <| Action.mapError Error.verification <| Action.isolated do
    let (found, e) ← Elaborator.verify fuel g erased term
    sameType fuel g found ty
    return e

def verifyIfAsked (fuel : Nat) (erased : Bool) (term : Term) (ty : Val) : Command (Option Erased) :=
  do
  if (← get).config.verify then
    return some (← verifyAs fuel erased term ty)
  else
    return none

def typecheck (fuel : Nat) (tm : Surface) : Command Checked := do
  let (term, ty) ← elaborateAs fuel false tm
  let erased ← verifyIfAsked fuel false term ty
  let s ← get
  let normal ← term.normalize fuel s.metas s.config.fullNorm s.globals.env
  return { term, ty := ← ty.quote fuel s.metas false 0, erased, normal }

/-! ## Definitions -/

/-- Makes sure that a name may be defined: a definition is replaced only if that is allowed and no
other definition needs it. -/
def checkFree (x : Name) : Command Unit := do
  let s ← get
  if s.globals.contains x then
    if s.config.allowRedefinition then
      match s.globals.dependents x with
      | user :: _ => refuse (.stillUsed x user)
      | [] => pure ()
    else
      refuse (.redefinition x)

def defineOne (fuel : Nat) (d : Def) : Command Unit := do
  checkFree d.name
  let (term, ty) ← elaborateAs fuel d.erased d.surface
  let erasedTerm ← verifyIfAsked fuel d.erased term ty
  let val ← term.eval fuel (← get).globals.env
  modify fun s => { s with
    globals := s.globals.insert d.name { term, val, ty, erased := d.erased, erasedTerm }
    log := .define d.name term :: s.log }

/-- Adds definitions in order and gives their names. Each one may use those before it. Nothing is
done if one of them is not allowed to replace a definition of the session. -/
def define (fuel : Nat) (defs : List Def) : Command (List Name) := do
  let s ← get
  if !s.config.allowRedefinition then
    match defs.find? fun d => s.globals.contains d.name with
    | some d => refuse (.redefinition d.name)
    | none => pure ()
  defs.forM (defineOne fuel)
  return defs.map (·.name)

def delete (x : Name) : Command Unit := do
  let g := (← get).globals
  if g.contains x then
    match g.dependents x with
    | user :: _ => refuse (.stillUsed x user)
    | [] => modify fun s => { s with globals := s.globals.erase x }
  else
    refuse (.unboundVariable x)

def clear : Command Unit :=
  modify fun s => { s with globals := .empty, metas := s.metas.reset }

/-! ## Looking up -/

def entry (x : Name) : Command Definition := do
  match (← get).globals.find? x with
  | some d => return d
  | none => refuse (.unboundVariable x)

def typeOf (fuel : Nat) (x : Name) : Command Term := do
  let d ← entry x
  d.ty.quote fuel (← get).metas false 0

def termOf (x : Name) : Command Term := return (← entry x).term

/-- The normal form of a definition, with other globals unfolded if `full`. -/
def normalize (fuel : Nat) (full : Bool) (x : Name) : Command Term := do
  let d ← entry x
  d.val.quote fuel (← get).metas full 0

def definitionDoc (fuel : Nat) (ms : MetaStore) (x : Name) (d : Definition) : Except Fault Doc := do
  let ty ← d.ty.quote fuel ms false 0
  return (Doc.empty.text (erasedMark d.erased)).text x.text |>.text " : " |>.chain (← ty.doc [])
    |>.text " = " |>.chain (← d.term.doc [])

def definitionsDoc (fuel : Nat) : Command Doc := do
  let s ← get
  let docs ← s.globals.definitions.mapM fun (x, d) => definitionDoc fuel s.metas x d
  return Doc.intersperse docs Doc.empty.hardline

end Session

end Elaborator
