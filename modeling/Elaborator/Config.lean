/-!
# Configuration

What a user can set for a session: four switches and the two parameters of instance search.
-/

namespace Elaborator

structure Config where
  showEnvs : Bool := false
  verify : Bool := true
  fullNorm : Bool := false
  allowRedefinition : Bool := false
  /-- Variables and globals whose names begin like this are instances. -/
  instancePrefix : String := "inst"
  /-- How many instances may be nested in one that is searched for. -/
  instanceDepth : Nat := 4
deriving DecidableEq, Repr, Inhabited

inductive Flag
  | showEnvs
  | verify
  | fullNorm
  | allowRedefinition
deriving DecidableEq, Repr

namespace Flag

def ofLetter? : Char → Option Flag
  | 'e' => some .showEnvs
  | 'v' => some .verify
  | 'n' => some .fullNorm
  | 'r' => some .allowRedefinition
  | _ => none

def name : Flag → String
  | .showEnvs => "show-envs"
  | .verify => "verify"
  | .fullNorm => "full-norm"
  | .allowRedefinition => "allow-redefinition"

def ofName? (s : String) : Option Flag :=
  [showEnvs, verify, fullNorm, allowRedefinition].find? (·.name == s)

end Flag

namespace Config

def flag (c : Config) : Flag → Bool
  | .showEnvs => c.showEnvs
  | .verify => c.verify
  | .fullNorm => c.fullNorm
  | .allowRedefinition => c.allowRedefinition

def setFlag (c : Config) (f : Flag) (b : Bool) : Config :=
  match f with
  | .showEnvs => { c with showEnvs := b }
  | .verify => { c with verify := b }
  | .fullNorm => { c with fullNorm := b }
  | .allowRedefinition => { c with allowRedefinition := b }

def toggle (c : Config) (f : Flag) : Config := c.setFlag f !(c.flag f)

/-- Setting a switch sets this one and no other. -/
@[simp] theorem flag_setFlag (c : Config) (f g : Flag) (b : Bool) :
    (c.setFlag f b).flag g = if g = f then b else c.flag g := by
  cases f <;> cases g <;> rfl

/-- Flipping a switch twice changes nothing. -/
@[simp] theorem toggle_toggle (c : Config) (f : Flag) : (c.toggle f).toggle f = c := by
  cases f <;> simp [toggle, flag, setFlag]

end Config

end Elaborator
