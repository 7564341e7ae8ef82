import Elaborator.Config.Args
import Elaborator.Json

/-!
# Configuration as JSON

A configuration is written as an object with one member for each setting. It is read from such an
object, in which members may be missing and unknown ones are skipped, or from an array of the
settings in order, in which the last ones may be missing. A setting must not be given twice.
-/

namespace Elaborator.Config

def fields : List String :=
  ["show-envs", "verify", "full-norm", "allow-redefinition", "instance-prefix", "instance-depth"]

def setField? (c : Config) (field : String) (v : Json) : Option Config :=
  match field, v with
  | "instance-prefix", .string (some s) => some { c with instancePrefix := s }
  | "instance-depth", .number (some n) =>
    if n < wordLimit then some { c with instanceDepth := n } else none
  | _, .bool b => (Flag.ofName? field).map fun f => c.setFlag f b
  | _, _ => none

/-- Sets the members of an object one after the other; `seen` holds the settings already given. -/
def setMembers? (c : Config) (seen : List String) : List (Option String × Json) → Option Config
  | [] => some c
  | (none, _) :: _ => none
  | (some key, v) :: ms =>
    if fields.contains key then
      if seen.contains key then none
      else do
        let c ← c.setField? key v
        c.setMembers? (key :: seen) ms
    else
      c.setMembers? seen ms

def setItems? (c : Config) : List String → List Json → Option Config
  | _, [] => some c
  | field :: fields, v :: vs => do
    let c ← c.setField? field v
    c.setItems? fields vs
  | [], _ :: _ => none

def ofJson (text : String) : Except ConfigError Config :=
  let read := match Json.read? text with
    | some (.object ms) => setMembers? {} [] ms
    | some (.array vs) => setItems? {} fields vs
    | _ => none
  match read with
  | some c => .ok c
  | none => .error .malformed

def jsonLine (field value : String) : String := "  " ++ Json.quote field ++ ": " ++ value

def toJson (c : Config) : String :=
  let lines :=
    [jsonLine "show-envs" (toString c.showEnvs), jsonLine "verify" (toString c.verify),
      jsonLine "full-norm" (toString c.fullNorm),
      jsonLine "allow-redefinition" (toString c.allowRedefinition),
      jsonLine "instance-prefix" (Json.quote c.instancePrefix),
      jsonLine "instance-depth" (toString c.instanceDepth)]
  "\x7b\n" ++ String.intercalate ",\n" lines ++ "\n\x7d"

end Elaborator.Config
