import Elaborator.Config
import Elaborator.Decimal
import Elaborator.Fault

/-!
# Configuration by arguments

Switches are given by letter (`-ev`) or by name (`--verify`), options by name with a value
(`--instance-depth=3` or `--instance-depth 3`).
-/

namespace Elaborator

inductive ConfigError
  | unrecognized (text : String)
  | missingValue (option : String)
  | badValue (option value : String)
  | malformed
deriving DecidableEq, Repr

def ConfigError.message : ConfigError → String
  | .unrecognized text => s!"unrecognized flag or option '{text}'"
  | .missingValue option => s!"option '{option}' expects a value"
  | .badValue option value => s!"invalid value '{value}' for option '{option}'"
  | .malformed => "malformed configuration"

namespace Config

def help : String :=
  "Flags:\n" ++
  "    -e, --show-envs            Include local contexts in debug events\n" ++
  "    -v, --verify               Re-typecheck and erase every elaborated definition\n" ++
  "    -n, --full-norm            Unfold globals when normalizing\n" ++
  "    -r, --allow-redefinition   Let a definition replace an existing global\n" ++
  "\n" ++
  "Options:\n" ++
  "    --instance-prefix <str>    Globals and locals starting with this are instance candidates\n" ++
  "    --instance-depth <n>       How many nested instance arguments to search for\n"

def setOption (c : Config) (option value : String) : Except ConfigError Config :=
  match option with
  | "instance-prefix" => .ok { c with instancePrefix := value }
  | "instance-depth" =>
    match Decimal.read? wordLimit value.toList with
    | some n => .ok { c with instanceDepth := n }
    | none => .error (.badValue option value)
  | _ => .error (.unrecognized option)

def setLetters (c : Config) : List Char → Except ConfigError Config
  | [] => .ok c
  | ch :: chs =>
    match Flag.ofLetter? ch with
    | some f => (c.setFlag f true).setLetters chs
    | none => .error (.unrecognized (String.ofList ['-', ch]))

def splitAssignment? (cs : List Char) : Option (String × String) :=
  match cs.dropWhile (· != '=') with
  | [] => none
  | _ :: value => some (String.ofList (cs.takeWhile (· != '=')), String.ofList value)

def withArgs (c : Config) : List String → Except ConfigError Config
  | [] => .ok c
  | arg :: rest =>
    match arg.toList with
    | '-' :: '-' :: cs =>
      let long := String.ofList cs
      match Flag.ofName? long with
      | some f => (c.setFlag f true).withArgs rest
      | none =>
        match splitAssignment? cs with
        | some (option, value) => do
          let c ← c.setOption option value
          c.withArgs rest
        | none =>
          match rest with
          | [] => .error (.missingValue long)
          | value :: rest => do
            let c ← c.setOption long value
            c.withArgs rest
    | '-' :: letters => do
      let c ← c.setLetters letters
      c.withArgs rest
    | _ => .error (.unrecognized arg)

end Config

end Elaborator
