/-!
# Decimal numbers below a bound

The numbers that names and configuration options hold are written in decimal, with an optional plus
sign and any number of leading zeros.
-/

namespace Elaborator.Decimal

def digit? (c : Char) : Option Nat :=
  if '0' ≤ c ∧ c ≤ '9' then some (c.toNat - '0'.toNat) else none

/-- The value of a list of digits behind the digits that make up `acc`; `none` on any other
character. -/
def digits? (acc : Nat) : List Char → Option Nat
  | [] => some acc
  | c :: cs =>
    match digit? c with
    | some d => digits? (10 * acc + d) cs
    | none => none

/-- Reads at least one digit behind an optional plus sign. Values from `limit` on are refused. -/
def read? (limit : Nat) (cs : List Char) : Option Nat :=
  let ds := match cs with
    | '+' :: rest => rest
    | _ => cs
  match ds with
  | [] => none
  | _ => (digits? 0 ds).filter (· < limit)

end Elaborator.Decimal
