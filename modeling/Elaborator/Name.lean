import Elaborator.Decimal
import Elaborator.Fault

/-!
# Names

Names of variables, globals and holes. Any text is a name. The underscore is the name of a binder
that nothing refers to by name. `Name.next` gives the variants `x$0`, `x$1`, ... that the printer
uses to keep binders apart.
-/

namespace Elaborator

structure Name where
  text : String
deriving DecidableEq, Repr, Inhabited

namespace Name

instance : ToString Name := ⟨text⟩

instance : Coe String Name := ⟨Name.mk⟩

/-- The name that nothing refers to. -/
def underscore : Name := ⟨"_"⟩

def isUnderscore (x : Name) : Bool := x == underscore

/-- The stem and the number of a name of the form `stem$number`, split at the last `$`. -/
def suffix? (x : Name) : Option (List Char × Nat) :=
  let back := x.text.toList.reverse
  let digits := (back.takeWhile (· != '$')).reverse
  match back.dropWhile (· != '$') with
  | [] => none
  | _ :: stem => (Decimal.read? wordLimit digits).map fun n => (stem.reverse, n)

/-- The next variant of a name: `x` gives `x$0`, and `x$0` gives `x$1`. The underscore is its own
variant. -/
def next (x : Name) : Except Fault Name :=
  if x.isUnderscore then
    .ok x
  else
    match x.suffix? with
    | some (stem, n) =>
      if n + 1 < wordLimit then
        .ok ⟨String.ofList stem ++ "$" ++ toString (n + 1)⟩
      else
        .error .overflow
    | none => .ok ⟨x.text ++ "$0"⟩

def variants (x : Name) : Nat → Except Fault (List Name)
  | 0 => .ok []
  | n + 1 => do
    let y ← x.next
    return y :: (← y.variants n)

end Name

end Elaborator
