import Elaborator.Term

/-!
# Texts that show metavariables

A text for the user shows metavariables by their numbers. `MarkedText` keeps the places where it
does so: it is made of characters, which stay as they are, and of metavariables. The text itself is
`toString`.
-/

namespace Elaborator

inductive Piece
  | chars (s : String)
  | metavar (m : MetaId)
deriving DecidableEq

instance : ToString Piece where
  toString
    | .chars s => s
    | .metavar m => toString m

structure MarkedText where
  pieces : List Piece
deriving DecidableEq, Inhabited

namespace MarkedText

def metavar (m : MetaId) : MarkedText := ⟨[.metavar m]⟩

instance : Coe String MarkedText := ⟨fun s => ⟨[.chars s]⟩⟩

instance : Append MarkedText := ⟨fun t u => ⟨t.pieces ++ u.pieces⟩⟩

instance : ToString MarkedText := ⟨fun t => String.join (t.pieces.map toString)⟩

def intercalate (sep : String) : List MarkedText → MarkedText
  | [] => ⟨[]⟩
  | [t] => t
  | t :: ts => t ++ sep ++ intercalate sep ts

end MarkedText

end Elaborator
