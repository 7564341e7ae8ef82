import Elaborator.Text.Unprintable

/-!
# Quoted texts

A text between double quotes in which every character can be told apart: quotes and backslashes have
a backslash before them, and characters that do not show are written by their number.
-/

namespace Elaborator.Text

def hex (n : Nat) : List Char := Nat.toDigits 16 n

def quoteChar (c : Char) : List Char :=
  match c with
  | '\x00' => ['\\', '0']
  | '\t' => ['\\', 't']
  | '\r' => ['\\', 'r']
  | '\n' => ['\\', 'n']
  | '\\' => ['\\', '\\']
  | '"' => ['\\', '"']
  | c => if isUnprintable c then ['\\', 'u', '\x7b'] ++ hex c.toNat ++ ['\x7d'] else [c]

def quoted (s : String) : String := "\"" ++ String.ofList (s.toList.flatMap quoteChar) ++ "\""

def quotedSet (xs : List String) : String :=
  "\x7b" ++ String.intercalate ", " (xs.map quoted) ++ "\x7d"

end Elaborator.Text
