import Elaborator.Error

/-!
# Reports

The head of an error report: a line with the error and a line with the place in the source text
where it belongs. Places are counted in characters. A line ends behind a line feed, a carriage
return (with a line feed behind it, if there is one) or one of the other Unicode line ends.
-/

namespace Elaborator.Report

def isLineEnd (c : Char) : Bool :=
  c == '\r' || c == '\n' || c == '\x0b' || c == '\x0c' || c == '\u0085' || c ==
    '\u2028' || c == '\u2029'

/-- The lengths of the lines of a text, line ends included, if `n` characters of the first line are
gone by. -/
def lineLengths (n : Nat) : List Char → List Nat
  | [] => if n = 0 then [] else [n]
  | '\r' :: '\n' :: cs => (n + 2) :: lineLengths 0 cs
  | c :: cs => if isLineEnd c then (n + 1) :: lineLengths 0 cs else lineLengths (n + 1) cs

/-- The line and the column of a position, both from zero on, if `line` lines are gone by. The
position behind the last character belongs to the last line. -/
def locateIn (line : Nat) (offset : Nat) : List Nat → Option (Nat × Nat)
  | [] => none
  | [n] => if offset ≤ n then some (line, offset) else none
  | n :: ns => if offset < n then some (line, offset) else locateIn (line + 1) (offset - n) ns

def locate (source : String) (offset : Nat) : Option (Nat × Nat) :=
  locateIn 0 offset (lineLengths 0 source.toList)

def frame (s : String) : String := "\x1b[38;5;246m" ++ s ++ "\x1b[0m"

def lineNumberWidth (source : String) (span : Span) : Nat :=
  let last := match locate source (max (span.stop - 1) span.start) with
    | some (line, _) => line + 1
    | none => (lineLengths 0 source.toList).length
  (toString last).length

def place (source : String) (offset : Nat) : String :=
  match locate source offset with
  | some (line, column) => toString (line + 1) ++ ":" ++ toString (column + 1)
  | none => "?:?"

def textLines (s : String) : List String :=
  (s.splitOn "\n").map fun l => if l.endsWith "\r" then (l.dropEnd 1).toString else l

/-- The first two lines of the report on an error in a source text. Errors without a place are shown
at its beginning. -/
def head (source : String) (e : Error) : Except Fault (List String) := do
  let span := e.span?.getD ⟨0, 0⟩
  let message := toString (← e.inner.message)
  let margin := String.ofList (List.replicate (lineNumberWidth source span + 2) ' ')
  let text := "\x1b[31mError:\x1b[0m " ++ message ++ "\n" ++ margin ++ frame "╭" ++ frame "─"
    ++ frame "[" ++ "<unknown>:" ++ place source span.start ++ frame "]"
  return (textLines text).take 2

end Elaborator.Report
