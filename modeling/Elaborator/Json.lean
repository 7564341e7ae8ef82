/-!
# JSON texts

A reader for JSON texts and a writer for JSON strings. The reader keeps of each value what its users
need: a number only if it is written as a natural number, and a string only if its escapes name
characters. An escape may also name half of a surrogate pair that has no other half; then the string
is a string but has no text.

A text is split into tokens first, and the tokens are then put together. Both passes get along with
as many steps as there are characters or tokens.
-/

namespace Elaborator

inductive Json
  | null
  | bool (b : Bool)
  /-- A number, with its value if it is written as a natural number. -/
  | number (n : Option Nat)
  /-- A string, with its text if all escapes in it name characters. -/
  | string (s : Option String)
  | array (items : List Json)
  /-- Members in the order of the text. Keys may be repeated. -/
  | object (members : List (Option String × Json))

namespace Json

/-! ## Strings -/

/-- A part of a string: a character or an escaped UTF-16 unit. -/
inductive Piece
  | char (c : Char)
  | unit (n : Nat)

def hexDigit? (c : Char) : Option Nat :=
  if '0' ≤ c ∧ c ≤ '9' then some (c.toNat - '0'.toNat)
  else if 'a' ≤ c ∧ c ≤ 'f' then some (c.toNat - 'a'.toNat + 10)
  else if 'A' ≤ c ∧ c ≤ 'F' then some (c.toNat - 'A'.toNat + 10)
  else none

def hexUnit? (a b c d : Char) : Option Nat := do
  let a ← hexDigit? a
  let b ← hexDigit? b
  let c ← hexDigit? c
  let d ← hexDigit? d
  return ((a * 16 + b) * 16 + c) * 16 + d

def escape? : Char → Option Char
  | '"' => some '"'
  | '\\' => some '\\'
  | '/' => some '/'
  | 'b' => some '\x08'
  | 'f' => some '\x0c'
  | 'n' => some '\n'
  | 'r' => some '\r'
  | 't' => some '\t'
  | _ => none

/-- The pieces of a string behind its opening quote, and what follows the closing one. -/
def stringPieces? : List Char → Option (List Piece × List Char)
  | [] => none
  | '"' :: cs => some ([], cs)
  | '\\' :: 'u' :: a :: b :: c :: d :: cs => do
    let n ← hexUnit? a b c d
    let (ps, rest) ← stringPieces? cs
    return (.unit n :: ps, rest)
  | '\\' :: e :: cs => do
    let c ← escape? e
    let (ps, rest) ← stringPieces? cs
    return (.char c :: ps, rest)
  | c :: cs =>
    if c = '\\' ∨ c.toNat < 0x20 then none
    else do
      let (ps, rest) ← stringPieces? cs
      return (.char c :: ps, rest)

/-- The characters of a string. The first half of a surrogate pair has to be followed by the second
half. -/
def decode? : List Piece → Option (List Char)
  | [] => some []
  | .char c :: ps => (c :: ·) <$> decode? ps
  | .unit n :: .unit m :: ps =>
    if 0xD800 ≤ n ∧ n < 0xDC00 then
      if 0xDC00 ≤ m ∧ m < 0xE000 then
        (Char.ofNat ((n - 0xD800) * 0x400 + (m - 0xDC00) + 0x10000) :: ·) <$> decode? ps
      else
        none
    else if 0xDC00 ≤ n ∧ n < 0xE000 then none
    else (Char.ofNat n :: ·) <$> decode? (.unit m :: ps)
  | .unit n :: ps =>
    if 0xD800 ≤ n ∧ n < 0xE000 then none else (Char.ofNat n :: ·) <$> decode? ps

def hexChar (n : Nat) : Char := if n < 10 then Char.ofNat (48 + n) else Char.ofNat (87 + n)

def encodeChar (c : Char) : List Char :=
  match c with
  | '"' => ['\\', '"']
  | '\\' => ['\\', '\\']
  | '\x08' => ['\\', 'b']
  | '\x0c' => ['\\', 'f']
  | '\n' => ['\\', 'n']
  | '\r' => ['\\', 'r']
  | '\t' => ['\\', 't']
  | c =>
    if c.toNat < 0x20 then ['\\', 'u', '0', '0', hexChar (c.toNat / 16), hexChar (c.toNat % 16)]
      else [c]

def quote (s : String) : String := "\"" ++ String.ofList (s.toList.flatMap encodeChar) ++ "\""

/-! ## Numbers -/

def digits? (cs : List Char) : Option (List Char × List Char) :=
  match cs.takeWhile Char.isDigit with
  | [] => none
  | ds => some (ds, cs.dropWhile Char.isDigit)

def integerPart? (cs : List Char) : Option (List Char × List Char) :=
  match digits? cs with
  | some ('0' :: _ :: _, _) => none
  | r => r

def fraction? : List Char → Option (Bool × List Char)
  | '.' :: cs => (digits? cs).map fun (_, rest) => (true, rest)
  | cs => some (false, cs)

def exponent? (cs : List Char) : Option (Bool × List Char) :=
  match cs with
  | c :: rest =>
    if c = 'e' ∨ c = 'E' then
      let ds := match rest with
        | '+' :: ds => ds
        | '-' :: ds => ds
        | ds => ds
      (digits? ds).map fun (_, rest) => (true, rest)
    else
      some (false, cs)
  | [] => some (false, [])

/-- A number without sign: its value if it is a natural number, and what follows it. -/
def unsigned? (cs : List Char) : Option (Option Nat × List Char) := do
  let (ds, cs) ← integerPart? cs
  let (hasFraction, cs) ← fraction? cs
  let (hasExponent, cs) ← exponent? cs
  let value := ds.foldl (fun n d => 10 * n + (d.toNat - '0'.toNat)) 0
  return (if hasFraction || hasExponent then none else some value, cs)

/-! ## Tokens -/

inductive Token
  | openBrace
  | closeBrace
  | openBracket
  | closeBracket
  | colon
  | comma
  | null
  | bool (b : Bool)
  | number (n : Option Nat)
  | string (s : Option String)

def token? : List Char → Option (Token × List Char)
  | '\x7b' :: cs => some (.openBrace, cs)
  | '\x7d' :: cs => some (.closeBrace, cs)
  | '[' :: cs => some (.openBracket, cs)
  | ']' :: cs => some (.closeBracket, cs)
  | ':' :: cs => some (.colon, cs)
  | ',' :: cs => some (.comma, cs)
  | 'n' :: 'u' :: 'l' :: 'l' :: cs => some (.null, cs)
  | 't' :: 'r' :: 'u' :: 'e' :: cs => some (.bool true, cs)
  | 'f' :: 'a' :: 'l' :: 's' :: 'e' :: cs => some (.bool false, cs)
  | '"' :: cs =>
    (stringPieces? cs).map fun (ps, rest) => (.string ((decode? ps).map String.ofList), rest)
  | '-' :: cs => (unsigned? cs).map fun (_, rest) => (.number none, rest)
  | cs => (unsigned? cs).map fun (n, rest) => (.number n, rest)

def isBlank (c : Char) : Bool := c == ' ' || c == '\t' || c == '\n' || c == '\r'

def tokens? : (steps : Nat) → List Char → Option (List Token)
  | 0, _ => none
  | steps + 1, cs =>
    match cs.dropWhile isBlank with
    | [] => some []
    | cs => do
      let (t, rest) ← token? cs
      return t :: (← tokens? steps rest)

/-! ## Values -/

mutual

def value? : (steps : Nat) → List Token → Option (Json × List Token)
  | 0, _ => none
  | steps + 1, ts =>
    match ts with
    | .null :: ts => some (.null, ts)
    | .bool b :: ts => some (.bool b, ts)
    | .number n :: ts => some (.number n, ts)
    | .string s :: ts => some (.string s, ts)
    | .openBracket :: .closeBracket :: ts => some (.array [], ts)
    | .openBracket :: ts => (items? steps ts).map fun (items, rest) => (.array items, rest)
    | .openBrace :: .closeBrace :: ts => some (.object [], ts)
    | .openBrace :: ts => (members? steps ts).map fun (members, rest) => (.object members, rest)
    | _ => none
termination_by structural steps => steps

def items? : (steps : Nat) → List Token → Option (List Json × List Token)
  | 0, _ => none
  | steps + 1, ts => do
    let (v, rest) ← value? steps ts
    match rest with
    | .comma :: rest =>
      let (vs, rest) ← items? steps rest
      return (v :: vs, rest)
    | .closeBracket :: rest => return ([v], rest)
    | _ => none
termination_by structural steps => steps

def members? : (steps : Nat) → List Token → Option (List (Option String × Json) × List Token)
  | 0, _ => none
  | steps + 1, ts =>
    match ts with
    | .string key :: .colon :: ts => do
      let (v, rest) ← value? steps ts
      match rest with
      | .comma :: rest =>
        let (ms, rest) ← members? steps rest
        return ((key, v) :: ms, rest)
      | .closeBrace :: rest => return ([(key, v)], rest)
      | _ => none
    | _ => none
termination_by structural steps => steps

end

def read? (text : String) : Option Json := do
  let cs := text.toList
  let ts ← tokens? (cs.length + 1) cs
  match ← value? (ts.length + 1) ts with
  | (v, []) => return v
  | _ => none

end Json

end Elaborator
