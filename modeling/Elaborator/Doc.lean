import Elaborator.Text.Marked

/-!
# Styled documents

A `Doc` is text together with the precedence of what it prints, so that its user knows when
parentheses are needed. Pieces of text may carry a style. The style of a document covers each part
that has none of its own, nested documents and parts that are added later included.
-/

namespace Elaborator

inductive Style
  | keyword
  | literal
  | error
deriving DecidableEq, Repr

def Style.codes : Style → String
  | .keyword => "1;35"
  | .literal => "36"
  | .error => "1;31"

def Style.paint (s : Style) (text : MarkedText) : MarkedText :=
  "\x1b[" ++ s.codes ++ "m" ++ text ++ "\x1b[0m"

/-- How tightly a piece of printed text binds. An atom never needs parentheses. -/
inductive Prec
  | term
  | pair
  | app
  | atom
deriving DecidableEq, Repr

def Prec.rank : Prec → Nat
  | .term => 0
  | .pair => 1
  | .app => 2
  | .atom => 3

mutual

inductive Part
  | text (s : MarkedText) (style : Option Style)
  | newline
  | nested (d : Doc)

/-- Parts in order, with the precedence of the whole and a style for the parts without one. -/
structure Doc where
  parts : List Part
  prec : Prec
  /-- The style of the parts that have none of their own. -/
  style : Option Style

end

/-! ## Rendering -/

def Style.render (styled : Bool) (style : Option Style) (text : MarkedText) : MarkedText :=
  match styled, style with
  | true, some s => s.paint text
  | _, _ => text

mutual

def Part.render (styled : Bool) (current : Option Style) : Part → MarkedText
  | .text s style => Style.render styled (style <|> current) s
  | .newline => "\n"
  | .nested d => d.renderIn styled current

def Part.renderAll (styled : Bool) (current : Option Style) : List Part → MarkedText
  | [] => ⟨[]⟩
  | p :: ps => p.render styled current ++ Part.renderAll styled current ps

def Doc.renderIn (styled : Bool) (outer : Option Style) : Doc → MarkedText
  | ⟨parts, _, style⟩ => Part.renderAll styled (style <|> outer) parts

end

namespace Doc

def render (d : Doc) (styled : Bool) : MarkedText := d.renderIn styled none

/-! ## Building -/

def empty : Doc := ⟨[], .atom, none⟩

instance : Inhabited Doc := ⟨empty⟩

def push (d : Doc) (p : Part) : Doc := { d with parts := d.parts ++ [p] }

def text (d : Doc) (s : MarkedText) : Doc := d.push (.text s none)

def styledText (d : Doc) (s : MarkedText) (style : Option Style) : Doc := d.push (.text s style)

def keyword (d : Doc) (s : String) : Doc := d.styledText s (some .keyword)

def ofText (s : MarkedText) : Doc := empty.text s

/-- Adds a document as one part. The precedence stays that of the first document. -/
def chain (d e : Doc) : Doc := d.push (.nested e)

def hardline (d : Doc) : Doc := d.push .newline

def space (d : Doc) : Doc := d.text " "

def withPrec (d : Doc) (prec : Prec) : Doc := { d with prec }

/-- Sets the style, unless `none` is given. -/
def withStyle (d : Doc) (style : Option Style) : Doc := { d with style := style <|> d.style }

/-- Puts the document in parentheses if it binds looser than `prec`. -/
def nest (d : Doc) (prec : Prec) : Doc :=
  if d.prec.rank < prec.rank then (ofText "(").chain d |>.text ")" else d

def joinParts (sep : Doc) : List Doc → List Part
  | [] => []
  | [d] => [.nested d]
  | d :: ds => .nested d :: .nested sep :: joinParts sep ds

def intersperse (docs : List Doc) (sep : Doc) : Doc := ⟨joinParts sep docs, .term, none⟩

end Doc

end Elaborator
