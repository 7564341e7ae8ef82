import Elaborator.Doc
import Elaborator.Term

/-!
# Erased terms

What is left of a core term at run time: types, implicit arguments and erased binders are gone.
Variables are indices that count only the binders that are left.

An erased term is printed through its named view (`Erased.named`), in which each variable has the
name of its binder.
-/

namespace Elaborator

/-- Terms without types, implicit arguments and erased binders. -/
inductive Erased
  /-- A variable, counted over the binders that survive. -/
  | var (i : Nat)
  | global (x : Name)
  | abs (x : Name) (body : Erased)
  | app (f x : Erased)
  | pair (fst snd : Erased)
  | fst (x : Erased)
  | snd (x : Erased)
  | letIn (x : Name) (val body : Erased)
  | nat (n : Nat)
  | prim (p : Prim)
  | cond (c t f : Erased)
  | elimNat (n z s : Erased)
  /-- Stands for everything that matters only at compile time. -/
  | type
deriving DecidableEq, Repr, Inhabited

/-- Erased terms with the names they are printed with. -/
inductive NamedErased
  | var (x : Name)
  /-- A variable that the given names do not cover. -/
  | unbound (i : Nat)
  | global (x : Name)
  | abs (x : Name) (body : NamedErased)
  | app (f x : NamedErased)
  | pair (fst snd : NamedErased)
  | fst (x : NamedErased)
  | snd (x : NamedErased)
  | letIn (x : Name) (val body : NamedErased)
  | nat (n : Nat)
  | prim (p : Prim)
  | cond (c t f : NamedErased)
  | elimNat (n z s : NamedErased)
  | type

/-- The named view of an erased term in a scope with these `names`, innermost first. Every binder
keeps the name that it has. -/
def Erased.named (names : List Name) : Erased → NamedErased
  | .var i =>
    match names[i]? with
    | some x => .var x
    | none => .unbound i
  | .global x => .global x
  | .abs x body => .abs x (body.named (x :: names))
  | .app f x => .app (f.named names) (x.named names)
  | .pair a b => .pair (a.named names) (b.named names)
  | .fst x => .fst (x.named names)
  | .snd x => .snd (x.named names)
  | .letIn x val body => .letIn x (val.named names) (body.named (x :: names))
  | .nat n => .nat n
  | .prim p => .prim p
  | .cond c t f => .cond (c.named names) (t.named names) (f.named names)
  | .elimNat n z s => .elimNat (n.named names) (z.named names) (s.named names)
  | .type => .type

def NamedErased.doc : NamedErased → Doc
  | .var x => Doc.ofText x.text
  | .unbound i => Doc.ofText ("#" ++ toString i)
  | .global x => Doc.ofText x.text
  | .abs x body =>
    (Doc.ofText "\\").text x.text |>.text "." |>.space |>.chain body.doc |>.withPrec .term
  | .app f x => (f.doc.nest .app).space.chain (x.doc.nest .atom) |>.withPrec .app
  | .pair a b => (Doc.ofText "(").chain a.doc |>.text "," |>.space |>.chain b.doc |>.text ")"
  | .fst x => (Doc.ofText "fst").space.chain (x.doc.nest .atom) |>.withPrec .app
  | .snd x => (Doc.ofText "snd").space.chain (x.doc.nest .atom) |>.withPrec .app
  | .letIn x val body =>
    (Doc.empty.keyword "let").space.text x.text |>.text " = " |>.chain val.doc |>.space
      |>.keyword "in" |>.space |>.chain body.doc |>.withPrec .term
  | .nat n => (Doc.ofText (toString n)).withStyle (some .literal)
  | .prim p => Doc.ofText p.name
  | .cond c t f =>
    (Doc.empty.keyword "if").space.chain c.doc |>.space |>.keyword "then" |>.space
      |>.chain t.doc |>.space |>.keyword "else" |>.space |>.chain f.doc |>.withPrec .term
  | .elimNat n z s =>
    (Doc.ofText "elimNat").space.chain (n.doc.nest .atom) |>.space |>.chain (z.doc.nest .atom)
      |>.space |>.chain (s.doc.nest .atom) |>.withPrec .app
  | .type => Doc.ofText "*"

namespace Erased

def doc (names : List Name) (e : Erased) : Doc := (e.named names).doc

def text (e : Erased) : String := toString ((e.doc []).render false)

end Erased

end Elaborator
