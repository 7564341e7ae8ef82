import Elaborator.Doc
import Elaborator.Term.Named

/-!
# Printing core terms

`Named.doc` lays a named term out as a document, and `Term.doc` prints a core term through its named
view. Applications, projections and eliminations bind tighter than function and pair types, which
bind tighter than functions and let-bindings.
-/

namespace Elaborator

def erasedMark (erased : Bool) : String := if erased then "0 " else ""

namespace Named

/-- The binder of a function type or a pair type. An explicit, unmarked underscore shows only its
type. -/
def binderDoc (icit : Icit) (x : Name) (erased : Bool) (dom : Doc) : Doc :=
  if x.isUnderscore && icit == .expl && !erased then
    dom.nest .app
  else
    let (opening, closing) := match icit with
      | .impl => ("\x7b", "\x7d")
      | .expl => ("(", ")")
    (Doc.ofText opening).text (erasedMark erased) |>.text x.text |>.text " : " |>.chain dom
      |>.text closing

mutual

def doc : Named → Doc
  | .type => Doc.empty.keyword "Type"
  | .var x => Doc.ofText x.text
  | .unbound i => Doc.ofText ("#" ++ toString i.toNat)
  | .global x => Doc.ofText x.text
  | .metavar m => (Doc.ofText (.metavar m)).withStyle (some .literal)
  | .prim p => Doc.ofText p.name
  | .nat n => (Doc.ofText (toString n)).withStyle (some .literal)
  | .app f icit x =>
    let arg := match icit with
      | .impl => (Doc.ofText "\x7b").chain x.doc |>.text "\x7d"
      | .expl => x.doc.nest .atom
    (f.doc.nest .app).space.chain arg |>.withPrec .app
  | .lam icit x erased body =>
    let binder := match icit with
      | .impl => (Doc.ofText "\x7b").text (erasedMark erased) |>.text x.text |>.text "\x7d"
      | .expl => (Doc.ofText (erasedMark erased)).text x.text
    (Doc.ofText "\\").chain binder |>.text "." |>.space |>.chain (body.doc.nest .term)
      |>.withPrec .term
  | .binderType icit x erased dom body =>
    let arrow := match icit with
      | some _ => "->"
      | none => "**"
    (binderDoc (icit.getD .expl) x erased dom.doc).space.text arrow |>.space
      |>.chain (body.doc.nest .pair) |>.withPrec .pair
  | .pair a b => (Doc.ofText "(").chain a.doc |>.text "," |>.space |>.chain b.doc |>.text ")"
  | .proj x p => (Doc.ofText p.name).space.chain (x.doc.nest .atom) |>.withPrec .app
  | .letIn x erased ty val body =>
    (Doc.empty.keyword "let").space.text (erasedMark erased) |>.text x.text |>.text " : "
      |>.chain ty.doc |>.text " = " |>.chain val.doc |>.space |>.keyword "in" |>.space
      |>.chain body.doc |>.withPrec .term
  | .elim e motive scrut cases =>
    (Doc.intersperse
      (Doc.ofText e.name :: motive.doc.nest .atom :: scrut.doc.nest .atom :: atoms cases)
      Doc.empty.space).withPrec .app

def atoms : List Named → List Doc
  | [] => []
  | t :: ts => t.doc.nest .atom :: atoms ts

end

end Named

namespace Term

def doc (names : List Name) (t : Term) : Except Fault Doc := (t.named names).map Named.doc

/-- The text of a term in a scope with these `names`, without colours. -/
def text (names : List Name) (t : Term) : Except Fault MarkedText :=
  (t.doc names).map (·.render false)

end Term

/-- The names `$0`, `$1`, ... for a scope whose names are not known, innermost first. -/
def levelNames (size : Nat) : List Name :=
  ((List.range size).map fun l => (⟨"$" ++ toString l⟩ : Name)).reverse

end Elaborator
