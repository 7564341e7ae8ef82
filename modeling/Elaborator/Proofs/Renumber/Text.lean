import Elaborator.Error
import Elaborator.Proofs.Printing.Document
import Elaborator.Proofs.Renumber.Basic

/-! # Other numbers in texts

A text for the user is renumbered where it shows a metavariable, and nowhere else: names and
numerals that look like one stay as they are. Printing commutes with this (`Term.text_renumber`),
and so do the messages of errors (`Error.message_renumber`). -/

namespace Elaborator

/-! ## Texts -/

def Piece.renumber (d : Nat) : Piece → Piece
  | .chars s => .chars s
  | .metavar m => .metavar (m.renumber d)

def MarkedText.renumber (d : Nat) (t : MarkedText) : MarkedText := ⟨t.pieces.map (Piece.renumber d)⟩

namespace MarkedText

variable {d : Nat}

@[simp] theorem renumber_chars (s : String) : (s : MarkedText).renumber d = s := rfl

@[simp] theorem renumber_metavar (m : MetaId) : (metavar m).renumber d = metavar (m.renumber d) :=
  rfl

@[simp] theorem renumber_append (t u : MarkedText) :
    (t ++ u).renumber d = t.renumber d ++ u.renumber d :=
  congrArg MarkedText.mk List.map_append

@[simp] theorem renumber_intercalate (sep : String) (ts : List MarkedText) :
    (intercalate sep ts).renumber d = intercalate sep (ts.map (renumber d)) := by
  induction ts with
  | nil => rfl
  | cons t ts ih =>
    cases ts with
    | nil => rfl
    | cons u us => simp only [intercalate, List.map_cons, renumber_append, renumber_chars, ih]

end MarkedText

/-! ## Documents -/

mutual

def Part.renumber (d : Nat) : Part → Part
  | .text s style => .text (s.renumber d) style
  | .newline => .newline
  | .nested e => .nested (e.renumber d)

def Part.renumberAll (d : Nat) : List Part → List Part
  | [] => []
  | p :: ps => p.renumber d :: Part.renumberAll d ps

def Doc.renumber (d : Nat) : Doc → Doc
  | ⟨parts, prec, style⟩ => ⟨Part.renumberAll d parts, prec, style⟩

end

variable {d : Nat}

theorem Style.render_renumber (styled : Bool) (style : Option Style) (t : MarkedText) :
    Style.render styled style (t.renumber d) = (Style.render styled style t).renumber d := by
  cases styled <;> cases style <;> simp [Style.render, Style.paint]

theorem Part.renderAll_renumber (styled : Bool) (current : Option Style) (ps : List Part) :
    Part.renderAll styled current (Part.renumberAll d ps) =
      (Part.renderAll styled current ps).renumber d := by
  induction ps using Part.listInd generalizing current with
  | nil => rfl
  | text s style ps ih =>
    simp only [renumberAll, renumber, renderAll, render, MarkedText.renumber_append, ih,
      Style.render_renumber]
  | newline ps ih =>
    simp only [renumberAll, renumber, renderAll, render, MarkedText.renumber_append, ih,
      MarkedText.renumber_chars]
  | nested parts prec style ps hparts ih =>
    simp only [renumberAll, renumber, Doc.renumber, renderAll, render, Doc.renderIn, hparts, ih,
      MarkedText.renumber_append]

theorem Part.renumberAll_append (ps qs : List Part) :
    Part.renumberAll d (ps ++ qs) = Part.renumberAll d ps ++ Part.renumberAll d qs := by
  induction ps with
  | nil => rfl
  | cons p ps ih => rw [List.cons_append, renumberAll, renumberAll, ih, List.cons_append]

namespace Doc

/-- A renumbered document renders to the renumbered text. -/
theorem render_renumber (styled : Bool) (e : Doc) :
    (e.renumber d).render styled = (e.render styled).renumber d := by
  obtain ⟨parts, prec, style⟩ := e
  exact Part.renderAll_renumber styled _ parts

@[simp] theorem renumber_empty : empty.renumber d = empty := rfl

@[simp] theorem renumber_push (e : Doc) (p : Part) :
    (e.push p).renumber d = (e.renumber d).push (p.renumber d) := by
  obtain ⟨parts, prec, style⟩ := e
  simp only [push, renumber, Part.renumberAll_append, Part.renumberAll]

@[simp] theorem renumber_text (e : Doc) (s : MarkedText) :
    (e.text s).renumber d = (e.renumber d).text (s.renumber d) := renumber_push ..

@[simp] theorem renumber_keyword (e : Doc) (s : String) :
    (e.keyword s).renumber d = (e.renumber d).keyword s := renumber_push ..

@[simp] theorem renumber_ofText (s : MarkedText) : (ofText s).renumber d = ofText (s.renumber d) :=
  rfl

@[simp] theorem renumber_chain (e f : Doc) :
    (e.chain f).renumber d = (e.renumber d).chain (f.renumber d) := renumber_push ..

@[simp] theorem renumber_space (e : Doc) : e.space.renumber d = (e.renumber d).space :=
  renumber_push ..

@[simp] theorem renumber_withPrec (e : Doc) (prec : Prec) :
    (e.withPrec prec).renumber d = (e.renumber d).withPrec prec := by
  cases e
  rfl

@[simp] theorem renumber_withStyle (e : Doc) (style : Option Style) :
    (e.withStyle style).renumber d = (e.renumber d).withStyle style := by
  cases e
  rfl

@[simp] theorem prec_renumber (e : Doc) : (e.renumber d).prec = e.prec := by
  cases e
  rfl

@[simp] theorem renumber_nest (e : Doc) (prec : Prec) :
    (e.nest prec).renumber d = (e.renumber d).nest prec := by
  unfold nest
  rw [prec_renumber]
  split <;> simp

@[simp] theorem renumber_intersperse (es : List Doc) (sep : Doc) :
    (intersperse es sep).renumber d = intersperse (es.map (renumber d)) (sep.renumber d) := by
  have hparts : Part.renumberAll d (joinParts sep es) =
      joinParts (sep.renumber d) (es.map (renumber d)) := by
    induction es with
    | nil => rfl
    | cons e es ih =>
      cases es with
      | nil => rfl
      | cons f fs => simp only [joinParts, List.map_cons, Part.renumberAll, Part.renumber, ih]
  exact congrArg (Doc.mk · _ _) hparts

end Doc

/-! ## Terms -/

theorem Named.binderDoc_renumber (icit : Icit) (x : Name) (erased : Bool) (dom : Doc) :
    binderDoc icit x erased (dom.renumber d) = (binderDoc icit x erased dom).renumber d := by
  unfold binderDoc
  split
  · simp
  · cases icit <;> simp

/-- The document of a renumbered term is the renumbered document. -/
theorem Named.doc_renumber (n : Named) : (n.renumber d).doc = n.doc.renumber d := by
  induction n with
  | app f icit x hf hx => cases icit <;> simp [renumber, doc, hf, hx]
  | lam icit x erased body hbody => cases icit <;> simp [renumber, doc, hbody]
  | binderType icit x erased dom body hdom hbody =>
    cases icit <;> simp [renumber, doc, hdom, hbody, binderDoc_renumber]
  | elim e motive scrut cases hm hs hcases =>
    have hatoms : atoms (renumberAll d cases) = (atoms cases).map (Doc.renumber d) := by
      induction cases with
      | nil => rfl
      | cons c cs ih =>
        obtain ⟨hc, hcs⟩ := List.forall_mem_cons.1 hcases
        simp [renumberAll, atoms, hc, ih hcs]
    simp [renumber, doc, hm, hs, hatoms]
  | _ => simp_all [renumber, doc]

/-- The text of a renumbered term is the renumbered text. -/
theorem Term.text_renumber (names : List Name) (t : Term) :
    (t.renumber d).text names = MarkedText.renumber d <$> t.text names := by
  simp only [text, doc, named_renumber]
  cases t.named names with
  | error f => rfl
  | ok n =>
    show Except.ok ((n.renumber d).doc.render false) = _
    rw [Named.doc_renumber, Doc.render_renumber]
    rfl

/-! ## Errors -/

namespace Error

def renumber (d : Nat) : Error → Error
  | .conversion size lhs rhs names => .conversion size (lhs.renumber d) (rhs.renumber d) names
  | .scope m var => .scope (m.renumber d) var
  | .occurs m => .occurs (m.renumber d)
  | .nonLinearSpine m => .nonLinearSpine (m.renumber d)
  | .unboundVariable x => .unboundVariable x
  | .erasedUsage x => .erasedUsage x
  | .notAFunction ty => .notAFunction (ty.renumber d)
  | .plicityMismatch ty => .plicityMismatch (ty.renumber d)
  | .notASigma ty => .notASigma (ty.renumber d)
  | .fieldNotFound field ty => .fieldNotFound field (ty.renumber d)
  | .wrongCaseCount e expected found => .wrongCaseCount e expected found
  | .notAnEquality ty => .notAnEquality (ty.renumber d)
  | .duplicateHole x => .duplicateHole x
  | .noInstance x ty => .noInstance x (ty.renumber d)
  | .unsolvedHoles holes => .unsolvedHoles (holes.map (MarkedText.renumber d))
  | .unsolvedMetas ms => .unsolvedMetas (ms.map (MetaId.renumber d))
  | .unsolvedConstraints ms => .unsolvedConstraints (ms.map (MetaId.renumber d))
  | .redefinition x => .redefinition x
  | .stillUsed x user => .stillUsed x user
  | .verification e => .verification (e.renumber d)
  | .internal text => .internal (text.renumber d)
  | .located span e => .located span (e.renumber d)

theorem isSoft_renumber (e : Error) : (e.renumber d).isSoft = e.isSoft := by
  induction e with
  | located span e ih => exact ih
  | _ => rfl

theorem locate_renumber (span : Span) (e : Error) :
    (e.renumber d).locate span = (e.locate span).renumber d := by
  cases e <;> rfl

theorem withNames_renumber (names : List Name) (e : Error) :
    (e.renumber d).withNames names = (e.withNames names).renumber d := by
  induction e with
  | located span e ih => exact congrArg (Error.located span) ih
  | conversion size lhs rhs known => cases known <;> rfl
  | _ => rfl

/-- A renumbered term is shown as the renumbered text. -/
theorem showTerm_renumber (size : Nat) (names : Option (List Name)) (t : Term) :
    showTerm size names (t.renumber d) = MarkedText.renumber d <$> showTerm size names t := by
  cases names <;> exact t.text_renumber _

theorem showMetas_renumber (ms : List MetaId) :
    showMetas (ms.map (MetaId.renumber d)) = (showMetas ms).renumber d := by
  simp only [showMetas, MarkedText.renumber_intercalate, List.map_map]
  rfl

/-- The message of a renumbered error is the renumbered message. -/
theorem message_renumber (e : Error) :
    (e.renumber d).message = MarkedText.renumber d <$> e.message := by
  induction e with
  | conversion size lhs rhs names =>
    simp only [renumber, message, showTerm_renumber]
    cases showTerm size names lhs with
    | error f => rfl
    | ok l => cases showTerm size names rhs <;> simp [ok_bind]
  | verification e ih =>
    simp only [renumber, message, ih]
    cases e.message <;> simp
  | located span e ih => exact ih
  | _ => simp [renumber, message, showMetas_renumber]

end Error

end Elaborator
