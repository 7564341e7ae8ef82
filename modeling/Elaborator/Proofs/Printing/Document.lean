import Elaborator.Erased
import Elaborator.Term.Printer

/-! # What a document writes

`Doc.texts` lists the pieces of text in a document. Without colours its text is these pieces, one
after the other (`Doc.render_false`). `Doc.Writes` says that names are among the pieces, in the
given order and each one as it is.

The document of a named term writes all its names, except that an underscore may be missing
(`Named.doc_writes`), and the document of a named erased term writes all of them
(`NamedErased.doc_writes`). So a statement about the names of a named view is one about the text. -/

namespace Elaborator

/-! ## Induction -/

/-- Induction on the parts of a document, with a hypothesis for those of each nested document. -/
theorem Part.listInd {motive : List Part → Prop} (nil : motive [])
    (text : ∀ s style ps, motive ps → motive (.text s style :: ps))
    (newline : ∀ ps, motive ps → motive (.newline :: ps))
    (nested : ∀ parts prec style ps, motive parts → motive ps →
      motive (.nested ⟨parts, prec, style⟩ :: ps))
    (ps : List Part) : motive ps :=
  @Part.rec_1 (fun p => ∀ ps, motive ps → motive (p :: ps))
    (fun e => ∀ ps, motive ps → motive (.nested e :: ps)) motive
    text newline (fun _ h => h) (fun parts prec style h ps => nested parts prec style ps h)
    nil (fun _ ps h hps => h ps hps) ps

/-- Induction on named terms, with one hypothesis for all cases of an elimination. -/
@[induction_eliminator]
theorem Named.ind {motive : Named → Prop} (type : motive .type) (var : ∀ x, motive (.var x))
    (unbound : ∀ i, motive (.unbound i)) (global : ∀ x, motive (.global x))
    (metavar : ∀ m, motive (.metavar m)) (prim : ∀ p, motive (.prim p)) (nat : ∀ n, motive (.nat n))
    (app : ∀ f icit x, motive f → motive x → motive (.app f icit x))
    (lam : ∀ icit x erased body, motive body → motive (.lam icit x erased body))
    (binderType : ∀ icit x erased dom body, motive dom → motive body →
      motive (.binderType icit x erased dom body))
    (pair : ∀ a b, motive a → motive b → motive (.pair a b))
    (proj : ∀ x p, motive x → motive (.proj x p))
    (letIn : ∀ x erased ty val body, motive ty → motive val → motive body →
      motive (.letIn x erased ty val body))
    (elim : ∀ e m s cs, motive m → motive s → (∀ c ∈ cs, motive c) → motive (.elim e m s cs))
    (n : Named) : motive n :=
  Named.rec type var unbound global metavar prim nat app lam binderType pair proj letIn elim
    (List.forall_mem_nil _) (fun _ _ hc hcs => List.forall_mem_cons.2 ⟨hc, hcs⟩) n

/-! ## Pieces of text -/

mutual

def Part.texts : Part → List MarkedText
  | .text s _ => [s]
  | .newline => ["\n"]
  | .nested d => d.texts

def Part.textsAll : List Part → List MarkedText
  | [] => []
  | p :: ps => p.texts ++ Part.textsAll ps

def Doc.texts : Doc → List MarkedText
  | ⟨parts, _, _⟩ => Part.textsAll parts

end

theorem Part.textsAll_append (ps qs : List Part) :
    Part.textsAll (ps ++ qs) = Part.textsAll ps ++ Part.textsAll qs := by
  induction ps with
  | nil => rfl
  | cons p ps ih => rw [List.cons_append, textsAll, textsAll, ih, List.append_assoc]

def MarkedText.concat : List MarkedText → MarkedText
  | [] => ⟨[]⟩
  | t :: ts => t ++ concat ts

theorem MarkedText.concat_append (ts us : List MarkedText) :
    concat (ts ++ us) = concat ts ++ concat us := by
  induction ts with
  | nil => rfl
  | cons t ts ih =>
    rw [List.cons_append, concat, concat, ih]
    exact congrArg MarkedText.mk (List.append_assoc ..).symm

/-- Rendering without colours leaves the text alone. -/
theorem Style.render_false (style : Option Style) (t : MarkedText) :
    Style.render false style t = t := by
  cases style <;> rfl

/-- Rendering without colours is the text of the parts in a row. -/
theorem Part.renderAll_false (ps : List Part) (current : Option Style) :
    Part.renderAll false current ps = .concat (Part.textsAll ps) := by
  induction ps using Part.listInd generalizing current with
  | nil => rfl
  | text s style ps ih =>
    rw [renderAll, render, Style.render_false, ih]
    rfl
  | newline ps ih =>
    rw [renderAll, render, ih]
    rfl
  | nested parts prec style ps hparts ih =>
    rw [renderAll, render, Doc.renderIn, hparts, ih, textsAll, texts, Doc.texts,
      MarkedText.concat_append]

namespace Doc

theorem texts_eq (d : Doc) : d.texts = Part.textsAll d.parts := by
  cases d
  rfl

/-- Without colours a document is its pieces of text, one after the other. -/
theorem render_false (d : Doc) : d.render false = .concat d.texts := by
  obtain ⟨parts, prec, style⟩ := d
  exact Part.renderAll_false parts _

@[simp] theorem texts_empty : empty.texts = [] := rfl

@[simp] theorem texts_push (d : Doc) (p : Part) : (d.push p).texts = d.texts ++ p.texts := by
  show Part.textsAll (d.parts ++ [p]) = _
  rw [Part.textsAll_append, Part.textsAll, Part.textsAll, List.append_nil, texts_eq]

/-- Joining documents by a separator keeps their texts in order. -/
theorem textsAll_joinParts (sep : Doc) (ds : List Doc) :
    (ds.flatMap texts).Sublist (Part.textsAll (joinParts sep ds)) := by
  induction ds with
  | nil => exact List.Sublist.refl _
  | cons d ds ih =>
    cases ds with
    | nil => exact List.Sublist.refl _
    | cons e ds =>
      show (d.texts ++ _).Sublist
        (d.texts ++ (sep.texts ++ Part.textsAll (joinParts sep (e :: ds))))
      exact (List.Sublist.refl _).append (ih.trans (List.sublist_append_right ..))

/-! ## Names among the pieces -/

/-- The document writes these names in this order, each one as it is. -/
def Writes (d : Doc) (xs : List Name) : Prop :=
  (xs.map fun x => (x.text : MarkedText)).Sublist d.texts

namespace Writes

variable {d e : Doc} {xs ys : List Name}

theorem nil : d.Writes [] := List.nil_sublist _

theorem sublist (h : d.Writes xs) (hys : ys.Sublist xs) : d.Writes ys := (hys.map _).trans h

theorem push (h : d.Writes xs) (p : Part) : (d.push p).Writes xs := by
  rw [Writes, texts_push]
  exact h.trans (List.sublist_append_left ..)

theorem text (h : d.Writes xs) (s : MarkedText) : (d.text s).Writes xs := h.push _

theorem keyword (h : d.Writes xs) (s : String) : (d.keyword s).Writes xs := h.push _

theorem space (h : d.Writes xs) : d.space.Writes xs := h.push _

theorem name (h : d.Writes xs) (x : Name) : (d.text x.text).Writes (xs ++ [x]) := by
  rw [Writes, Doc.text, texts_push, List.map_append]
  exact h.append (List.Sublist.refl _)

/-- Documents in a row write the names of both. -/
theorem chain (h : d.Writes xs) (he : e.Writes ys) : (d.chain e).Writes (xs ++ ys) := by
  rw [Writes, Doc.chain, texts_push, List.map_append]
  exact h.append he

theorem withPrec (h : d.Writes xs) (prec : Prec) : (d.withPrec prec).Writes xs := by
  rw [Writes, texts_eq] at *
  exact h

theorem ofName (x : Name) : (ofText x.text).Writes [x] := name nil x

/-- Parentheses do not matter. -/
theorem nest (h : d.Writes xs) (prec : Prec) : (d.nest prec).Writes xs := by
  unfold Doc.nest
  split
  · exact (chain nil h).text ")"
  · exact h

end Writes

def WritesAll (ds : List Doc) (xs : List Name) : Prop :=
  (xs.map fun x => (x.text : MarkedText)).Sublist (ds.flatMap texts)

theorem WritesAll.nil : WritesAll [] [] := List.nil_sublist _

theorem WritesAll.cons {d : Doc} {ds : List Doc} {xs ys : List Name} (hd : d.Writes xs)
    (hds : WritesAll ds ys) : WritesAll (d :: ds) (xs ++ ys) := by
  rw [WritesAll, List.map_append, List.flatMap_cons]
  exact hd.append hds

/-- Documents joined by a separator write the names of all. -/
theorem WritesAll.intersperse {ds : List Doc} {xs : List Name} (h : WritesAll ds xs) (sep : Doc) :
    (Doc.intersperse ds sep).Writes xs :=
  h.trans (textsAll_joinParts sep ds)

end Doc

/-! ## Named terms -/

namespace Named

mutual

def names : Named → List Name
  | .type | .unbound _ | .metavar _ | .nat _ => []
  | .var x | .global x => [x]
  | .prim p => [⟨p.name⟩]
  | .app f _ x => f.names ++ x.names
  | .lam _ x _ body => x :: body.names
  | .binderType _ x _ dom body => x :: dom.names ++ body.names
  | .pair a b => a.names ++ b.names
  | .proj x _ => x.names
  | .letIn x _ ty val body => x :: ty.names ++ val.names ++ body.names
  | .elim _ motive scrut cases => motive.names ++ scrut.names ++ namesAll cases

def namesAll : List Named → List Name
  | [] => []
  | t :: ts => t.names ++ namesAll ts

end

def visible (xs : List Name) : List Name := xs.filter (!·.isUnderscore)

@[simp] theorem visible_nil : visible [] = [] := rfl

@[simp] theorem visible_append (xs ys : List Name) :
    visible (xs ++ ys) = visible xs ++ visible ys := List.filter_append ..

theorem visible_cons (x : Name) (xs : List Name) : visible (x :: xs) = visible [x] ++ visible xs :=
  visible_append [x] xs

end Named

open Named (visible)

namespace Doc.Writes

variable {d : Doc} {xs : List Name}

/-- A binder's name is written unless it is the underscore. -/
theorem binder (h : d.Writes xs) (x : Name) : (d.text x.text).Writes (xs ++ visible [x]) :=
  (h.name x).sublist ((List.Sublist.refl xs).append List.filter_sublist)

/-- Only an underscore is left out of a binder. -/
theorem binderDoc {dom : Doc} (h : dom.Writes xs) (icit : Icit) (x : Name) (erased : Bool) :
    (Named.binderDoc icit x erased dom).Writes (visible [x] ++ xs) := by
  unfold Named.binderDoc
  split
  · next hidden =>
    have hx : visible [x] = [] := by simp_all [visible]
    rw [hx]
    exact h.nest .app
  · cases icit <;> exact ((binder nil x |>.text " : ").chain h).text _

end Doc.Writes

namespace Named

/-- Every name is written as it is, and only an underscore may be missing. -/
theorem doc_writes (n : Named) : n.doc.Writes (visible n.names) := by
  induction n with
  | type | unbound | metavar | nat => exact .nil
  | var x | global x => exact .binder .nil x
  | prim p => exact .binder .nil ⟨p.name⟩
  | app f icit x hf hx =>
    rw [names, visible_append]
    have hfn := (hf.nest .app).space
    cases icit with
    | impl => exact (hfn.chain ((Doc.Writes.chain .nil hx).text _)).withPrec _
    | expl => exact (hfn.chain (hx.nest .atom)).withPrec _
  | lam icit x erased body hbody =>
    rw [names, visible_cons]
    have hbinder {b : Doc} (hb : b.Writes (visible [x])) :
        ((Doc.ofText "\\").chain b |>.text "." |>.space).Writes (visible [x]) :=
      (Doc.Writes.chain .nil hb).text _ |>.space
    cases icit with
    | impl =>
      exact (hbinder ((Doc.Writes.binder .nil x).text _) |>.chain (hbody.nest .term)).withPrec _
    | expl => exact (hbinder (.binder .nil x) |>.chain (hbody.nest .term)).withPrec _
  | binderType icit x erased dom body hdom hbody =>
    rw [names, visible_append, visible_cons]
    exact ((hdom.binderDoc _ x erased).space.text _ |>.space.chain (hbody.nest .pair)).withPrec _
  | pair a b ha hb =>
    rw [names, visible_append, doc]
    exact ((Doc.Writes.chain .nil ha).text _ |>.space.chain hb).text _
  | proj x p hx =>
    rw [names, doc]
    exact .withPrec (.chain .nil (hx.nest .atom)) _
  | letIn x erased ty val body hty hval hbody =>
    rw [names, visible_append, visible_append, visible_cons, doc]
    refine .withPrec (.chain (.space (.keyword (.space (.chain ?_ hval)) _)) hbody) _
    exact (Doc.Writes.binder .nil x).text " : " |>.chain hty |>.text _
  | elim e motive scrut cases hm hs hcases =>
    have hatoms : Doc.WritesAll (atoms cases) (visible (namesAll cases)) := by
      induction cases with
      | nil => exact .nil
      | cons c cs ih =>
        obtain ⟨hc, hcs⟩ := List.forall_mem_cons.1 hcases
        rw [namesAll, visible_append]
        exact .cons (hc.nest .atom) (ih hcs)
    rw [names, visible_append, visible_append, List.append_assoc]
    have hall := hatoms.cons (hs.nest .atom) |>.cons (hm.nest .atom) |>.cons
      (.nil : (Doc.ofText e.name).Writes [])
    exact (hall.intersperse _).withPrec _

end Named

/-! ## Named erased terms -/

namespace NamedErased

def names : NamedErased → List Name
  | .unbound _ | .nat _ | .type => []
  | .var x | .global x => [x]
  | .prim p => [⟨p.name⟩]
  | .abs x body => x :: body.names
  | .app f x => f.names ++ x.names
  | .pair a b => a.names ++ b.names
  | .fst x | .snd x => x.names
  | .letIn x val body => x :: val.names ++ body.names
  | .cond c t f => c.names ++ t.names ++ f.names
  | .elimNat n z s => n.names ++ z.names ++ s.names

/-- Every name is written as it is. -/
theorem doc_writes (n : NamedErased) : n.doc.Writes n.names := by
  induction n with
  | unbound | nat | type => exact .nil
  | var x | global x => exact .ofName x
  | prim p => exact .ofName ⟨p.name⟩
  | abs x body hbody => exact ((Doc.Writes.name .nil x).text _ |>.space.chain hbody).withPrec _
  | app f x hf hx => exact ((hf.nest .app).space.chain (hx.nest .atom)).withPrec _
  | pair a b ha hb => exact ((Doc.Writes.chain .nil ha).text _ |>.space.chain hb).text _
  | fst x hx | snd x hx => exact (Doc.Writes.chain .nil (hx.nest .atom)).withPrec _
  | letIn x val body hval hbody =>
    have hbinder : ((Doc.empty.keyword "let").space.text x.text |>.text " = ").Writes [x] :=
      (Doc.Writes.name .nil x).text _
    exact ((hbinder.chain hval).space.keyword _ |>.space.chain hbody).withPrec _
  | cond c t f hc ht hf =>
    refine .withPrec (.chain (.space (.keyword (.space (.chain ?_ ht)) _)) hf) _
    exact (Doc.Writes.chain .nil hc).space.keyword _ |>.space
  | elimNat n z s hn hz hs =>
    refine .withPrec (.chain (.space (.chain ?_ (hz.nest .atom))) (hs.nest .atom)) _
    exact (Doc.Writes.chain .nil (hn.nest .atom)).space

end NamedErased

end Elaborator
