import Mathlib.Data.List.Forall2
import Mathlib.Data.Option.Basic
import Elaborator.Error

/-! # Surface terms up to their spans

`Surface.strip` removes every span of a term, at every depth. Two terms with the same stripped form
are the same up to spans; what differs is only how many spans are in the way, and each of them costs
one unit of fuel. `Surface.Respans n` says of two terms that they are the same up to spans and that
the second one has at most `n` of them.

Such terms have the same form once the spans around them are out of the way (`Respans.view`). -/

namespace Elaborator

namespace Surface

/-! ## Induction

Annotations and motives may be left out and the cases of an elimination are a list, so the principle
that comes with the type speaks about these as well. This one does not. -/

/-- Induction over surface terms, with the terms inside options and lists as hypotheses. -/
@[induction_eliminator]
theorem ind {motive : Surface → Prop} (var : ∀ x, motive (.var x))
    (app : ∀ f icit x, motive f → motive x → motive (.app f icit x))
    (abs : ∀ icit erased x ty body, (∀ t ∈ ty, motive t) → motive body →
      motive (.abs icit erased x ty body))
    (pi : ∀ icit erased x ty body, motive ty → motive body → motive (.pi icit erased x ty body))
    (sigma : ∀ erased x ty body, motive ty → motive body → motive (.sigma erased x ty body))
    (letIn : ∀ erased x ty val body, (∀ t ∈ ty, motive t) → motive val → motive body →
      motive (.letIn erased x ty val body))
    (pair : ∀ a b, motive a → motive b → motive (.pair a b))
    (proj : ∀ x field, motive x → motive (.proj x field))
    (ann : ∀ x ty, motive x → motive ty → motive (.ann x ty))
    (hole : ∀ name search, motive (.hole name search))
    (prim : ∀ p, motive (.prim p))
    (elim : ∀ e m s cs, (∀ t ∈ m, motive t) → motive s → (∀ c ∈ cs, motive c) →
      motive (.elim e m s cs)) (type : motive .type) (nat : ∀ n, motive (.nat n))
    (spanned : ∀ span x, motive x → motive (.spanned span x)) (t : Surface) : motive t := by
  have some : ∀ t, motive t → ∀ u ∈ Option.some t, motive u := by
    intro t ht u hu
    cases hu
    exact ht
  have none : ∀ u ∈ (Option.none : Option Surface), motive u := by
    intro u hu
    cases hu
  exact Surface.rec var app abs pi sigma letIn pair proj ann hole prim elim type nat
    spanned none some (List.forall_mem_nil _) (fun _ _ hc hcs => List.forall_mem_cons.2 ⟨hc, hcs⟩) t

/-! ## Stripping -/

mutual

def strip : Surface → Surface
  | .var x => .var x
  | .app f icit x => .app f.strip icit x.strip
  | .abs icit erased x ty body => .abs icit erased x (stripOption ty) body.strip
  | .pi icit erased x ty body => .pi icit erased x ty.strip body.strip
  | .sigma erased x ty body => .sigma erased x ty.strip body.strip
  | .letIn erased x ty val body => .letIn erased x (stripOption ty) val.strip body.strip
  | .pair a b => .pair a.strip b.strip
  | .proj x field => .proj x.strip field
  | .ann x ty => .ann x.strip ty.strip
  | .hole name search => .hole name search
  | .prim p => .prim p
  | .elim e motive scrut cases => .elim e (stripOption motive) scrut.strip (stripAll cases)
  | .type => .type
  | .nat n => .nat n
  | .spanned _ x => x.strip

def stripOption : Option Surface → Option Surface
  | none => none
  | some t => some t.strip

def stripAll : List Surface → List Surface
  | [] => []
  | t :: ts => t.strip :: stripAll ts

end

mutual

def spans : Surface → Nat
  | .var _ | .hole .. | .prim _ | .type | .nat _ => 0
  | .app f _ x => f.spans + x.spans
  | .abs _ _ _ ty body => spansOption ty + body.spans
  | .pi _ _ _ ty body => ty.spans + body.spans
  | .sigma _ _ ty body => ty.spans + body.spans
  | .letIn _ _ ty val body => spansOption ty + val.spans + body.spans
  | .pair a b => a.spans + b.spans
  | .proj x _ => x.spans
  | .ann x ty => x.spans + ty.spans
  | .elim _ motive scrut cases => spansOption motive + scrut.spans + spansAll cases
  | .spanned _ x => x.spans + 1

def spansOption : Option Surface → Nat
  | none => 0
  | some t => t.spans

def spansAll : List Surface → Nat
  | [] => 0
  | t :: ts => t.spans + spansAll ts

end

/-- Nothing is left to strip. -/
theorem strip_strip (t : Surface) : t.strip.strip = t.strip ∧ t.strip.spans = 0 := by
  have hoption : ∀ o : Option Surface, (∀ t ∈ o, t.strip.strip = t.strip ∧ t.strip.spans = 0) →
      stripOption (stripOption o) = stripOption o ∧ spansOption (stripOption o) = 0 := by
    intro o ho
    cases o with
    | none => exact ⟨rfl, rfl⟩
    | some t => simp [stripOption, spansOption, ho t rfl]
  have hall : ∀ ts : List Surface, (∀ t ∈ ts, t.strip.strip = t.strip ∧ t.strip.spans = 0) →
      stripAll (stripAll ts) = stripAll ts ∧ spansAll (stripAll ts) = 0 := by
    intro ts hts
    induction ts with
    | nil => exact ⟨rfl, rfl⟩
    | cons t ts ih =>
      obtain ⟨ht, hts⟩ := List.forall_mem_cons.1 hts
      simp [stripAll, spansAll, ht, ih hts]
  induction t with
  | var | hole | prim | type | nat => exact ⟨rfl, rfl⟩
  | spanned span x ih => exact ih
  | abs icit erased x ty body ht hb => simp [strip, spans, hoption ty ht, hb]
  | letIn erased x ty val body ht hv hb => simp [strip, spans, hoption ty ht, hv, hb]
  | elim e m s cs hm hs hcs => simp [strip, spans, hoption m hm, hs, hall cs hcs]
  | _ => simp_all [strip, spans]

/-! ## Terms of the same form -/

/-- The two terms have the same form and agree in all that is not a term; their parts are related by
`R`. A span has no form of its own. -/
inductive Alike (R : Surface → Surface → Prop) : Surface → Surface → Prop
  | var (x : Name) : Alike R (.var x) (.var x)
  | app {f f' x x' : Surface} (icit : Icit) (hf : R f f') (hx : R x x') :
      Alike R (.app f icit x) (.app f' icit x')
  | abs {ty ty' : Option Surface} {body body' : Surface} (icit : Icit) (erased : Bool) (x : Name)
      (hty : Option.Rel R ty ty') (hbody : R body body') :
      Alike R (.abs icit erased x ty body) (.abs icit erased x ty' body')
  | pi {ty ty' body body' : Surface} (icit : Icit) (erased : Bool) (x : Name) (hty : R ty ty')
      (hbody : R body body') : Alike R (.pi icit erased x ty body) (.pi icit erased x ty' body')
  | sigma {ty ty' body body' : Surface} (erased : Bool) (x : Name) (hty : R ty ty')
      (hbody : R body body') : Alike R (.sigma erased x ty body) (.sigma erased x ty' body')
  | letIn {ty ty' : Option Surface} {val val' body body' : Surface} (erased : Bool) (x : Name)
      (hty : Option.Rel R ty ty') (hval : R val val') (hbody : R body body') :
      Alike R (.letIn erased x ty val body) (.letIn erased x ty' val' body')
  | pair {a a' b b' : Surface} (ha : R a a') (hb : R b b') : Alike R (.pair a b) (.pair a' b')
  | proj {x x' : Surface} (field : Field) (hx : R x x') : Alike R (.proj x field) (.proj x' field)
  | ann {x x' ty ty' : Surface} (hx : R x x') (hty : R ty ty') : Alike R (.ann x ty) (.ann x' ty')
  | hole (name : Option Name) (search : Bool) : Alike R (.hole name search) (.hole name search)
  | prim (p : Prim) : Alike R (.prim p) (.prim p)
  | elim {motive motive' : Option Surface} {scrut scrut' : Surface} {cases cases' : List Surface}
      (e : Eliminator) (hmotive : Option.Rel R motive motive') (hscrut : R scrut scrut')
      (hcases : List.Forall₂ R cases cases') :
      Alike R (.elim e motive scrut cases) (.elim e motive' scrut' cases')
  | type : Alike R .type .type
  | nat (n : Nat) : Alike R (.nat n) (.nat n)

/-- The two terms are the same up to spans, and the second one has at most `n` spans. -/
structure Respans (n : Nat) (t u : Surface) : Prop where
  strip : t.strip = u.strip
  spans : u.spans ≤ n

namespace Respans

variable {n : Nat} {t u : Surface}

/-- Optional terms that are equal without positions respan each other. -/
theorem option {o p : Option Surface} (h : stripOption o = stripOption p) (hn : spansOption p ≤ n) :
    Option.Rel (Respans n) o p := by
  cases o with
  | none =>
    cases p with
    | none => exact .none
    | some u => cases h
  | some t =>
    cases p with
    | none => cases h
    | some u => exact .some ⟨Option.some.inj h, hn⟩

theorem all {ts us : List Surface} (h : stripAll ts = stripAll us) (hn : spansAll us ≤ n) :
    List.Forall₂ (Respans n) ts us := by
  induction ts generalizing us with
  | nil =>
    cases us with
    | nil => exact .nil
    | cons u us => cases h
  | cons t ts ih =>
    cases us with
    | nil => cases h
    | cons u us =>
      obtain ⟨ht, hts⟩ := List.cons.inj h
      rw [spansAll] at hn
      exact .cons ⟨ht, by omega⟩ (ih hts (by omega))

/-- If neither term has a span around it, both have the same form, and their parts are the same up
to spans. -/
theorem alike (h : Respans n t u) (ht : ∀ span x, t ≠ .spanned span x)
    (hu : ∀ span x, u ≠ .spanned span x) : Alike (Respans n) t u := by
  obtain ⟨hstrip, hn⟩ := h
  -- Terms of different forms are different when stripped, so only the second term's own form is
  -- left.
  cases t with
  | spanned span x => exact absurd rfl (ht span x)
  | var x =>
    cases u with
    | var =>
      cases hstrip
      exact .var x
    | spanned span y => exact absurd rfl (hu span y)
    | _ => cases hstrip
  | app f icit x =>
    cases u with
    | app =>
      obtain ⟨hf, rfl, hx⟩ := app.inj hstrip
      simp only [Surface.spans] at hn
      exact .app icit ⟨hf, by omega⟩ ⟨hx, by omega⟩
    | spanned span y => exact absurd rfl (hu span y)
    | _ => cases hstrip
  | abs icit erased x ty body =>
    cases u with
    | abs =>
      obtain ⟨rfl, rfl, rfl, hty, hbody⟩ := abs.inj hstrip
      simp only [Surface.spans] at hn
      exact .abs icit erased x (option hty (by omega)) ⟨hbody, by omega⟩
    | spanned span y => exact absurd rfl (hu span y)
    | _ => cases hstrip
  | pi icit erased x ty body =>
    cases u with
    | pi =>
      obtain ⟨rfl, rfl, rfl, hty, hbody⟩ := pi.inj hstrip
      simp only [Surface.spans] at hn
      exact .pi icit erased x ⟨hty, by omega⟩ ⟨hbody, by omega⟩
    | spanned span y => exact absurd rfl (hu span y)
    | _ => cases hstrip
  | sigma erased x ty body =>
    cases u with
    | sigma =>
      obtain ⟨rfl, rfl, hty, hbody⟩ := sigma.inj hstrip
      simp only [Surface.spans] at hn
      exact .sigma erased x ⟨hty, by omega⟩ ⟨hbody, by omega⟩
    | spanned span y => exact absurd rfl (hu span y)
    | _ => cases hstrip
  | letIn erased x ty val body =>
    cases u with
    | letIn =>
      obtain ⟨rfl, rfl, hty, hval, hbody⟩ := letIn.inj hstrip
      simp only [Surface.spans] at hn
      exact .letIn erased x (option hty (by omega)) ⟨hval, by omega⟩ ⟨hbody, by omega⟩
    | spanned span y => exact absurd rfl (hu span y)
    | _ => cases hstrip
  | pair a b =>
    cases u with
    | pair =>
      obtain ⟨ha, hb⟩ := pair.inj hstrip
      simp only [Surface.spans] at hn
      exact .pair ⟨ha, by omega⟩ ⟨hb, by omega⟩
    | spanned span y => exact absurd rfl (hu span y)
    | _ => cases hstrip
  | proj x field =>
    cases u with
    | proj =>
      obtain ⟨hx, rfl⟩ := proj.inj hstrip
      simp only [Surface.spans] at hn
      exact .proj field ⟨hx, hn⟩
    | spanned span y => exact absurd rfl (hu span y)
    | _ => cases hstrip
  | ann x ty =>
    cases u with
    | ann =>
      obtain ⟨hx, hty⟩ := ann.inj hstrip
      simp only [Surface.spans] at hn
      exact .ann ⟨hx, by omega⟩ ⟨hty, by omega⟩
    | spanned span y => exact absurd rfl (hu span y)
    | _ => cases hstrip
  | hole name search =>
    cases u with
    | hole =>
      cases hstrip
      exact .hole name search
    | spanned span y => exact absurd rfl (hu span y)
    | _ => cases hstrip
  | prim p =>
    cases u with
    | prim =>
      cases hstrip
      exact .prim p
    | spanned span y => exact absurd rfl (hu span y)
    | _ => cases hstrip
  | elim e motive scrut cases =>
    cases u with
    | elim =>
      obtain ⟨rfl, hmotive, hscrut, hcases⟩ := elim.inj hstrip
      simp only [Surface.spans] at hn
      exact .elim e (option hmotive (by omega)) ⟨hscrut, by omega⟩ (all hcases (by omega))
    | spanned span y => exact absurd rfl (hu span y)
    | _ => cases hstrip
  | type =>
    cases u with
    | type =>
      cases hstrip
      exact .type
    | spanned span y => exact absurd rfl (hu span y)
    | _ => cases hstrip
  | nat n =>
    cases u with
    | nat =>
      cases hstrip
      exact .nat n
    | spanned span y => exact absurd rfl (hu span y)
    | _ => cases hstrip

/-- A span is around the first term or around the second one, or both have the same form. -/
theorem view (h : Respans n t u) :
    (∃ span x, t = .spanned span x ∧ Respans n x u) ∨
    (∃ span y k, u = .spanned span y ∧ n = k + 1 ∧ Respans k t y) ∨ Alike (Respans n) t u := by
  by_cases ht : ∃ span x, t = .spanned span x
  · obtain ⟨span, x, rfl⟩ := ht
    exact .inl ⟨span, x, rfl, h.strip, h.spans⟩
  by_cases hu : ∃ span y, u = .spanned span y
  · obtain ⟨span, y, rfl⟩ := hu
    have hn : y.spans + 1 ≤ n := h.spans
    exact .inr (.inl ⟨span, y, n - 1, rfl, by omega, h.strip, by omega⟩)
  · exact .inr
      (.inr (h.alike (fun span x hx => ht ⟨span, x, hx⟩) fun span y hy => hu ⟨span, y, hy⟩))

end Respans

end Surface

end Elaborator
