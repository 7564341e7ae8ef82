import Elaborator.Proofs.Session.Dependencies

/-! # What is left at run time

The verifier erases a term while it checks it. Types, implicit arguments and erased binders go, and
each variable is counted again over the binders that stay. `Term.Erases` says what may be left of a
term, and it keeps track of the binders on both sides: a variable of the erased term has to belong
to the binder that was made from the binder of the core variable. `verify_erases` shows that the
verifier keeps to this, although it only counts.

Inside types the verifier accepts erased names and gives something for them. None of that may get
into the answer, so the statements below are about contexts that are not inside a type, and all
other answers have to be thrown away. -/

namespace Elaborator

open Elaborator.Action

namespace Erased

/-- Every index is smaller than the number of binders around it, of which `n` are around the whole
term. -/
def Closed : Nat → Erased → Prop
  | n, .var i => i < n
  | _, .global _ | _, .nat _ | _, .prim _ | _, .type => True
  | n, .abs _ body => body.Closed (n + 1)
  | n, .app f x => f.Closed n ∧ x.Closed n
  | n, .pair a b => a.Closed n ∧ b.Closed n
  | n, .fst x | n, .snd x => x.Closed n
  | n, .letIn _ val body => val.Closed n ∧ body.Closed (n + 1)
  | n, .cond c t f => c.Closed n ∧ t.Closed n ∧ f.Closed n
  | n, .elimNat k z s => k.Closed n ∧ z.Closed n ∧ s.Closed n

def globals : Erased → List Name
  | .global x => [x]
  | .var _ | .nat _ | .prim _ | .type => []
  | .abs _ body => body.globals
  | .app f x => f.globals ++ x.globals
  | .pair a b => a.globals ++ b.globals
  | .fst x | .snd x => x.globals
  | .letIn _ val body => val.globals ++ body.globals
  | .cond c t f => c.globals ++ t.globals ++ f.globals
  | .elimNat n z s => n.globals ++ z.globals ++ s.globals

end Erased

/-! ## Binders on both sides -/

/-- The binders around a part of a core term and around what is left of this part. A binder of the
core term is known by its level, which is the number of binders further outside. -/
structure Surroundings where
  /-- The binders of the core term, innermost first: whether they are implicit or erased. -/
  core : List Bool
  /-- The binders of the erased term, innermost first: the levels of the core binders that they were
  made from. -/
  kept : List Nat

namespace Surroundings

def outside : Surroundings := ⟨[], []⟩

def drop (S : Surroundings) : Surroundings := ⟨true :: S.core, S.kept⟩

def keep (S : Surroundings) : Surroundings := ⟨false :: S.core, S.core.length :: S.kept⟩

def enter (S : Surroundings) (erased : Bool) : Surroundings := if erased then S.drop else S.keep

end Surroundings

/-- `e` may be left of the core term `t`. Parts of `t` that only matter at compile time are not
looked at. -/
inductive Term.Erases : Surroundings → Term → Erased → Prop
  | type {S : Surroundings} : Erases S .type .type
  /-- The variable belongs to a binder that is neither implicit nor erased, and the index of what is
  left points to the binder that was made from it. -/
  | var {S : Surroundings} {i : Index} {k : Nat} (explicit : S.core[i.toNat]? = some false)
      (made : S.kept[k]? = some (S.core.length - 1 - i.toNat)) : Erases S (.var i) (.var k)
  | global {S : Surroundings} {x : Name} : Erases S (.global x) (.global x)
  | prim {S : Surroundings} {p : Prim} : Erases S (.prim p) (.prim p)
  | primType {S : Surroundings} {p : Prim} : Erases S (.prim p) .type
  | nat {S : Surroundings} {n : Nat} : Erases S (.nat n) (.nat n)
  | app {S : Surroundings} {f x : Term} {ef ex : Erased} (fn : Erases S f ef)
      (arg : Erases S x ex) : Erases S (.app f .expl x) (.app ef ex)
  | appErased {S : Surroundings} {f x : Term} {icit : Icit} {ef : Erased} (fn : Erases S f ef) :
      Erases S (.app f icit x) ef
  | lam {S : Surroundings} {x : Name} {dom body : Term} {e : Erased}
      (inner : Erases S.keep body e) : Erases S (.bind ⟨.lam .expl, x, false⟩ dom body) (.abs x e)
  | lamErased {S : Surroundings} {icit : Icit} {x : Name} {erased : Bool}
      {dom body : Term} {e : Erased} (gone : erased = true ∨ icit = .impl)
      (inner : Erases S.drop body e) :
      Erases S (.bind ⟨.lam icit, x, erased⟩ dom body) e
  | binderType {S : Surroundings} {b : Binder} {dom body : Term} (kind : b.kind.isLam = false) :
      Erases S (.bind b dom body) .type
  | pair {S : Surroundings} {a b s : Term} {ea eb : Erased} (fst : Erases S a ea)
      (snd : Erases S b eb) : Erases S (.pair a b s) (.pair ea eb)
  | pairErased {S : Surroundings} {a b s : Term} {eb : Erased} (snd : Erases S b eb) :
      Erases S (.pair a b s) (.pair .type eb)
  | fst {S : Surroundings} {x : Term} {e : Erased} (pair : Erases S x e) :
      Erases S (.proj x .fst) (.fst e)
  | snd {S : Surroundings} {x : Term} {e : Erased} (pair : Erases S x e) :
      Erases S (.proj x .snd) (.snd e)
  | letIn {S : Surroundings} {x : Name} {ty val body : Term} {ev eb : Erased}
      (bound : Erases S val ev) (inner : Erases S.keep body eb) :
      Erases S (.letIn x false ty val body) (.letIn x ev eb)
  | letErased {S : Surroundings} {x : Name} {ty val body : Term} {eb : Erased}
      (inner : Erases S.drop body eb) : Erases S (.letIn x true ty val body) eb
  | elimVoid {S : Surroundings} {m s : Term} {cs : List Term} {e : Erased} (scrut : Erases S s e) :
      Erases S (.elim .void m s cs) e
  | elimBool {S : Surroundings} {m s t f : Term} {es et ef : Erased} (scrut : Erases S s es)
      (yes : Erases S t et) (no : Erases S f ef) :
      Erases S (.elim .bool m s [t, f]) (.cond es et ef)
  | elimNat {S : Surroundings} {m s z f : Term} {es ez ef : Erased} (scrut : Erases S s es)
      (zero : Erases S z ez) (succ : Erases S f ef) :
      Erases S (.elim .nat m s [z, f]) (.elimNat es ez ef)
  | elimHEq {S : Surroundings} {m s c : Term} {e : Erased} (refl : Erases S c e) :
      Erases S (.elim .heq m s [c]) e

/-- Every index points to a binder, so what is left of a term is closed. -/
theorem Term.Erases.closed {S : Surroundings} {t : Term} {e : Erased} (h : t.Erases S e) :
    e.Closed S.kept.length := by
  induction h with
  | type | global | prim | primType | nat | binderType => trivial
  | var _ made =>
    obtain ⟨hlt, -⟩ := List.getElem?_eq_some_iff.1 made
    exact hlt
  | app _ _ ihf ihx => exact ⟨ihf, ihx⟩
  | pair _ _ iha ihb => exact ⟨iha, ihb⟩
  | pairErased _ ihb => exact ⟨trivial, ihb⟩
  | letIn _ _ ihval ihbody => exact ⟨ihval, ihbody⟩
  | elimBool _ _ _ ihs iht ihf => exact ⟨ihs, iht, ihf⟩
  | elimNat _ _ _ ihs ihz ihf => exact ⟨ihs, ihz, ihf⟩
  | appErased _ ih | lam _ ih | lamErased _ _ ih | fst _ ih | snd _ ih | letErased _ ih
  | elimVoid _ ih | elimHEq _ ih => exact ih

/-! ## Counting

The verifier has one list of variables and counts those that are not erased. -/

def Surroundings.ofEntries : List Entry → Surroundings
  | [] => .outside
  | e :: es => (ofEntries es).enter e.erased

namespace Surroundings

theorem core_enter (S : Surroundings) (erased : Bool) :
    (S.enter erased).core = erased :: S.core := by
  cases erased <;> rfl

theorem core_ofEntries (es : List Entry) : (ofEntries es).core = es.map (·.erased) := by
  induction es with
  | nil => rfl
  | cons e es ih => rw [ofEntries, core_enter, ih, List.map_cons]

/-- The number of binders that are left further inside is the index of what is left of a binder. -/
theorem kept_ofEntries {es : List Entry} {i : Nat} {e : Entry} (hi : es[i]? = some e)
    (he : e.erased = false) :
    (ofEntries es).kept[((es.take i).filter fun e => !e.erased).length]? =
      some (es.length - 1 - i) := by
  induction es generalizing i with
  | nil => simp at hi
  | cons d es ih =>
    cases i with
    | zero =>
      obtain rfl : d = e := by simpa using hi
      simp [ofEntries, enter, he, keep, core_ofEntries]
    | succ i =>
      have hrest := ih (by simpa using hi)
      have hlevel : (d :: es).length - 1 - (i + 1) = es.length - 1 - i := by
        rw [List.length_cons]
        omega
      rw [hlevel, List.take_succ_cons, List.filter_cons, ofEntries, enter]
      cases hd : d.erased with
      | true => simpa [drop] using hrest
      | false => simpa [keep] using hrest

end Surroundings

def Local.surroundings (scope : Local) : Surroundings := .ofEntries scope.entries

namespace Verify

/-! ## What the verifier visits

The verifier goes through all parts of a term. `Visits` says in which contexts it meets them and
what it gives for them, and leaves out the types. -/

/-- The verifier accepts a term in a local context and gives `e` for it. -/
inductive Visits (g : Globals) : Local → Term → Erased → Prop
  | type {scope : Local} : Visits g scope .type .type
  | var {scope : Local} {i : Index} {entry : Entry} (found : scope.entries[i.toNat]? = some entry)
      (allowed : entry.erased = true → scope.inType = true) :
      Visits g scope (.var i) (if entry.erased then .type else .var (runtimeIndex scope i))
  | global {scope : Local} {x : Name} {d : Definition} (found : g.find? x = some d)
      (allowed : d.erased = true → scope.inType = true) : Visits g scope (.global x) (.global x)
  | prim {scope : Local} {p : Prim} : Visits g scope (.prim p) (erasePrim p)
  | nat {scope : Local} {n : Nat} : Visits g scope (.nat n) (.nat n)
  | app {scope : Local} {f x : Term} {icit : Icit} {ef ex : Erased} {runtime : Bool}
      (explicit : runtime = true → icit = .expl) (fn : Visits g scope f ef)
      (arg : Visits g (scope.enterIf !runtime) x ex) :
      Visits g scope (.app f icit x) (if runtime then .app ef ex else ef)
  | lam {scope : Local} {icit : Icit} {x : Name} {erased : Bool} {dom body : Term} {vdom : Val}
      {ed eb : Erased} (param : Visits g scope.enterType dom ed)
      (inner : Visits g (scope.bind x vdom (erased || icit == .impl) false) body eb) :
      Visits g scope (.bind ⟨.lam icit, x, erased⟩ dom body)
        (if erased || icit == .impl then eb else .abs x eb)
  | binderType {scope : Local} {b : Binder} {dom body : Term} {vdom : Val} {ed eb : Erased}
      (kind : b.kind.isLam = false) (param : Visits g scope.enterType dom ed)
      (inner : Visits g (scope.enterType.bind b.name vdom false false) body eb) :
      Visits g scope (.bind b dom body) .type
  | pair {scope : Local} {a b s : Term} {ea eb es : Erased} {erased : Bool}
      (ty : Visits g scope.enterType s es) (fst : Visits g (scope.enterIf erased) a ea)
      (snd : Visits g scope b eb) :
      Visits g scope (.pair a b s) (.pair (if erased then .type else ea) eb)
  | fst {scope : Local} {x : Term} {e : Erased} (pair : Visits g scope x e) :
      Visits g scope (.proj x .fst) (.fst e)
  | snd {scope : Local} {x : Term} {e : Erased} (pair : Visits g scope x e) :
      Visits g scope (.proj x .snd) (.snd e)
  | letIn {scope : Local} {x : Name} {erased : Bool} {ty val body : Term} {vty v : Val}
      {et ev eb : Erased} (type : Visits g scope.enterType ty et)
      (bound : Visits g (scope.enterIf erased) val ev)
      (inner : Visits g (scope.define x vty erased v) body eb) :
      Visits g scope (.letIn x erased ty val body) (if erased then eb else .letIn x ev eb)
  | elim {scope : Local} {e : Eliminator} {m s : Term} {cs : List Term} {em es : Erased}
      {ecs : List Erased} (length : cs.length = e.numCases) (motive : Visits g scope.enterType m em)
      (scrut : Visits g scope s es)
      (cases : ∀ (k : Nat) (c : Term), cs[k]? = some c → Visits g scope c ((ecs[k]?).getD .type)) :
      Visits g scope (.elim e m s cs) (eraseElim e es ecs)

variable {fuel : Nat} {g : Globals}

/-- Looking up a variable erases it as its entry in the scope says. -/
theorem inferVar_visits {scope : Local} {i : Index} {s u : State} {r : Val × Erased}
    (h : inferVar scope i s = .ok r u) : Visits g scope (.var i) r.2 := by
  obtain ⟨bound, s₁, -, h⟩ := bind_eq_ok.1 h
  cases bound with
  | false => cases h
  | true =>
    cases hi : scope.entries[i.toNat]? with
    | none =>
      rw [hi] at h
      cases h
    | some entry =>
      rw [hi] at h
      have hvisits := Visits.var (g := g) hi
      cases he : entry.erased with
      | true =>
        cases hty : scope.inType with
        | false =>
          simp only [he, hty, Bool.not_false, Bool.and_self, if_true] at h
          cases h
        | true =>
          simp only [he, hty, Bool.not_true, Bool.and_false, Bool.false_eq_true,
            if_false, if_true] at h
          obtain ⟨rfl, -⟩ := pure_eq_ok.1 h
          simpa [he] using hvisits fun _ => hty
      | false =>
        simp only [he, Bool.false_and, Bool.false_eq_true, if_false] at h
        obtain ⟨rfl, -⟩ := pure_eq_ok.1 h
        simpa [he] using hvisits

/-- Looking up a definition erases to the definition, in a type when it is an erased one. -/
theorem inferGlobal_visits {scope : Local} {x : Name} {s u : State} {r : Val × Erased}
    (h : inferGlobal g scope x s = .ok r u) : Visits g scope (.global x) r.2 := by
  unfold inferGlobal at h
  cases hd : g.find? x with
  | none =>
    rw [hd] at h
    cases h
  | some d =>
    rw [hd] at h
    cases hrefused : d.erased && !scope.inType with
    | true =>
      simp only [hrefused, if_true] at h
      cases h
    | false =>
      simp only [hrefused, Bool.false_eq_true, if_false] at h
      obtain ⟨rfl, -⟩ := pure_eq_ok.1 h
      exact .global hd (by simpa using hrefused)

def Visiting (fuel : Nat) (g : Globals) (t : Term) : Prop :=
  ∀ {scope : Local} {s u : State} {r : Val × Erased}, infer fuel g scope t s = .ok r u →
    Visits g scope t r.2

/-- The cases of an eliminator are visited one by one, each against its own type. -/
theorem inferCases_visits {ts : List Term} (hts : ∀ t ∈ ts, Visiting fuel g t) {tys : List Val}
    {scope : Local} {s u : State} {es : List Erased} (hlength : ts.length = tys.length)
    (h : inferCases fuel g scope ts tys s = .ok es u) :
    ∀ (k : Nat) (t : Term), ts[k]? = some t → Visits g scope t ((es[k]?).getD .type) := by
  induction ts generalizing tys s es u with
  | nil => simp
  | cons t ts ih =>
    obtain ⟨ht, hts⟩ := List.forall_mem_cons.1 hts
    cases tys with
    | nil => simp at hlength
    | cons ty tys =>
      rw [inferCases] at h
      obtain ⟨r, s₁, hr, h⟩ := bind_eq_ok.1 h
      obtain ⟨_, s₂, -, h⟩ := bind_eq_ok.1 h
      obtain ⟨es', s₃, hes, h⟩ := bind_eq_ok.1 h
      obtain ⟨rfl, -⟩ := pure_eq_ok.1 h
      intro k c hk
      cases k with
      | zero =>
        obtain rfl : t = c := by simpa using hk
        exact ht hr
      | succ k => exact ih hts (by simpa using hlength) hes k c (by simpa using hk)

/-- An application is visited when its function and its argument are. -/
theorem infer_app_visits {f x : Term} {icit : Icit} (hf : Visiting fuel g f)
    (hx : Visiting fuel g x) : Visiting fuel g (.app f icit x) := by
  intro scope s u r h
  rw [infer] at h
  obtain ⟨⟨fty, ef⟩, s₁, hrf, h⟩ := bind_eq_ok.1 h
  obtain ⟨v, s₂, -, h⟩ := bind_eq_ok.1 h
  cases v with
  | closure c =>
    by_cases hkind : c.binder.kind = .pi icit
    · simp only [hkind, if_true] at h
      obtain ⟨⟨xty, ex⟩, s₃, hrx, h⟩ := bind_eq_ok.1 h
      obtain ⟨_, s₄, -, h⟩ := bind_eq_ok.1 h
      obtain ⟨v, s₅, -, h⟩ := bind_eq_ok.1 h
      obtain ⟨ty, s₆, -, h⟩ := bind_eq_ok.1 h
      obtain ⟨rfl, -⟩ := pure_eq_ok.1 h
      exact .app (fun hruntime => by simpa using (Bool.and_eq_true_iff.1 hruntime).2)
        (hf hrf) (hx hrx)
    · simp only [hkind, if_false] at h
      split at h
      · exact (refuse_text_ne_ok h).elim
      · exact (refuse_text_ne_ok h).elim
  | type | neutral | glued | pair | nat => exact (refuse_text_ne_ok h).elim

theorem infer_bind_visits {b : Binder} {dom body : Term} (hdom : Visiting fuel g dom)
    (hbody : Visiting fuel g body) : Visiting fuel g (.bind b dom body) := by
  intro scope s u r h
  rw [infer] at h
  obtain ⟨⟨domTy, ed⟩, s₁, hrdom, h⟩ := bind_eq_ok.1 h
  obtain ⟨_, s₂, -, h⟩ := bind_eq_ok.1 h
  obtain ⟨vdom, s₃, -, h⟩ := bind_eq_ok.1 h
  obtain ⟨kind, x, erased⟩ := b
  cases kind with
  | lam icit =>
    obtain ⟨⟨bodyTy, eb⟩, s₄, hrbody, h⟩ := bind_eq_ok.1 h
    obtain ⟨ty, s₅, -, h⟩ := bind_eq_ok.1 h
    obtain ⟨pi, s₆, -, h⟩ := bind_eq_ok.1 h
    obtain ⟨rfl, -⟩ := pure_eq_ok.1 h
    exact .lam (hdom hrdom) (hbody hrbody)
  | pi | sigma =>
    obtain ⟨⟨bodyTy, eb⟩, s₄, hrbody, h⟩ := bind_eq_ok.1 h
    obtain ⟨_, s₅, -, h⟩ := bind_eq_ok.1 h
    obtain ⟨rfl, -⟩ := pure_eq_ok.1 h
    exact .binderType rfl (hdom hrdom) (hbody hrbody)

theorem infer_pair_visits {a b sigma : Term} (ha : Visiting fuel g a) (hb : Visiting fuel g b)
    (hs : Visiting fuel g sigma) : Visiting fuel g (.pair a b sigma) := by
  intro scope s u r h
  rw [infer] at h
  obtain ⟨⟨sigmaTy, _⟩, s₁, hrs, h⟩ := bind_eq_ok.1 h
  obtain ⟨_, s₂, -, h⟩ := bind_eq_ok.1 h
  obtain ⟨vs, s₃, -, h⟩ := bind_eq_ok.1 h
  obtain ⟨v, s₄, -, h⟩ := bind_eq_ok.1 h
  cases v with
  | closure c =>
    by_cases hkind : c.binder.kind = .sigma
    · simp only [hkind, if_true] at h
      obtain ⟨⟨aty, ea⟩, s₅, hra, h⟩ := bind_eq_ok.1 h
      obtain ⟨_, s₆, -, h⟩ := bind_eq_ok.1 h
      obtain ⟨va, s₇, -, h⟩ := bind_eq_ok.1 h
      obtain ⟨expected, s₈, -, h⟩ := bind_eq_ok.1 h
      obtain ⟨⟨bty, eb⟩, s₉, hrb, h⟩ := bind_eq_ok.1 h
      obtain ⟨_, s₁₀, -, h⟩ := bind_eq_ok.1 h
      obtain ⟨rfl, -⟩ := pure_eq_ok.1 h
      exact .pair (hs hrs) (ha hra) (hb hrb)
    · simp only [hkind, if_false] at h
      exact (refuse_text_ne_ok h).elim
  | type | neutral | glued | pair | nat => exact (refuse_text_ne_ok h).elim

theorem infer_proj_visits {x : Term} {p : Proj} (hx : Visiting fuel g x) :
    Visiting fuel g (.proj x p) := by
  intro scope s u r h
  rw [infer] at h
  obtain ⟨⟨xty, ex⟩, s₁, hrx, h⟩ := bind_eq_ok.1 h
  obtain ⟨v, s₂, -, h⟩ := bind_eq_ok.1 h
  cases v with
  | closure c =>
    by_cases hkind : c.binder.kind = .sigma
    · simp only [hkind, if_true] at h
      cases p with
      | fst =>
        cases hrefused : c.binder.erased && !scope.inType with
        | true =>
          simp only [hrefused, if_true] at h
          cases h
        | false =>
          simp only [hrefused, Bool.false_eq_true, if_false] at h
          obtain ⟨rfl, -⟩ := pure_eq_ok.1 h
          exact .fst (hx hrx)
      | snd =>
        obtain ⟨fst, s₃, -, h⟩ := bind_eq_ok.1 h
        obtain ⟨ty, s₄, -, h⟩ := bind_eq_ok.1 h
        obtain ⟨rfl, -⟩ := pure_eq_ok.1 h
        exact .snd (hx hrx)
    · simp only [hkind, if_false] at h
      exact (refuse_text_ne_ok h).elim
  | type | neutral | glued | pair | nat => exact (refuse_text_ne_ok h).elim

theorem infer_letIn_visits {x : Name} {erased : Bool} {ty val body : Term}
    (hty : Visiting fuel g ty) (hval : Visiting fuel g val) (hbody : Visiting fuel g body) :
    Visiting fuel g (.letIn x erased ty val body) := by
  intro scope s u r h
  rw [infer] at h
  obtain ⟨⟨tyTy, _⟩, s₁, hrty, h⟩ := bind_eq_ok.1 h
  obtain ⟨_, s₂, -, h⟩ := bind_eq_ok.1 h
  obtain ⟨vty, s₃, -, h⟩ := bind_eq_ok.1 h
  obtain ⟨⟨found, ev⟩, s₄, hrval, h⟩ := bind_eq_ok.1 h
  obtain ⟨_, s₅, -, h⟩ := bind_eq_ok.1 h
  obtain ⟨v, s₆, -, h⟩ := bind_eq_ok.1 h
  obtain ⟨⟨bodyTy, eb⟩, s₇, hrbody, h⟩ := bind_eq_ok.1 h
  obtain ⟨rfl, -⟩ := pure_eq_ok.1 h
  exact .letIn (hty hrty) (hval hrval) (hbody hrbody)

/-- An eliminator is visited through its motive, its scrutinee and each of its cases. -/
theorem infer_elim_visits {e : Eliminator} {motive scrut : Term} {cs : List Term}
    (hm : Visiting fuel g motive) (hs : Visiting fuel g scrut) (hcs : ∀ c ∈ cs, Visiting fuel g c) :
    Visiting fuel g (.elim e motive scrut cs) := by
  intro scope s u r h
  rw [infer] at h
  by_cases hlength : cs.length = e.numCases
  · rw [if_neg (not_not.2 hlength)] at h
    obtain ⟨⟨scrutTy, es⟩, s₁, hrs, h⟩ := bind_eq_ok.1 h
    -- Whatever the equation of the scrutinee is, the motive and the cases come next.
    have rest : ∀ {q : Option Equation} {t : State}, (do
        let r ← infer fuel g scope.enterType motive
        convertible fuel g scope.enterType r.1 (← e.motiveTy q)
        let vmotive ← motive.eval fuel scope.env
        let vscrut ← scrut.eval fuel scope.env
        let sig ← e.signature fuel vmotive vscrut q
        let ecs ← inferCases fuel g scope cs sig.caseTys
        return (sig.result, eraseElim e es ecs) : Action (Val × Erased)) t = .ok r u →
        Visits g scope (.elim e motive scrut cs) r.2 := by
      intro q t h
      obtain ⟨_, s₃, hrm, h⟩ := bind_eq_ok.1 h
      obtain ⟨motiveTy, s₄, -, h⟩ := bind_eq_ok.1 h
      obtain ⟨_, s₅, -, h⟩ := bind_eq_ok.1 h
      obtain ⟨vmotive, s₆, -, h⟩ := bind_eq_ok.1 h
      obtain ⟨vscrut, s₇, -, h⟩ := bind_eq_ok.1 h
      obtain ⟨sig, s₈, hsig, h⟩ := bind_eq_ok.1 h
      obtain ⟨ecs, s₉, hecs, h⟩ := bind_eq_ok.1 h
      obtain ⟨rfl, -⟩ := pure_eq_ok.1 h
      have htypes := Eliminator.length_signature (lift_eq_ok.1 hsig).1
      exact .elim hlength (hm hrm) (hs hrs) (inferCases_visits hcs (hlength.trans htypes.symm) hecs)
    cases hty : e.scrutTy? with
    | some ty =>
      simp only [hty] at h
      obtain ⟨_, s₂, -, h⟩ := bind_eq_ok.1 h
      exact rest h
    | none =>
      simp only [hty] at h
      obtain ⟨v, s₂, -, h⟩ := bind_eq_ok.1 h
      cases hq : Equation.ofType? v with
      | some q =>
        simp only [hq] at h
        obtain ⟨_, s₃, -, h⟩ := bind_eq_ok.1 h
        exact rest h
      | none =>
        simp only [hq] at h
        obtain ⟨w, s₃, -, h⟩ := bind_eq_ok.1 h
        cases h
  · rw [if_pos hlength] at h
    cases h

/-- The verifier visits what it finds a type for. -/
theorem infer_visits (t : Term) : Visiting fuel g t := by
  intro scope s u r h
  induction t generalizing scope s r u with
  | type =>
    rw [infer] at h
    obtain ⟨rfl, -⟩ := pure_eq_ok.1 h
    exact .type
  | var i =>
    rw [infer] at h
    exact inferVar_visits h
  | global x =>
    rw [infer] at h
    exact inferGlobal_visits h
  | metavar m =>
    rw [infer] at h
    cases h
  | prim p =>
    rw [infer] at h
    obtain ⟨rfl, -⟩ := pure_eq_ok.1 h
    exact .prim
  | nat n =>
    rw [infer] at h
    obtain ⟨rfl, -⟩ := pure_eq_ok.1 h
    exact .nat
  | app f icit x hf hx => exact infer_app_visits hf hx h
  | bind b dom body hdom hbody => exact infer_bind_visits hdom hbody h
  | pair a b sigma ha hb hs => exact infer_pair_visits ha hb hs h
  | proj x p hx => exact infer_proj_visits hx h
  | letIn x erased ty val body hty hval hbody => exact infer_letIn_visits hty hval hbody h
  | elim e motive scrut cs hm hs hcs => exact infer_elim_visits hm hs hcs h

/-! ## Nothing else is left -/

/-- `e` may be left of `t`, and the globals in it are not erased. -/
structure Leaves (g : Globals) (S : Surroundings) (t : Term) (e : Erased) : Prop where
  erases : t.Erases S e
  globals : ∀ x ∈ e.globals, ∃ d, g.find? x = some d ∧ d.erased = false

/-- A variable that is kept is left as the index it has at run time. -/
theorem var_leaves {scope : Local} {i : Index} {entry : Entry}
    (hi : scope.entries[i.toNat]? = some entry) (he : entry.erased = false) :
    Leaves g scope.surroundings (.var i) (.var (runtimeIndex scope i)) := by
  refine ⟨.var ?_ ?_, List.forall_mem_nil _⟩
  · simp [Local.surroundings, Surroundings.core_ofEntries, hi, he]
  · rw [Local.surroundings, Surroundings.core_ofEntries, List.length_map]
    exact Surroundings.kept_ofEntries hi he

theorem erasePrim_leaves (S : Surroundings) (p : Prim) : Leaves g S (.prim p) (erasePrim p) := by
  cases p with
  | void | unitType | bool | nat => exact ⟨.primType, List.forall_mem_nil _⟩
  | unit | true | false | succ | heq | refl => exact ⟨.prim, List.forall_mem_nil _⟩

/-- A function is left as a function of its runtime argument, or as its body where the argument is
erased. -/
theorem lam_leaves {S : Surroundings} {icit : Icit} {x : Name} {erased : Bool}
    {dom body : Term} {eb : Erased} (h : Leaves g (S.enter (erased || icit == .impl)) body eb) :
    Leaves g S (.bind ⟨.lam icit, x, erased⟩ dom body)
      (if erased || icit == .impl then eb else .abs x eb) := by
  cases hgone : erased || icit == .impl with
  | true =>
    rw [hgone] at h
    exact ⟨.lamErased (by simpa using hgone) h.erases, h.globals⟩
  | false =>
    rw [hgone] at h
    obtain ⟨rfl, hicit⟩ := Bool.or_eq_false_iff.1 hgone
    cases icit with
    | impl => simp at hicit
    | expl => exact ⟨.lam h.erases, h.globals⟩

/-- An eliminator is left with the runtime counterparts of its scrutinee and its cases. -/
theorem eraseElim_leaves {S : Surroundings} {e : Eliminator} {m s : Term}
    {cs : List Term} {es : Erased} {ecs : List Erased} (hlength : cs.length = e.numCases)
    (hs : Leaves g S s es)
    (hcs : ∀ (k : Nat) (c : Term), cs[k]? = some c → Leaves g S c ((ecs[k]?).getD .type)) :
    Leaves g S (.elim e m s cs) (eraseElim e es ecs) := by
  cases e with
  | void => exact ⟨.elimVoid hs.erases, hs.globals⟩
  | bool =>
    obtain ⟨t, f, rfl⟩ := List.length_eq_two.1 hlength
    have ht := hcs 0 t rfl
    have hf := hcs 1 f rfl
    exact ⟨.elimBool hs.erases ht.erases hf.erases,
      List.forall_mem_append.2 ⟨List.forall_mem_append.2 ⟨hs.globals, ht.globals⟩, hf.globals⟩⟩
  | nat =>
    obtain ⟨z, f, rfl⟩ := List.length_eq_two.1 hlength
    have hz := hcs 0 z rfl
    have hf := hcs 1 f rfl
    exact ⟨.elimNat hs.erases hz.erases hf.erases,
      List.forall_mem_append.2 ⟨List.forall_mem_append.2 ⟨hs.globals, hz.globals⟩, hf.globals⟩⟩
  | heq =>
    obtain ⟨c, rfl⟩ := List.length_eq_one_iff.1 hlength
    have hc := hcs 0 c rfl
    exact ⟨.elimHEq hc.erases, hc.globals⟩

/-- Outside of types the verifier gives what may be left of a term. Inside of types it may give
anything: what it gives there is thrown away by the rules that go into a type. -/
theorem Visits.leaves {scope : Local} {t : Term} {e : Erased} (h : Visits g scope t e)
    (hruntime : scope.inType = false) : Leaves g scope.surroundings t e := by
  induction h with
  | type => exact ⟨.type, List.forall_mem_nil _⟩
  | @var _ _ entry hi hallowed =>
    -- An erased variable may be used in types only.
    cases he : entry.erased with
    | true => simp [hallowed he] at hruntime
    | false => exact var_leaves hi he
  | @global _ _ d hd hallowed =>
    cases he : d.erased with
    | true => simp [hallowed he] at hruntime
    | false => exact ⟨.global, List.forall_mem_singleton.2 ⟨d, hd, he⟩⟩
  | prim => exact erasePrim_leaves _ _
  | nat => exact ⟨.nat, List.forall_mem_nil _⟩
  | @app _ _ _ _ _ _ runtime hexplicit _ _ ihf ihx =>
    have hf := ihf hruntime
    cases runtime with
    | true =>
      cases hexplicit rfl
      have hx := ihx hruntime
      exact ⟨.app hf.erases hx.erases, List.forall_mem_append.2 ⟨hf.globals, hx.globals⟩⟩
    | false => exact ⟨.appErased hf.erases, hf.globals⟩
  | lam _ _ _ ihbody => exact lam_leaves (ihbody hruntime)
  | binderType hkind _ _ _ _ => exact ⟨.binderType hkind, List.forall_mem_nil _⟩
  | @pair _ _ _ _ _ _ _ erased _ _ _ _ iha ihb =>
    have hb := ihb hruntime
    cases erased with
    | true => exact ⟨.pairErased hb.erases, hb.globals⟩
    | false =>
      have ha := iha hruntime
      exact ⟨.pair ha.erases hb.erases, List.forall_mem_append.2 ⟨ha.globals, hb.globals⟩⟩
  | fst _ ih => exact ⟨.fst (ih hruntime).erases, (ih hruntime).globals⟩
  | snd _ ih => exact ⟨.snd (ih hruntime).erases, (ih hruntime).globals⟩
  | @letIn _ _ erased _ _ _ _ _ _ _ _ _ _ _ _ ihval ihbody =>
    have hbody := ihbody hruntime
    cases erased with
    | true => exact ⟨.letErased hbody.erases, hbody.globals⟩
    | false =>
      have hval := ihval hruntime
      exact ⟨.letIn hval.erases hbody.erases,
        List.forall_mem_append.2 ⟨hval.globals, hbody.globals⟩⟩
  | elim hlength _ _ _ _ ihs ihcs =>
    exact eraseElim_leaves hlength (ihs hruntime) fun k c hk => ihcs k c hk hruntime

end Verify

/-- What is left of a verified term is closed. Every variable in it belongs to a binder that was
made from the binder of the core variable, which is neither implicit nor erased, and its globals are
not erased. -/
theorem verify_erases {fuel : Nat} {g : Globals} {t : Term} {s u : State} {ty : Val} {e : Erased}
    (h : verify fuel g false t s = .ok (ty, e) u) :
    e.Closed 0 ∧ t.Erases .outside e ∧ ∀ x ∈ e.globals, ∃ d, g.find? x = some d ∧
      d.erased = false := by
  have hleft := (Verify.infer_visits t h).leaves rfl
  exact ⟨hleft.erases.closed, hleft.erases, hleft.globals⟩

/-- Of `\(x : Nat). \{A : Type}. let y : Nat = S x in let erased z : Nat = y in (\(w : Nat). x) y`
the parameter `A` and the definition of `z` are gone, so the innermost `x` is counted over three
binders and no longer over five. -/
theorem verify_erases_skipping :
    let t : Term :=
  .bind ⟨.lam .expl, "x", false⟩ (.prim .nat) <| .bind ⟨.lam .impl, "A", false⟩ .type <|
      .letIn "y" false (.prim .nat) (.app (.prim .succ) .expl (.var ⟨1⟩)) <|
        .letIn "z" true (.prim .nat) (.var ⟨0⟩) <|
      .app (.bind ⟨.lam .expl, "w", false⟩ (.prim .nat) (.var ⟨4⟩)) .expl (.var ⟨1⟩)
    let e : Erased :=
      .abs "x" <| .letIn "y" (.app (.prim .succ) (.var 0)) <| .app (.abs "w" (.var 2)) (.var 0)
    ∃ ty u, verify 10 .empty false t .empty = .ok (ty, e) u ∧ e.Closed 0 ∧ t.Erases .outside e ∧
      ∀ x ∈ e.globals, ∃ d, Globals.empty.find? x = some d ∧ d.erased = false := by
  intro t e
  have h : ∃ ty u, verify 10 .empty false t .empty = .ok (ty, e) u := ⟨_, _, rfl⟩
  obtain ⟨ty, u, h⟩ := h
  exact ⟨ty, u, h, verify_erases h⟩

end Elaborator
