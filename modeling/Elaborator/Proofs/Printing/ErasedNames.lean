import Elaborator.Proofs.Erasure
import Elaborator.Proofs.Printing.Document
import Elaborator.Proofs.Printing.Resolution

/-! # Printed names of erased terms

An erased term keeps the names of the binders that are left, and it is printed with these names as
they are. So a printed name is resolved to the right binder only if no other binder of that name
lies between the two. `NamedErased.Reads` says so of the named view that is printed, and here it is
traced back to the core term that was verified: no variable may be used where a binder that is left
at run time hides its name (`Term.Unhidden`). -/

namespace Elaborator

/-! ## Names on both sides -/

/-- Reading a printed term gives the erased term that was printed: a name stands for the variable of
the innermost printed binder with that name. The names are those of the printed binders around the
two, innermost first. -/
inductive NamedErased.Reads : List Name → NamedErased → Erased → Prop
  | var {names : List Name} {x : Name} {i : Nat} (found : names.idxOf? x = some i) :
      Reads names (.var x) (.var i)
  | global {names : List Name} (x : Name) : Reads names (.global x) (.global x)
  | abs {names : List Name} {x : Name} {n : NamedErased} {e : Erased}
      (body : Reads (x :: names) n e) : Reads names (.abs x n) (.abs x e)
  | app {names : List Name} {n k : NamedErased} {f x : Erased} (fn : Reads names n f)
      (arg : Reads names k x) : Reads names (.app n k) (.app f x)
  | pair {names : List Name} {n k : NamedErased} {a b : Erased} (fst : Reads names n a)
      (snd : Reads names k b) : Reads names (.pair n k) (.pair a b)
  | fst {names : List Name} {n : NamedErased} {x : Erased} (pair : Reads names n x) :
      Reads names (.fst n) (.fst x)
  | snd {names : List Name} {n : NamedErased} {x : Erased} (pair : Reads names n x) :
      Reads names (.snd n) (.snd x)
  | letIn {names : List Name} {x : Name} {n k : NamedErased} {v e : Erased}
      (value : Reads names n v) (body : Reads (x :: names) k e) :
      Reads names (.letIn x n k) (.letIn x v e)
  | nat {names : List Name} (k : Nat) : Reads names (.nat k) (.nat k)
  | prim {names : List Name} (p : Prim) : Reads names (.prim p) (.prim p)
  | cond {names : List Name} {n k l : NamedErased} {c t f : Erased} (scrut : Reads names n c)
      (yes : Reads names k t) (no : Reads names l f) : Reads names (.cond n k l) (.cond c t f)
  | elimNat {names : List Name} {n k l : NamedErased} {c z s : Erased} (scrut : Reads names n c)
      (zero : Reads names k z) (succ : Reads names l s) :
      Reads names (.elimNat n k l) (.elimNat c z s)
  | type {names : List Name} : Reads names .type .type

namespace Term

mutual

/-- No variable is used where a binder of the same name hides its own binder. Only what may be left
at run time counts, of the variables and of the binders. The scope has the names of the binders
around the term, innermost first, and `none` for a binder of which nothing is left. -/
def Unhidden : List (Option Name) → Term → Prop
  | scope, .var i => ∀ x, scope[i.toNat]? = some (some x) → scope.idxOf? (some x) = some i.toNat
  | _, .type | _, .global _ | _, .metavar _ | _, .prim _ | _, .nat _ => True
  | scope, .app f icit x => f.Unhidden scope ∧ (icit = .expl → x.Unhidden scope)
  | scope, .bind ⟨.lam icit, x, erased⟩ _ body =>
    body.Unhidden ((if erased || icit == .impl then none else some x) :: scope)
  | _, .bind ⟨.pi _, _, _⟩ _ _ | _, .bind ⟨.sigma, _, _⟩ _ _ => True
  | scope, .pair a b _ => a.Unhidden scope ∧ b.Unhidden scope
  | scope, .proj x _ => x.Unhidden scope
  | scope, .letIn x erased _ val body =>
    (erased = false → val.Unhidden scope) ∧
      body.Unhidden ((if erased then none else some x) :: scope)
  | scope, .elim e _ scrut cases => (e ≠ .heq → scrut.Unhidden scope) ∧ UnhiddenAll scope cases

def UnhiddenAll : List (Option Name) → List Term → Prop
  | _, [] => True
  | scope, t :: ts => t.Unhidden scope ∧ UnhiddenAll scope ts

end

end Term

/-! ## From the core term to the erased one -/

namespace Surroundings

/-- The names of the binders on both sides. A binder that is left has the name of the binder that it
was made from, and what hides it at run time hides the other one as well. -/
structure Aligned (S : Surroundings) (core : List (Option Name)) (kept : List Name) : Prop where
  levels : ∀ (k : Nat) l, S.kept[k]? = some l → l < S.core.length
  names : ∀ (i k : Nat), S.core[i]? = some false → S.kept[k]? = some (S.core.length - 1 - i) →
    ∃ x, core[i]? = some (some x) ∧ kept[k]? = some x ∧
      (core.idxOf? (some x) = some i → kept.idxOf? x = some k)

theorem aligned_outside : outside.Aligned [] [] where
  levels k l h := by simp [outside] at h
  names i k h := by simp [outside] at h

variable {S : Surroundings} {core : List (Option Name)} {kept : List Name} {x : Name}

/-- A variable that is erased has no counterpart among those that are kept. -/
theorem Aligned.drop (h : S.Aligned core kept) : S.drop.Aligned (none :: core) kept where
  levels k l hl := Nat.lt_succ_of_lt (h.levels k l hl)
  names i k hi hk := by
    cases i with
    | zero => cases hi
    | succ i =>
      have hlevel : (true :: S.core).length - 1 - (i + 1) = S.core.length - 1 - i := by
        rw [List.length_cons]
        omega
      obtain ⟨y, hcore, hkept, hidx⟩ := h.names i k hi (hlevel ▸ hk)
      refine ⟨y, hcore, hkept, fun hfound => hidx ?_⟩
      simpa [List.idxOf?_cons] using hfound

/-- A variable that is kept is the innermost one on both sides. -/
theorem Aligned.keep (h : S.Aligned core kept) (x : Name) :
    S.keep.Aligned (some x :: core) (x :: kept) where
  levels k l hl := by
    cases k with
    | zero =>
      cases hl
      exact Nat.lt_succ_self _
    | succ k => exact Nat.lt_succ_of_lt (h.levels k l hl)
  names i k hi hk := by
    -- The new binder has the level that none of the others has, so it is on both sides or on
    -- neither.
    cases i with
    | zero =>
      cases k with
      | zero => exact ⟨x, rfl, rfl, fun _ => by simp [List.idxOf?_cons]⟩
      | succ k => exact absurd (h.levels k _ hk) (by simp [Surroundings.keep])
    | succ i =>
      have hlt : i < S.core.length := Nat.lt_of_succ_lt_succ (List.getElem?_eq_some_iff.1 hi).1
      have hlevel : S.keep.core.length - 1 - (i + 1) = S.core.length - 1 - i := by
        rw [Surroundings.keep, List.length_cons]
        omega
      rw [hlevel] at hk
      cases k with
      | zero =>
        have hsame : S.core.length = S.core.length - 1 - i := Option.some.inj hk
        omega
      | succ k =>
        obtain ⟨y, hcore, hkept, hidx⟩ := h.names i k hi hk
        refine ⟨y, hcore, hkept, fun hfound => ?_⟩
        by_cases hxy : x = y
        · simp [List.idxOf?_cons, hxy] at hfound
        · simp only [List.idxOf?_cons, beq_iff_eq, Option.some.injEq, hxy, if_false,
            Option.map_eq_some_iff, Nat.add_right_cancel_iff, exists_eq_right] at hfound ⊢
          exact hidx hfound

end Surroundings

/-- What is left of a term without hidden variables is read back from its named view. -/
theorem Term.Erases.reads {S : Surroundings} {t : Term} {e : Erased} {core : List (Option Name)}
    {kept : List Name} (h : t.Erases S e) (hS : S.Aligned core kept) (ht : t.Unhidden core) :
    (e.named kept).Reads kept e := by
  induction h generalizing core kept with
  | type | primType | binderType => exact .type
  | global => exact .global _
  | prim => exact .prim _
  | nat => exact .nat _
  | @var S i k explicit made =>
    obtain ⟨x, hcore, hkept, hidx⟩ := hS.names i.toNat k explicit made
    have hnamed : (Erased.var k).named kept = .var x := by simp only [Erased.named, hkept]
    rw [hnamed]
    exact .var (hidx (ht x hcore))
  | app _ _ ihf ihx => exact .app (ihf hS ht.1) (ihx hS (ht.2 rfl))
  | appErased _ ih => exact ih hS ht.1
  | lam _ ih => exact .abs (ih (hS.keep _) ht)
  | lamErased gone _ ih =>
    rw [Term.Unhidden, if_pos (by simpa using gone)] at ht
    exact ih hS.drop ht
  | pair _ _ iha ihb => exact .pair (iha hS ht.1) (ihb hS ht.2)
  | pairErased _ ihb => exact .pair .type (ihb hS ht.2)
  | fst _ ih => exact .fst (ih hS ht)
  | snd _ ih => exact .snd (ih hS ht)
  | letIn _ _ ihval ihbody => exact .letIn (ihval hS (ht.1 rfl)) (ihbody (hS.keep _) ht.2)
  | letErased _ ih => exact ih hS.drop ht.2
  | elimVoid _ ih => exact ih hS (ht.1 (by decide))
  | elimBool _ _ _ ihs iht ihf =>
    exact .cond (ihs hS (ht.1 (by decide))) (iht hS ht.2.1) (ihf hS ht.2.2.1)
  | elimNat _ _ _ ihs ihz ihf =>
    exact .elimNat (ihs hS (ht.1 (by decide))) (ihz hS ht.2.1) (ihf hS ht.2.2.1)
  | elimHEq _ ih => exact ih hS ht.2.1

/-- A verified term is printed without capture after erasure, if none of its variables is used where
a binder of the same name hides its own: the text is that of a named term whose names are all
written in it, and in which each name of a variable belongs to the innermost printed binder of that
name. -/
theorem erased_printed_without_capture {fuel : Nat} {g : Globals} {t : Term} {s u : State}
    {ty : Val} {e : Erased} (h : verify fuel g false t s = .ok (ty, e) u) (ht : t.Unhidden []) :
    ∃ n : NamedErased, e.text = toString (MarkedText.concat n.doc.texts) ∧ n.doc.Writes n.names ∧
      n.Reads [] e := by
  refine ⟨e.named [], congrArg toString (Doc.render_false _), NamedErased.doc_writes _, ?_⟩
  exact ((Verify.infer_visits t h).leaves rfl).erases.reads Surroundings.aligned_outside ht

/-- Of `\(x : Nat). \{x : Type}. \(y : Nat). S x`, where `x` is the first argument, the implicit
argument is gone and hides nothing. -/
theorem erased_printed_without_capture_implicit :
    let t : Term := .bind ⟨.lam .expl, "x", false⟩ (.prim .nat) <|
      .bind ⟨.lam .impl, "x", false⟩ .type <|
      .bind ⟨.lam .expl, "y", false⟩ (.prim .nat) (.app (.prim .succ) .expl (.var ⟨2⟩))
    let e : Erased := .abs "x" <| .abs "y" <| .app (.prim .succ) (.var 1)
    t.Unhidden [] ∧ (∃ ty u, verify 10 .empty false t .empty = .ok (ty, e) u) ∧
      e.text = "\\x. \\y. S x" ∧
      ∃ n : NamedErased, e.text = toString (MarkedText.concat n.doc.texts) ∧
        n.doc.Writes n.names ∧ n.Reads [] e := by
  intro t e
  have ht : t.Unhidden [] := by
    refine ⟨trivial, fun _ x hx => ?_⟩
    obtain rfl : (⟨"x"⟩ : Name) = x := by simpa using hx
    decide +kernel
  have h : ∃ ty u, verify 10 .empty false t .empty = .ok (ty, e) u := ⟨_, _, rfl⟩
  refine ⟨ht, h, by decide +kernel, ?_⟩
  obtain ⟨ty, u, h⟩ := h
  exact erased_printed_without_capture h ht

/-- Of `\(x : Nat). \(x : Nat). x`, where `x` is the first argument, both binders are left, and the
text says that the second argument is returned. -/
theorem erased_printed_with_capture :
    let t : Term := .bind ⟨.lam .expl, "x", false⟩ (.prim .nat) <|
      .bind ⟨.lam .expl, "x", false⟩ (.prim .nat) (.var ⟨1⟩)
    let e : Erased := .abs "x" <| .abs "x" (.var 1)
    Name.underscore ∉ t.binders ∧ (∃ ty u, verify 10 .empty false t .empty = .ok (ty, e) u) ∧
      e.text = "\\x. \\x. x" ∧ ¬ (e.named []).Reads [] e := by
  intro t e
  refine ⟨by decide +kernel, ⟨_, _, rfl⟩, by decide +kernel, fun hreads => ?_⟩
  change NamedErased.Reads [] (.abs "x" (.abs "x" (.var "x")))
    (.abs "x" (.abs "x" (.var 1))) at hreads
  cases hreads with
  | abs hreads =>
    cases hreads with
    | abs hreads =>
      cases hreads with
      | var found => exact absurd found (by decide +kernel)

end Elaborator
