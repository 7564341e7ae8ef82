import Elaborator.Proofs.Conversion.Eval
import Elaborator.Proofs.Renaming
import Elaborator.Proofs.Scope.Unify

/-! # Solutions solve

A solution of `?m x₁ ... xₙ = t` is `t` moved into the scope of the parameters, with the parameters
put around it. Applied to the variables it was made from, it is equal to `t` again
(`Term.solution_conv`). A case analysis on `?m` is equal to one of its cases once `?m` is known to
be a constructor (`BoolSplit.branch_conv`). -/

namespace Elaborator

/-! ## Moving a term into the scope of the parameters -/

/-- Two replacements agree on a term and on what it is moved to: they agree on the variables bound
inside it, and what the first one has for a parameter is what the second one has for the variable
that became the parameter. -/
structure Agree (params : List Level) (size depth : Nat) (σ τ : Nat → Term) : Prop where
  bound : ∀ i, i < depth → σ i = τ i
  param : ∀ i l j, Index.toLevel ⟨i⟩ size = .ok l → params.idxOf? l = some j →
    σ (j + depth) = τ (i + depth)

namespace Agree

variable {params : List Level} {size depth : Nat} {σ τ : Nat → Term}

/-- Substitutions that agree on the parameters agree on them under one more binder. -/
theorem cons (h : Agree params size depth σ τ) (t : Term) :
    Agree params size (depth + 1) (Term.cons t σ) (Term.cons t τ) where
  bound i hi := by
    cases i with
    | zero => rfl
    | succ i => exact h.bound i (Nat.lt_of_succ_lt_succ hi)
  param i l j hl hj := h.param i l j hl hj

theorem up (h : Agree params size depth σ τ) :
    Agree params size (depth + 1) (Term.up σ) (Term.up τ) :=
  cons ⟨fun i hi => congrArg Term.shift (h.bound i hi),
    fun i l j hl hj => congrArg Term.shift (h.param i l j hl hj)⟩ _

end Agree

namespace Term

variable {m : MetaId} {params : List Level} {size depth : Nat} {σ τ : Nat → Term}

/-- A term and what it is moved to are the same under replacements that agree. -/
theorem expand_rename {t u : Term} (h : t.rename m params size depth = .ok u)
    (hστ : Agree params size depth σ τ) : u.expand σ = t.expand τ := by
  replace h := renamedTo_of_rename h
  induction h generalizing σ τ with
  | type | global | prim | nat | metavar => rfl
  | bound hi => exact hστ.bound _ hi
  | @param depth k i l free level found =>
    have hparam := hστ.param _ l k level found
    rwa [Nat.sub_add_cancel free] at hparam
  | app _ _ hf hx => rw [expand, expand, hf hστ, hx hστ]
  | bind _ _ hdom hbody => rw [expand, expand, hdom hστ, hbody hστ.up]
  | pair _ _ _ ha hb hs => rw [expand, expand, ha hστ, hb hστ, hs hστ]
  | proj _ hx => rw [expand, expand, hx hστ]
  | letIn _ _ _ _ hval hbody =>
    rw [expand, expand, hval hστ]
    exact hbody (hστ.cons _)
  | elim _ _ length _ hc hs hcs =>
    have hcases := map_eq_map_of_getElem? length fun i t u ht hu => hcs i t u ht hu hστ
    rw [expand, expand, expandAll_eq, expandAll_eq, hc hστ, hs hστ, hcases]

/-! ## Parameters and arguments -/

def applyParams (n : Nat) (t : Term) (params : List Param) : Term :=
  params.foldl (fun f p => .app f p.icit (self (n - 1 - p.level.toNat))) t

def atLevels (n : Nat) (σ : Nat → Term) (levels : List Level) : Nat → Term :=
  levels.foldr (fun l τ => cons (self (n - 1 - l.toNat)) τ) σ

theorem atLevels_eq {levels : List Level} {j : Nat} {l : Level} (h : levels[j]? = some l) (n : Nat)
    (σ : Nat → Term) : atLevels n σ levels j = self (n - 1 - l.toNat) := by
  induction levels generalizing j with
  | nil => cases h
  | cons l' ls ih =>
    cases j with
    | zero =>
      cases h
      rfl
    | succ j => exact ih h

/-- Under the levels that the parameters were, a moved term is what it was. -/
theorem agree_atLevels (levels : List Level) (n : Nat) (σ : Nat → Term) :
    Agree levels n 0 (atLevels n σ levels) self where
  bound i hi := absurd hi (Nat.not_lt_zero i)
  param i l j hl hj := by
    obtain ⟨hlt, hget, -⟩ := List.idxOf?_eq_some_iff.1 hj
    obtain ⟨-, hi, hl⟩ := Index.toLevel_eq_ok_iff.1 hl
    have hj' : levels[j]? = some l := by rw [List.getElem?_eq_getElem hlt, hget]
    refine (atLevels_eq hj' n σ).trans (congrArg self ?_)
    have hbound : i + 1 ≤ n := hi
    have hlevel : l.toNat = n - 1 - i := hl
    omega

variable {g : Globals} {k : Knowledge} {E : Problem → Prop} {n : Nat}

/-- Convertible functions give convertible results on the same parameters. -/
theorem applyParams_conv {s t : Term} (h : Conv g k E n s t) (params : List Param) :
    Conv g k E n (applyParams n s params) (applyParams n t params) := by
  induction params generalizing s t with
  | nil => exact h
  | cons p ps ih => exact ih (.app h (.refl _))

/-- A function of parameters, applied to the variables that they were, reduces to its body. -/
theorem applyParams_abstract (params : List Param) (body : Term) (σ : Nat → Term) :
    Conv g k E n (applyParams n ((Term.abstract params body).expand σ) params)
      (body.expand (atLevels n σ (params.map (·.level)).reverse)) := by
  induction params generalizing σ with
  | nil => exact .refl _
  | cons p ps ih =>
    have hbeta : Conv g k E n
        (.app ((Term.abstract (p :: ps) body).expand σ) p.icit (self (n - 1 - p.level.toNat)))
        ((Term.abstract ps body).expand (cons (self (n - 1 - p.level.toNat)) σ)) := by
      rw [← expand_up_inst]
      exact .reduce .beta
    have hlevels : atLevels n σ ((p :: ps).map (·.level)).reverse =
        atLevels n (cons (self (n - 1 - p.level.toNat)) σ) (ps.map (·.level)).reverse := by
      rw [List.map_cons, List.reverse_cons, atLevels, List.foldr_append]
      rfl
    rw [hlevels]
    exact (applyParams_conv hbeta ps).trans (ih _)

end Term

section

variable {g : Globals} {E : Problem → Prop} {n fuel : Nat} {ms : MetaStore}

/-- A spine that parameters were found in applies its head to them. -/
theorem Spine.params?_conv (hms : ms.SolvedWithin g.bounds) {sp : Spine} {params : List Param}
    (hsp : Spine.Within g.bounds (· < n) sp) (h : Spine.params? fuel ms sp = .ok (some params))
    (t : Term) : Conv g ms.now E n (Spine.embed n t sp) (t.applyParams n params) := by
  induction sp generalizing params with
  | nil =>
    cases h
    exact .refl _
  | cons e sp ih =>
    obtain ⟨he, htail⟩ := Spine.within_cons.1 hsp
    obtain ⟨found, hfound, h⟩ := bind_ok h
    cases found with
    | none => cases h
    | some ps =>
      cases e with
      | proj | cases => cases h
      | app icit x =>
        obtain ⟨v, hv, h⟩ := bind_ok h
        split at h
        · next l =>
          cases h
          rw [Term.applyParams, List.foldl_append]
          exact .app (ih htail hfound) (Val.force_conv hms (Elim.within_app.1 he) hv)
        · cases h

/-- The solution of a problem, applied to the variables on its left-hand side, is equal to its
right-hand side. -/
theorem Term.solution_conv (hg : g.env.Within g.bounds noLevels anything)
    (hms : ms.SolvedWithin g.bounds) {m : MetaId} {rhs v : Val} {body u : Term}
    {params : List Param} (hrhs : rhs.Within g.bounds (· < n))
    (hbody : rhs.quote fuel ms false n = .ok body)
    (hu : body.rename m (params.map (·.level)).reverse n 0 = .ok u)
    (hv : (Term.abstract params u).eval fuel g.env = .ok v) :
    Conv g ms.now E n (Term.applyParams n (v.embed n) params) (rhs.embed n) := by
  have hscoped : (Term.abstract params u).Within g.bounds g.env.size := by
    have hwbody := (Val.quote_safely hms hrhs (fun _ hl => hl) fuel false).answer body hbody
    exact (Term.abstract_rename_within hwbody hu).widen (g.bounds.without_le m)
  have henv : g.env.Within g.bounds (· < n) (· ∈ (Term.abstract params u).globals) :=
    (hg.mono fun _ hl => hl.elim).narrow fun _ _ => trivial
  have hvalue : Conv g ms.now E n ((Term.abstract params u).expand (g.env.embed n)) (v.embed n) :=
    Term.eval_conv henv hscoped hv
  have hmoved := Term.expand_rename hu (Term.agree_atLevels _ n (g.env.embed n))
  refine (Term.applyParams_conv hvalue.symm params).trans ?_
  refine (Term.applyParams_abstract params u (g.env.embed n)).trans ?_
  rw [hmoved]
  exact Val.quote_conv hms hrhs hbody

/-! ## Stuck case analyses -/

/-- The branch of a constant is what the case analysis is equal to, once its scrutinee is that
constant. -/
theorem BoolSplit.branch_conv {k : Knowledge} {sp : Spine} {split : BoolSplit} {case branch : Val}
    {constant : Prim} {t : Term} (hsp : Spine.Within g.bounds (· < n) sp)
    (hsplit : BoolSplit.of? sp = some split)
    (hmem : (case, constant) ∈ split.cases.zip [.true, .false])
    (hbranch : split.branch fuel case = .ok branch)
    (ht : Conv g k E n (Spine.embed n t split.init) (.prim constant)) :
    Conv g k E n (Spine.embed n t sp) (branch.embed n) := by
  -- A case analysis of a constant is the case for this constant.
  have hcase (motive : Val) :
      Conv g k E n ((Elim.cases .bool motive split.cases).embed n (Spine.embed n t split.init))
        (case.embed n) := by
    refine (ht.use (.cases .bool motive split.cases)).trans (.reduce ?_)
    obtain ⟨i, hi⟩ := List.mem_iff_getElem?.1 hmem
    obtain ⟨hc, hconstant⟩ := List.getElem?_zip_eq_some.1 hi
    match i with
    | 0 =>
      cases hconstant
      exact .true (Val.embedAll_getElem? hc n)
    | 1 =>
      cases hconstant
      exact .false (Val.embedAll_getElem? hc n)
    | i + 2 => cases hconstant
  obtain ⟨-, hcases, htrailing⟩ := BoolSplit.forall_vals.1 (BoolSplit.of?_vals hsplit hsp)
  have hwcase := hcases case (List.of_mem_zip hmem).1
  unfold BoolSplit.of? at hsplit
  split at hsplit <;> cases hsplit
  · cases hbranch
    exact hcase _
  · next icit x motive cases init =>
    have hx := htrailing (.app icit x) rfl
    exact ((hcase motive).use (.app icit x)).trans (Val.eliminate_conv hwcase hx hbranch)

end

end Elaborator
