import Elaborator.Proofs.Scope.Basic
import Elaborator.Unify.Solution

/-! # What keeps a term from being a solution

A term is moved into the scope of the parameters of a metavariable, unless it depends on something
that is not there. `Term.freeLevels` lists the variables that a term depends on. If moving fails,
then for a reason that the term gives (`Term.rename_obstacle`): the metavariable occurs in it, or
one of these variables is no parameter. A term that is out of scope, or in a scope whose size is no
word, is not looked at further. -/

namespace Elaborator

namespace Term

mutual

def freeLevels (size : Nat) : (depth : Nat) → Term → List Level
  | depth, .var i => if i.toNat < depth then [] else [⟨size - 1 - (i.toNat - depth)⟩]
  | _, .type | _, .global _ | _, .metavar _ | _, .prim _ | _, .nat _ => []
  | depth, .app f _ x => f.freeLevels size depth ++ x.freeLevels size depth
  | depth, .bind _ dom body => dom.freeLevels size depth ++ body.freeLevels size (depth + 1)
  | depth, .pair a b s =>
    a.freeLevels size depth ++ b.freeLevels size depth ++ s.freeLevels size depth
  | depth, .proj x _ => x.freeLevels size depth
  | depth, .letIn _ _ ty val body =>
    ty.freeLevels size depth ++ val.freeLevels size depth ++ body.freeLevels size (depth + 1)
  | depth, .elim _ motive scrut cases =>
    motive.freeLevels size depth ++ scrut.freeLevels size depth ++ freeLevelsAll size depth cases

def freeLevelsAll (size : Nat) : (depth : Nat) → List Term → List Level
  | _, [] => []
  | depth, t :: ts => t.freeLevels size depth ++ freeLevelsAll size depth ts

end

/-- What keeps something with these metavariables and free variables from being moved into the scope
of the parameters of `?m`. If it is in scope and the size of the scope is a word, only the two
checks do. -/
inductive Obstacle (m : MetaId) (params : List Level) (size : Nat) (metas : List MetaId)
    (vars : List Level) (bound : Prop) : Failure → Prop
  | occurs (mem : m ∈ metas) : Obstacle m params size metas vars bound (.error (.occurs m))
  | scope {l : Level} (mem : l ∈ vars) (other : l ∉ params) :
      Obstacle m params size metas vars bound (.error (.scope m ("$" ++ toString l.toNat)))
  | fault {f : Fault} (bad : bound → wordLimit ≤ size) :
      Obstacle m params size metas vars bound (.fault f)

section

variable {m : MetaId} {params : List Level} {size depth : Nat}

/-- An obstacle stays one when there are more metavariables and variables to meet. -/
theorem Obstacle.imp {metas metas' : List MetaId} {vars vars' : List Level}
    {bound bound' : Prop} {e : Failure} (h : Obstacle m params size metas vars bound e)
    (hmetas : metas ⊆ metas') (hvars : vars ⊆ vars') (hbound : bound' → bound) :
    Obstacle m params size metas' vars' bound' e := by
  cases h with
  | occurs mem => exact .occurs (hmetas mem)
  | scope mem other => exact .scope (hvars mem) other
  | fault bad => exact .fault fun h => bad (hbound h)

/-- Whatever stops a sequence stops its first part or the rest. -/
theorem obstacle_of_bind {α β : Type} {E : Failure → Prop} {x : Except Failure α}
    {f : α → Except Failure β} (hx : ∀ e, x = .error e → E e)
    (hf : ∀ a e, f a = .error e → E e) (e : Failure) (h : x >>= f = .error e) : E e := by
  cases x with
  | error d =>
    cases h
    exact hx _ rfl
  | ok a => exact hf a e h

/-- **A term that cannot be moved has an obstacle.** -/
theorem rename_obstacle (t : Term) (e : Failure) (h : t.rename m params size depth = .error e) :
    Obstacle m params size t.metaOccurrences (t.freeLevels size depth)
      (t.Scoped (size + depth)) e := by
  induction t generalizing depth e with
  | type | global | prim | nat => cases h
  | metavar n =>
    simp only [rename] at h
    split at h
    · next hn =>
      cases h
      exact .occurs (by simp [metaOccurrences, hn])
    · cases h
  | var i =>
    simp only [rename] at h
    split at h
    · cases h
    · next hfree =>
      split at h
      · next f hf =>
        -- An index in scope has a level, if the level is a word.
        cases h
        refine .fault fun (hi : i.toNat < size + depth) => Nat.le_of_not_lt fun hsize => ?_
        have hlevel : Index.toLevel ⟨i.toNat - depth⟩ size = .ok ⟨size - 1 - (i.toNat - depth)⟩ :=
          Index.toLevel_eq_ok_iff.2 ⟨by show i.toNat - depth + 1 < wordLimit; omega,
            by show i.toNat - depth + 1 ≤ size; omega, rfl⟩
        rw [hlevel] at hf
        cases hf
      · next l hl =>
        obtain ⟨-, -, hl⟩ := Index.toLevel_eq_ok_iff.1 hl
        split at h
        · cases h
        · next hnone =>
          cases h
          refine .scope ?_ (by simpa using hnone)
          rw [freeLevels, if_neg hfree, List.mem_singleton]
          exact Level.ext hl
  | app f icit x hf hx =>
    refine obstacle_of_bind (fun e h => ?_) (fun f' => obstacle_of_bind (fun e h => ?_) ?_) e h
    · exact (hf e h).imp (by simp [metaOccurrences]) (by simp [freeLevels]) And.left
    · exact (hx e h).imp (by simp [metaOccurrences]) (by simp [freeLevels]) And.right
    · rintro x' e ⟨⟩
  | bind b dom body hdom hbody =>
    refine obstacle_of_bind (fun e h => ?_) (fun dom' => obstacle_of_bind (fun e h => ?_) ?_) e h
    · exact (hdom e h).imp (by simp [metaOccurrences]) (by simp [freeLevels]) And.left
    · exact (hbody e h).imp (by simp [metaOccurrences]) (by simp [freeLevels]) And.right
    · rintro x' e ⟨⟩
  | pair a b s ha hb hs =>
    refine obstacle_of_bind (fun e h => ?_) (fun a' => obstacle_of_bind (fun e h => ?_)
      (fun b' => obstacle_of_bind (fun e h => ?_) ?_)) e h
    · exact (ha e h).imp (by simp [metaOccurrences]) (by simp [freeLevels]) fun h => h.1
    · exact (hb e h).imp (by simp [metaOccurrences]) (by simp [freeLevels]) fun h => h.2.1
    · exact (hs e h).imp (by simp [metaOccurrences]) (by simp [freeLevels]) fun h => h.2.2
    · rintro s' e ⟨⟩
  | proj x p hx =>
    refine obstacle_of_bind (fun e h => ?_) ?_ e h
    · exact (hx e h).imp (by simp [metaOccurrences]) (by simp [freeLevels]) id
    · rintro x' e ⟨⟩
  | letIn x erased ty val body hty hval hbody =>
    refine obstacle_of_bind (fun e h => ?_) (fun ty' => obstacle_of_bind (fun e h => ?_)
      (fun val' => obstacle_of_bind (fun e h => ?_) ?_)) e h
    · exact (hty e h).imp (by simp [metaOccurrences]) (by simp [freeLevels]) fun h => h.1
    · exact (hval e h).imp (by simp [metaOccurrences]) (by simp [freeLevels]) fun h => h.2.1
    · exact (hbody e h).imp (by simp [metaOccurrences]) (by simp [freeLevels]) fun h => h.2.2
    · rintro s' e ⟨⟩
  | elim e' motive scrut cases hmotive hscrut hcases =>
    have hall : ∀ e, renameAll m params size depth cases = .error e →
        Obstacle m params size (metaOccurrencesAll cases) (freeLevelsAll size depth cases)
          (ScopedAll (size + depth) cases) e := by
      clear h
      induction cases with
      | nil => rintro e ⟨⟩
      | cons c cs ih =>
        obtain ⟨hc, hcs⟩ := List.forall_mem_cons.1 hcases
        refine obstacle_of_bind (fun e h => ?_) (fun c' => obstacle_of_bind (fun e h => ?_) ?_)
        · exact (hc e h).imp (by simp [metaOccurrencesAll]) (by simp [freeLevelsAll]) And.left
        · exact (ih hcs e h).imp (by simp [metaOccurrencesAll]) (by simp [freeLevelsAll]) And.right
        · rintro cs' e ⟨⟩
    refine obstacle_of_bind (fun e h => ?_) (fun m' => obstacle_of_bind (fun e h => ?_)
      (fun s' => obstacle_of_bind (fun e h => ?_) ?_)) e h
    · exact (hmotive e h).imp (by simp [metaOccurrences]) (by simp [freeLevels]) fun h => h.1
    · exact (hscrut e h).imp (by simp [metaOccurrences]) (by simp [freeLevels]) fun h => h.2.1
    · exact (hall e h).imp (by simp [metaOccurrences]) (by simp [freeLevels]) fun h => h.2.2
    · rintro s' e ⟨⟩

end

end Term

end Elaborator
