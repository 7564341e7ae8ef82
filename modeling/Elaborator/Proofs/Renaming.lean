import Elaborator.Proofs.Scope.Eval
import Elaborator.Unify.Solution

/-! # Moving a term into the scope of parameters

A solution is found by moving a term out of its scope into that of the parameters of a metavariable.
This can be refused in many places. Where it is not, only variables have changed: those of binders
inside of the term stay, and the others are parameters. `Term.RenamedTo` says this with one rule per
form of a term, for proofs that start from a term that was moved. -/

namespace Elaborator

/-- The second term is what the first one is moved to, under `depth` binders. -/
inductive Term.RenamedTo (m : MetaId) (params : List Level) (size : Nat) :
    (depth : Nat) → Term → Term → Prop
  | type {depth : Nat} : RenamedTo m params size depth .type .type
  | global {depth : Nat} {x : Name} : RenamedTo m params size depth (.global x) (.global x)
  | prim {depth : Nat} {p : Prim} : RenamedTo m params size depth (.prim p) (.prim p)
  | nat {depth k : Nat} : RenamedTo m params size depth (.nat k) (.nat k)
  | metavar {depth : Nat} {n : MetaId} (other : n ≠ m) :
      RenamedTo m params size depth (.metavar n) (.metavar n)
  | bound {depth : Nat} {i : Index} (bound : i.toNat < depth) :
      RenamedTo m params size depth (.var i) (.var i)
  | param {depth k : Nat} {i : Index} {l : Level} (free : depth ≤ i.toNat)
      (level : Index.toLevel ⟨i.toNat - depth⟩ size = .ok l) (found : params.idxOf? l = some k) :
      RenamedTo m params size depth (.var i) (.var ⟨k + depth⟩)
  | app {depth : Nat} {f f' x x' : Term} {icit : Icit} (fn : RenamedTo m params size depth f f')
      (arg : RenamedTo m params size depth x x') :
      RenamedTo m params size depth (.app f icit x) (.app f' icit x')
  | bind {depth : Nat} {b : Binder} {dom dom' body body' : Term}
      (domain : RenamedTo m params size depth dom dom')
      (inner : RenamedTo m params size (depth + 1) body body') :
      RenamedTo m params size depth (.bind b dom body) (.bind b dom' body')
  | pair {depth : Nat} {a a' b b' s s' : Term} (fst : RenamedTo m params size depth a a')
      (snd : RenamedTo m params size depth b b') (sigma : RenamedTo m params size depth s s') :
      RenamedTo m params size depth (.pair a b s) (.pair a' b' s')
  | proj {depth : Nat} {x x' : Term} {p : Proj} (pair : RenamedTo m params size depth x x') :
      RenamedTo m params size depth (.proj x p) (.proj x' p)
  | letIn {depth : Nat} {x : Name} {erased : Bool} {ty ty' val val' body body' : Term}
      (type : RenamedTo m params size depth ty ty') (value : RenamedTo m params size depth val val')
      (inner : RenamedTo m params size (depth + 1) body body') :
      RenamedTo m params size depth (.letIn x erased ty val body) (.letIn x erased ty' val' body')
  | elim {depth : Nat} {e : Eliminator} {c c' s s' : Term} {cs cs' : List Term}
      (motive : RenamedTo m params size depth c c') (scrut : RenamedTo m params size depth s s')
      (length : cs.length = cs'.length)
      (cases : ∀ (i : Nat) (t t' : Term), cs[i]? = some t → cs'[i]? = some t' →
        RenamedTo m params size depth t t') :
      RenamedTo m params size depth (.elim e c s cs) (.elim e c' s' cs')

namespace Term

variable {m : MetaId} {params : List Level} {size depth : Nat}

theorem renameAll_eq (ts : List Term) :
    renameAll m params size depth ts = ts.mapM (rename m params size depth) := by
  induction ts with
  | nil => rfl
  | cons t ts ih => rw [renameAll, ih, List.mapM_cons]

/-- A renaming that succeeds relates the term to the renamed one. -/
theorem renamedTo_of_rename {t u : Term} (h : t.rename m params size depth = .ok u) :
    RenamedTo m params size depth t u := by
  induction t generalizing depth u with
  | type =>
    cases h
    exact .type
  | global x =>
    cases h
    exact .global
  | prim p =>
    cases h
    exact .prim
  | nat k =>
    cases h
    exact .nat
  | metavar n =>
    rw [rename] at h
    split at h
    · cases h
    · next hother =>
      cases h
      exact .metavar hother
  | var i =>
    rw [rename] at h
    split at h
    · next hbound =>
      cases h
      exact .bound hbound
    · next hfree =>
      split at h
      · cases h
      · next l hlevel =>
        split at h
        · next k hfound =>
          cases h
          exact .param (Nat.le_of_not_lt hfree) hlevel hfound
        · cases h
  | app f icit x hf hx =>
    obtain ⟨f', hf', h⟩ := bind_ok h
    obtain ⟨x', hx', h⟩ := bind_ok h
    cases h
    exact .app (hf hf') (hx hx')
  | bind b dom body hdom hbody =>
    obtain ⟨dom', hdom', h⟩ := bind_ok h
    obtain ⟨body', hbody', h⟩ := bind_ok h
    cases h
    exact .bind (hdom hdom') (hbody hbody')
  | pair a b s ha hb hs =>
    obtain ⟨a', ha', h⟩ := bind_ok h
    obtain ⟨b', hb', h⟩ := bind_ok h
    obtain ⟨s', hs', h⟩ := bind_ok h
    cases h
    exact .pair (ha ha') (hb hb') (hs hs')
  | proj x p hx =>
    obtain ⟨x', hx', h⟩ := bind_ok h
    cases h
    exact .proj (hx hx')
  | letIn x erased ty val body hty hval hbody =>
    obtain ⟨ty', hty', h⟩ := bind_ok h
    obtain ⟨val', hval', h⟩ := bind_ok h
    obtain ⟨body', hbody', h⟩ := bind_ok h
    cases h
    exact .letIn (hty hty') (hval hval') (hbody hbody')
  | elim e c s cs hc hs hcs =>
    obtain ⟨c', hc', h⟩ := bind_ok h
    obtain ⟨s', hs', h⟩ := bind_ok h
    obtain ⟨cs', hcs', h⟩ := bind_ok h
    cases h
    rw [renameAll_eq] at hcs'
    have hcases : List.Forall₂ (RenamedTo m params size depth) cs cs' :=
      mapM_ok hcs' fun t ht u hu => hcs t ht hu
    exact .elim (hc hc') (hs hs') hcases.length_eq fun _ _ _ => rel_of_getElem? hcases

end Term

/-- If two functions agree on what stands at the same index of two lists, their results are the same
lists. -/
theorem map_eq_map_of_getElem? {α β γ : Type} {f : α → γ} {g : β → γ} {xs : List α} {ys : List β}
    (hlength : xs.length = ys.length)
    (h : ∀ (i : Nat) x y, xs[i]? = some x → ys[i]? = some y → g y = f x) : ys.map g = xs.map f := by
  refine List.ext_getElem (by simpa using hlength.symm) fun i hi hi' => ?_
  rw [List.getElem_map, List.getElem_map]
  exact h i _ _ (List.getElem?_eq_getElem _) (List.getElem?_eq_getElem _)

end Elaborator
