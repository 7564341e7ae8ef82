import Elaborator.Surface

/-! # Binders of surface terms

The names that are written at the binders of a surface term, and what it means that all of them are
in a set of names (`Surface.BindersIn`). -/

namespace Elaborator

namespace Surface

mutual

/-- The names of all binders that are written in a term, from left to right and with repetitions. -/
def binders : Surface → List Name
  | .var _ | .hole .. | .prim _ | .type | .nat _ => []
  | .app f _ x => f.binders ++ x.binders
  | .abs _ _ x ty body => bindersOption ty ++ x :: body.binders
  | .pi _ _ x ty body => ty.binders ++ x :: body.binders
  | .sigma _ x ty body => ty.binders ++ x :: body.binders
  | .letIn _ x ty val body => bindersOption ty ++ val.binders ++ x :: body.binders
  | .pair a b => a.binders ++ b.binders
  | .proj x _ => x.binders
  | .ann x ty => x.binders ++ ty.binders
  | .elim _ motive scrut cases => bindersOption motive ++ scrut.binders ++ bindersAll cases
  | .spanned _ x => x.binders

def bindersOption : Option Surface → List Name
  | none => []
  | some t => t.binders

def bindersAll : List Surface → List Name
  | [] => []
  | t :: ts => t.binders ++ bindersAll ts

end

def BindersIn (P : Name → Prop) (t : Surface) : Prop := ∀ x ∈ t.binders, P x

variable {P : Name → Prop}

theorem forall_mem_bindersOption {o : Option Surface} :
    (∀ x ∈ bindersOption o, P x) ↔ ∀ t ∈ o, t.BindersIn P := by
  cases o with
  | none => simp [bindersOption]
  | some t => simp [bindersOption, BindersIn]

theorem forall_mem_bindersAll {ts : List Surface} :
    (∀ x ∈ bindersAll ts, P x) ↔ ∀ t ∈ ts, t.BindersIn P := by
  induction ts with
  | nil => simp [bindersAll]
  | cons t ts ih =>
    simp only [bindersAll, List.forall_mem_append, ih, List.forall_mem_cons, BindersIn]

theorem bindersIn_app {f x : Surface} {icit : Icit} :
    (Surface.app f icit x).BindersIn P ↔ f.BindersIn P ∧ x.BindersIn P :=
  List.forall_mem_append

theorem bindersIn_abs {icit : Icit} {erased : Bool} {x : Name} {ty : Option Surface}
    {body : Surface} :
    (Surface.abs icit erased x ty body).BindersIn P ↔
      (∀ t ∈ ty, t.BindersIn P) ∧ P x ∧ body.BindersIn P := by
  simp only [BindersIn, binders, List.forall_mem_append, List.forall_mem_cons,
    forall_mem_bindersOption]

theorem bindersIn_pi {icit : Icit} {erased : Bool} {x : Name} {ty body : Surface} :
    (Surface.pi icit erased x ty body).BindersIn P ↔ ty.BindersIn P ∧ P x ∧ body.BindersIn P := by
  simp only [BindersIn, binders, List.forall_mem_append, List.forall_mem_cons]

theorem bindersIn_sigma {erased : Bool} {x : Name} {ty body : Surface} :
    (Surface.sigma erased x ty body).BindersIn P ↔ ty.BindersIn P ∧ P x ∧ body.BindersIn P := by
  simp only [BindersIn, binders, List.forall_mem_append, List.forall_mem_cons]

theorem bindersIn_letIn {erased : Bool} {x : Name} {ty : Option Surface} {val body : Surface} :
    (Surface.letIn erased x ty val body).BindersIn P ↔
      (∀ t ∈ ty, t.BindersIn P) ∧ val.BindersIn P ∧ P x ∧ body.BindersIn P := by
  simp only [BindersIn, binders, List.forall_mem_append, List.forall_mem_cons,
    forall_mem_bindersOption, and_assoc]

theorem bindersIn_pair {a b : Surface} :
    (Surface.pair a b).BindersIn P ↔ a.BindersIn P ∧ b.BindersIn P :=
  List.forall_mem_append

theorem bindersIn_ann {x ty : Surface} :
    (Surface.ann x ty).BindersIn P ↔ x.BindersIn P ∧ ty.BindersIn P :=
  List.forall_mem_append

theorem bindersIn_elim {e : Eliminator} {m : Option Surface} {s : Surface} {cs : List Surface} :
    (Surface.elim e m s cs).BindersIn P ↔
      (∀ t ∈ m, t.BindersIn P) ∧ s.BindersIn P ∧ ∀ c ∈ cs, c.BindersIn P := by
  simp only [BindersIn, binders, List.forall_mem_append, forall_mem_bindersOption,
    forall_mem_bindersAll, and_assoc]

end Surface

end Elaborator
