import Elaborator.Instance
import Elaborator.Proofs.BinderNames.Surface
import Elaborator.Proofs.PrimitiveTypes
import Elaborator.Proofs.Run
import Elaborator.Proofs.Scope.Basic

/-! # Disciplines of elaboration

Much of what is known about elaboration is proved by following it from step to step: variables stay
in scope, names of binders come from the term, metavariables were made before they are mentioned,
the store changes only in certain ways. The steps differ, but the way through the rules is always
the same.

A `Discipline` says what is to be known of the values, terms and contexts that are met, and what it
means that an action keeps to it. `Discipline.Laws` lists what single steps of elaboration have to
do, and `Discipline.UnifyLaws` does the same for unification. The way through the rules is in
`Discipline.Check`, that through unification in `Discipline.Unify`, each written once against these
laws.

What is known may depend on the moment: on the metavariables that were made, say. So everything is
said in a world, and what is known in a world is still known in later ones. -/

namespace Elaborator

/-- What is known while a term is elaborated. The values of a context mention certain levels, and
its terms are in a scope of its size; a discipline may leave both out of account. -/
structure Discipline where
  World : Type
  Later : World → World → Prop
  /-- Run in this world, the action ends in a later one, where its answer has the property. If
  `quiet` holds, it meets no holes. -/
  Runs : {α : Type} → (quiet : Prop) → World → Action α → (World → α → Prop) → Prop
  /-- Run in this world, the action stays in it, and its answer has the property. -/
  Reads : {α : Type} → World → Action α → (α → Prop) → Prop
  NameOk : Name → Prop
  ValOk : World → (levels : Nat → Prop) → Val → Prop
  TermOk : World → (size : Nat) → Term → Prop
  ScopeOk : World → (levels : Nat → Prop) → Local → Prop
  /-- What is to be known of a metavariable and a value before it is noted that the one is to be
  solved by the other. -/
  Solvable : World → MetaId → Val → Prop := fun _ _ _ => True
  Ready : World → MetaId → Prop := fun _ _ => True

/-- The events that elaboration notes about a type in a context. -/
inductive Event.Concerns (scope : Local) (ty : Val) : (MetaStore → Event) → Prop
  | check : Concerns scope ty fun ms => .check ms scope ty
  | checkScope : Concerns scope ty fun ms => .checkScope ms scope
  | synthScope : Concerns scope ty fun ms => .synthScope ms scope
  | synth (term : Term) : Concerns scope ty fun ms => .synth ms scope term ty
  | apply (icit : Icit) : Concerns scope ty fun ms => .apply ms scope ty icit
  | insertImplicits : Concerns scope ty fun ms => .insertImplicits ms scope ty

/-! ## Sizes of contexts -/

@[simp] theorem Local.size_enterType (scope : Local) : scope.enterType.size = scope.size := rfl

@[simp] theorem Local.size_enterIf (scope : Local) (erased : Bool) :
    (scope.enterIf erased).size = scope.size := by
  cases erased <;> rfl

@[simp] theorem Local.size_bind (scope : Local) (x : Name) (ty : Val) (erased inserted : Bool) :
    (scope.bind x ty erased inserted).size = scope.size + 1 :=
  Env.size_push _ _

@[simp] theorem Local.size_define (scope : Local) (x : Name) (ty : Val) (erased : Bool) (v : Val) :
    (scope.define x ty erased v).size = scope.size + 1 :=
  Env.size_push _ _

namespace Discipline

def TypedOk (D : Discipline) (w : D.World) (L : Nat → Prop) (size : Nat) (r : Term × Val) : Prop :=
  D.TermOk w size r.1 ∧ D.ValOk w L r.2

/-! ## Laws -/

structure WorldLaws (D : Discipline) : Prop where
  refl : ∀ w, D.Later w w
  trans : ∀ {u v w}, D.Later u v → D.Later v w → D.Later u w
  val_later : ∀ {w u L v}, D.Later w u → D.ValOk w L v → D.ValOk u L v
  term_later : ∀ {w u n t}, D.Later w u → D.TermOk w n t → D.TermOk u n t
  scope_later : ∀ {w u L scope}, D.Later w u → D.ScopeOk w L scope → D.ScopeOk u L scope

structure ActionLaws (D : Discipline) : Prop where
  pure : ∀ {α : Type} {quiet w} {Q : D.World → α → Prop} {a : α}, Q w a → D.Runs quiet w (pure a) Q
  bind : ∀ {α β : Type} {quiet w} {Q : D.World → α → Prop} {R : D.World → β → Prop} {x : Action α}
    {f : α → Action β},
    D.Runs quiet w x Q → (∀ u a, D.Later w u → Q u a → D.Runs quiet u (f a) R) →
      D.Runs quiet w (x >>= f) R
  read : ∀ {α β : Type} {quiet w} {P : α → Prop} {R : D.World → β → Prop} {x : Action α}
    {f : α → Action β},
    D.Reads w x P → (∀ a, P a → D.Runs quiet w (f a) R) → D.Runs quiet w (x >>= f) R
  outOfFuel : ∀ {α : Type} {quiet w} {Q : D.World → α → Prop},
    D.Runs quiet w (throw (.fault .outOfFuel)) Q
  /-- Elaboration itself raises no internal errors. -/
  refuse : ∀ {α : Type} {quiet w} {Q : D.World → α → Prop} {e : Error},
    (∀ text, e.inner ≠ .internal text) → D.Runs quiet w (Action.refuse e) Q
  /-- An error may be changed, but not into an internal one. -/
  mapError : ∀ {α : Type} {quiet w} {Q : D.World → α → Prop} {x : Action α} {g : Error → Error},
    (∀ e text, (g e).inner = .internal text → e.inner = .internal text) → D.Runs quiet w x Q →
    D.Runs quiet w (Action.mapError g x) Q
  /-- A transaction meets no holes. A soft error may be dealt with after it, a hard one is raised
  again. -/
  transaction :
    ∀ {α β : Type} {quiet w} {Q : D.World → α → Prop} {R : D.World → β → Prop} {x : Action α}
    {f : Except Error α → Action β}, D.Runs True w x Q →
    (∀ u a, D.Later w u → Q u a → D.Runs quiet u (f (.ok a)) R) →
    (∀ u e, D.Later w u → e.isSoft = true → D.Runs quiet u (f (.error e)) R) →
    (∀ e, e.isSoft = false → f (.error e) = Action.refuse e) →
      D.Runs quiet w (Action.transaction x >>= f) R
  attempt : ∀ {α : Type} {quiet w} {Q : D.World → α → Prop} {x : Action (Option α)},
    D.Runs True w x (fun u r => ∀ a ∈ r, Q u a) → D.Runs quiet w (Action.attempt x) fun u r =>
      ∀ a ∈ r, Q u a

structure ForceLaws (D : Discipline) : Prop where
  val_prim : ∀ {w L p}, D.ValOk w L (.prim p)
  val_closure : ∀ {w L c}, D.ValOk w L (.closure c) → D.NameOk c.binder.name ∧ D.ValOk w L c.dom
  enter : ∀ {w L c fuel size}, D.ValOk w L (.closure c) →
    D.Reads w (c.enter fuel size) (D.ValOk w fun l => L l ∨ l = size)
  force : ∀ {w L v fuel}, D.ValOk w L v → D.Reads w (Action.force fuel v) (D.ValOk w L)

structure ValLaws (D : Discipline) : Prop where
  val_type : ∀ {w L}, D.ValOk w L .type
  val_primType : ∀ {w L} (p : Prim), D.ValOk w L p.type
  val_equation : ∀ {w L v} {q : Equation}, D.ValOk w L v → Equation.ofType? v = some q →
    q.All (D.ValOk w L)
  val_equationType : ∀ {w L} {q : Equation}, q.All (D.ValOk w L) → D.ValOk w L q.type

/-- The laws about values follow from the shared traversal of primitive types and signatures. -/
theorem ValLaws.of_supports {D : Discipline} {N : Name → Prop} {T : D.World → Nat → Term → Prop}
    {J : {α : Type} → Except Fault α → (α → Prop) → Prop}
    (h : ∀ {w L}, Prim.Supports N (T w) (D.ValOk w L) J) : D.ValLaws where
  val_type := h.val_type
  val_primType := h.primType
  val_equation := h.equation
  val_equationType := h.equationType

structure TermLaws (D : Discipline) : Prop where
  underscore : D.NameOk .underscore
  term_type : ∀ {w n}, D.TermOk w n .type
  term_nat : ∀ {w n k}, D.TermOk w n (.nat k)
  term_prim : ∀ {w n p}, D.TermOk w n (.prim p)
  term_global : ∀ {w n x}, D.TermOk w n (.global x)
  term_app : ∀ {w n f icit x}, D.TermOk w n f → D.TermOk w n x → D.TermOk w n (.app f icit x)
  term_bind : ∀ {w n b dom body}, D.NameOk b.name → D.TermOk w n dom → D.TermOk w (n + 1) body →
    D.TermOk w n (.bind b dom body)
  term_pair : ∀ {w n a b s}, D.TermOk w n a → D.TermOk w n b → D.TermOk w n s →
    D.TermOk w n (.pair a b s)
  term_proj : ∀ {w n x p}, D.TermOk w n x → D.TermOk w n (.proj x p)
  term_letIn : ∀ {w n x erased ty val body}, D.NameOk x → D.TermOk w n ty → D.TermOk w n val →
    D.TermOk w (n + 1) body → D.TermOk w n (.letIn x erased ty val body)
  term_elim : ∀ {w n e motive scrut cases}, D.TermOk w n motive → D.TermOk w n scrut →
    (∀ c ∈ cases, D.TermOk w n c) → D.TermOk w n (.elim e motive scrut cases)

/-- Contexts grow, and their variables can be used. A variable that stands for itself brings a
level. -/
structure ScopeLaws (D : Discipline) : Prop where
  scope_enterType : ∀ {w L scope}, D.ScopeOk w L scope → D.ScopeOk w L scope.enterType
  scope_bind : ∀ {w L scope ty x erased inserted}, D.ScopeOk w L scope → D.ValOk w L ty →
    D.ScopeOk w (fun l => L l ∨ l = scope.size) (scope.bind x ty erased inserted)
  scope_define : ∀ {w L scope ty v x erased}, D.ScopeOk w L scope → D.ValOk w L ty → D.ValOk w L v →
    D.ScopeOk w L (scope.define x ty erased v)
  scope_defineFresh : ∀ {w L scope ty x erased}, D.ScopeOk w L scope → D.ValOk w L ty →
    D.ScopeOk w (fun l => L l ∨ l = scope.size) (scope.define x ty erased (.fresh scope.size))
  scope_entry : ∀ {w L scope e i}, D.ScopeOk w L scope → (e, i) ∈ scope.entries.zipIdx →
    D.TermOk w scope.size (.var ⟨i⟩) ∧ D.ValOk w L e.ty

structure EvalLaws (D : Discipline) : Prop where
  eval : ∀ {w L scope t fuel}, D.ScopeOk w L scope → D.TermOk w scope.size t →
    D.Reads w (t.eval fuel scope.env) (D.ValOk w L)
  apply : ∀ {w L c x fuel}, D.ValOk w L (.closure c) → D.ValOk w L x →
    D.Reads w (c.apply fuel x) (D.ValOk w L)
  /-- A value may also be read back further inside. -/
  quote : ∀ {w L scope v n fuel}, D.ScopeOk w L scope → D.ValOk w L v → scope.size ≤ n →
    D.Reads w (Action.quote fuel n v) (D.TermOk w n)
  text : ∀ {w L scope v fuel}, D.ScopeOk w L scope → D.ValOk w L v →
    D.Reads w (Action.text fuel scope v) fun _ => True
  motiveTy : ∀ {w L e} {q : Option Equation}, (∀ p ∈ q, p.All (D.ValOk w L)) →
    D.Reads w (Eliminator.motiveTy e q) (D.ValOk w L)
  signature : ∀ {w L e motive scrut fuel} {q : Option Equation}, D.ValOk w L motive →
    D.ValOk w L scrut →
    (∀ p ∈ q, p.All (D.ValOk w L)) → D.Reads w (Eliminator.signature fuel e motive scrut q)
      fun sig => (∀ ty ∈ sig.caseTys, D.ValOk w L ty) ∧ D.ValOk w L sig.result

structure StateLaws (D : Discipline) (su : Setup) : Prop where
  note : ∀ {quiet w L scope ty e}, D.ScopeOk w L scope → D.ValOk w L ty →
    Event.Concerns scope ty e → D.Runs quiet w (Action.emitWith e) fun _ _ => True
  tryInstance : ∀ {quiet w names term depth},
    D.Runs quiet w (Action.emit (.tryInstance names term depth)) fun _ _ => True
  foundInstance : ∀ {quiet w names hole term},
    D.Runs quiet w (Action.emit (.foundInstance names hole term)) fun _ _ => True
  newMeta : ∀ {quiet w L scope}, D.ScopeOk w L scope →
    D.Runs quiet w (Action.newMeta scope) fun u => D.TermOk u scope.size
  hole : ∀ {w L scope ty name search}, D.ScopeOk w L scope → D.ValOk w L ty →
    D.Runs False w (elaborateHole scope name search ty) fun u => D.TermOk u scope.size
  unify : ∀ {quiet w L scope a b fuel}, D.ScopeOk w L scope → D.ValOk w L a → D.ValOk w L b →
    D.Runs quiet w (unify fuel .solving su.globals scope.size a b) fun _ _ => True
  definition : ∀ {w L x d}, su.globals.find? x = some d → D.ValOk w L d.ty

/-- What a discipline has to provide for elaboration over these definitions to keep to it. -/
structure Laws (D : Discipline) (su : Setup) : Prop extends
  D.WorldLaws, D.ActionLaws, D.ForceLaws, D.ValLaws, D.TermLaws, D.ScopeLaws, D.EvalLaws,
  D.StateLaws su

end Discipline

end Elaborator
