import Elaborator.Proofs.NormalForm.Idempotence
import Elaborator.Proofs.Spans.Check

/-! # Fields of nested pairs

A nested pair type is a telescope: each field may depend on those before it, and the last component
has no pair type of its own. To get to a field, the elaborator goes from one pair type to the next.
It takes the second projection of the term each time, and it puts the first projection into the type
of what is left. `HasFields` says which fields are met on this way, and with which types.

The way is followed by `project`. One step of it passes a field or ends there (`project_next`,
`project_here`), and the whole way finds the first field that fits (`HasFields.project_found`) or
reaches the end (`HasFields.project_end`). -/

namespace Elaborator

open Filter Elaborator.Action

/-! ## Telescopes -/

def Val.isSigma : Val → Bool
  | .closure c => c.binder.kind == .sigma
  | _ => false

/-- The fields of the term `t` of type `ty` in a local context, with their types, and the type of
the last component. The types of later fields are those for the first projections of what is left of
the term. None of the fields may be erased, unless this is inside a type. The type of the last
component is missing if the fields are not followed to the end. -/
inductive HasFields (scope : Local) (ms : MetaStore) :
    Term → Val → List (Binder × Val) → Option Val → Prop
  | last {t : Term} {ty v : Val} (forced : ∀ᶠ fuel in atTop, ty.force fuel ms = .ok v)
      (flat : v.isSigma = false) : HasFields scope ms t ty [] (some ty)
  | stop {t : Term} {ty : Val} {c : Closure}
      (forced : ∀ᶠ fuel in atTop, ty.force fuel ms = .ok (.closure c))
      (kind : c.binder.kind = .sigma) (usable : c.binder.erased = true → scope.inType = true) :
      HasFields scope ms t ty [(c.binder, c.dom)] none
  | field {t : Term} {ty fst rest : Val} {c : Closure} {fields : List (Binder × Val)}
      {last : Option Val} (forced : ∀ᶠ fuel in atTop, ty.force fuel ms = .ok (.closure c))
      (kind : c.binder.kind = .sigma) (usable : c.binder.erased = true → scope.inType = true)
      (first : ∀ᶠ fuel in atTop, (Term.proj t .fst).eval fuel scope.env = .ok fst)
      (instantiated : ∀ᶠ fuel in atTop, c.apply fuel fst = .ok rest)
      (others : HasFields scope ms (.proj t .snd) rest fields last) :
      HasFields scope ms t ty ((c.binder, c.dom) :: fields) last

def Term.dropFields : Nat → Term → Term
  | 0, t => t
  | k + 1, t => (Term.proj t .snd).dropFields k

/-- The component of a nested pair with `n` fields at this position. The last one has the position
`n`. -/
def Term.component (n k : Nat) (t : Term) : Term :=
  if k < n then .proj (t.dropFields k) .fst else t.dropFields n

/-- Where a field is among the fields with these binders, the first of which is `i` fields further
inside. -/
def Field.seek (field : Field) : Nat → List Binder → Option Nat
  | _, [] => none
  | i, b :: bs => if field.isHere i b then some 0 else (field.seek (i + 1) bs).map (· + 1)

/-- A field given by its position is found there. -/
theorem Field.seek_at {i k : Nat} {bs : List Binder} (h : k < bs.length) :
    (Field.at (i + k)).seek i bs = some k := by
  induction bs generalizing i k with
  | nil => simp at h
  | cons b bs ih =>
    cases k with
    | zero => simp [seek, isHere]
    | succ k =>
      have hnext := @ih (i + 1) k (by simpa using h)
      rw [Nat.add_right_comm] at hnext
      have hne : i + k + 1 ≠ i := by omega
      simp [seek, isHere, hne, ← Nat.add_assoc, hnext]

theorem Field.seek_at_none {i k : Nat} {bs : List Binder} (h : bs.length ≤ k) :
    (Field.at (i + k)).seek i bs = none := by
  induction bs generalizing i k with
  | nil => rfl
  | cons b bs ih =>
    obtain ⟨k, rfl⟩ := Nat.exists_eq_add_of_le' (Nat.lt_of_lt_of_le (Nat.succ_pos _) h)
    have hnext := @ih (i + 1) k (by simpa using h)
    rw [Nat.add_right_comm] at hnext
    have hne : i + k + 1 ≠ i := by omega
    simp [seek, isHere, hne, ← Nat.add_assoc, hnext]

/-- A field given by its name is the first one of that name. -/
theorem Field.seek_named (x : Name) (i : Nat) (bs : List Binder) :
    (Field.named x).seek i bs = bs.findIdx? (·.name == x) := by
  induction bs generalizing i with
  | nil => rfl
  | cons b bs ih => rw [seek, List.findIdx?_cons, ih]; rfl

/-! ## The way to a field -/

section

variable {fuel i : Nat} {scope : Local} {field : Field} {t : Term} {ty v : Val} {c : Closure}
  {s : State}

/-- The way ends at the field that is meant. -/
theorem project_here (hforce : ty.force fuel s.metas = .ok (.closure c))
    (hkind : c.binder.kind = .sigma) (hfield : field ≠ .snd)
    (hhere : field.isHere i c.binder = true)
    (husable : c.binder.erased = true → scope.inType = true) :
    project (fuel + 1) scope field i t ty s = .ok (.proj t .fst, c.dom) s := by
  rw [project]
  refine (bind_of_ok (force_of_ok hforce)).trans ?_
  have hallowed : (c.binder.erased && !scope.inType) = false := by
    cases he : c.binder.erased with
    | false => rfl
    | true => simp [husable he]
  simp only [hkind, ne_eq, not_true_eq_false, if_false, hfield, hhere, if_true, hallowed,
    Bool.false_eq_true]
  rfl

/-- A field that is not meant is passed. -/
theorem project_next {fst rest : Val} (hforce : ty.force fuel s.metas = .ok (.closure c))
    (hkind : c.binder.kind = .sigma) (hfield : field ≠ .snd)
    (hhere : field.isHere i c.binder = false)
    (hfst : (Term.proj t .fst).eval fuel scope.env = .ok fst)
    (hrest : c.apply fuel fst = .ok rest) :
    project (fuel + 1) scope field i t ty s =
      project fuel scope field (i + 1) (.proj t .snd) rest s := by
  rw [project]
  refine (bind_of_ok (force_of_ok hforce)).trans ?_
  simp only [hkind, ne_eq, not_true_eq_false, if_false, hfield, hhere, Bool.false_eq_true]
  refine bind_of_ok ?_
  exact (bind_of_ok (lift_eq_ok.2 ⟨hfst, rfl⟩)).trans (lift_eq_ok.2 ⟨hrest, rfl⟩)

/-- The way ends where there is no pair type. -/
theorem project_flat (hforce : ty.force fuel s.metas = .ok v) (hflat : v.isSigma = false) :
    project (fuel + 1) scope field i t ty s = projectLast fuel scope field i t ty v s := by
  rw [project]
  refine (bind_of_ok (force_of_ok hforce)).trans ?_
  cases v with
  | closure c =>
    have hkind : c.binder.kind ≠ .sigma := by simpa [Val.isSigma] using hflat
    simp only [ne_eq, hkind, not_false_eq_true, if_true]
  | type | neutral | glued | pair | nat => rfl

end

section

variable {scope : Local} {field : Field} {i k : Nat} {t : Term} {ty : Val}
  {fields : List (Binder × Val)} {last : Option Val} {s : State}

/-- The first field that fits is found, with its type. -/
theorem HasFields.project_found {b : Binder} {ty' : Val}
    (h : HasFields scope s.metas t ty fields last) (hfield : field ≠ .snd)
    (hseek : field.seek i (fields.map (·.1)) = some k) (hk : fields[k]? = some (b, ty')) :
    ∀ᶠ fuel in atTop,
      project fuel scope field i t ty s = .ok (.proj (t.dropFields k) .fst, ty') s := by
  -- Along the telescope, with one more field passed each time.
  induction h generalizing i k with
  | last => simp [Field.seek] at hseek
  | @stop t ty c forced kind usable =>
    cases hhere : field.isHere i c.binder with
    | false => simp [Field.seek, hhere] at hseek
    | true =>
      obtain rfl : 0 = k := by simpa [Field.seek, hhere] using hseek
      cases hk
      refine eventually_of_add 1 ?_
      filter_upwards [forced] with fuel hforce
      exact project_here hforce kind hfield hhere usable
  | @field t ty fst rest c fields last forced kind usable first instantiated others ih =>
    cases hhere : field.isHere i c.binder with
    | true =>
      obtain rfl : 0 = k := by simpa [Field.seek, hhere] using hseek
      cases hk
      refine eventually_of_add 1 ?_
      filter_upwards [forced] with fuel hforce
      exact project_here hforce kind hfield hhere usable
    | false =>
      obtain ⟨j, hj, rfl⟩ : ∃ j, field.seek (i + 1) (fields.map (·.1)) = some j ∧ j + 1 = k := by
        simpa [Field.seek, hhere] using hseek
      refine eventually_of_add 1 ?_
      filter_upwards [forced, first, instantiated, ih hj hk] with fuel hforce hfst hrest hfound
      exact (project_next hforce kind hfield hhere hfst hrest).trans hfound

/-- If no field fits, the way ends like the last component does. -/
theorem HasFields.project_end {B : Val} {r : EStateM.Result Failure State (Term × Val)}
    (h : HasFields scope s.metas t ty fields (some B)) (hfield : field ≠ .snd)
    (hseek : field.seek i (fields.map (·.1)) = none)
    (hend : ∀ v, ∀ᶠ fuel in atTop,
      projectLast fuel scope field (i + fields.length) (t.dropFields fields.length) B v s = r) :
    ∀ᶠ fuel in atTop, project fuel scope field i t ty s = r := by
  generalize hlast : some B = last at h
  induction h generalizing i with
  | @last t ty v forced flat =>
    cases hlast
    refine eventually_of_add 1 ?_
    filter_upwards [forced, hend v] with fuel hforce hend
    exact (project_flat hforce flat).trans hend
  | stop => cases hlast
  | @field t ty fst rest c fields last forced kind usable first instantiated others ih =>
    cases hhere : field.isHere i c.binder with
    | true => simp [Field.seek, hhere] at hseek
    | false =>
      have hothers : field.seek (i + 1) (fields.map (·.1)) = none := by
        simpa [Field.seek, hhere] using hseek
      have hlength : i + (fields.length + 1) = i + 1 + fields.length := by omega
      rw [List.length_cons, hlength] at hend
      refine eventually_of_add 1 ?_
      filter_upwards [forced, first, instantiated, ih hothers hend hlast] with fuel hforce
        hfst hrest hend
      exact (project_next hforce kind hfield hhere hfst hrest).trans hend

/-- The last component is found by its position. -/
theorem HasFields.project_last {B : Val} (h : HasFields scope s.metas t ty fields (some B))
    (hi : 0 < i + fields.length) :
    ∀ᶠ fuel in atTop, project fuel scope (.at (i + fields.length)) i t ty s =
      .ok (t.dropFields fields.length, B) s := by
  refine h.project_end (by simp) (Field.seek_at_none (by simp)) fun v => .of_forall fun fuel => ?_
  rw [projectLast, if_neg (by omega), if_pos rfl]
  rfl

/-- A field that is not there is refused, if the type of the last component can be shown. -/
theorem HasFields.project_refused {B : Val} {w : MarkedText}
    (h : HasFields scope s.metas t ty fields (some B)) (hfield : field ≠ .snd)
    (hseek : field.seek i (fields.map (·.1)) = none) (hi : 0 < i + fields.length)
    (hne : field ≠ .at (i + fields.length))
    (hw : ∀ᶠ fuel in atTop, scope.text fuel s.metas B = .ok w) :
    ∀ᶠ fuel in atTop,
      project fuel scope field i t ty s = .error (.error (.fieldNotFound field.text w)) s := by
  refine h.project_end hfield hseek fun v => ?_
  filter_upwards [hw] with fuel hw
  rw [projectLast, if_neg (by omega), if_neg hne]
  exact bind_of_ok ((bind_metas _ s).trans (lift_eq_ok.2 ⟨hw, rfl⟩))

end

/-! ## The values of the components -/

inductive Val.Nests : Val → List Val → Prop
  | last (v : Val) : Nests v [v]
  | pair {a b sigma : Val} {vs : List Val} (others : Nests b vs) : Nests (.pair a b sigma) (a :: vs)

theorem Term.eval_proj {env : Env} {t : Term} {v w : Val} {p : Proj}
    (ht : ∀ᶠ fuel in atTop, t.eval fuel env = .ok v)
    (hw : ∀ fuel, v.eliminate (fuel + 1) (.proj p) = .ok w) :
    ∀ᶠ fuel in atTop, (Term.proj t p).eval fuel env = .ok w := by
  refine eventually_of_add 2 ?_
  filter_upwards [(tendsto_add_atTop_nat 1).eventually ht] with fuel ht
  rw [Term.eval, ht, ok_bind, hw]

/-- If the term is a nested pair, its components have the values of the pair. -/
theorem Term.eval_component {env : Env} {t : Term} {v w : Val} {vs : List Val} {n k : Nat}
    (ht : ∀ᶠ fuel in atTop, t.eval fuel env = .ok v) (hv : v.Nests vs) (hn : vs.length = n + 1)
    (hk : vs[k]? = some w) : ∀ᶠ fuel in atTop, (t.component n k).eval fuel env = .ok w := by
  induction hv generalizing t n k with
  | last v =>
    obtain rfl : n = 0 := by simpa using hn
    obtain ⟨rfl, rfl⟩ : k = 0 ∧ v = w := by simpa [List.getElem?_singleton] using hk
    exact ht
  | @pair a b sigma vs others ih =>
    cases n with
    | zero => cases others <;> simp at hn
    | succ n =>
      cases k with
      | zero =>
        cases hk
        exact Term.eval_proj ht fun fuel => rfl
      | succ k =>
        have hnext := ih (Term.eval_proj (p := .snd) ht fun fuel => rfl) (by simpa using hn) hk
        have hcomponent : t.component (n + 1) (k + 1) = (Term.proj t .snd).component n k := by
          simp [Term.component, Term.dropFields]
        rw [hcomponent]
        exact hnext

/-! ## Elaboration of projections -/

/-- The state in which the parts of a term are elaborated: the local context may have been noted. -/
def Setup.noted (su : Setup) (scope : Local) (s : State) : State :=
  if su.config.showEnvs then { s with log := .synthScope s.metas scope :: s.log } else s

section

variable {fuel : Nat} {su : Setup} {scope : Local} {x : Surface} {field : Field} {t : Term}
  {ty : Val} {s u u' : State}

/-- More fuel does not change what is found. -/
theorem synth_of_le {fuel' : Nat} {r : Term × Val} (h : synth fuel su scope x s = .ok r u)
    (hle : fuel + x.spans ≤ fuel') : synth fuel' su scope x s = .ok r u := by
  have hends := ((checker_respans su hle).synth scope ⟨rfl, Nat.le_refl x.spans⟩).ends s
  dsimp only at hends
  rw [h] at hends
  generalize synth fuel' su scope x s = r' at hends ⊢
  cases hends
  rfl

/-- A projection is elaborated by elaborating the pair and going to the field. -/
theorem synth_proj (field : Field) (hx : synth fuel su scope x (su.noted scope s) = .ok (t, ty) u) :
    synth (fuel + 1) su scope (.proj x field) s =
      (project fuel scope field 0 t ty >>= fun r => do
        emitWith fun ms => .synth ms scope r.1 r.2
        return r) u := by
  have hnote : (if su.config.showEnvs then emitWith fun ms => .synthScope ms scope
      else pure () : Action Unit) s = .ok () (su.noted scope s) := by
    unfold Setup.noted
    split <;> rfl
  have hform : synthForm fuel su ⟨check fuel su, synth fuel su⟩ scope (.proj x field)
      (su.noted scope s) = project fuel scope field 0 t ty u :=
    bind_of_ok hx
  rw [synth]
  refine (bind_of_ok hnote).trans ?_
  show EStateM.bind _ _ _ = EStateM.bind _ _ _
  unfold EStateM.bind
  rw [hform]

/-- With enough fuel the projection of `x` to a field gives this term and this type, and it leaves
the metavariables and the holes as they are in `u`. -/
def Projects (su : Setup) (scope : Local) (x : Surface) (field : Field) (s u : State)
    (r : Term × Val) : Prop :=
  ∀ᶠ fuel in atTop, ∃ u', synth fuel su scope (.proj x field) s = .ok r u' ∧ u'.metas = u.metas ∧
    u'.holes = u.holes

def Refuses (su : Setup) (scope : Local) (x : Surface) (field : Field) (s u : State) (e : Error) :
    Prop :=
  ∀ᶠ fuel in atTop, synth fuel su scope (.proj x field) s = .error (.error e) u

/-- A synthesis that succeeds does so with every larger amount of fuel. -/
theorem eventually_synth (h : synth fuel su scope x s = .ok (t, ty) u) :
    ∀ᶠ fuel in atTop, synth fuel su scope x s = .ok (t, ty) u := by
  filter_upwards [eventually_ge_atTop (fuel + x.spans)] with fuel' hle
  exact synth_of_le h hle

/-- A projection from a synthesized term is one of the surface projection. -/
theorem projects_of_project {r : Term × Val}
    (hx : synth fuel su scope x (su.noted scope s) = .ok (t, ty) u)
    (h : ∀ᶠ fuel in atTop, project fuel scope field 0 t ty u = .ok r u) :
    Projects su scope x field s u r := by
  refine eventually_of_add 1 ?_
  filter_upwards [eventually_synth hx, h] with fuel hx h
  exact ⟨_, (synth_proj field hx).trans (bind_of_ok h), rfl, rfl⟩

/-- A refused projection from a synthesized term is one of the surface projection. -/
theorem refuses_of_project {e : Error}
    (hx : synth fuel su scope x (su.noted scope s) = .ok (t, ty) u)
    (h : ∀ᶠ fuel in atTop, project fuel scope field 0 t ty u = .error (.error e) u) :
    Refuses su scope x field s u e := by
  refine eventually_of_add 1 ?_
  filter_upwards [eventually_synth hx, h] with fuel hx h
  exact (synth_proj field hx).trans (bind_of_error h)

/-- Fields of a nested pair. A position gives the component at this position with its type, the last
component included, and an error further on. A name gives what the position of the first field with
that name gives, and an error if there is no such field. If the term is a nested pair, the
components have the values of the pair. -/
theorem synth_proj_fields {fields : List (Binder × Val)} {last : Option Val}
    (hx : synth fuel su scope x (su.noted scope s) = .ok (t, ty) u)
    (hfields : HasFields scope u.metas t ty fields last) (hsome : fields ≠ []) :
    (∀ k b A, fields[k]? = some (b, A) →
      Projects su scope x (.at k) s u (t.component fields.length k, A)) ∧
    (∀ B, last = some B →
      Projects su scope x (.at fields.length) s u (t.component fields.length fields.length, B)) ∧
    (∀ B k w, last = some B → fields.length < k →
      (∀ᶠ fuel in atTop, scope.text fuel u.metas B = .ok w) →
      Refuses su scope x (.at k) s u (.fieldNotFound (toString k) w)) ∧
    (∀ y k b A, fields.findIdx? (·.1.name == y) = some k → fields[k]? = some (b, A) →
      Projects su scope x (.named y) s u (t.component fields.length k, A)) ∧
    (∀ B y w, last = some B → (∀ f ∈ fields, f.1.name ≠ y) →
      (∀ᶠ fuel in atTop, scope.text fuel u.metas B = .ok w) →
      Refuses su scope x (.named y) s u (.fieldNotFound y.text w)) ∧
    (∀ v vs k w, (∀ᶠ fuel in atTop, t.eval fuel scope.env = .ok v) → v.Nests vs →
      vs.length = fields.length + 1 →
      vs[k]? = some w →
        ∀ᶠ fuel in atTop, (t.component fields.length k).eval fuel scope.env = .ok w) := by
  have hlength : (fields.map (·.1)).length = fields.length := List.length_map _
  have hpos : 0 < 0 + fields.length := by simpa [List.length_pos_iff] using hsome
  have hcomponent {k : Nat} {f : Binder × Val} (hk : fields[k]? = some f) :
      t.component fields.length k = .proj (t.dropFields k) .fst :=
    if_pos (List.getElem?_eq_some_iff.1 hk).1
  refine ⟨?_, ?_, ?_, ?_, ?_, fun v vs k w ht hv hn hk => Term.eval_component ht hv hn hk⟩
  · -- By position: one of the fields.
    intro k b A hk
    have hseek : (Field.at k).seek 0 (fields.map (·.1)) = some k := by
      have hlt := (List.getElem?_eq_some_iff.1 hk).1
      simpa using Field.seek_at (i := 0) (hlength ▸ hlt)
    rw [hcomponent hk]
    exact projects_of_project hx (hfields.project_found (by simp) hseek hk)
  · -- By position: the last component.
    rintro B rfl
    have hend := hfields.project_last hpos
    rw [Nat.zero_add] at hend
    rw [Term.component, if_neg (Nat.lt_irrefl _)]
    exact projects_of_project hx hend
  · -- By position: there is nothing beyond the last component.
    rintro B k w rfl hk hw
    have hseek : (Field.at k).seek 0 (fields.map (·.1)) = none := by
      simpa using Field.seek_at_none (i := 0) (hlength ▸ Nat.le_of_lt hk)
    have hne : Field.at k ≠ .at (0 + fields.length) := by
      rw [Nat.zero_add, ne_eq, Field.at.injEq]
      omega
    exact refuses_of_project hx (hfields.project_refused (by simp) hseek hpos hne hw)
  · -- By name: the first field of this name.
    intro y k b A hfirst hk
    have hseek : (Field.named y).seek 0 (fields.map (·.1)) = some k := by
      rw [Field.seek_named, List.findIdx?_map]
      exact hfirst
    rw [hcomponent hk]
    exact projects_of_project hx (hfields.project_found (by simp) hseek hk)
  · -- By name: the last component has none.
    rintro B y w rfl hnone hw
    have hseek : (Field.named y).seek 0 (fields.map (·.1)) = none := by
      rw [Field.seek_named, List.findIdx?_map, List.findIdx?_eq_none_iff]
      intro f hf
      simpa using hnone f hf
    exact refuses_of_project hx (hfields.project_refused (by simp) hseek hpos (by simp) hw)

end

/-- With `p : (A : Type) ** (b : A) ** Nat` defined as `(Nat, (3, 4))`, the type of the second field
is the first component. -/
theorem synth_proj_fields_dependent :
    let su : Setup := ⟨{}, .empty⟩
    let outer : Closure :=
      ⟨⟨.sigma, "A", false⟩, .type, su.globals.env,
        .bind ⟨.sigma, "b", false⟩ (.var ⟨0⟩) (.prim .nat)⟩
    let inner : Closure :=
      ⟨⟨.sigma, "b", false⟩, .prim .nat, su.globals.env.push (.prim .nat), .prim .nat⟩
    let scope : Local := (Local.empty su.globals).define "p" (.closure outer) false
      (.pair (.prim .nat) (.pair (.nat 3) (.nat 4) (.closure inner)) (.closure outer))
    ∃ u, synth 1 su scope (.var "p") .empty = .ok (.var ⟨0⟩, .closure outer) u ∧
      Projects su scope (.var "p") (.named "b") .empty u
        (.proj (.proj (.var ⟨0⟩) .snd) .fst, .prim .nat) ∧
      Projects su scope (.var "p") (.at 2) .empty u
        (.proj (.proj (.var ⟨0⟩) .snd) .snd, .prim .nat) ∧
      Refuses su scope (.var "p") (.at 3) .empty u (.fieldNotFound "3" "Nat") ∧
      ∀ᶠ fuel in atTop, (Term.proj (.proj (.var ⟨0⟩) .snd) .fst).eval fuel scope.env =
        .ok (.nat 3) := by
  intro su outer inner scope
  obtain ⟨u, hx⟩ : ∃ u, synth 1 su scope (.var "p") .empty = .ok (.var ⟨0⟩, .closure outer) u :=
    ⟨_, rfl⟩
  have steady {P : Nat → Prop} (k : Nat) (h : ∀ fuel, P (fuel + k)) : ∀ᶠ fuel in atTop, P fuel :=
    eventually_of_add k (.of_forall h)
  have houter : ∀ᶠ fuel in atTop, outer.apply fuel (.prim .nat) = .ok (.closure inner) :=
    steady 3 fun _ => rfl
  have hinner : ∀ᶠ fuel in atTop, inner.apply fuel (.nat 3) = .ok (.prim .nat) :=
    steady 3 fun _ => rfl
  have hlast : HasFields scope u.metas (.proj (.proj (.var ⟨0⟩) .snd) .snd) (.prim .nat) []
      (some (.prim .nat)) :=
    .last (steady 2 fun _ => rfl) rfl
  have hfields : HasFields scope u.metas (.var ⟨0⟩) (.closure outer)
      [(outer.binder, outer.dom), (inner.binder, inner.dom)] (some (.prim .nat)) := by
    apply HasFields.field (steady 2 fun _ => rfl) rfl _ (steady 4 fun _ => rfl) houter
    · apply HasFields.field (steady 2 fun _ => rfl) rfl _ (steady 5 fun _ => rfl) hinner hlast
      simp [inner]
    · simp [outer]
  obtain ⟨-, hend, hbeyond, hnamed, -, hvalue⟩ := synth_proj_fields hx hfields (by simp)
  refine ⟨u, hx, hnamed "b" 1 _ _ (by decide +kernel) rfl, hend _ rfl,
    hbeyond _ 3 "Nat" rfl (by simp) ?_, ?_⟩
  · exact steady 5 fun _ => rfl
  · exact hvalue _ [.prim .nat, .nat 3, .nat 4] 1 _ (steady 2 fun _ => rfl)
      (.pair (.pair (.last _))) rfl rfl

/-! ## A way that is not passable -/

def Action.fault? {α : Type} (x : Action α) (s : State) : Option Fault :=
  match x s with
  | .ok _ _ => none
  | .error (.error _) _ => none
  | .error (.fault f) _ => some f

theorem Action.fault?_eq_some {α : Type} {x : Action α} {s : State} {f : Fault}
    (h : x.fault? s = some f) : ∃ t, x s = .error (.fault f) t := by
  unfold fault? at h
  split at h
  · cases h
  · cases h
  · next hrun =>
    cases h
    exact ⟨_, hrun⟩

/-- The pair `(S n, 3)` with the largest literal `n` has the type `Nat ** Nat`, in which nothing
depends on the first component. But the way to the second component evaluates the first one, and its
number is too large. -/
theorem synth_proj_overflows :
    let su : Setup := ⟨{}, .empty⟩
    let scope : Local := .empty .empty
    let x : Surface := .pair (.app (.prim .succ) .expl (.nat (numeralLimit - 1))) (.nat 3)
    (∃ r u, synth 10 su scope x .empty = .ok r u ∧
      (scope.text 10 u.metas r.2).toOption.map toString = some "Nat ** Nat") ∧
      ∃ u, synth 10 su scope (.proj x (.at 1)) .empty = .error (.fault .overflow) u := by
  intro su scope x
  constructor
  · let run : Action String := do
      let r ← synth 10 su scope x
      let text ← Action.text 10 scope r.2
      return toString text
    have hrun : run.run' .empty = some "Nat ** Nat" := by decide +kernel
    obtain ⟨u, hu⟩ := ok_of_run hrun
    obtain ⟨r, v, hx, hu⟩ := bind_eq_ok.1 hu
    obtain ⟨text, w, htext, hu⟩ := bind_eq_ok.1 hu
    refine ⟨r, v, hx, ?_⟩
    rw [Action.text, bind_metas] at htext
    rw [(lift_eq_ok.1 htext).1]
    exact congrArg some (pure_eq_ok.1 hu).1
  · exact Action.fault?_eq_some (by decide +kernel)

end Elaborator
