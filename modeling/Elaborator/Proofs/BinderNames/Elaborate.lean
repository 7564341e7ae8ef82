import Elaborator.Proofs.BinderNames.Check
import Elaborator.Proofs.Session.History

/-! # Printed primitives

Where the name of a primitive is printed, it should not lie under a printed binder of that name, or
it would be read as the variable of the binder. The printer does not see to this: it compares the
name of a binder with the variables and globals of its body, but not with the primitives. So it
depends on the names of the binders, and `elaborate_origin` says where they come from. If neither
the term nor a definition binds the name of a primitive, the primitive is never hidden in what is
printed of an elaboration (`Session.elaborateAs_printed`). -/

namespace Elaborator

open Elaborator.Action

/-! ## The end of an elaboration -/

section

variable {P : Name → Prop}

/-- The last phase of elaborating brings in no binder name from outside. -/
theorem finish_stays {fuel : Nat} {scope : Local} (hs : scope.BindersIn P) {term : Term}
    (hterm : term.BindersIn P) {ty : Val} (hty : ty.BindersIn P) :
    Stays P (finish fuel scope term ty) (TypedBindersIn P) := by
  refine .bind .metas fun ms hms => .ite (fun _ => .refuse) fun _ => ?_
  refine .bind (.lift fun _ => Term.zonk_bindersIn hms.solvedBindersIn hs.env hterm)
    fun term hterm => ?_
  refine .bind (Stays.quote hty) fun ty hty => ?_
  refine .bind (Q := anything) (.bind .get fun _ _ => .lift fun _ _ => trivial) fun holes _ => ?_
  refine .ite (fun _ => .refuse) fun _ => .ite (fun _ => .refuse) fun _ => ?_
  exact .bind (Stays.eval hs.env hty) fun v hv => .pure ⟨hterm, hv⟩

/-- An elaboration forgets what was known before, so only the term and the definitions matter. -/
theorem elaborate_bindersIn (hown : ∀ x : Name, x.IsOwn → P x) {su : Setup}
    (hg : su.globals.BindersIn P) {tm : Surface} (htm : tm.BindersIn P) {fuel : Nat} {erased : Bool}
    {r : Term × Val} {s t : State} (h : elaborate fuel su erased tm s = .ok r t) :
    t.BindersIn P ∧ TypedBindersIn P r := by
  have hs := (Local.BindersIn.empty hg).enterIf erased
  refine upholds_of_modify ?_ ?_ h
  · refine .bind (synth_stays hown hg hs htm) fun r hr => ?_
    refine .bind (retryAll_stays hown hg.env) fun _ _ =>
      .bind (searchInstances_stays hown hg) fun _ _ => ?_
    exact .bind (retryAll_stays hown hg.env) fun _ _ => finish_stays hs hr.1 hr.2
  · exact ⟨List.forall_mem_singleton.2 .empty, List.forall_mem_nil _⟩

end

/-! ## Where the names of binders come from -/

def Globals.Binds (g : Globals) (x : Name) : Prop :=
  ∃ e ∈ g.map.entries, e.2.val.Binds x ∨ e.2.ty.Binds x

/-- A binder can have the name `x` because the term or a definition gives it to a binder, or the
elaborator does. -/
def Surface.Originates (g : Globals) (tm : Surface) (x : Name) : Prop :=
  x ∈ tm.binders ∨ g.Binds x ∨ x.IsOwn

/-- Definitions are over the names that they bind. -/
theorem Globals.bindersIn_of_binds {P : Name → Prop} {g : Globals} (h : ∀ x, g.Binds x → P x) :
    g.BindersIn P where
  env := by
    refine ⟨List.forall_mem_nil _, fun y v hv x hx => ?_⟩
    obtain ⟨d, hd, rfl⟩ := Globals.global?_env hv
    exact h x ⟨(y, d), Globals.mem_of_find? hd, .inl hx⟩
  types e he x hx := h x ⟨e, he, .inr hx⟩

/-- Every binder of an elaborated term and of its type has an origin. The same holds of the
solutions that are known afterwards. -/
theorem elaborate_origin {fuel : Nat} {su : Setup} {erased : Bool} {tm : Surface}
    {r : Term × Val} {s t : State} (h : elaborate fuel su erased tm s = .ok r t) :
    r.1.BindersIn (tm.Originates su.globals) ∧ r.2.BindersIn (tm.Originates su.globals) ∧
      t.metas.SolvedBindersIn (tm.Originates su.globals) := by
  have hglobals : su.globals.BindersIn (tm.Originates su.globals) :=
    Globals.bindersIn_of_binds fun _ hx => .inr (.inl hx)
  obtain ⟨ht, hterm, hty⟩ :=
    elaborate_bindersIn (fun _ hx => .inr (.inr hx)) hglobals (fun _ hx => .inl hx) h
  exact ⟨hterm, hty, ht.metas.solvedBindersIn⟩

/-- No name that the elaborator gives to a binder is that of a primitive. -/
theorem Prim.not_isOwn (p : Prim) : ¬ Name.IsOwn ⟨p.name⟩ := by
  rintro (hlisted | ⟨k, hk⟩)
  · cases p <;> revert hlisted <;> decide +kernel
  · -- The names of parameters begin with a dollar sign.
    have hfirst : p.name.toList.head? = some '$' := by
      rw [(Name.mk.injEq ..).mp hk, String.toList_append]
      rfl
    cases p <;> revert hfirst <;> decide +kernel

/-! ## Printing -/

/-- In the text of a term every name is read as what it stands for: a primitive that is `guarded` as
itself, a global as itself, a variable as the variable of its own binder. Underscores are left out
of this, since binders that are not referred to may all have this name. -/
def Term.PrintedClearly (guarded : Prim → Prop) (t : Term) : Prop :=
  ∀ d, t.doc [] = .ok d →
    ∃ n, t.named [] = .ok n ∧ d = n.doc ∧ d.Writes (Named.visible n.names) ∧
      n.Reads (fun x => x ≠ .underscore) guarded [] t

/-- A closed term is printed without ambiguity when no guarded primitive has the name of one of its
binders. -/
theorem Term.printedClearly {guarded : Prim → Prop} {t : Term} (ht : t.Scoped 0)
    (hprims : ∀ p, guarded p → (⟨p.name⟩ : Name) ∉ t.binders) : t.PrintedClearly guarded := by
  intro d hd
  obtain ⟨n, hn, rfl⟩ := map_ok hd
  exact ⟨n, hn, rfl, n.doc_writes, reads_of_named (.of_closed ht hprims fun h => absurd rfl h) hn⟩

/-- Neither the term nor a definition gives the name of the primitive to a binder. -/
def Surface.Spares (g : Globals) (tm : Surface) (p : Prim) : Prop :=
  ⟨p.name⟩ ∉ tm.binders ∧ ¬ g.Binds ⟨p.name⟩

/-- A primitive whose name has no origin is not hidden. -/
theorem Surface.Spares.not_mem {g : Globals} {tm : Surface} {p : Prim}
    (hp : tm.Spares g p) {t : Term} (ht : t.BindersIn (tm.Originates g)) :
    (⟨p.name⟩ : Name) ∉ t.binders := by
  intro hmem
  rcases ht _ hmem with hterm | hdefinition | hown
  · exact hp.1 hterm
  · exact hp.2 hdefinition
  · exact p.not_isOwn hown

/-- A term is elaborated over any definitions that are closed and free of metavariables. In the text
of the elaborated term, and in that of its type read back afterwards, no primitive lies under a
printed binder of its own name if neither the term nor a definition binds this name, no global lies
under a binder of its name, and every variable is found under its name. -/
theorem Session.elaborateAs_printed (s : Session) (hg : s.globals.Ground) {fuel : Nat}
    {erased : Bool} {tm : Surface} {term : Term} {ty : Val} {t : Session}
    (h : elaborateAs fuel erased tm s = .ok (term, ty) t) :
    term.PrintedClearly (tm.Spares s.globals) ∧
      ∀ fuel' full q, ty.quote fuel' t.metas full 0 = .ok q →
        q.PrintedClearly (tm.Spares s.globals) := by
  obtain ⟨u, hu, hmetas⟩ := elaborateAs_eq_ok h
  obtain ⟨hground, k, f, hk, hty⟩ := ((elaborate_ends _ hg fuel erased tm _).2 _ _ hu).2
  obtain ⟨hterm, htype, hsolved⟩ := elaborate_origin hu
  refine ⟨Term.printedClearly hground.closed fun _ hp => hp.not_mem hterm,
    fun fuel' full q hq => ?_⟩
  have hclosed := ((hg.eval_safely hk f).answer _ hty).quote_safely fuel' t.metas full
  have hbinders := Val.quote_bindersIn (hmetas ▸ hsolved) htype hq
  exact Term.printedClearly (hclosed.answer q hq).closed fun _ hp => hp.not_mem hbinders

def Session.elaborateTyped (fuel : Nat) (tm : Surface) : Command (Term × Term) := do
  let r ← elaborateAs fuel false tm
  let s ← get
  let q ← r.2.quote fuel s.metas false 0
  return (r.1, q)

/-- A term and a type that a session gives back come from a run that elaborated the one and read
back the other. -/
theorem Session.elaborateTyped_eq_some {fuel : Nat} {tm : Surface} {term q : Term} {s : Session}
    (h : (elaborateTyped fuel tm).run' s = some (term, q)) :
    ∃ ty t, elaborateAs fuel false tm s = .ok (term, ty) t ∧
      ty.quote fuel t.metas false 0 = .ok q := by
  obtain ⟨u, h⟩ := Command.ok_of_run h
  obtain ⟨r, t, hr, h⟩ := Command.bind_eq_ok h
  have h := Command.bind_get_ok h
  obtain ⟨q', u', hq, h⟩ := Command.bind_eq_ok h
  cases h
  exact ⟨r.2, t, hr, (Command.lift_eq_ok hq).1⟩

/-- Over `f : (Bool : Nat) -> Nat = \Bool. Bool`, the term `\(Bool : Nat). f Bool` is elaborated. It
may be that `Bool` is hidden in what is printed, but `Nat` is not. -/
theorem Session.elaborateAs_printed_spared :
    let f : Definition :=
      { term := .lam .expl "Bool" (.prim .nat) (.var ⟨0⟩)
        val := .closure ⟨⟨.lam .expl, "Bool", false⟩, .prim .nat, .empty, .var ⟨0⟩⟩
        ty := piVal .expl "Bool" (.prim .nat) [] (.prim .nat)
        erased := false
        erasedTerm := none }
    let s : Session := { Session.new {} with globals := .insert .empty "f" f }
    let tm : Surface :=
      .abs .expl false "Bool" (some (.var "Nat")) (.app (.var "f") .expl (.var "Bool"))
    s.globals.Ground ∧ tm.Spares s.globals .nat ∧
      ∃ term ty t q, elaborateAs 20 false tm s = .ok (term, ty) t ∧
        ty.quote 20 t.metas false 0 = .ok q ∧
        (q.text []).toOption.map toString = some "(Bool : Nat) -> Nat" ∧
          term.PrintedClearly (tm.Spares s.globals) ∧
        q.PrintedClearly (tm.Spares s.globals) := by
  intro f s tm
  have hground : s.globals.Ground := by
    refine List.forall_mem_singleton.2
      ⟨?_, piVal_within Val.within_prim (List.forall_mem_nil _) Term.within_prim⟩
    refine Val.within_closure.2
      ⟨Val.within_prim, ⟨List.forall_mem_nil _, ?_, ?_⟩, Term.within_var.2 (Nat.lt_succ_self 0)⟩
    · exact fun _ _ _ h => nomatch h
    · exact fun _ _ _ h => nomatch h
  have hspares : tm.Spares s.globals .nat := by
    refine ⟨by decide +kernel, ?_⟩
    rintro ⟨e, he, hbinds⟩
    obtain rfl := List.mem_singleton.1 he
    have hname : ("Bool" : Name) ≠ ⟨Prim.nat.name⟩ := by decide
    rcases hbinds with hval | hty
    · refine (Val.bindersIn_closure (P := (· ≠ ⟨Prim.nat.name⟩))).2
        ⟨hname, Val.bindersIn_prim, ?_⟩ _ hval rfl
      exact ⟨List.forall_mem_nil _, List.forall_mem_nil _, Term.bindersIn_var⟩
    · refine piVal_bindersIn (P := (· ≠ ⟨Prim.nat.name⟩)) hname Val.bindersIn_prim ?_
        Term.bindersIn_prim _ hty rfl
      exact List.forall_mem_nil _
  let q : Term := .pi .expl "Bool" (.prim .nat) (.prim .nat)
  have hrun : (elaborateTyped 20 tm).run' s =
      some (.lam .expl "Bool" (.prim .nat) (.app (.global "f") .expl (.var ⟨0⟩)), q) := by
    decide +kernel
  obtain ⟨ty, t, helab, hq⟩ := elaborateTyped_eq_some hrun
  obtain ⟨hterm, htype⟩ := elaborateAs_printed s hground helab
  exact ⟨hground, hspares, _, ty, t, q, helab, hq, by decide +kernel, hterm, htype 20 false q hq⟩

/-- The type of `\(Nat : Bool). 3` is printed with the primitive `Nat` under a binder of that name,
where the text means the variable of the binder. -/
theorem Session.elaborateAs_prints_hidden_primitive :
    let tm : Surface := .abs .expl false "Nat" (some (.var "Bool")) (.nat 3)
    ∃ term ty t q n, elaborateAs 20 false tm (.new {}) = .ok (term, ty) t ∧
      ty.quote 20 t.metas false 0 = .ok q ∧
      (q.text []).toOption.map toString = some "(Nat : Bool) -> Nat" ∧ q.named [] = .ok n ∧
      ∀ trusted : Name → Prop, ¬ n.Reads trusted (fun p => p = .nat) [] q := by
  intro tm
  have hrun : (elaborateTyped 20 tm).run' (.new {}) =
      some (.lam .expl "Nat" (.prim .bool) (.nat 3),
        .pi .expl "Nat" (.prim .bool) (.prim .nat)) := by
    decide +kernel
  obtain ⟨ty, t, helab, hq⟩ := elaborateTyped_eq_some hrun
  have hhidden (trusted : Name → Prop) : ¬ Named.Reads trusted (fun p => p = .nat) []
      (.binderType (some .expl) "Nat" false (.prim .bool) (.prim .nat))
      (.bind ⟨.pi .expl, "Nat", false⟩ (.prim .bool) (.prim .nat)) := by
    intro hreads
    cases hreads with
    | pi shown outer inner =>
      cases inner with
      | prim clear => exact clear rfl List.mem_cons_self
  exact ⟨_, ty, t, _, _, helab, hq, by decide +kernel, rfl, hhidden⟩

end Elaborator
