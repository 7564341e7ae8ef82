import Mathlib.Data.List.Nodup
import Elaborator.Proofs.Replay.Snapshots
import Elaborator.Proofs.Session.History

/-! # Which definitions need which

The verifier looks at every part of a term and refuses names that are not defined
(`verify_defined`), and a name is deleted or redefined only if the terms of the other definitions do
not mention it. So as long as terms are verified, the names in the terms of the definitions are
defined, and without redefinitions they are defined earlier (`Session.Reached.dependency_order`).

The types of the definitions are not looked at when a name is deleted. An annotation leaves no trace
in a term, and the type may then mention a name that is gone (`Session.delete_leaves_type`). -/

namespace Elaborator

open Elaborator.Action

/-! ## What was verified mentions defined names only -/

/-- There is a type for each case. -/
theorem Eliminator.length_caseTys {fuel : Nat} {e : Eliminator} {motive : Val} {q : Option Equation}
    {tys : List Val} (h : e.caseTys fuel motive q = .ok tys) : tys.length = e.numCases := by
  unfold caseTys at h
  split at h
  · cases h
    rfl
  · obtain ⟨t, -, h⟩ := bind_ok h
    obtain ⟨f, -, h⟩ := bind_ok h
    cases h
    rfl
  · obtain ⟨z, -, h⟩ := bind_ok h
    cases h
    rfl
  · obtain ⟨p, -, h⟩ := bind_ok h
    obtain ⟨t, -, h⟩ := bind_ok h
    cases h
    rfl
  · cases h

/-- A signature has one type for each case. -/
theorem Eliminator.length_signature {fuel : Nat} {e : Eliminator} {motive scrut : Val}
    {q : Option Equation} {sig : Signature} (h : e.signature fuel motive scrut q = .ok sig) :
    sig.caseTys.length = e.numCases := by
  obtain ⟨tys, htys, h⟩ := bind_ok h
  obtain ⟨result, -, h⟩ := bind_ok h
  obtain ⟨motiveTy, -, h⟩ := bind_ok h
  cases h
  exact length_caseTys htys

namespace Verify

variable {fuel : Nat} {g : Globals}

/-- In every scope in which the verifier accepts a term, all globals of the term are defined. -/
def Defined (fuel : Nat) (g : Globals) (t : Term) : Prop :=
  ∀ {scope s r u}, infer fuel g scope t s = .ok r u → ∀ x ∈ t.globals, g.contains x = true

/-- A definition that is looked up is there. -/
theorem inferGlobal_defined {x : Name} {scope : Local} {s u : State} {r : Val × Erased}
    (h : inferGlobal g scope x s = .ok r u) : g.contains x = true := by
  unfold inferGlobal at h
  cases hd : g.find? x with
  | some d => simp [Globals.contains, hd]
  | none =>
    rw [hd] at h
    cases h

theorem inferCases_defined {ts : List Term} (hts : ∀ t ∈ ts, Defined fuel g t) {tys : List Val}
    {scope : Local} {s u : State} {es : List Erased} (hlength : ts.length = tys.length)
    (h : inferCases fuel g scope ts tys s = .ok es u) :
    ∀ t ∈ ts, ∀ x ∈ t.globals, g.contains x = true := by
  induction ts generalizing tys s es u with
  | nil => simp
  | cons t ts ih =>
    obtain ⟨ht, hts⟩ := List.forall_mem_cons.1 hts
    cases tys with
    | nil => simp at hlength
    | cons ty tys =>
      rw [inferCases] at h
      obtain ⟨r, s₁, hr, h⟩ := bind_eq_ok.1 h
      obtain ⟨_, s₂, -, h⟩ := bind_eq_ok.1 h
      obtain ⟨es', s₃, hes, -⟩ := bind_eq_ok.1 h
      exact List.forall_mem_cons.2 ⟨ht hr, ih hts (by simpa using hlength) hes⟩

/-- The definitions that a checked eliminator mentions are there when those of its parts are. -/
theorem infer_elim_defined {e : Eliminator} {motive scrut : Term} {cs : List Term}
    (hm : Defined fuel g motive) (hs : Defined fuel g scrut) (hcs : ∀ c ∈ cs, Defined fuel g c) :
    Defined fuel g (.elim e motive scrut cs) := by
  intro scope s r u h
  rw [infer] at h
  by_cases hlength : cs.length = e.numCases
  · rw [if_neg (not_not.2 hlength)] at h
    obtain ⟨⟨scrutTy, es⟩, s₁, hrs, h⟩ := bind_eq_ok.1 h
    -- Whatever the equation of the scrutinee is, the motive and the cases come next.
    have rest : ∀ {q : Option Equation} {t : State}, (do
        let r ← infer fuel g scope.enterType motive
        convertible fuel g scope.enterType r.1 (← e.motiveTy q)
        let vmotive ← motive.eval fuel scope.env
        let vscrut ← scrut.eval fuel scope.env
        let sig ← e.signature fuel vmotive vscrut q
        let ecs ← inferCases fuel g scope cs sig.caseTys
        return (sig.result, eraseElim e es ecs) : Action (Val × Erased)) t = .ok r u →
        ∀ x ∈ (Term.elim e motive scrut cs).globals, g.contains x = true := by
      intro q t h
      obtain ⟨_, s₃, hrm, h⟩ := bind_eq_ok.1 h
      obtain ⟨motiveTy, s₄, -, h⟩ := bind_eq_ok.1 h
      obtain ⟨_, s₅, -, h⟩ := bind_eq_ok.1 h
      obtain ⟨vmotive, s₆, -, h⟩ := bind_eq_ok.1 h
      obtain ⟨vscrut, s₇, -, h⟩ := bind_eq_ok.1 h
      obtain ⟨sig, s₈, hsig, h⟩ := bind_eq_ok.1 h
      obtain ⟨ecs, s₉, hecs, -⟩ := bind_eq_ok.1 h
      rw [← Eliminator.length_signature (lift_eq_ok.1 hsig).1] at hlength
      have hcases := inferCases_defined hcs hlength hecs
      rw [Term.globals, Term.globalsAll_eq]
      refine List.forall_mem_append.2 ⟨List.forall_mem_append.2 ⟨hm hrm, hs hrs⟩, ?_⟩
      intro x hx
      obtain ⟨c, hc, hx⟩ := List.mem_flatMap.1 hx
      exact hcases c hc x hx
    cases hty : e.scrutTy? with
    | some ty =>
      simp only [hty] at h
      obtain ⟨_, s₂, -, h⟩ := bind_eq_ok.1 h
      exact rest h
    | none =>
      simp only [hty] at h
      obtain ⟨v, s₂, -, h⟩ := bind_eq_ok.1 h
      cases hq : Equation.ofType? v with
      | some q =>
        simp only [hq] at h
        obtain ⟨_, s₃, -, h⟩ := bind_eq_ok.1 h
        exact rest h
      | none =>
        simp only [hq] at h
        obtain ⟨w, s₃, -, h⟩ := bind_eq_ok.1 h
        cases h
  · rw [if_pos hlength] at h
    cases h

/-- The verifier looks at every part of a term, and refuses names that are not defined. -/
theorem infer_defined (t : Term) : Defined fuel g t := by
  intro scope s r u h
  induction t generalizing scope s r u with
  | type | var | metavar | prim | nat => simp [Term.globals]
  | global x =>
    rw [infer] at h
    simpa [Term.globals] using inferGlobal_defined h
  | app f icit x hf hx =>
    rw [infer] at h
    obtain ⟨⟨fty, ef⟩, s₁, hrf, h⟩ := bind_eq_ok.1 h
    obtain ⟨v, s₂, -, h⟩ := bind_eq_ok.1 h
    cases v with
    | closure c =>
      by_cases hkind : c.binder.kind = .pi icit
      · simp only [hkind, if_true] at h
        obtain ⟨rx, s₃, hrx, -⟩ := bind_eq_ok.1 h
        exact List.forall_mem_append.2 ⟨hf hrf, hx hrx⟩
      · simp only [hkind, if_false] at h
        split at h
        · exact (refuse_text_ne_ok h).elim
        · exact (refuse_text_ne_ok h).elim
    | type | neutral | glued | pair | nat => exact (refuse_text_ne_ok h).elim
  | bind b dom body hdom hbody =>
    rw [infer] at h
    obtain ⟨⟨domTy, ed⟩, s₁, hrdom, h⟩ := bind_eq_ok.1 h
    obtain ⟨_, s₂, -, h⟩ := bind_eq_ok.1 h
    obtain ⟨vdom, s₃, -, h⟩ := bind_eq_ok.1 h
    refine List.forall_mem_append.2 ⟨hdom hrdom, ?_⟩
    cases hkind : b.kind with
    | lam | pi | sigma =>
      simp only [hkind] at h
      obtain ⟨rbody, s₄, hrbody, -⟩ := bind_eq_ok.1 h
      exact hbody hrbody
  | pair a b sigma ha hb hs =>
    rw [infer] at h
    obtain ⟨⟨sigmaTy, _⟩, s₁, hrs, h⟩ := bind_eq_ok.1 h
    obtain ⟨_, s₂, -, h⟩ := bind_eq_ok.1 h
    obtain ⟨vs, s₃, -, h⟩ := bind_eq_ok.1 h
    obtain ⟨v, s₄, -, h⟩ := bind_eq_ok.1 h
    cases v with
    | closure c =>
      by_cases hkind : c.binder.kind = .sigma
      · simp only [hkind, if_true] at h
        obtain ⟨ra, s₅, hra, h⟩ := bind_eq_ok.1 h
        obtain ⟨_, s₆, -, h⟩ := bind_eq_ok.1 h
        obtain ⟨va, s₇, -, h⟩ := bind_eq_ok.1 h
        obtain ⟨expected, s₈, -, h⟩ := bind_eq_ok.1 h
        obtain ⟨rb, s₉, hrb, -⟩ := bind_eq_ok.1 h
        exact List.forall_mem_append.2 ⟨List.forall_mem_append.2 ⟨ha hra, hb hrb⟩, hs hrs⟩
      · simp only [hkind, if_false] at h
        exact (refuse_text_ne_ok h).elim
    | type | neutral | glued | pair | nat => exact (refuse_text_ne_ok h).elim
  | proj x p hx =>
    rw [infer] at h
    obtain ⟨⟨xty, ex⟩, s₁, hrx, -⟩ := bind_eq_ok.1 h
    exact hx hrx
  | letIn x erased ty val body hty hval hbody =>
    rw [infer] at h
    obtain ⟨⟨tyTy, _⟩, s₁, hrty, h⟩ := bind_eq_ok.1 h
    obtain ⟨_, s₂, -, h⟩ := bind_eq_ok.1 h
    obtain ⟨vty, s₃, -, h⟩ := bind_eq_ok.1 h
    obtain ⟨⟨found, ev⟩, s₄, hrval, h⟩ := bind_eq_ok.1 h
    obtain ⟨_, s₅, -, h⟩ := bind_eq_ok.1 h
    obtain ⟨v, s₆, -, h⟩ := bind_eq_ok.1 h
    obtain ⟨rbody, s₇, hrbody, -⟩ := bind_eq_ok.1 h
    exact List.forall_mem_append.2 ⟨List.forall_mem_append.2 ⟨hty hrty, hval hrval⟩, hbody hrbody⟩
  | elim e motive scrut cs hm hs hcs => exact infer_elim_defined hm hs hcs h

end Verify

/-- What was verified mentions defined names only. -/
theorem verify_defined {fuel : Nat} {g : Globals} {erased : Bool} {t : Term} {s u : State}
    {r : Val × Erased} (h : verify fuel g erased t s = .ok r u) :
    ∀ x ∈ t.globals, g.contains x = true :=
  Verify.infer_defined t h

/-! ## Lists of definitions -/

namespace Globals

/-- A new definition stands at the end of the list. -/
theorem Consistent.definitions_insert {g : Globals} (h : g.Consistent) {x : Name}
    (hnew : ¬ g.contains x = true) (d : Definition) :
    (g.insert x d).definitions = g.definitions ++ [(x, d)] := by
  have hold : g.names.filterMap (fun y => ((g.insert x d).find? y).map (y, ·)) = g.definitions := by
    refine List.filterMap_congr fun y hy => ?_
    have hne : y ≠ x := fun hyx => hnew ((h.mem_names x).1 (hyx ▸ hy))
    rw [find?_insert, if_neg hne]
  rw [definitions, h.names_insert, h.filter_eq_self hnew, List.filterMap_append, hold]
  simp

/-- An erased definition is missing in the list, and the others keep their order. -/
theorem Consistent.definitions_erase {g : Globals} (h : g.Consistent) (x : Name) :
    (g.erase x).definitions = g.definitions.filter fun e => e.1 != x := by
  rw [definitions, definitions, h.names_erase, List.filterMap_filter, List.filter_filterMap]
  refine List.filterMap_congr fun y _ => ?_
  by_cases hy : y = x
  · cases g.find? y <;> simp [hy, Option.filter]
  · cases hd : g.find? y <;> simp [hy, hd, Option.filter]

/-- A definition that no other one uses may only occur in itself. -/
theorem Consistent.not_mem_of_dependents {g : Globals} (h : g.Consistent) {x y : Name}
    {d : Definition} (hunused : g.dependents x = []) (hd : g.find? y = some d) (hne : y ≠ x) :
    x ∉ d.term.globals := by
  intro hx
  have hmem : y ∈ g.dependents x :=
    List.mem_map.2
      ⟨(y, d), List.mem_filter.2 ⟨h.mem_definitions.2 hd, by simp [hne, Term.usesGlobal, hx]⟩, rfl⟩
  simp [hunused] at hmem

/-- Each definition has a name that is not used up yet, and mentions only names that come before
it. -/
def InOrder : (earlier : List Name) → List (Name × Definition) → Prop
  | _, [] => True
  | earlier, (x, d) :: rest =>
    x ∉ earlier ∧ (∀ y ∈ d.term.globals, y ∈ earlier) ∧ InOrder (x :: earlier) rest

/-- No name comes twice among definitions in order. -/
theorem InOrder.nodup {earlier : List Name} {l : List (Name × Definition)} (h : InOrder earlier l) :
    (l.map (·.1)).Nodup ∧ ∀ x ∈ l.map (·.1), x ∉ earlier := by
  induction l generalizing earlier with
  | nil => simp
  | cons e l ih =>
    obtain ⟨hnew, -, hrest⟩ := h
    obtain ⟨hnodup, hdisjoint⟩ := ih hrest
    simp only [List.map_cons, List.nodup_cons, List.mem_cons]
    grind

/-- A definition that uses earlier ones only may be put at the end. -/
theorem InOrder.append {earlier : List Name} {l : List (Name × Definition)} {x : Name}
    {d : Definition} (h : InOrder earlier l) (hnew : x ∉ earlier ∧ x ∉ l.map (·.1))
    (huses : ∀ y ∈ d.term.globals, y ∈ earlier ∨ y ∈ l.map (·.1)) :
    InOrder earlier (l ++ [(x, d)]) := by
  induction l generalizing earlier with
  | nil => simpa [InOrder, hnew] using huses
  | cons e l ih =>
    obtain ⟨hne, hmentions, hrest⟩ := h
    refine ⟨hne, hmentions, ih hrest ?_ ?_⟩
    · grind
    · grind

/-- A definition that nothing else uses may be taken out. -/
theorem InOrder.filter {earlier : List Name} {l : List (Name × Definition)} {x : Name}
    (h : InOrder earlier l) (hunused : ∀ e ∈ l, e.1 ≠ x → x ∉ e.2.term.globals) :
    InOrder (earlier.filter (· != x)) (l.filter fun e => e.1 != x) := by
  induction l generalizing earlier with
  | nil => trivial
  | cons e l ih =>
    obtain ⟨hne, hmentions, hrest⟩ := h
    obtain ⟨he, hl⟩ := List.forall_mem_cons.1 hunused
    have hrest := ih hrest hl
    by_cases hx : e.1 = x
    · simpa [hx] using hrest
    · simp only [List.filter_cons, bne_iff_ne, ne_eq, hx, not_false_eq_true, if_true] at hrest ⊢
      refine ⟨?_, ?_, hrest⟩
      · grind
      · grind

/-- What a definition mentions stands before it in the list. -/
theorem InOrder.idxOf_lt {earlier : List Name} {l : List (Name × Definition)}
    (h : InOrder earlier l) {x y : Name} {d : Definition} (hx : (x, d) ∈ l)
    (hy : y ∈ d.term.globals) : y ∈ earlier ∨ (l.map (·.1)).idxOf y < (l.map (·.1)).idxOf x := by
  induction l generalizing earlier with
  | nil => simp at hx
  | cons e l ih =>
    have hnodup := h.nodup.1
    obtain ⟨hne, hmentions, hrest⟩ := h
    rcases List.mem_cons.1 hx with rfl | hx
    · exact .inl (hmentions y hy)
    · have hmem : x ∈ l.map (·.1) := List.mem_map.2 ⟨(x, d), hx, rfl⟩
      rcases ih hrest hx with hy | hlt
      · grind
      · grind

end Globals

/-! ## The order of the definitions -/

/-- Definitions are added at the end and only after they were verified, and only unused ones are
taken out. -/
theorem Session.Reached.inOrder {s : Session}
    (h : s.Reached fun s _ => s.config.verify = true ∧ s.config.allowRedefinition = false) :
    Globals.InOrder [] s.globals.definitions := by
  refine (h.globals_induct (I := fun g => Globals.InOrder [] g.definitions) trivial ?_ ?_).2.2
  · intro s _ g x d hallowed _ hconsistent hg hnew
    have hfresh : ¬ g.contains x = true := by
      intro hx
      have hredefined := (hnew.free hx).1
      simp [hallowed.2] at hredefined
    rw [hconsistent.definitions_insert hfresh]
    obtain ⟨fuel, erased, t, r, u, hverified⟩ := hnew.verified hallowed.1
    have hlisted : ∀ y, y ∈ g.definitions.map (·.1) ↔ g.contains y = true := by
      intro y
      rw [hconsistent.map_definitions, hconsistent.mem_names]
    refine hg.append ⟨by simp, mt (hlisted x).1 hfresh⟩ fun y hy => .inr ?_
    exact (hlisted y).2 (verify_defined hverified y hy)
  · intro s x _ hconsistent hg hunused
    rw [hconsistent.definitions_erase]
    refine hg.filter fun e he hne => ?_
    exact hconsistent.not_mem_of_dependents hunused (hconsistent.mem_definitions.1 he) hne

/-- **The definitions stand in the order of their dependencies.** As long as terms are verified and
nothing is redefined, no name is in the list of names twice, the list has exactly the names that the
map has a definition for, the definitions that are listed are those of the map, and whatever the
term of a definition mentions is defined and comes strictly earlier in the list. -/
theorem Session.Reached.dependency_order {s : Session}
    (h : s.Reached fun s _ => s.config.verify = true ∧ s.config.allowRedefinition = false) :
    s.globals.names.Nodup ∧ (∀ x, x ∈ s.globals.names ↔ ∃ d, (x, d) ∈ s.globals.map.entries) ∧
      (∀ x d, (x, d) ∈ s.globals.definitions ↔ s.globals.find? x = some d) ∧
      ∀ x d, s.globals.find? x = some d → ∀ y ∈ d.term.globals,
        s.globals.contains y = true ∧ s.globals.names.idxOf y < s.globals.names.idxOf x := by
  have hconsistent := h.consistent
  refine ⟨hconsistent.nodup, fun x => ?_, fun x d => hconsistent.mem_definitions, ?_⟩
  · rw [hconsistent.mem_names, Globals.contains, Option.isSome_iff_exists]
    simp only [Globals.mem_entries_iff]
  · intro x d hd y hy
    rcases h.inOrder.idxOf_lt (hconsistent.mem_definitions.2 hd) hy with hnone | hlt
    · cases hnone
    · rw [hconsistent.map_definitions] at hlt
      have hmem := List.idxOf_lt_length_iff.1 (Nat.lt_of_lt_of_le hlt List.idxOf_le_length)
      exact ⟨(hconsistent.mem_names y).1 hmem, hlt⟩

/-- In a session without redefinitions, `b = S a` keeps its place after `a`, and `c` is deleted. -/
theorem Session.dependency_order_deleted :
    let defs : List Def :=
  [⟨"a", false, none, .nat 0⟩, ⟨"b", false, none, .app (.prim .succ) .expl (.var "a")⟩,
      ⟨"c", false, none, .prim .nat⟩]
    let s := Op.after 20 (Op.after 20 (.new {}) (.define defs)) (.delete "c")
    s.Reached (fun s _ => s.config.verify = true ∧ s.config.allowRedefinition = false) ∧
      s.globals.names = ["a", "b"] ∧ ∃ d, s.globals.find? "b" = some d ∧
        ("a" : Name) ∈ d.term.globals ∧
        s.globals.names.idxOf ("a" : Name) < s.globals.names.idxOf ("b" : Name) := by
  intro defs s
  have hreached :
      s.Reached (fun s _ => s.config.verify = true ∧ s.config.allowRedefinition = false) :=
    .step (.step (.new {}) 20 (by decide)) 20 (by decide +kernel)
  have hnames : s.globals.names = ["a", "b"] := by decide +kernel
  have huses : ∃ d ∈ s.globals.find? "b", ("a" : Name) ∈ d.term.globals := by decide +kernel
  obtain ⟨d, hd, hmem⟩ := huses
  exact ⟨hreached, hnames, d, hd, hmem, (hreached.dependency_order.2.2.2 "b" d hd "a" hmem).2⟩

/-! ## Names that are left behind -/

/-- The type of a definition, read back with globals folded, mentions a name. -/
def Definition.TypeMentions (d : Definition) (x : Name) : Prop :=
  ∃ fuel ms q, d.ty.quote fuel ms false 0 = .ok q ∧ x ∈ q.globals

/-- It is enough to read the type back once. -/
theorem Definition.not_typeMentions {d : Definition} (hty : d.ty.Ground) {fuel : Nat}
    {ms : MetaStore} {q : Term} (hq : d.ty.quote fuel ms false 0 = .ok q) {x : Name}
    (hx : x ∉ q.globals) : ¬ d.TypeMentions x := by
  rintro ⟨fuel', ms', q', hq', hx'⟩
  rw [hty.quote_unique hq hq'] at hx
  exact hx hx'

/-- The type of a new definition mentions names that are defined. -/
theorem Globals.Adds.type_defined {config : Config} {g : Globals} {x y : Name} {d : Definition}
    (hnew : g.Adds config x d) (hg : g.Ground) (hy : d.TypeMentions y) : g.contains y = true := by
  obtain ⟨-, t, f, ht, hty⟩ := hnew.elaborated hg
  obtain ⟨fuel, ms, q, hq, hy⟩ := hy
  -- The type is the value of a term, and values of globals come from the definitions.
  let E : Name → Val → Val → Prop := fun z _ _ => g.contains z = true
  have henv : Env.Like E (· ∈ t.globals) g.env g.env := by
    refine ⟨.nil, fun z _ v _ hv _ => ?_⟩
    obtain ⟨e, he, -⟩ := Globals.global?_env hv
    simp [E, contains, he]
  have hlike := Term.eval_like henv f f d.ty d.ty hty hty
  have hground : d.ty.Ground := (hg.eval_safely ht f).answer d.ty hty
  have hread := hlike.quote hground false (by simp) fuel fuel 0 ms ms q q hq hq
  obtain ⟨_, _, hdefined⟩ := hread.2 y hy
  exact hdefined

theorem Globals.contains_insert {g : Globals} {x y : Name} {d : Definition}
    (h : g.contains y = true) : (g.insert x d).contains y = true := by
  by_cases hy : y = x
  · simp [contains, hy]
  · simpa [contains, hy] using h

theorem Globals.contains_erase {g : Globals} {x y : Name} (h : g.contains y = true) (hy : y ≠ x) :
    (g.erase x).contains y = true := by
  simpa [contains, hy] using h

/-- Let a definition mention names in some way. If new definitions mention defined names only, and
no name is deleted that another definition mentions, then all names that are mentioned are
defined. -/
theorem Session.Reached.mentions_defined {allowed : Session → Op → Prop}
    {M : Definition → Name → Prop}
    (add : ∀ {s op} {g : Globals} {x d y}, allowed s op → g.Ground → g.Adds s.config x d → M d y →
      g.contains y = true)
    (erase : ∀ {s x}, allowed s (.delete x) → s.globals.Consistent → s.globals.dependents x = [] →
      ∀ y d, s.globals.find? y = some d → y ≠ x → ¬ M d x)
    {s : Session} (h : s.Reached allowed) :
    ∀ x d, s.globals.find? x = some d → ∀ y, M d y → s.globals.contains y = true := by
  refine (h.globals_induct
    (I := fun g => ∀ x d, g.find? x = some d → ∀ y, M d y → g.contains y = true)
    (fun _ _ h => nomatch h) ?_ ?_).2.2
  · -- A definition that is added mentions what was defined before, and nothing is removed.
    intro s op g x d hallowed hground _ hg hnew z e he y hy
    apply Globals.contains_insert
    rw [Globals.find?_insert] at he
    by_cases hz : z = x
    · rw [if_pos hz] at he
      obtain rfl := Option.some.inj he
      exact add hallowed hground hnew hy
    · rw [if_neg hz] at he
      exact hg z e he y hy
  · -- A definition that is erased is not mentioned by the others.
    intro s x hallowed hconsistent hg hunused z e he y hy
    rw [Globals.find?_erase] at he
    by_cases hz : z = x
    · rw [if_pos hz] at he
      cases he
    · rw [if_neg hz] at he
      apply Globals.contains_erase (hg z e he y hy)
      rintro rfl
      exact erase hallowed hconsistent hunused z e he hz hy

/-- The name that an operation deletes, if any, is not mentioned in the type of another
definition. -/
def Op.SparesTypes (g : Globals) : Op → Prop
  | .delete x => ∀ y d, g.find? y = some d → y ≠ x → ¬ d.TypeMentions x
  | _ => True

/-- **Which names are never left behind.** As long as terms are verified, whatever the term of a
definition mentions is defined. If moreover nothing was ever deleted that the type of another
definition mentions, whatever the type of a definition mentions is defined too. -/
theorem Session.Reached.no_dangling {s : Session}
    (h : s.Reached fun s _ => s.config.verify = true) :
    (∀ x d, s.globals.find? x = some d → ∀ y ∈ d.term.globals, s.globals.contains y = true) ∧
      (s.Reached (fun s op => op.SparesTypes s.globals) →
        ∀ x d, s.globals.find? x = some d → ∀ y, d.TypeMentions y →
          s.globals.contains y = true) := by
  constructor
  · refine h.mentions_defined (M := fun d y => y ∈ d.term.globals) ?_ ?_
    · intro s op g x d y hverify _ hnew hy
      obtain ⟨fuel, erased, t, r, u, hverified⟩ := hnew.verified hverify
      exact verify_defined hverified y hy
    · intro s x _ hconsistent hunused y d hd hne
      exact hconsistent.not_mem_of_dependents hunused hd hne
  · intro hspares
    apply hspares.mentions_defined (M := Definition.TypeMentions)
    · intro s op g x d y _ hground hnew hy
      exact hnew.type_defined hground hy
    · intro s x hspared _ _ y d hd hne
      exact hspared y d hd hne

/-- `x : T` keeps its type when `y` is deleted, and `T` is still there. -/
theorem Session.no_dangling_spared :
    let defs : List Def := [⟨"T", false, none, .prim .nat⟩, ⟨"x", false, some (.var "T"), .nat 0⟩,
      ⟨"y", false, none, .var "x"⟩]
    let s := Op.after 20 (Op.after 20 (.new {}) (.define defs)) (.delete "y")
    s.Reached (fun s _ => s.config.verify = true) ∧
      s.Reached (fun s op => op.SparesTypes s.globals) ∧
      s.globals.names = ["T", "x"] ∧ ∃ d, s.globals.find? "x" = some d ∧ d.TypeMentions "T" ∧
        s.globals.contains "T" = true := by
  intro defs s
  have hdefined : (Op.after 20 (.new {}) (.define defs)).Reached fun s _ =>
      s.config.verify = true :=
    .step (.new {}) 20 (by decide)
  have hreached : s.Reached (fun s _ => s.config.verify = true) :=
    .step hdefined 20 (by decide +kernel)
  have htypes : ∀ e ∈ (Op.after 20 (.new {}) (.define defs)).globals.map.entries, e.1 = "y" ∨
      ∃ q ∈ (e.2.ty.quote 20 .empty false 0).toOption, ("y" : Name) ∉ q.globals := by decide +kernel
  have hspared : s.Reached (fun s op => op.SparesTypes s.globals) := by
    refine .step (.step (.new {}) 20 trivial) 20 fun z d hd hz => ?_
    have hmem := Globals.mem_of_find? hd
    obtain ⟨q, hq, hunused⟩ := (htypes (z, d) hmem).resolve_left hz
    exact Definition.not_typeMentions (hdefined.ground (z, d) hmem).2 (mem_toOption.1 hq) hunused
  have hmentions : ∃ d ∈ s.globals.find? "x", ∃ q ∈ (d.ty.quote 20 s.metas false 0).toOption,
      ("T" : Name) ∈ q.globals := by
    decide +kernel
  obtain ⟨d, hd, q, hq, hmem⟩ := hmentions
  have htype : d.TypeMentions "T" := ⟨20, s.metas, q, mem_toOption.1 hq, hmem⟩
  refine ⟨hreached, hspared, by decide +kernel, d, hd, htype, ?_⟩
  exact hreached.no_dangling.2 hspared "x" d hd "T" htype

/-- After `T = Nat` and `x : T = 0`, the definition of `T` can be deleted, because the term of `x`
does not mention it. The type of `x` does. -/
theorem Session.delete_leaves_type :
    let defs : List Def := [⟨"T", false, none, .prim .nat⟩, ⟨"x", false, some (.var "T"), .nat 0⟩]
    let s := Op.after 20 (Op.after 20 (.new {}) (.define defs)) (.delete "T")
    s.Reached (fun s _ => s.config.verify = true) ∧
      ∃ d, s.globals.find? "x" = some d ∧ d.TypeMentions "T" ∧ s.globals.contains "T" = false := by
  intro defs s
  have hreached : s.Reached (fun s _ => s.config.verify = true) :=
    .step (.step (.new {}) 20 (by decide)) 20 (by decide +kernel)
  have hmentions : ∃ d ∈ s.globals.find? "x", ∃ q ∈ (d.ty.quote 20 s.metas false 0).toOption,
      ("T" : Name) ∈ q.globals := by
    decide +kernel
  obtain ⟨d, hd, q, hq, hmem⟩ := hmentions
  have htype : d.TypeMentions "T" := ⟨20, s.metas, q, mem_toOption.1 hq, hmem⟩
  exact ⟨hreached, d, hd, htype, by decide +kernel⟩

end Elaborator
