import Elaborator.Local
import Elaborator.Proofs.Scope.Elaborate

/-! # Other numbers for metavariables

The number of a metavariable only says when it was made. Two elaborations of the same term that
start at different numbers make the same metavariables, the second one always the same distance `d`
further on. `renumber d` adds this distance to every metavariable of a term, of a value or of a
local context, wherever it is: also in the values that closures and folded globals carry with them.
What does not look at metavariables does not see the difference. -/

namespace Elaborator

/-! ## Terms -/

def MetaId.renumber (d : Nat) (m : MetaId) : MetaId := ⟨m.toNat + d⟩

@[simp] theorem MetaId.toNat_renumber (d : Nat) (m : MetaId) : (m.renumber d).toNat = m.toNat + d :=
  rfl

@[simp] theorem MetaId.renumber_inj {d : Nat} {m n : MetaId} :
    m.renumber d = n.renumber d ↔ m = n := by
  obtain ⟨i⟩ := m
  obtain ⟨j⟩ := n
  simp [MetaId.renumber]

theorem MetaId.renumber_one_ne (m : MetaId) : m.renumber 1 ≠ m :=
  fun h => Nat.succ_ne_self m.toNat (congrArg MetaId.toNat h)

namespace Term

mutual

def renumber (d : Nat) : Term → Term
  | .type => .type
  | .var i => .var i
  | .global x => .global x
  | .metavar m => .metavar (m.renumber d)
  | .prim p => .prim p
  | .nat n => .nat n
  | .app f icit x => .app (f.renumber d) icit (x.renumber d)
  | .bind b dom body => .bind b (dom.renumber d) (body.renumber d)
  | .pair a b s => .pair (a.renumber d) (b.renumber d) (s.renumber d)
  | .proj x p => .proj (x.renumber d) p
  | .letIn x erased ty val body =>
    .letIn x erased (ty.renumber d) (val.renumber d) (body.renumber d)
  | .elim e motive scrut cases =>
    .elim e (motive.renumber d) (scrut.renumber d) (renumberAll d cases)

def renumberAll (d : Nat) : List Term → List Term
  | [] => []
  | t :: ts => t.renumber d :: renumberAll d ts

end

attribute [simp] renumber

@[simp] theorem renumberAll_eq (d : Nat) (ts : List Term) :
    renumberAll d ts = ts.map (renumber d) := by
  induction ts with
  | nil => rfl
  | cons t ts ih => rw [renumberAll, ih, List.map_cons]

variable {d : Nat}

/-- The metavariables are the same ones further on, in the same order. -/
theorem metaOccurrences_renumber (t : Term) :
    (t.renumber d).metaOccurrences = t.metaOccurrences.map (MetaId.renumber d) := by
  induction t with
  | elim e m s cs hm hs hcs =>
    simp only [renumber, metaOccurrences, renumberAll_eq, metaOccurrencesAll_eq, hm, hs,
      List.map_append, List.map_flatMap, List.flatMap_map]
    exact congrArg _ (List.flatMap_congr hcs)
  | _ => simp_all [metaOccurrences]

theorem addNew_map (seen ms : List MetaId) :
    addNew (seen.map (MetaId.renumber d)) (ms.map (MetaId.renumber d)) =
      (addNew seen ms).map (MetaId.renumber d) := by
  induction ms generalizing seen with
  | nil => rfl
  | cons m ms ih =>
    have hcontains : (seen.map (MetaId.renumber d)).contains (m.renumber d) = seen.contains m := by
      rw [Bool.eq_iff_iff, List.contains_iff_mem, List.contains_iff_mem]
      simp
    rw [List.map_cons, addNew, addNew, hcontains, ← ih]
    split <;> simp

/-- Renumbering the metavariables of a term renumbers the list of them. -/
theorem metas_renumber (t : Term) : (t.renumber d).metas = t.metas.map (MetaId.renumber d) := by
  rw [metas, metas, metaOccurrences_renumber]
  exact addNew_map [] t.metaOccurrences

/-- Without metavariables there is nothing to renumber. -/
theorem renumber_of_metaFree {t : Term} (h : t.metaOccurrences = []) : t.renumber d = t := by
  induction t with
  | metavar m => cases h
  | elim e m s cs hm hs hcs =>
    simp only [metaOccurrences, metaOccurrencesAll_eq, List.append_eq_nil_iff,
      List.flatMap_eq_nil_iff] at h
    obtain ⟨⟨h₁, h₂⟩, h₃⟩ := h
    rw [renumber, hm h₁, hs h₂, renumberAll_eq, List.map_congr_left fun c hc => hcs c hc (h₃ c hc),
      List.map_id']
  | _ => simp_all [metaOccurrences]

/-! ### Names and printing -/

@[simp] theorem usesIndex_renumber (i : Nat) (t : Term) :
    (t.renumber d).usesIndex i = t.usesIndex i := by
  induction t generalizing i with
  | elim e m s cs hm hs hcs =>
    have hcases : (cs.map (renumber d)).any (usesIndex i) = cs.any (usesIndex i) := by
      rw [List.any_map, Bool.eq_iff_iff, List.any_eq_true, List.any_eq_true]
      exact exists_congr fun c => and_congr_right fun hc => by rw [Function.comp_apply, hcs c hc i]
    simp only [renumber, usesIndex, renumberAll_eq, usesIndexAny_eq, hm, hs, hcases]
  | _ => simp_all [usesIndex]

@[simp] theorem globals_renumber (t : Term) : (t.renumber d).globals = t.globals := by
  induction t with
  | elim e m s cs hm hs hcs =>
    simp only [renumber, globals, renumberAll_eq, globalsAll_eq, hm, hs, List.flatMap_map]
    exact congrArg _ (List.flatMap_congr hcs)
  | _ => simp_all [globals]

/-- Which names a binder captures does not depend on metavariables. -/
@[simp] theorem captures_renumber (names : List Name) (x : Name) (body : Term) :
    captures names x (body.renumber d) = captures names x body := by
  simp [captures, usesGlobal]

theorem freshBinderIn_renumber (names : List Name) (body : Term) (tries : Nat) (x : Name) :
    freshBinderIn names (body.renumber d) tries x = freshBinderIn names body tries x := by
  induction tries generalizing x with
  | zero => rfl
  | succ n ih => simp only [freshBinderIn, captures_renumber, ih]

/-- The names of binders do not depend on metavariables. -/
@[simp] theorem freshBinder_renumber (names : List Name) (x : Name) (body : Term) :
    freshBinder names x (body.renumber d) = freshBinder names x body := by
  rw [freshBinder, freshBinder, globals_renumber, freshBinderIn_renumber]

end Term

namespace Named

mutual

def renumber (d : Nat) : Named → Named
  | .type => .type
  | .var x => .var x
  | .unbound i => .unbound i
  | .global x => .global x
  | .metavar m => .metavar (m.renumber d)
  | .prim p => .prim p
  | .nat n => .nat n
  | .app f icit x => .app (f.renumber d) icit (x.renumber d)
  | .lam icit x erased body => .lam icit x erased (body.renumber d)
  | .binderType icit x erased dom body =>
    .binderType icit x erased (dom.renumber d) (body.renumber d)
  | .pair a b => .pair (a.renumber d) (b.renumber d)
  | .proj x p => .proj (x.renumber d) p
  | .letIn x erased ty val body =>
    .letIn x erased (ty.renumber d) (val.renumber d) (body.renumber d)
  | .elim e motive scrut cases =>
    .elim e (motive.renumber d) (scrut.renumber d) (renumberAll d cases)

def renumberAll (d : Nat) : List Named → List Named
  | [] => []
  | t :: ts => t.renumber d :: renumberAll d ts

end

end Named

namespace Term

variable {d : Nat}

/-- Renumbering changes the numbers that are printed and nothing else. -/
theorem named_renumber (names : List Name) (t : Term) :
    (t.renumber d).named names = Named.renumber d <$> t.named names := by
  induction t generalizing names with
  | var i =>
    simp only [renumber, named]
    cases i.inScope names.length with
    | error f => rfl
    | ok b =>
      cases b with
      | false => rfl
      | true => cases names[i.toNat]? <;> rfl
  | bind b dom body hd hb =>
    obtain ⟨kind, x, erased⟩ := b
    cases kind <;> simp [named, Named.renumber, hd, hb]
  | elim e m s cs hm hs hcs =>
    have hcases : namedAll names (cs.map (renumber d)) =
        Named.renumberAll d <$> namedAll names cs := by
      induction cs with
      | nil => rfl
      | cons c cs ih =>
        obtain ⟨hc, hcs⟩ := List.forall_mem_cons.1 hcs
        simp [namedAll, Named.renumberAll, hc, ih hcs]
    simp [named, Named.renumber, hm, hs, hcases]
  | _ => simp_all [named, Named.renumber]

@[simp] theorem renumber_applyImplicits (t : Term) (args : List Term) :
    (t.applyImplicits args).renumber d = (t.renumber d).applyImplicits (args.map (renumber d)) := by
  induction args generalizing t with
  | nil => rfl
  | cons x args ih => exact ih (.app t .impl x)

end Term

/-! ## Values -/

def Head.renumber (d : Nat) : Head → Head
  | .var l => .var l
  | .prim p => .prim p
  | .metavar m => .metavar (m.renumber d)

@[simp] theorem Head.renumber_var (d : Nat) (l : Level) : (Head.var l).renumber d = .var l := rfl

@[simp] theorem Head.renumber_prim (d : Nat) (p : Prim) : (Head.prim p).renumber d = .prim p := rfl

@[simp] theorem Head.renumber_metavar (d : Nat) (m : MetaId) :
    (Head.metavar m).renumber d = .metavar (m.renumber d) := rfl

theorem Head.renumber_inj {d : Nat} {h k : Head} : h.renumber d = k.renumber d ↔ h = k := by
  cases h <;> cases k <;> simp

mutual

def Val.renumber (d : Nat) : Val → Val
  | .type => .type
  | .neutral h sp => .neutral (h.renumber d) (Spine.renumber d sp)
  | .glued x sp base => .glued x (Spine.renumber d sp) (base.renumber d)
  | .closure ⟨b, dom, ⟨globals, locals⟩, body⟩ =>
    .closure ⟨b, dom.renumber d, ⟨Val.renumberNamed d globals, Val.renumberAll d locals⟩,
      body.renumber d⟩
  | .pair a b s => .pair (a.renumber d) (b.renumber d) (s.renumber d)
  | .nat n => .nat n

def Spine.renumber (d : Nat) : List Elim → List Elim
  | [] => []
  | e :: sp => e.renumber d :: Spine.renumber d sp

def Elim.renumber (d : Nat) : Elim → Elim
  | .app icit x => .app icit (x.renumber d)
  | .proj p => .proj p
  | .cases e motive cases => .cases e (motive.renumber d) (Val.renumberAll d cases)

def Val.renumberAll (d : Nat) : List Val → List Val
  | [] => []
  | v :: vs => v.renumber d :: Val.renumberAll d vs

def Val.renumberNamed (d : Nat) : List (Name × Val) → List (Name × Val)
  | [] => []
  | (x, v) :: vs => (x, v.renumber d) :: Val.renumberNamed d vs

end

mutual

/-- The metavariables that occur in a value, also in what its closures and its folded globals carry
with them. -/
def Val.metaOccurrences : Val → List MetaId
  | .type | .nat _ => []
  | .neutral (.metavar m) sp => m :: Spine.metaOccurrences sp
  | .neutral _ sp => Spine.metaOccurrences sp
  | .glued _ sp base => Spine.metaOccurrences sp ++ base.metaOccurrences
  | .closure ⟨_, dom, ⟨globals, locals⟩, body⟩ =>
    dom.metaOccurrences ++ Val.metaOccurrencesNamed globals ++ Val.metaOccurrencesAll locals ++
      body.metaOccurrences
  | .pair a b s => a.metaOccurrences ++ b.metaOccurrences ++ s.metaOccurrences

def Spine.metaOccurrences : List Elim → List MetaId
  | [] => []
  | e :: sp => e.metaOccurrences ++ Spine.metaOccurrences sp

def Elim.metaOccurrences : Elim → List MetaId
  | .app _ x => x.metaOccurrences
  | .proj _ => []
  | .cases _ motive cases => motive.metaOccurrences ++ Val.metaOccurrencesAll cases

def Val.metaOccurrencesAll : List Val → List MetaId
  | [] => []
  | v :: vs => v.metaOccurrences ++ Val.metaOccurrencesAll vs

def Val.metaOccurrencesNamed : List (Name × Val) → List MetaId
  | [] => []
  | (_, v) :: vs => v.metaOccurrences ++ Val.metaOccurrencesNamed vs

end

/-! Without metavariables there is nothing to renumber. -/

section

variable (d : Nat)

mutual

/-- A value without metavariables is the same after renumbering. -/
theorem Val.renumber_of_metaFree : ∀ v : Val, v.metaOccurrences = [] → v.renumber d = v
  | .type, _ => rfl
  | .nat _, _ => rfl
  | .neutral (.metavar _) _, h => by cases h
  | .neutral (.var _) sp, h => by rw [Val.renumber, Spine.renumber_of_metaFree sp h, Head.renumber]
  | .neutral (.prim _) sp, h => by rw [Val.renumber, Spine.renumber_of_metaFree sp h, Head.renumber]
  | .glued _ sp base, h => by
    obtain ⟨hsp, hbase⟩ := List.append_eq_nil_iff.1 h
    rw [Val.renumber, Spine.renumber_of_metaFree sp hsp, Val.renumber_of_metaFree base hbase]
  | .closure ⟨_, dom, ⟨globals, locals⟩, body⟩, h => by
    simp only [Val.metaOccurrences, List.append_eq_nil_iff] at h
    obtain ⟨⟨⟨hdom, hglobals⟩, hlocals⟩, hbody⟩ := h
    rw [Val.renumber, Val.renumber_of_metaFree dom hdom,
      Val.renumberNamed_of_metaFree globals hglobals,
      Val.renumberAll_of_metaFree locals hlocals, Term.renumber_of_metaFree hbody]
  | .pair a b s, h => by
    simp only [Val.metaOccurrences, List.append_eq_nil_iff] at h
    obtain ⟨⟨ha, hb⟩, hs⟩ := h
    rw [Val.renumber, Val.renumber_of_metaFree a ha, Val.renumber_of_metaFree b hb,
      Val.renumber_of_metaFree s hs]

theorem Spine.renumber_of_metaFree : ∀ sp : List Elim, Spine.metaOccurrences sp = [] →
    Spine.renumber d sp = sp
  | [], _ => rfl
  | e :: sp, h => by
    obtain ⟨he, hsp⟩ := List.append_eq_nil_iff.1 h
    rw [Spine.renumber, Elim.renumber_of_metaFree e he, Spine.renumber_of_metaFree sp hsp]

theorem Elim.renumber_of_metaFree : ∀ e : Elim, e.metaOccurrences = [] → e.renumber d = e
  | .app _ x, h => by rw [Elim.renumber, Val.renumber_of_metaFree x h]
  | .proj _, _ => rfl
  | .cases _ m cs, h => by
    obtain ⟨hm, hcs⟩ := List.append_eq_nil_iff.1 h
    rw [Elim.renumber, Val.renumber_of_metaFree m hm, Val.renumberAll_of_metaFree cs hcs]

theorem Val.renumberAll_of_metaFree : ∀ vs : List Val, Val.metaOccurrencesAll vs = [] →
    Val.renumberAll d vs = vs
  | [], _ => rfl
  | v :: vs, h => by
    obtain ⟨hv, hvs⟩ := List.append_eq_nil_iff.1 h
    rw [Val.renumberAll, Val.renumber_of_metaFree v hv, Val.renumberAll_of_metaFree vs hvs]

theorem Val.renumberNamed_of_metaFree :
    ∀ vs : List (Name × Val), Val.metaOccurrencesNamed vs = [] → Val.renumberNamed d vs = vs
  | [], _ => rfl
  | (_, v) :: vs, h => by
    obtain ⟨hv, hvs⟩ := List.append_eq_nil_iff.1 h
    rw [Val.renumberNamed, Val.renumber_of_metaFree v hv, Val.renumberNamed_of_metaFree vs hvs]

end

end

/-! ### Values part by part -/

def Env.renumber (d : Nat) (env : Env) : Env :=
  ⟨env.globals.map fun e => (e.1, e.2.renumber d), env.locals.map (Val.renumber d)⟩

def Closure.renumber (d : Nat) (c : Closure) : Closure :=
  ⟨c.binder, c.dom.renumber d, c.env.renumber d, c.body.renumber d⟩

section

variable {d : Nat}

theorem Val.renumberAll_eq (vs : List Val) : Val.renumberAll d vs = vs.map (Val.renumber d) := by
  induction vs with
  | nil => rfl
  | cons v vs ih => rw [Val.renumberAll, ih, List.map_cons]

theorem Val.renumberNamed_eq (vs : List (Name × Val)) :
    Val.renumberNamed d vs = vs.map fun e => (e.1, e.2.renumber d) := by
  induction vs with
  | nil => rfl
  | cons v vs ih => rw [Val.renumberNamed, ih, List.map_cons]

theorem Spine.renumber_eq (sp : Spine) : Spine.renumber d sp = sp.map (Elim.renumber d) := by
  induction sp with
  | nil => rfl
  | cons e sp ih => rw [Spine.renumber, ih, List.map_cons]

@[simp] theorem Val.renumber_type : Val.type.renumber d = .type := rfl

@[simp] theorem Val.renumber_nat (n : Nat) : (Val.nat n).renumber d = .nat n := rfl

@[simp] theorem Val.renumber_neutral (h : Head) (sp : Spine) :
    (Val.neutral h sp).renumber d = .neutral (h.renumber d) (sp.map (Elim.renumber d)) := by
  rw [Val.renumber, Spine.renumber_eq]

@[simp] theorem Val.renumber_glued (x : Name) (sp : Spine) (base : Val) :
    (Val.glued x sp base).renumber d = .glued x (sp.map (Elim.renumber d)) (base.renumber d) := by
  rw [Val.renumber, Spine.renumber_eq]

@[simp] theorem Val.renumber_closure (c : Closure) :
    (Val.closure c).renumber d = .closure (c.renumber d) := by
  obtain ⟨b, dom, ⟨globals, locals⟩, body⟩ := c
  rw [Val.renumber, Val.renumberAll_eq, Val.renumberNamed_eq]
  rfl

@[simp] theorem Val.renumber_pair (a b s : Val) :
    (Val.pair a b s).renumber d = .pair (a.renumber d) (b.renumber d) (s.renumber d) := rfl

@[simp] theorem Elim.renumber_app (icit : Icit) (x : Val) :
    (Elim.app icit x).renumber d = .app icit (x.renumber d) := rfl

@[simp] theorem Elim.renumber_proj (p : Proj) : (Elim.proj p).renumber d = .proj p := rfl

@[simp] theorem Elim.renumber_cases (e : Eliminator) (m : Val) (cs : List Val) :
    (Elim.cases e m cs).renumber d = .cases e (m.renumber d) (cs.map (Val.renumber d)) := by
  rw [Elim.renumber, Val.renumberAll_eq]

@[simp] theorem Val.renumber_var (l : Level) : (Val.var l).renumber d = .var l := rfl

@[simp] theorem Val.renumber_fresh (n : Nat) : (Val.fresh n).renumber d = .fresh n := rfl

@[simp] theorem Val.renumber_prim (p : Prim) : (Val.prim p).renumber d = .prim p := rfl

@[simp] theorem Val.renumber_metavar (m : MetaId) :
    (Val.metavar m).renumber d = .metavar (m.renumber d) := rfl

@[simp] theorem Val.isMeta_renumber (v : Val) : (v.renumber d).isMeta = v.isMeta := by
  cases v with
  | neutral h sp => cases h <;> rfl
  | closure c => rw [Val.renumber_closure]; rfl
  | type | glued | pair | nat => rfl

@[simp] theorem Env.size_renumber (env : Env) : (env.renumber d).size = env.size :=
  List.length_map ..

@[simp] theorem Env.renumber_push (env : Env) (v : Val) :
    (env.push v).renumber d = (env.renumber d).push (v.renumber d) := rfl

@[simp] theorem Closure.binder_renumber (c : Closure) : (c.renumber d).binder = c.binder := rfl

@[simp] theorem Closure.dom_renumber (c : Closure) : (c.renumber d).dom = c.dom.renumber d := rfl

@[simp] theorem Closure.env_renumber (c : Closure) : (c.renumber d).env = c.env.renumber d := rfl

end

/-! ## Local contexts -/

def Entry.renumber (d : Nat) (e : Entry) : Entry := { e with ty := e.ty.renumber d }

def Local.renumber (d : Nat) (l : Local) : Local :=
  { l with entries := l.entries.map (Entry.renumber d), env := l.env.renumber d }

def Hole.renumber (d : Nat) (h : Hole) : Hole :=
  { h with term := h.term.renumber d, ty := h.ty.renumber d, scope := h.scope.renumber d }

namespace Local

variable {d : Nat}

@[simp] theorem env_renumber (l : Local) : (l.renumber d).env = l.env.renumber d := rfl

@[simp] theorem inType_renumber (l : Local) : (l.renumber d).inType = l.inType := rfl

@[simp] theorem entries_renumber (l : Local) :
    (l.renumber d).entries = l.entries.map (Entry.renumber d) := rfl

@[simp] theorem size_renumber (l : Local) : (l.renumber d).size = l.size := l.env.size_renumber

@[simp] theorem names_renumber (l : Local) : (l.renumber d).names = l.names := by
  simp [names, Entry.renumber, Function.comp_def]

theorem bind_renumber (l : Local) (x : Name) (ty : Val) (erased inserted : Bool) :
    (l.bind x ty erased inserted).renumber d = (l.renumber d).bind x (ty.renumber d) erased
      inserted := by
  simp [bind, renumber, Entry.renumber, size]

theorem enterType_renumber (l : Local) : l.enterType.renumber d = (l.renumber d).enterType := rfl

theorem enterIf_renumber (l : Local) (erased : Bool) :
    (l.enterIf erased).renumber d = (l.renumber d).enterIf erased := by
  cases erased <;> rfl

@[simp] theorem lookup_renumber (l : Local) (x : Name) :
    (l.renumber d).lookup x = (l.lookup x).map fun e => (e.1, e.2.renumber d) := by
  simp [lookup, List.zipIdx_map, List.find?_map, Function.comp_def, Entry.renumber, Prod.map]

@[simp] theorem boundIndices_renumber (l : Local) :
    (l.renumber d).boundIndices = l.boundIndices := by
  rw [boundIndices, entries_renumber, List.zipIdx_map, List.filterMap_map]
  rfl

/-- The arguments of a metavariable are variables. -/
theorem applyMeta_renumber (l : Local) (m : MetaId) :
    (l.applyMeta m).renumber d = (l.renumber d).applyMeta (m.renumber d) := by
  have happly (is : List Index) (t : Term) :
      (is.foldl (fun t i => Term.app t .expl (.var i)) t).renumber d =
        is.foldl (fun t i => Term.app t .expl (.var i)) (t.renumber d) := by
    induction is generalizing t with
    | nil => rfl
    | cons i is ih => exact ih (.app t .expl (.var i))
  rw [applyMeta, happly, applyMeta, boundIndices_renumber, Term.renumber]

end Local

/-! ## Globals -/

/-- No metavariable occurs in the values and the types of the definitions. -/
structure Globals.MetaFree (g : Globals) : Prop where
  val : ∀ e ∈ g.map.entries, e.2.val.metaOccurrences = []
  ty : ∀ e ∈ g.map.entries, e.2.ty.metaOccurrences = []

namespace Globals.MetaFree

variable {g : Globals}

/-- The environment of global definitions without metavariables is the same after renumbering. -/
theorem env_renumber (h : g.MetaFree) (d : Nat) : g.env.renumber d = g.env := by
  have hvals : g.map.entries.map (fun e => (e.1, e.2.val.renumber d)) = g.map.entries.map fun e =>
      (e.1, e.2.val) :=
    List.map_congr_left fun e he => by rw [Val.renumber_of_metaFree d e.2.val (h.val e he)]
  rw [Globals.env, Env.renumber, List.map_map, List.map_nil]
  exact congrArg (Env.mk · []) hvals

theorem ty_renumber (h : g.MetaFree) (d : Nat) {e : Name × Definition} (he : e ∈ g.map.entries) :
    e.2.ty.renumber d = e.2.ty :=
  Val.renumber_of_metaFree d e.2.ty (h.ty e he)

theorem find?_ty_renumber (h : g.MetaFree) (d : Nat) {x : Name} {e : Definition}
    (he : g.find? x = some e) : e.ty.renumber d = e.ty :=
  h.ty_renumber d (Globals.mem_of_find? he)

theorem empty_renumber (h : g.MetaFree) (d : Nat) : (Local.empty g).renumber d = Local.empty g := by
  rw [Local.empty, Local.renumber, h.env_renumber d, List.map_nil]

/-- The context that a closed term is checked in. -/
theorem enterIf_empty_renumber (h : g.MetaFree) (erased : Bool) (d : Nat) :
    ((Local.empty g).enterIf erased).renumber d = (Local.empty g).enterIf erased := by
  rw [Local.enterIf_renumber, h.empty_renumber d]

end Globals.MetaFree

end Elaborator
