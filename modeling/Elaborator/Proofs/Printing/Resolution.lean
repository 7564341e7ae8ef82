import Elaborator.Proofs.Invariant
import Elaborator.Proofs.Printing.Document
import Elaborator.Proofs.Printing.FreshNames
import Elaborator.Term.Printer

/-! # Printed names resolve to what they stand for

A printed name means the variable of the innermost printed binder with that name, and something
global if there is no such binder. `Named.Reads` says that reading a printed term in this way gives
the term that was printed: it follows the two side by side, with the names of the printed binders
around the current place.

The printer goes from the outside in, so what has to hold of the names around a term is an invariant
of the way down (`Term.Clear`). It is the choice of a name at a binder that keeps it
(`Term.Clear.under`). -/

namespace Elaborator

/-! ## Binders and parts of a term -/

namespace Term

mutual

def binders : Term → List Name
  | .type | .var _ | .global _ | .metavar _ | .prim _ | .nat _ => []
  | .app f _ x => f.binders ++ x.binders
  | .bind b dom body => dom.binders ++ b.name :: body.binders
  | .pair a b s => a.binders ++ b.binders ++ s.binders
  | .proj x _ => x.binders
  | .letIn x _ ty val body => ty.binders ++ val.binders ++ x :: body.binders
  | .elim _ motive scrut cases => motive.binders ++ scrut.binders ++ bindersAll cases

def bindersAll : List Term → List Name
  | [] => []
  | t :: ts => t.binders ++ bindersAll ts

end

theorem bindersAll_eq (ts : List Term) : bindersAll ts = ts.flatMap binders := by
  induction ts with
  | nil => rfl
  | cons t ts ih => simp [bindersAll, ih]

def sides : Term → List Term
  | .type | .var _ | .global _ | .metavar _ | .prim _ | .nat _ => []
  | .app f _ x => [f, x]
  | .bind _ dom _ => [dom]
  | .pair a b s => [a, b, s]
  | .proj x _ => [x]
  | .letIn _ _ ty val _ => [ty, val]
  | .elim _ motive scrut cases => motive :: scrut :: cases

def under? : Term → Option (Name × Term)
  | .bind b _ body => some (b.name, body)
  | .letIn x _ _ _ body => some (x, body)
  | _ => none

variable {t u body : Term} {x : Name} {i : Nat}

/-- A variable that a part of a term uses is used by the term. -/
theorem usesIndex_of_mem_sides (hu : u ∈ t.sides) (h : u.usesIndex i = true) :
    t.usesIndex i = true := by
  cases t <;> simp only [sides, List.mem_cons, List.not_mem_nil, or_false] at hu <;>
    simp only [usesIndex, usesIndexAny_eq, Bool.or_eq_true, List.any_eq_true] <;> grind

theorem usesIndex_of_under? (ht : t.under? = some (x, body)) (h : body.usesIndex (i + 1) = true) :
    t.usesIndex i = true := by
  cases t <;> cases ht <;> simp [usesIndex, h]

theorem mem_globals_of_mem_sides {y : Name} (hu : u ∈ t.sides) (h : y ∈ u.globals) :
    y ∈ t.globals := by
  cases t <;> simp only [sides, List.mem_cons, List.not_mem_nil, or_false] at hu <;>
    simp only [globals, globalsAll_eq, List.mem_append, List.mem_flatMap] <;> grind

theorem mem_globals_of_under? {y : Name} (ht : t.under? = some (x, body)) (h : y ∈ body.globals) :
    y ∈ t.globals := by
  cases t <;> cases ht <;> simp [globals, h]

theorem mem_binders_of_mem_sides {y : Name} (hu : u ∈ t.sides) (h : y ∈ u.binders) :
    y ∈ t.binders := by
  cases t <;> simp only [sides, List.mem_cons, List.not_mem_nil, or_false] at hu <;>
    simp only [binders, bindersAll_eq, List.mem_append, List.mem_cons, List.mem_flatMap] <;> grind

theorem mem_binders_of_under? {y : Name} (ht : t.under? = some (x, body))
    (h : y = x ∨ y ∈ body.binders) : y ∈ t.binders := by
  cases t <;> cases ht <;> simp [binders, h]

/-- The indices that a scoped term uses are those of its scope. -/
theorem Scoped.lt_of_usesIndex {n : Nat} (ht : t.Scoped n) (h : t.usesIndex i = true) : i < n := by
  induction t generalizing n i with
  | type | global | metavar | prim | nat => cases h
  | var j =>
    obtain rfl : j.toNat = i := by simpa [usesIndex] using h
    exact ht
  | app f icit x hf hx =>
    simp only [usesIndex, Bool.or_eq_true] at h
    exact h.elim (hf ht.1) (hx ht.2)
  | bind b dom body hdom hbody =>
    simp only [usesIndex, Bool.or_eq_true] at h
    exact h.elim (hdom ht.1) fun h => Nat.lt_of_succ_lt_succ (hbody ht.2 h)
  | pair a b s ha hb hs =>
    simp only [usesIndex, Bool.or_eq_true] at h
    exact h.elim (·.elim (ha ht.1) (hb ht.2.1)) (hs ht.2.2)
  | proj x p hx => exact hx ht h
  | letIn x erased ty val body hty hval hbody =>
    simp only [usesIndex, Bool.or_eq_true] at h
    exact h.elim (·.elim (hty ht.1) (hval ht.2.1)) fun h => Nat.lt_of_succ_lt_succ (hbody ht.2.2 h)
  | elim e m s cs hm hs hcs =>
    simp only [usesIndex, usesIndexAny_eq, Bool.or_eq_true, List.any_eq_true] at h
    refine h.elim (·.elim (hm ht.1) (hs ht.2.1)) fun ⟨c, hc, h⟩ =>
      hcs c hc (scopedAll_iff.1 ht.2.2 c hc) h

end Term

/-! ## Reading a printed term -/

/-- Reading the first term gives the second one, in a place with these names of printed binders
around it, innermost first. The names of variables and globals are resolved if they are `trusted`,
those of primitives if they are `guarded`. A binder may have another name than it had, but it only
becomes an underscore, which need not be shown, if it was one. -/
inductive Named.Reads (trusted : Name → Prop) (guarded : Prim → Prop) :
    List Name → Named → Term → Prop
  | type {names : List Name} : Reads trusted guarded names .type .type
  /-- The innermost binder with this name is the one that the index points to. -/
  | var {names : List Name} {x : Name} {i : Index}
      (resolves : trusted x → names.idxOf? x = some i.toNat) :
      Reads trusted guarded names (.var x) (.var i)
  | global {names : List Name} {x : Name} (clear : trusted x → x ∉ names) :
      Reads trusted guarded names (.global x) (.global x)
  | metavar {names : List Name} {m : MetaId} : Reads trusted guarded names (.metavar m) (.metavar m)
  | prim {names : List Name} {p : Prim} (clear : guarded p → ⟨p.name⟩ ∉ names) :
      Reads trusted guarded names (.prim p) (.prim p)
  | nat {names : List Name} {n : Nat} : Reads trusted guarded names (.nat n) (.nat n)
  | app {names : List Name} {f x : Term} {f' x' : Named} {icit : Icit}
      (fn : Reads trusted guarded names f' f) (arg : Reads trusted guarded names x' x) :
      Reads trusted guarded names (.app f' icit x') (.app f icit x)
  | lam {names : List Name} {x y : Name} {icit : Icit} {erased : Bool} {dom body : Term}
      {body' : Named} (shown : y = .underscore → x = .underscore)
      (inner : Reads trusted guarded (y :: names) body' body) :
      Reads trusted guarded names (.lam icit y erased body') (.bind ⟨.lam icit, x, erased⟩ dom body)
  | pi {names : List Name} {x y : Name} {icit : Icit} {erased : Bool} {dom body : Term}
      {dom' body' : Named} (shown : y = .underscore → x = .underscore)
      (outer : Reads trusted guarded names dom' dom)
      (inner : Reads trusted guarded (y :: names) body' body) :
      Reads trusted guarded names (.binderType (some icit) y erased dom' body')
        (.bind ⟨.pi icit, x, erased⟩ dom body)
  | sigma {names : List Name} {x y : Name} {erased : Bool} {dom body : Term} {dom' body' : Named}
      (shown : y = .underscore → x = .underscore) (outer : Reads trusted guarded names dom' dom)
      (inner : Reads trusted guarded (y :: names) body' body) :
      Reads trusted guarded names (.binderType none y erased dom' body')
        (.bind ⟨.sigma, x, erased⟩ dom body)
  | pair {names : List Name} {a b s : Term} {a' b' : Named} (fst : Reads trusted guarded names a' a)
      (snd : Reads trusted guarded names b' b) :
      Reads trusted guarded names (.pair a' b') (.pair a b s)
  | proj {names : List Name} {x : Term} {x' : Named} {p : Proj}
      (arg : Reads trusted guarded names x' x) :
      Reads trusted guarded names (.proj x' p) (.proj x p)
  | letIn {names : List Name} {x y : Name} {erased : Bool} {ty val body : Term}
      {ty' val' body' : Named} (shown : y = .underscore → x = .underscore)
      (type : Reads trusted guarded names ty' ty) (value : Reads trusted guarded names val' val)
      (inner : Reads trusted guarded (y :: names) body' body) :
      Reads trusted guarded names (.letIn y erased ty' val' body') (.letIn x erased ty val body)
  | elim {names : List Name} {e : Eliminator} {m s : Term} {cs : List Term} {m' s' : Named}
      {cs' : List Named} (motive : Reads trusted guarded names m' m)
      (scrut : Reads trusted guarded names s' s) (length : cs'.length = cs.length)
      (cases : ∀ (i : Nat) c' c, cs'[i]? = some c' → cs[i]? = some c →
        Reads trusted guarded names c' c) :
      Reads trusted guarded names (.elim e m' s' cs') (.elim e m s cs)

/-! ## The way down -/

namespace Term

/-- What the printer can rely on where these `names` are around the term: every variable is found
under its name, and nothing global is hidden. -/
structure Clear (trusted : Name → Prop) (guarded : Prim → Prop) (names : List Name) (t : Term) :
    Prop where
  locals : ∀ i, t.usesIndex i = true →
    ∃ x, names[i]? = some x ∧ (trusted x → names.idxOf? x = some i)
  globals : ∀ x ∈ t.globals, trusted x → x ∉ names
  prims : ∀ p, guarded p → (⟨p.name⟩ : Name) ∉ names ∧ (⟨p.name⟩ : Name) ∉ t.binders
  underscore : trusted .underscore → Name.underscore ∉ t.binders

variable {trusted : Name → Prop} {guarded : Prim → Prop} {names : List Name} {t u body : Term}
  {x y : Name}

/-- A part of a term that reads clearly reads clearly. -/
theorem Clear.side (h : t.Clear trusted guarded names) (hu : u ∈ t.sides) :
    u.Clear trusted guarded names where
  locals i hi := h.locals i (usesIndex_of_mem_sides hu hi)
  globals y hy := h.globals y (mem_globals_of_mem_sides hu hy)
  prims p hp := ⟨(h.prims p hp).1, fun hmem => (h.prims p hp).2 (mem_binders_of_mem_sides hu hmem)⟩
  underscore htrusted hmem := h.underscore htrusted (mem_binders_of_mem_sides hu hmem)

/-- The name of a primitive is no variant of another name. -/
theorem variant_ne_prim (p : Prim) {stem : List Char} {n : Nat} (h : n < wordLimit) :
    Name.variant stem n ≠ ⟨p.name⟩ := by
  intro heq
  have hsuffix := @Name.suffix?_variant stem n h
  have hnone : (⟨p.name⟩ : Name).suffix? = none := by cases p <;> decide +kernel
  rw [heq, hnone] at hsuffix
  cases hsuffix

/-- A trusted name that was chosen for a binder captures nothing: the underscore is no binder of the
term then. -/
theorem Clear.captures_nothing (h : t.Clear trusted guarded names) (ht : t.under? = some (x, body))
    (hy : freshBinder names x body = .ok y) (htrusted : trusted y) :
    captures names y body = false := by
  obtain ⟨hfree | hunderscore, hvariant⟩ := freshBinderIn_eq_ok hy
  · exact hfree
  · obtain rfl : y = x := hvariant.resolve_right fun hvariant => by simp [hvariant.1] at hunderscore
    obtain rfl : y = .underscore := eq_of_beq hunderscore
    exact absurd (mem_binders_of_under? ht (.inl rfl)) (h.underscore htrusted)

/-- The name that is chosen for a binder hides nothing that its body mentions. -/
theorem Clear.under (h : t.Clear trusted guarded names) (ht : t.under? = some (x, body))
    (hy : freshBinder names x body = .ok y) : body.Clear trusted guarded (y :: names) where
  locals i hi := by
    cases i with
    | zero => exact ⟨y, rfl, fun _ => by simp [List.idxOf?_cons]⟩
    | succ i =>
      obtain ⟨z, hz, hfound⟩ := h.locals i (usesIndex_of_under? ht hi)
      refine ⟨z, hz, fun htrusted => ?_⟩
      -- The body uses the variable `z`, so the new binder got another name.
      have hne : y ≠ z := by
        rintro rfl
        have hfree := captures_eq_false.1 (h.captures_nothing ht hy htrusted)
        rw [hfree.2 i hz] at hi
        cases hi
      rw [List.idxOf?_cons, if_neg (by simpa using hne), hfound htrusted]
      rfl
  globals z hz htrusted := by
    have hne : z ≠ y := by
      rintro rfl
      exact (captures_eq_false.1 (h.captures_nothing ht hy htrusted)).1 hz
    exact List.not_mem_cons_of_ne_of_not_mem hne
      (h.globals z (mem_globals_of_under? ht hz) htrusted)
  prims p hp := by
    obtain ⟨hnames, hbinders⟩ := h.prims p hp
    refine ⟨List.not_mem_cons_of_ne_of_not_mem ?_ hnames,
      fun hmem => hbinders (mem_binders_of_under? ht (.inr hmem))⟩
    rcases (freshBinderIn_eq_ok hy).2 with rfl | ⟨-, stem, n, rfl, hn⟩
    · rintro rfl
      exact hbinders (mem_binders_of_under? ht (.inl rfl))
    · exact (variant_ne_prim p hn).symm
  underscore htrusted hmem := h.underscore htrusted (mem_binders_of_under? ht (.inr hmem))

/-- Around a closed term there are no names. -/
theorem Clear.of_closed (ht : t.Scoped 0) (hprims : ∀ p, guarded p → (⟨p.name⟩ : Name) ∉ t.binders)
    (hunderscore : trusted .underscore → Name.underscore ∉ t.binders) :
    t.Clear trusted guarded [] where
  locals i hi := absurd (ht.lt_of_usesIndex hi) (Nat.not_lt_zero i)
  globals _ _ _ := List.not_mem_nil
  prims p hp := ⟨List.not_mem_nil, hprims p hp⟩
  underscore := hunderscore

/-! ## Printing and reading -/

/-- Terms named one by one read one by one. -/
theorem reads_of_namedAll {cs : List Term} {ns : List Named}
    (hcs : ∀ c ∈ cs, ∀ n, c.named names = .ok n → n.Reads trusted guarded names c)
    (h : namedAll names cs = .ok ns) :
    ns.length = cs.length ∧
      ∀ (i : Nat) n c, ns[i]? = some n → cs[i]? = some c → n.Reads trusted guarded names c := by
  induction cs generalizing ns with
  | nil =>
    cases h
    exact ⟨rfl, fun i n c hn => by simp at hn⟩
  | cons c cs ih =>
    obtain ⟨hc, hcs⟩ := List.forall_mem_cons.1 hcs
    obtain ⟨n, hn, h⟩ := bind_ok h
    obtain ⟨ns, hns, h⟩ := bind_ok h
    cases h
    obtain ⟨hlength, hreads⟩ := ih hcs hns
    refine ⟨by simp [hlength], fun i n' c' hn' hc' => ?_⟩
    cases i with
    | zero =>
      cases hn'
      cases hc'
      exact hc n hn
    | succ i => exact hreads i n' c' hn' hc'

/-- A variable that is found under its name is printed with this name. -/
theorem named_var {i : Index} {n : Named} (hx : names[i.toNat]? = some x)
    (h : (Term.var i).named names = .ok n) : n = .var x := by
  obtain ⟨b, hb, h⟩ := bind_ok h
  obtain ⟨-, rfl⟩ := inScope_eq_ok_iff.1 hb
  have hlt : i.toNat < names.length := (List.getElem?_eq_some_iff.1 hx).1
  rw [if_pos (decide_eq_true (Nat.succ_le_of_lt hlt)), hx] at h
  cases h
  rfl

/-- Only an underscore is printed as an underscore. -/
theorem eq_underscore_of_freshBinder (hy : freshBinder names x body = .ok y) (h : y = .underscore) :
    x = .underscore := by
  rcases (freshBinderIn_eq_ok hy).2 with rfl | ⟨hy, -⟩
  · exact h
  · rw [h] at hy
    cases hy

/-- What is printed where nothing is hidden is read back as the term that was printed. -/
theorem reads_of_named {n : Named} (hclear : t.Clear trusted guarded names)
    (h : t.named names = .ok n) : n.Reads trusted guarded names t := by
  induction t generalizing names n with
  | type =>
    cases h
    exact .type
  | metavar m =>
    cases h
    exact .metavar
  | nat k =>
    cases h
    exact .nat
  | var i =>
    obtain ⟨x, hx, hfound⟩ := hclear.locals i.toNat (by simp [usesIndex])
    obtain rfl := named_var hx h
    exact .var hfound
  | global x =>
    cases h
    exact .global (hclear.globals x (by simp [globals]))
  | prim p =>
    cases h
    exact .prim fun hp => (hclear.prims p hp).1
  | app f icit x hf hx =>
    obtain ⟨f', hf', h⟩ := bind_ok h
    obtain ⟨x', hx', h⟩ := bind_ok h
    cases h
    exact .app (hf (hclear.side (by simp [sides])) hf') (hx (hclear.side (by simp [sides])) hx')
  | bind b dom body hdom hbody =>
    obtain ⟨y, hy, h⟩ := bind_ok h
    obtain ⟨body', hbody', h⟩ := bind_ok h
    have hshown := eq_underscore_of_freshBinder hy
    have hinner := hbody (hclear.under rfl hy) hbody'
    obtain ⟨kind, x, erased⟩ := b
    cases kind with
    | lam icit =>
      cases h
      exact .lam hshown hinner
    | pi icit =>
      obtain ⟨dom', hdom', h⟩ := bind_ok h
      cases h
      exact .pi hshown (hdom (hclear.side (by simp [sides])) hdom') hinner
    | sigma =>
      obtain ⟨dom', hdom', h⟩ := bind_ok h
      cases h
      exact .sigma hshown (hdom (hclear.side (by simp [sides])) hdom') hinner
  | pair a b s ha hb hs =>
    obtain ⟨a', ha', h⟩ := bind_ok h
    obtain ⟨b', hb', h⟩ := bind_ok h
    cases h
    exact .pair (ha (hclear.side (by simp [sides])) ha') (hb (hclear.side (by simp [sides])) hb')
  | proj x p hx =>
    obtain ⟨x', hx', h⟩ := bind_ok h
    cases h
    exact .proj (hx (hclear.side (by simp [sides])) hx')
  | letIn x erased ty val body hty hval hbody =>
    obtain ⟨y, hy, h⟩ := bind_ok h
    obtain ⟨ty', hty', h⟩ := bind_ok h
    obtain ⟨val', hval', h⟩ := bind_ok h
    obtain ⟨body', hbody', h⟩ := bind_ok h
    cases h
    exact .letIn (eq_underscore_of_freshBinder hy) (hty (hclear.side (by simp [sides])) hty')
      (hval (hclear.side (by simp [sides])) hval') (hbody (hclear.under rfl hy) hbody')
  | elim e m s cs hm hs hcs =>
    obtain ⟨m', hm', h⟩ := bind_ok h
    obtain ⟨s', hs', h⟩ := bind_ok h
    obtain ⟨cs', hcs', h⟩ := bind_ok h
    cases h
    obtain ⟨hlength, hcases⟩ := reads_of_namedAll
      (fun c hc n hn => hcs c hc (hclear.side (by simp [sides, hc])) hn) hcs'
    exact .elim (hm (hclear.side (by simp [sides])) hm') (hs (hclear.side (by simp [sides])) hs')
      hlength hcases

/-- A closed term without underscores for binders is printed so that every variable is found under
its name and no global is hidden. The search for the name of a binder ends, whatever the scope, the
name and the body are, unless the number of a variant of the name gets too large. -/
theorem printed_without_capture (t : Term) (ht : t.Scoped 0)
    (hbinders : Name.underscore ∉ t.binders) : (∀ d, t.doc [] = .ok d →
        ∃ n, t.named [] = .ok n ∧ d = n.doc ∧ d.Writes (Named.visible n.names) ∧
          n.Reads anything (fun _ => False) [] t) ∧
      ∀ (names : List Name) (x : Name) (body : Term),
        (∀ tries, names.length + body.globals.length < tries →
          freshBinderIn names body tries x = freshBinder names x body) ∧
        ((∃ y, freshBinder names x body = .ok y) ∨
          freshBinder names x body = .error .overflow ∧ ∃ k, x.variants k = .error .overflow) := by
  refine ⟨fun d hd => ?_, fun names x body => ⟨fun tries h => freshBinderIn_eq_freshBinder h x, ?_⟩⟩
  · obtain ⟨n, hn, rfl⟩ := map_ok hd
    have hclear : t.Clear anything (fun _ => False) [] :=
      .of_closed ht (fun _ hp => hp.elim) fun _ => hbinders
    exact ⟨n, hn, rfl, n.doc_writes, reads_of_named hclear hn⟩
  · exact freshBinderIn_ends (Nat.lt_succ_self _) x

/-- A function of two arguments of the same name whose body applies the first one to the global
`x$0`. -/
def shadowedArgument : Term :=
  lam .expl ⟨"x"⟩ .type (lam .expl ⟨"x"⟩ .type (.app (.var ⟨1⟩) .expl (.global ⟨"x$0"⟩)))

/-- The second binder gets the first name that neither the variable nor the global has. -/
theorem printed_without_capture_shadowed :
    shadowedArgument.Scoped 0 ∧ Name.underscore ∉ shadowedArgument.binders ∧
      (shadowedArgument.text []).toOption.map toString = some "\\x. \\x$1. x x$0" ∧
      ∃ n, shadowedArgument.named [] = .ok n ∧
        n.Reads anything (fun _ => False) [] shadowedArgument := by
  have hscoped : shadowedArgument.Scoped 0 := by simp [shadowedArgument, lam, Scoped]
  have hbinders : Name.underscore ∉ shadowedArgument.binders := by decide +kernel
  refine ⟨hscoped, hbinders, by decide +kernel, ?_⟩
  obtain ⟨n, hn⟩ : ∃ n, shadowedArgument.named [] = .ok n := ⟨_, by rfl⟩
  have hdoc : shadowedArgument.doc [] = .ok n.doc := by rw [doc, hn]; rfl
  obtain ⟨k, hk, -, -, hreads⟩ :=
    (printed_without_capture shadowedArgument hscoped hbinders).1 _ hdoc
  exact ⟨k, hk, hreads⟩

end Term

end Elaborator
