import Elaborator.Erased
import Elaborator.NameMap
import Elaborator.Value

/-!
# Global definitions

The definitions of a session are kept in two containers: a map from names to definitions, and the
list of the names in the order in which they were defined. A new definition takes the place of an
old one of the same name in the map, and its name moves to the end of the list.

Every update has to change both containers. `Globals.Consistent` says that they fit together, and
`Consistent.insert` and `Consistent.erase` that they still do after an update.
-/

namespace Elaborator

structure Definition where
  term : Term
  val : Val
  ty : Val
  /-- Whether it may only be used where it leaves no trace at run time. -/
  erased : Bool
  /-- What is left of the term at run time, if the definition was verified. -/
  erasedTerm : Option Erased

structure Globals where
  map : NameMap Definition
  /-- The defined names, oldest first. -/
  names : List Name

namespace Globals

def empty : Globals := ⟨.empty, []⟩

instance : Inhabited Globals := ⟨empty⟩

def find? (g : Globals) (x : Name) : Option Definition := g.map.find? x

def contains (g : Globals) (x : Name) : Bool := (g.find? x).isSome

def erase (g : Globals) (x : Name) : Globals :=
  if g.contains x then ⟨g.map.erase x, g.names.filter (· != x)⟩ else g

def insert (g : Globals) (x : Name) (d : Definition) : Globals where
  map := g.map.insert x d
  names := (if g.contains x then g.names.filter (· != x) else g.names) ++ [x]

def definitions (g : Globals) : List (Name × Definition) :=
  g.names.filterMap fun x => (g.find? x).map (x, ·)

/-- The other definitions whose term mentions `x`. -/
def dependents (g : Globals) (x : Name) : List Name :=
  (g.definitions.filter fun e => e.1 != x && e.2.term.usesGlobal x).map (·.1)

def env (g : Globals) : Env := ⟨g.map.entries.map fun e => (e.1, e.2.val), []⟩

/-! ## Look-ups after an update -/

@[simp] theorem find?_empty (x : Name) : empty.find? x = none := rfl

theorem mem_entries_iff {g : Globals} {x : Name} {d : Definition} :
    (x, d) ∈ g.map.entries ↔ g.find? x = some d := NameMap.mem_entries_iff

/-- Every definition listed in the order of the names is the one its name finds. -/
theorem find?_of_mem_definitions {g : Globals} {x : Name} {d : Definition}
    (h : (x, d) ∈ g.definitions) : g.find? x = some d := by
  obtain ⟨y, -, hy⟩ := List.mem_filterMap.1 h
  obtain ⟨e, he, hxd⟩ := Option.map_eq_some_iff.1 hy
  cases hxd
  exact he

/-- After an erasure the name is not defined, and nothing else has changed. -/
@[simp] theorem find?_erase (g : Globals) (x y : Name) :
    (g.erase x).find? y = if y = x then none else g.find? y := by
  unfold erase
  split
  · exact NameMap.find?_erase g.map x y
  · next hx =>
    split
    · next hyx =>
      subst hyx
      simpa [contains] using hx
    · rfl

/-- After an insertion the name has the new definition, and nothing else has changed. -/
@[simp] theorem find?_insert (g : Globals) (x : Name) (d : Definition) (y : Name) :
    (g.insert x d).find? y = if y = x then some d else g.find? y :=
  NameMap.find?_insert g.map x d y

theorem mem_entries_erase {g : Globals} {x : Name} {e : Name × Definition}
    (h : e ∈ (g.erase x).map.entries) : e ∈ g.map.entries := by
  unfold erase at h
  split at h
  · exact (List.mem_filter.1 h).1
  · exact h

/-- Inserting a definition adds its own entry and no other. -/
theorem mem_entries_insert {g : Globals} {x : Name} {d : Definition} {e : Name × Definition}
    (h : e ∈ (g.insert x d).map.entries) : e = (x, d) ∨ e ∈ g.map.entries :=
  (List.mem_cons.1 h).imp_right fun he => (List.mem_filter.1 he).1

/-- The environment holds the values of the definitions. -/
theorem env_global? (g : Globals) (x : Name) : g.env.global? x = (g.find? x).map (·.val) := by
  simp only [env, Env.global?, find?, NameMap.find?]
  induction g.map.entries with
  | nil => rfl
  | cons e rest ih =>
    obtain ⟨y, d⟩ := e
    by_cases h : x = y
    · simp [h]
    · simp [List.lookup_cons, beq_false_of_ne h, ih]

/-! ## The two containers -/

/-- No name is listed twice, and exactly the names with a definition are listed. -/
structure Consistent (g : Globals) : Prop where
  nodup : g.names.Nodup
  mem_names : ∀ x, x ∈ g.names ↔ g.contains x = true

namespace Consistent

variable {g : Globals} {x : Name}

theorem empty : Globals.empty.Consistent where
  nodup := .nil
  mem_names x := by simp [Globals.empty, contains, find?, NameMap.find?, NameMap.empty]

/-- A name that has no definition need not be taken off the list. -/
theorem filter_eq_self (h : g.Consistent) (hx : ¬ g.contains x = true) :
    g.names.filter (· != x) = g.names := by
  refine List.filter_eq_self.2 fun y hy => bne_iff_ne.2 ?_
  rintro rfl
  exact hx ((h.mem_names y).1 hy)

theorem names_erase (h : g.Consistent) (x : Name) :
    (g.erase x).names = g.names.filter (· != x) := by
  unfold Globals.erase
  split
  · rfl
  · next hx => exact (h.filter_eq_self hx).symm

/-- A name that is defined again moves to the end of the order. -/
theorem names_insert (h : g.Consistent) (x : Name) (d : Definition) :
    (g.insert x d).names = g.names.filter (· != x) ++ [x] := by
  show (if g.contains x then g.names.filter (· != x) else g.names) ++ [x] = _
  split
  · rfl
  · next hx => rw [h.filter_eq_self hx]

/-- Erasing a name keeps the order and the map about the same names. -/
theorem erase (h : g.Consistent) (x : Name) : (g.erase x).Consistent where
  nodup := by
    rw [h.names_erase]
    exact h.nodup.filter _
  mem_names y := by
    rw [h.names_erase, List.mem_filter, h.mem_names]
    by_cases hy : y = x <;> simp [contains, hy]

/-- Inserting a definition keeps the order and the map about the same names. -/
theorem insert (h : g.Consistent) (x : Name) (d : Definition) : (g.insert x d).Consistent where
  nodup := by
    rw [h.names_insert]
    refine List.nodup_append.2 ⟨h.nodup.filter _, by simp, ?_⟩
    intro y hy z hz hyz
    rw [List.mem_singleton.1 hz] at hyz
    simp [hyz] at hy
  mem_names y := by
    rw [h.names_insert, List.mem_append, List.mem_filter, h.mem_names, List.mem_singleton]
    by_cases hy : y = x <;> simp [contains, hy]

/-- The definitions that are listed are those of the map. -/
theorem mem_definitions (h : g.Consistent) {d : Definition} :
    (x, d) ∈ g.definitions ↔ g.find? x = some d := by
  refine ⟨find?_of_mem_definitions, fun hd => ?_⟩
  have hx : x ∈ g.names := (h.mem_names x).2 (by simp [contains, hd])
  exact List.mem_filterMap.2 ⟨x, hx, by simp [hd]⟩

/-- Every listed name comes with its definition. -/
theorem map_definitions (h : g.Consistent) : g.definitions.map (·.1) = g.names := by
  have hlisted : ∀ l : List Name, (∀ x ∈ l, g.contains x = true) →
      (l.filterMap fun x => (g.find? x).map (x, ·)).map (·.1) = l := by
    intro l hl
    induction l with
    | nil => rfl
    | cons x l ih =>
      obtain ⟨hx, hl⟩ := List.forall_mem_cons.1 hl
      obtain ⟨d, hd⟩ := Option.isSome_iff_exists.1 hx
      simp [hd, ih hl]
  exact hlisted g.names fun x hx => (h.mem_names x).1 hx

end Consistent

end Globals

end Elaborator
