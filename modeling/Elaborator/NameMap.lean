import Elaborator.IdMap
import Elaborator.Name

/-!
# Maps keyed by names

Finite maps from names to values, as lists of entries in no particular order. No name is there
twice, so an entry is in the list exactly if looking up its name finds it
(`NameMap.mem_entries_iff`).
-/

namespace Elaborator

structure NameMap (α : Type) where
  entries : List (Name × α)
  distinct : (entries.map (·.1)).Nodup

namespace NameMap

variable {α : Type}

def empty : NameMap α := ⟨[], .nil⟩

instance : Inhabited (NameMap α) := ⟨empty⟩

def find? (m : NameMap α) (x : Name) : Option α := m.entries.lookup x

def erase (m : NameMap α) (x : Name) : NameMap α where
  entries := m.entries.filter fun e => e.1 != x
  distinct := m.distinct.sublist (List.filter_sublist.map _)

def insert (m : NameMap α) (x : Name) (a : α) : NameMap α where
  entries := (x, a) :: (m.erase x).entries
  distinct := by
    refine List.nodup_cons.2 ⟨fun hx => ?_, (m.erase x).distinct⟩
    obtain ⟨e, he, hex⟩ := List.mem_map.1 hx
    have hne := (List.mem_filter.1 he).2
    simp [hex] at hne

@[simp] theorem find?_empty (x : Name) : (empty : NameMap α).find? x = none := rfl

/-- After an erasure nothing is found for the name, and nothing else has changed. -/
@[simp] theorem find?_erase (m : NameMap α) (x y : Name) :
    (m.erase x).find? y = if y = x then none else m.find? y :=
  lookup_filter_ne x m.entries y

/-- After an insertion the new value is found for the name, and nothing else has changed. -/
@[simp] theorem find?_insert (m : NameMap α) (x : Name) (a : α) (y : Name) :
    (m.insert x a).find? y = if y = x then some a else m.find? y := by
  have herase := find?_erase m x y
  simp only [find?, insert, List.lookup_cons] at herase ⊢
  by_cases hy : y = x
  · simp [hy]
  · simp [beq_false_of_ne hy, hy, herase]

/-- An entry is in the list just when its name finds it. -/
theorem mem_entries_iff {m : NameMap α} {x : Name} {a : α} :
    (x, a) ∈ m.entries ↔ m.find? x = some a := by
  obtain ⟨entries, distinct⟩ := m
  simp only [find?]
  induction entries with
  | nil => simp
  | cons e rest ih =>
    obtain ⟨y, b⟩ := e
    obtain ⟨hnew, hrest⟩ := List.nodup_cons.1 distinct
    rw [List.mem_cons, ih hrest, List.lookup_cons]
    by_cases hxy : x = y
    · subst hxy
      have hnone : rest.lookup x = none := by
        refine List.lookup_eq_none_iff.2 fun e he => bne_iff_ne.2 fun hx => hnew ?_
        exact List.mem_map.2 ⟨e, he, hx.symm⟩
      simp [hnone, eq_comm]
    · simp [beq_false_of_ne hxy, hxy]

end NameMap

end Elaborator
