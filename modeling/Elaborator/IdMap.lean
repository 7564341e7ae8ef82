/-!
# Maps keyed by numbers

Finite maps from numbers to values, as lists of entries whose keys increase. Walking the list visits
the keys in order, and no key is there twice.

`find?_insert` and `find?_erase` say what the two updates do to look-ups.
-/

namespace Elaborator

/-- Dropping the entries of a key changes the look-up of that key only. -/
theorem lookup_filter_ne {κ α : Type} [DecidableEq κ] (k : κ) (l : List (κ × α)) (j : κ) :
    (l.filter fun e => e.1 != k).lookup j = if j = k then none else l.lookup j := by
  induction l with
  | nil => simp
  | cons f rest ih =>
    obtain ⟨i, b⟩ := f
    by_cases h : i = k <;> grind

structure IdMap (α : Type) where
  entries : List (Nat × α)
  increasing : entries.Pairwise fun e f => e.1 < f.1

namespace IdMap

variable {α : Type}

def empty : IdMap α := ⟨[], .nil⟩

instance : Inhabited (IdMap α) := ⟨empty⟩

def isEmpty (m : IdMap α) : Bool := m.entries.isEmpty

def find? (m : IdMap α) (k : Nat) : Option α := m.entries.lookup k

def keys (m : IdMap α) : List Nat := m.entries.map (·.1)

def insertEntry (k : Nat) (a : α) : List (Nat × α) → List (Nat × α)
  | [] => [(k, a)]
  | (j, b) :: rest =>
    if k < j then (k, a) :: (j, b) :: rest
    else if k = j then (k, a) :: rest
    else (j, b) :: insertEntry k a rest

/-- An entry that was put in its place is the new one or an old one. -/
theorem mem_insertEntry {k : Nat} {a : α} {l : List (Nat × α)} {e : Nat × α}
    (h : e ∈ insertEntry k a l) : e = (k, a) ∨ e ∈ l := by
  induction l with
  | nil => simpa [insertEntry] using h
  | cons f rest ih =>
    simp only [insertEntry] at h
    split at h
    · simpa using h
    · split at h
      · rcases List.mem_cons.1 h with h | h
        · exact .inl h
        · exact .inr (List.mem_cons_of_mem _ h)
      · rcases List.mem_cons.1 h with h | h
        · exact .inr (List.mem_cons.2 (.inl h))
        · exact (ih h).imp_right (List.mem_cons_of_mem _)

/-- Keys still increase when an entry is put in its place. -/
theorem increasing_insertEntry (k : Nat) (a : α) {l : List (Nat × α)}
    (h : l.Pairwise fun e f => e.1 < f.1) : (insertEntry k a l).Pairwise fun e f => e.1 < f.1 := by
  induction l with
  | nil => simp [insertEntry]
  | cons f rest ih =>
    obtain ⟨hf, hrest⟩ := List.pairwise_cons.1 h
    simp only [insertEntry]
    split
    · next hlt =>
      refine List.pairwise_cons.2 ⟨fun e he => ?_, h⟩
      rcases List.mem_cons.1 he with rfl | he
      · exact hlt
      · exact Nat.lt_trans hlt (hf e he)
    · split
      · next _ heq => exact List.pairwise_cons.2 ⟨fun e he => heq ▸ hf e he, hrest⟩
      · refine List.pairwise_cons.2 ⟨fun e he => ?_, ih hrest⟩
        rcases mem_insertEntry he with rfl | he
        · exact Nat.lt_of_le_of_ne (Nat.le_of_not_lt ‹_›) (Ne.symm ‹_›)
        · exact hf e he

def insert (m : IdMap α) (k : Nat) (a : α) : IdMap α :=
  ⟨insertEntry k a m.entries, increasing_insertEntry k a m.increasing⟩

def erase (m : IdMap α) (k : Nat) : IdMap α :=
  ⟨m.entries.filter fun e => e.1 != k, m.increasing.filter _⟩

/-! ## Look-ups after an update -/

@[simp] theorem find?_empty (k : Nat) : (empty : IdMap α).find? k = none := rfl

/-- Putting an entry in its place changes the look-up of its key only. -/
theorem lookup_insertEntry (k : Nat) (a : α) (l : List (Nat × α)) (j : Nat) :
    (insertEntry k a l).lookup j = if j = k then some a else l.lookup j := by
  induction l with
  | nil => grind [insertEntry]
  | cons f rest ih =>
    obtain ⟨i, b⟩ := f
    by_cases h : j = k <;> grind [insertEntry]

/-- After an insertion the new value is found at its key, and nothing else has changed. -/
@[simp] theorem find?_insert (m : IdMap α) (k : Nat) (a : α) (j : Nat) :
    (m.insert k a).find? j = if j = k then some a else m.find? j :=
  lookup_insertEntry k a m.entries j

/-- After an erasure nothing is found at the key, and nothing else has changed. -/
@[simp] theorem find?_erase (m : IdMap α) (k : Nat) (j : Nat) :
    (m.erase k).find? j = if j = k then none else m.find? j :=
  lookup_filter_ne k m.entries j

end IdMap

end Elaborator
