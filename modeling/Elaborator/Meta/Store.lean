import Elaborator.Error
import Elaborator.IdMap
import Elaborator.Value

/-!
# The metavariable store

The store knows for each metavariable whether it is solved and by what, and which unification
problems wait for it. Transactions nest: `push` saves what is known, `pop` goes back to the last
saved knowledge, and `discard` forgets it and keeps everything found since.

The counter for new metavariables is not part of what is saved. So a number that was given out once
is never given out again, not even after `pop` or `reset`.
-/

namespace Elaborator

/-- A unification problem in a scope of this size that waits for a metavariable. -/
structure Problem where
  size : Nat
  lhs : Val
  rhs : Val

/-- What is known about the metavariables at one time. -/
structure Knowledge where
  /-- Every metavariable that was made, with its solution if it has one. -/
  cells : IdMap (Option Val)
  postponed : IdMap (List Problem)

def Knowledge.empty : Knowledge := ⟨.empty, .empty⟩

/-- Only metavariables with a number below `n` were made. -/
def Knowledge.Below (k : Knowledge) (n : Nat) : Prop := ∀ i, (k.cells.find? i).isSome → i < n

/-- Nothing was made, so every bound holds. -/
theorem Knowledge.below_empty (n : Nat) : Knowledge.empty.Below n := by
  intro i h
  simp [Knowledge.empty] at h

/-- A bound may be replaced by a larger one. -/
theorem Knowledge.Below.mono {k : Knowledge} {m n : Nat} (h : k.Below m) (hmn : m ≤ n) :
    k.Below n :=
  fun i hi => Nat.lt_of_lt_of_le (h i hi) hmn

/-- A new cell below the bound keeps the bound. -/
theorem Knowledge.Below.insert {k : Knowledge} {n m : Nat} (h : k.Below n) (hm : m < n)
    (cell : Option Val) : Knowledge.Below { k with cells := k.cells.insert m cell } n := by
  intro i hi
  by_cases him : i = m
  · rw [him]
    exact hm
  · simp only [IdMap.find?_insert, if_neg him] at hi
    exact h i hi

/-- The metavariables with the open transactions. -/
@[ext] structure MetaStore where
  now : Knowledge
  /-- What was known at the start of each open transaction, innermost first. -/
  saved : List Knowledge
  next : Nat
  /-- The next number is above all that were given out, also before an open transaction. -/
  below : ∀ k ∈ now :: saved, k.Below next

namespace MetaStore

def empty : MetaStore where
  now := .empty
  saved := []
  next := 0
  below := by
    intro k hk
    rw [List.mem_singleton.1 hk]
    exact Knowledge.below_empty 0

instance : Inhabited MetaStore := ⟨empty⟩

/-- What is known now is below the next number. -/
theorem below_now (s : MetaStore) : s.now.Below s.next := s.below s.now List.mem_cons_self

/-- What was known before is below the next number. -/
theorem below_saved (s : MetaStore) {k : Knowledge} (hk : k ∈ s.saved) : k.Below s.next :=
  s.below k (List.mem_cons_of_mem _ hk)

def setNow (s : MetaStore) (k : Knowledge) (hk : k.Below s.next) : MetaStore :=
  { s with
    now := k
    below := by
      intro j hj
      rcases List.mem_cons.1 hj with rfl | hj
      · exact hk
      · exact s.below_saved hj }

/-! ## Metavariables -/

def fresh (s : MetaStore) : MetaId × MetaStore :=
  (⟨s.next⟩,
    { now := { s.now with cells := s.now.cells.insert s.next none }
      saved := s.saved
      next := s.next + 1
      below := by
        intro k hk
        rcases List.mem_cons.1 hk with rfl | hk
        · exact (s.below_now.mono (Nat.le_succ _)).insert (Nat.lt_succ_self _) none
        · exact (s.below_saved hk).mono (Nat.le_succ _) })

def lookup (s : MetaStore) (m : MetaId) : Option Val := (s.now.cells.find? m.toNat).join

def isSolved (s : MetaStore) (m : MetaId) : Bool := (s.lookup m).isSome

def unallocated (m : MetaId) : Error := .internal ("meta " ++ .metavar m ++ " was never allocated")

def get (s : MetaStore) (m : MetaId) : Except Error (Option Val) :=
  match s.now.cells.find? m.toNat with
  | some cell => .ok cell
  | none => .error (unallocated m)

/-- Solves a metavariable that is there and has no solution. -/
def set (s : MetaStore) (m : MetaId) (v : Val) : Except Error MetaStore :=
  match h : s.now.cells.find? m.toNat with
  | none => .error (unallocated m)
  | some (some _) => .error (.internal ("meta " ++ .metavar m ++ " solved twice"))
  | some none =>
    .ok (s.setNow { s.now with cells := s.now.cells.insert m.toNat (some v) }
      (s.below_now.insert (s.below_now m.toNat (by rw [h]; rfl)) (some v)))

def unsolved (s : MetaStore) : List MetaId :=
  s.now.cells.entries.filterMap fun (m, cell) => if cell.isNone then some ⟨m⟩ else none

/-! ## Postponed problems -/

def postpone (s : MetaStore) (m : MetaId) (p : Problem) : MetaStore :=
  let waiting := (s.now.postponed.find? m.toNat).getD []
  s.setNow { s.now with postponed := s.now.postponed.insert m.toNat (waiting ++ [p]) } s.below_now

def takePostponed (s : MetaStore) (m : MetaId) : List Problem × MetaStore :=
  ((s.now.postponed.find? m.toNat).getD [],
    s.setNow { s.now with postponed := s.now.postponed.erase m.toNat } s.below_now)

def postponedMetas (s : MetaStore) : List MetaId := s.now.postponed.keys.map MetaId.mk

def hasPostponed (s : MetaStore) : Bool := !s.now.postponed.isEmpty

/-! ## Transactions -/

def push (s : MetaStore) : MetaStore :=
  { s with
    saved := s.now :: s.saved
    below := by
      intro k hk
      rcases List.mem_cons.1 hk with rfl | hk
      · exact s.below_now
      · exact s.below k hk }

def pop (s : MetaStore) : Except Fault MetaStore :=
  match h : s.saved with
  | k :: saved =>
    .ok { now := k, saved, next := s.next, below := fun _ hj => s.below_saved (h ▸ hj) }
  | [] => .error .noSnapshot

def discard (s : MetaStore) : Except Fault MetaStore :=
  match h : s.saved with
  | _ :: saved =>
    .ok
      { s with
        saved
        below := by
          intro j hj
          rcases List.mem_cons.1 hj with rfl | hj
          · exact s.below_now
          · exact s.below_saved (h ▸ List.mem_cons_of_mem _ hj) }
  | [] => .error .noSnapshot

def depth (s : MetaStore) : Nat := s.saved.length

/-- Forgets all metavariables, problems and transactions. Numbers go on where they were. -/
def reset (s : MetaStore) : MetaStore where
  now := .empty
  saved := []
  next := s.next
  below := by
    intro k hk
    rw [List.mem_singleton.1 hk]
    exact Knowledge.below_empty s.next

/-! ## What the operations do to look-ups and transactions -/

/-- A new metavariable has no solution, and the others keep theirs. -/
theorem lookup_fresh (s : MetaStore) (m : MetaId) :
    s.fresh.2.lookup m = if m.toNat = s.next then none else s.lookup m := by
  by_cases h : m.toNat = s.next <;> simp [fresh, lookup, h]

/-- Exactly the metavariables that were made and have no solution can be solved, and solving one
changes its cell only. -/
theorem set_eq_ok_iff {s t : MetaStore} {m : MetaId} {v : Val} :
    s.set m v = .ok t ↔ s.now.cells.find? m.toNat = some none ∧
      t.now = { s.now with cells := s.now.cells.insert m.toNat (some v) } ∧
      t.saved = s.saved ∧ t.next = s.next := by
  unfold set
  split
  · next h => simp [h]
  · next w h => simp [h]
  · next h =>
    constructor
    · intro ht
      cases ht
      exact ⟨h, rfl, rfl, rfl⟩
    · rintro ⟨-, hnow, hsaved, hnext⟩
      exact congrArg Except.ok (MetaStore.ext hnow.symm hsaved.symm hnext.symm)

/-- A solved metavariable has the new solution, and the others keep theirs. -/
theorem lookup_set {s t : MetaStore} {m : MetaId} {v : Val} (h : s.set m v = .ok t) (n : MetaId) :
    t.lookup n = if n.toNat = m.toNat then some v else s.lookup n := by
  obtain ⟨-, hnow, -, -⟩ := set_eq_ok_iff.1 h
  by_cases hn : n.toNat = m.toNat <;> simp [lookup, hnow, hn]

/-- A transaction can be undone exactly if one is open, and then what it saved is known again. -/
theorem pop_eq_ok_iff {s t : MetaStore} :
    s.pop = .ok t ↔ s.saved = t.now :: t.saved ∧ t.next = s.next := by
  unfold pop
  split
  · next k saved h =>
    constructor
    · intro ht
      cases ht
      exact ⟨h, rfl⟩
    · rintro ⟨hs, hn⟩
      rw [h] at hs
      obtain ⟨hk, hsaved⟩ := List.cons.inj hs
      exact congrArg Except.ok (MetaStore.ext hk hsaved hn.symm)
  · next h => simp [h]

/-- A transaction can be closed exactly if one is open, and then only what it saved is forgotten. -/
theorem discard_eq_ok_iff {s t : MetaStore} :
    s.discard = .ok t ↔ (∃ k, s.saved = k :: t.saved) ∧ t.now = s.now ∧ t.next = s.next := by
  unfold discard
  split
  · next k saved h =>
    constructor
    · intro ht
      cases ht
      exact ⟨⟨k, h⟩, rfl, rfl⟩
    · rintro ⟨⟨j, hj⟩, hnow, hn⟩
      rw [h] at hj
      exact congrArg Except.ok (MetaStore.ext hnow.symm (List.cons.inj hj).2 hn.symm)
  · next h => simp [h]

/-- Undoing a transaction in which nothing happened changes nothing. -/
@[simp] theorem pop_push (s : MetaStore) : s.push.pop = .ok s := rfl

/-- Closing a transaction in which nothing happened changes nothing. -/
@[simp] theorem discard_push (s : MetaStore) : s.push.discard = .ok s := rfl

@[simp] theorem depth_push (s : MetaStore) : s.push.depth = s.depth + 1 := rfl

/-! ## Properties of all that is known -/

/-- What is known now has the property, and so does what was known at the start of each open
transaction. -/
def Always (P : Knowledge → Prop) (s : MetaStore) : Prop := ∀ k ∈ s.now :: s.saved, P k

namespace Always

variable {P : Knowledge → Prop} {s t : MetaStore}

theorem now (h : s.Always P) : P s.now := h _ List.mem_cons_self

theorem saved (h : s.Always P) {k : Knowledge} (hk : k ∈ s.saved) : P k :=
  h k (List.mem_cons_of_mem _ hk)

/-- A change of what is known now. -/
theorem of_now (h : s.Always P) (hsaved : t.saved = s.saved) (hnow : P t.now) : t.Always P :=
  List.forall_mem_cons.2 ⟨hnow, fun _ hj => h.saved (hsaved ▸ hj)⟩

theorem push (h : s.Always P) : s.push.Always P := List.forall_mem_cons.2 ⟨h.now, h⟩

/-- What holds of the current knowledge and every saved one survives going back to a saved one. -/
theorem pop (h : s.Always P) (ht : s.pop = .ok t) : t.Always P := by
  obtain ⟨hsaved, -⟩ := pop_eq_ok_iff.1 ht
  exact fun k hk => h.saved (hsaved ▸ hk)

/-- What holds of the current knowledge and every saved one survives dropping a saved one. -/
theorem discard (h : s.Always P) (ht : s.discard = .ok t) : t.Always P := by
  obtain ⟨⟨k, hsaved⟩, hnow, -⟩ := discard_eq_ok_iff.1 ht
  refine List.forall_mem_cons.2 ⟨hnow ▸ h.now, fun j hj => h.saved ?_⟩
  rw [hsaved]
  exact List.mem_cons_of_mem _ hj

end Always

end MetaStore

end Elaborator
