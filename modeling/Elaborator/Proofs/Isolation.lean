import Mathlib.Data.List.Nodup
import Elaborator.Proofs.Renumber.State
import Elaborator.Proofs.Scope.Eval

/-! # Isolation of transactions

A transaction that is undone leaves no trace: the solutions, the waiting problems and the
transactions around it are those of before, whatever was done inside, and however many transactions
were opened and closed there. The one thing that is not taken back is the counter. So no
metavariable is ever given out twice, also if the store that knew it is gone
(`MetaStore.runAll_isolates`).

Inside a transaction, those that are opened are also closed (`MetaStore.Balanced`). A kept one may
change what is known now, but the snapshots below it stay as they are, and the outer transaction
goes back to one of these. -/

namespace Elaborator

namespace MetaStore

/-! ## Operations and their runs -/

inductive Op
  | fresh
  | set (m : MetaId) (v : Val)
  | postpone (m : MetaId) (p : Problem)
  | takePostponed (m : MetaId)
  | push
  | pop
  | discard
  | reset

def Op.isPlain : Op → Bool
  | .fresh | .set .. | .postpone .. | .takePostponed _ => true
  | .push | .pop | .discard | .reset => false

/-- The metavariables that an operation makes, and the store behind it. A solution that is refused
changes nothing. -/
def Op.run (s : MetaStore) : Op → Except Fault (List MetaId × MetaStore)
  | .fresh => .ok ([s.fresh.1], s.fresh.2)
  | .set m v => .ok ([], (s.set m v).toOption.getD s)
  | .postpone m p => .ok ([], s.postpone m p)
  | .takePostponed m => .ok ([], (s.takePostponed m).2)
  | .push => .ok ([], s.push)
  | .pop => ([], ·) <$> s.pop
  | .discard => ([], ·) <$> s.discard
  | .reset => .ok ([], s.reset)

def runAll (s : MetaStore) : List Op → Except Fault (List MetaId × MetaStore)
  | [] => .ok ([], s)
  | op :: ops => do
    let first ← op.run s
    let rest ← first.2.runAll ops
    return (first.1 ++ rest.1, rest.2)

variable {s t u : MetaStore} {op : Op} {ops ops' : List Op} {made made' : List MetaId}

/-- Running a list of operations is running its first one and then the rest. -/
theorem runAll_cons (h : op.run s = .ok (made, t)) (h' : t.runAll ops = .ok (made', u)) :
    s.runAll (op :: ops) = .ok (made ++ made', u) := by
  rw [runAll, h, ok_bind, h']
  rfl

/-- Running two lists of operations one after the other is running them appended. -/
theorem runAll_append (h : s.runAll ops = .ok (made, t)) (h' : t.runAll ops' = .ok (made', u)) :
    s.runAll (ops ++ ops') = .ok (made ++ made', u) := by
  induction ops generalizing s made with
  | nil =>
    cases h
    exact h'
  | cons op ops ih =>
    obtain ⟨first, hfirst, h⟩ := bind_ok h
    obtain ⟨rest, hrest, h⟩ := bind_ok h
    cases h
    rw [List.append_assoc]
    exact runAll_cons hfirst (ih hrest)

/-! ## Transactions -/

/-- Every transaction that the operations open is undone or closed by them, and no other one is. -/
inductive Balanced : List Op → Prop
  | nil : Balanced []
  | plain {op : Op} (h : op.isPlain = true) : Balanced [op]
  | append {ops ops' : List Op} (h : Balanced ops) (h' : Balanced ops') : Balanced (ops ++ ops')
  | undone {ops : List Op} (h : Balanced ops) : Balanced (.push :: ops ++ [.pop])
  | kept {ops : List Op} (h : Balanced ops) : Balanced (.push :: ops ++ [.discard])

/-- A plain operation never fails, and it only changes what is known now. -/
theorem Op.run_plain (h : op.isPlain = true) (s : MetaStore) :
    ∃ made t, op.run s = .ok (made, t) ∧ t.saved = s.saved := by
  cases op with
  | fresh => exact ⟨_, _, rfl, rfl⟩
  | postpone m p => exact ⟨_, _, rfl, rfl⟩
  | takePostponed m => exact ⟨_, _, rfl, rfl⟩
  | set m v =>
    refine ⟨_, _, rfl, ?_⟩
    cases hset : s.set m v with
    | ok t => exact (set_eq_ok_iff.1 hset).2.2.1
    | error e => rfl
  | push | pop | discard | reset => cases h

/-- If operations leave the snapshots alone, then a transaction around them can be undone, and it
takes back all that they did. -/
theorem runAll_undone
    (h : ∀ s : MetaStore, ∃ made t, s.runAll ops = .ok (made, t) ∧ t.saved = s.saved)
    (s : MetaStore) :
    ∃ made t, s.runAll (.push :: ops ++ [.pop]) = .ok (made, t) ∧ t.now = s.now ∧
      t.saved = s.saved := by
  obtain ⟨made, t, hrun, hsaved⟩ := h s.push
  obtain ⟨u, hu⟩ := pop_of_cons hsaved
  obtain ⟨hk, -⟩ := pop_eq_ok_iff.1 hu
  obtain ⟨hnow, hrest⟩ := List.cons.inj (hk.symm.trans hsaved)
  have hlast : t.runAll [.pop] = .ok ([] ++ [], u) := runAll_cons (by rw [Op.run, hu]; rfl) rfl
  exact ⟨_, u, runAll_append (runAll_cons rfl hrun) hlast, hnow, hrest⟩

/-- Operations that close every transaction they open never fail, and they leave the snapshots of
the others as they are. -/
theorem Balanced.runs (h : Balanced ops) (s : MetaStore) :
    ∃ made t, s.runAll ops = .ok (made, t) ∧ t.saved = s.saved := by
  induction h generalizing s with
  | nil => exact ⟨[], s, rfl, rfl⟩
  | @plain op h =>
    obtain ⟨made, t, hrun, hsaved⟩ := Op.run_plain h s
    exact ⟨_, t, runAll_cons hrun rfl, hsaved⟩
  | append _ _ ih ih' =>
    obtain ⟨made, t, hrun, hsaved⟩ := ih s
    obtain ⟨made', u, hrun', hsaved'⟩ := ih' t
    exact ⟨_, u, runAll_append hrun hrun', hsaved'.trans hsaved⟩
  | undone _ ih =>
    obtain ⟨made, t, hrun, -, hsaved⟩ := runAll_undone ih s
    exact ⟨made, t, hrun, hsaved⟩
  | kept _ ih =>
    obtain ⟨made, t, hrun, hsaved⟩ := ih s.push
    obtain ⟨u, hu⟩ := discard_of_cons hsaved
    obtain ⟨⟨k, hk⟩, -, -⟩ := discard_eq_ok_iff.1 hu
    have hlast : t.runAll [.discard] = .ok ([] ++ [], u) :=
      runAll_cons (by rw [Op.run, hu]; rfl) rfl
    exact ⟨_, u, runAll_append (runAll_cons rfl hrun) hlast,
      (List.cons.inj (hk.symm.trans hsaved)).2⟩

/-! ## New metavariables -/

/-- An operation makes at most one metavariable, which has the next number, and it never takes a
number back. -/
theorem Op.run_made (h : op.run s = .ok (made, t)) :
    made = (List.range' s.next made.length).map MetaId.mk ∧ t.next = s.next + made.length := by
  cases op with
  | fresh =>
    cases h
    exact ⟨rfl, rfl⟩
  | postpone m p | takePostponed m | push | reset =>
    cases h
    exact ⟨rfl, rfl⟩
  | set m v =>
    cases h
    refine ⟨rfl, ?_⟩
    cases hset : s.set m v with
    | ok t => exact (set_eq_ok_iff.1 hset).2.2.2
    | error e => rfl
  | pop =>
    obtain ⟨u, hu, hmade⟩ := map_ok h
    cases hmade
    exact ⟨rfl, (pop_eq_ok_iff.1 hu).2⟩
  | discard =>
    obtain ⟨u, hu, hmade⟩ := map_ok h
    cases hmade
    exact ⟨rfl, (discard_eq_ok_iff.1 hu).2.2⟩

/-- The metavariables that a run makes have consecutive numbers, also across transactions and
resets. -/
theorem runAll_made (h : s.runAll ops = .ok (made, t)) :
    made = (List.range' s.next made.length).map MetaId.mk ∧ t.next = s.next + made.length := by
  induction ops generalizing s made with
  | nil =>
    cases h
    exact ⟨rfl, rfl⟩
  | cons op ops ih =>
    obtain ⟨⟨first, u⟩, hfirst, h⟩ := bind_ok h
    obtain ⟨⟨rest, v⟩, hrest, h⟩ := bind_ok h
    cases h
    obtain ⟨hmade, hnext⟩ := Op.run_made hfirst
    obtain ⟨hmade', hnext'⟩ := ih hrest
    constructor
    · rw [List.length_append, ← List.range'_append_1, List.map_append, ← hmade, ← hnext, ← hmade']
    · rw [hnext', hnext, List.length_append, Nat.add_assoc]

/-! ## Isolation -/

/-- For every store: a transaction around operations that close what they open can be undone, and
afterwards the solutions, the waiting problems and the open transactions are as before. And whatever
operations are run, transactions undone, closed or forgotten, the metavariables that they make are
different from each other and are numbered on from the counter, which is left behind the last of
them. -/
theorem runAll_isolates (s : MetaStore) :
    (∀ ops, Balanced ops → ∃ made t, s.runAll (.push :: ops ++ [.pop]) = .ok (made, t) ∧
      t.now.cells = s.now.cells ∧ t.now.postponed = s.now.postponed ∧ t.saved = s.saved) ∧
    ∀ ops made t, s.runAll ops = .ok (made, t) →
      made.Nodup ∧ (∀ m ∈ made, s.next ≤ m.toNat ∧ m.toNat < t.next) ∧
        t.next = s.next + made.length := by
  constructor
  · intro ops h
    obtain ⟨made, t, hrun, hnow, hsaved⟩ := runAll_undone h.runs s
    exact ⟨made, t, hrun, by rw [hnow], by rw [hnow], hsaved⟩
  · intro ops made t hrun
    obtain ⟨hmade, hnext⟩ := runAll_made hrun
    refine ⟨?_, fun m hm => ?_, hnext⟩
    · rw [hmade]
      exact List.Nodup.map (fun i j hij => congrArg MetaId.toNat hij) List.nodup_range'
    · rw [hmade] at hm
      obtain ⟨i, hi, rfl⟩ := List.mem_map.1 hm
      have hrange := List.mem_range'_1.1 hi
      exact ⟨hrange.1, hnext ▸ hrange.2⟩

/-- An inner transaction solves a metavariable and lets a problem wait, and it is kept; the outer
one takes both back. The number of the metavariable that was made inside is not used again by the
one that is made after that. -/
theorem runAll_isolates_nested :
    (∃ made t, MetaStore.empty.fresh.2.runAll
      (.push :: ([.fresh] ++
        (.push :: ([.set ⟨0⟩ (.nat 3)] ++ [.postpone ⟨1⟩ ⟨0, .nat 3, .nat 4⟩]) ++ [.discard])) ++
        [.pop]) = .ok (made, t) ∧
      t.now.cells = MetaStore.empty.fresh.2.now.cells ∧ t.now.postponed = .empty ∧ t.saved = []) ∧
    (MetaStore.empty.runAll [.fresh, .push, .fresh, .pop, .fresh, .reset, .fresh]).map (·.1) =
      .ok [⟨0⟩, ⟨1⟩, ⟨2⟩, ⟨3⟩] ∧
    [MetaId.mk 0, ⟨1⟩, ⟨2⟩, ⟨3⟩].Nodup :=
  ⟨(runAll_isolates MetaStore.empty.fresh.2).1 _
      (.append (.plain rfl) (.kept (.append (.plain rfl) (.plain rfl)))),
    rfl,
    ((runAll_isolates .empty).2 [.fresh, .push, .fresh, .pop, .fresh, .reset, .fresh] _ _ rfl).1⟩

end MetaStore

end Elaborator
