import Elaborator.Proofs.Comparison
import Elaborator.Proofs.Discipline.Basic
import Elaborator.Proofs.Spines

/-! # Unification keeps to its disciplines

Unification takes values apart, forces them and enters closures, and it notes solutions and waiting
problems. `Discipline.UnifyLaws` lists what a discipline has to say about these steps, and here is
the way through the three functions, one lemma for each; the knot is tied by induction on the fuel
(`Discipline.UnifyLaws.unifier_runs`).

Under a binder the size grows by one, together with the levels. A problem that has waited comes back
at its own size. -/

namespace Elaborator

open Elaborator.Action

/-- The events that unification notes about a metavariable, without showing values. -/
inductive Event.Routine : Event → Prop
  | chooseBranch (m : MetaId) (constant : Prim) : Routine (.chooseBranch m constant)
  | rejectBranch (m : MetaId) (constant : Prim) (e : Error) : Routine (.rejectBranch m constant e)
  | retry (m : MetaId) (count : Nat) : Routine (.retry m count)

namespace Discipline

/-- What a discipline has to provide for unification over these definitions to keep to it. -/
structure UnifyLaws (D : Discipline) (g : Globals) : Prop extends
    D.WorldLaws, D.ActionLaws, D.ForceLaws where
  val_nat : ∀ {w L n}, D.ValOk w L (.nat n)
  val_fresh : ∀ {w} {L : Nat → Prop} {n}, L n → D.ValOk w L (.fresh n)
  val_weaken : ∀ {w v} {L L' : Nat → Prop}, (∀ l, L l → L' l) → D.ValOk w L v → D.ValOk w L' v
  val_pair : ∀ {w L a b s}, D.ValOk w L (.pair a b s) → D.ValOk w L a ∧ D.ValOk w L b
  val_spine : ∀ {w L h sp}, D.ValOk w L (.neutral h sp) → ∀ v ∈ Spine.vals sp, D.ValOk w L v
  val_gluedSpine : ∀ {w L x sp u}, D.ValOk w L (.glued x sp u) → ∀ v ∈ Spine.vals sp, D.ValOk w L v
  val_metavar : ∀ {w L m sp sp'}, D.ValOk w L (.neutral (.metavar m) sp) →
    (∀ v ∈ Spine.vals sp', D.ValOk w L v) → D.ValOk w L (.neutral (.metavar m) sp')
  /-- Where forcing stops at a metavariable, it may be solved. -/
  forceMeta : ∀ {w L v fuel}, D.ValOk w L v → D.Reads w (forceMeta fuel v) fun u =>
    D.ValOk w L u ∧ ∀ m sp, u = .neutral (.metavar m) sp → ∀ rhs, D.Solvable w m rhs
  /-- So may the metavariable of a case analysis, by a constant. -/
  solvable_bool : ∀ {w m p}, p = .true ∨ p = .false → D.Solvable w m (.prim p)
  eliminate : ∀ {w L v e fuel}, D.ValOk w L v → (∀ u ∈ e.vals, D.ValOk w L u) →
    D.Reads w (v.eliminate fuel e) (D.ValOk w L)
  readBack : ∀ {w n v fuel}, D.ValOk w (· < n) v → D.Reads w (quote fuel n v) fun _ => True
  params : ∀ {w L sp fuel}, (∀ v ∈ Spine.vals sp, D.ValOk w L v) →
    D.Reads w (do Spine.params? fuel (← metas) sp) fun _ => True
  metas : ∀ {w}, D.Reads w metas fun _ => True
  noteUnify : ∀ {quiet w n a b}, D.ValOk w (· < n) a → D.ValOk w (· < n) b →
    D.Runs quiet w (emitWith fun ms => .unify ms n a b)
      fun u _ => ∀ m rhs, D.Solvable w m rhs → D.Solvable u m rhs
  noteSolve : ∀ {quiet w n m rhs}, D.ValOk w (· < n) rhs → D.Solvable w m rhs →
    D.Runs quiet w (emitWith fun ms => .solve ms m n rhs) fun u _ => D.Ready u m
  noteRoutine : ∀ {quiet w e}, e.Routine → D.Runs quiet w (emit e) fun _ _ => True
  postpone : ∀ {quiet w m} {p : Problem}, D.ValOk w (· < p.size) p.lhs →
    D.ValOk w (· < p.size) p.rhs → D.Runs quiet w (postpone m p) fun _ _ => True
  takePostponed : ∀ {quiet w m}, D.Runs quiet w (takePostponed m) fun u ps => ∀ p ∈ ps,
    D.ValOk u (· < p.size) p.lhs ∧ D.ValOk u (· < p.size) p.rhs
  assign : ∀ {quiet w n m sp rhs params fuel}, D.ValOk w (· < n) (.neutral (.metavar m) sp) →
    D.Ready w m → D.ValOk w (· < n) rhs →
    D.Runs quiet w (solution fuel g n m params rhs >>= setMeta m) fun _ _ => True

structure UnifierOk (D : Discipline) (g : Globals) (fuel : Nat) : Prop where
  unify : ∀ {quiet w mode n a b}, D.ValOk w (· < n) a → D.ValOk w (· < n) b →
    D.Runs quiet w (unify fuel mode g n a b) fun _ _ => True
  solve : ∀ {quiet w n m sp rhs}, D.ValOk w (· < n) (.neutral (.metavar m) sp) →
    D.ValOk w (· < n) rhs → D.Solvable w m rhs →
    D.Runs quiet w (solve fuel g n m sp rhs) fun _ _ => True
  retryFor : ∀ {quiet w m}, D.Runs quiet w (retryFor fuel g m) fun _ _ => True

namespace UnifyLaws

variable {D : Discipline} {g : Globals} (hD : D.UnifyLaws g) {quiet : Prop} {w : D.World}
  {fuel n : Nat}

include hD

/-! ## Parts of unification -/

theorem mismatch_runs {a b : Val} (ha : D.ValOk w (· < n) a) (hb : D.ValOk w (· < n) b) :
    D.Runs quiet w (mismatch fuel n a b) fun _ _ => True :=
  hD.read (hD.readBack ha) fun _ _ => hD.read (hD.readBack hb) fun _ _ => hD.refuse nofun

theorem forM_runs {α : Type} {l : List α} {f : α → Action Unit}
    (hf : ∀ a ∈ l, ∀ u, D.Later w u → D.Runs quiet u (f a) fun _ _ => True) :
    D.Runs quiet w (l.forM f) fun _ _ => True := by
  suffices h : ∀ u, D.Later w u → D.Runs quiet u (l.forM f) fun _ _ => True from h w (hD.refl w)
  induction l with
  | nil => exact fun u _ => hD.pure trivial
  | cons a l ih =>
    obtain ⟨ha, hl⟩ := List.forall_mem_cons.1 hf
    exact fun u hu => hD.bind (ha u hu) fun z _ hz _ => ih hl z (hD.trans hu hz)

/-- The values of two spines are compared in the order of the spines, each where the comparison
before it ended. -/
theorem unifySpines_runs (ih : D.UnifierOk g fuel) {mode : Mode} {a b : Val} {sa sb : Spine}
    (ha : D.ValOk w (· < n) a) (hb : D.ValOk w (· < n) b)
    (hsa : ∀ v ∈ Spine.vals sa, D.ValOk w (· < n) v)
    (hsb : ∀ v ∈ Spine.vals sb, D.ValOk w (· < n) v) :
    D.Runs quiet w (unifySpines (unify fuel mode g n) (mismatch fuel n a b) sa sb)
      fun _ _ => True := by
  refine unifySpines_of (J := fun x => ∀ u, D.Later w u → D.Runs quiet u x fun _ _ => True)
    ?_ ?_ ?_ ?_ w (hD.refl w)
  · exact fun u _ => hD.pure trivial
  · exact fun hx hy u hu => hD.bind (hx u hu) fun z _ hz _ => hy z (hD.trans hu hz)
  · exact fun u hu => hD.mismatch_runs (hD.val_later hu ha) (hD.val_later hu hb)
  · exact fun x hx y hy u hu =>
      ih.unify (hD.val_later hu (hsa x hx)) (hD.val_later hu (hsb y hy))

theorem bindBranch_runs {α : Type} {split : BoolSplit} {case : Val} {f : Val → Action α}
    {R : D.World → α → Prop} (hsplit : ∀ v ∈ split.vals, D.ValOk w (· < n) v)
    (hcase : D.ValOk w (· < n) case)
    (hf : ∀ v, D.ValOk w (· < n) v → D.Runs quiet w (f v) R) :
    D.Runs quiet w (liftM (split.branch fuel case) >>= f) R := by
  obtain ⟨-, -, htrailing⟩ := BoolSplit.forall_vals.1 hsplit
  unfold BoolSplit.branch
  split
  · next e he => exact hD.read (hD.eliminate hcase (htrailing e he)) hf
  · exact hf case hcase

/-- Each branch is tried where the one before it left off. -/
theorem chooseBranch_runs {m : MetaId} {split : BoolSplit} {fit : Val → Prim → Action Unit}
    {branches : List (Val × Prim)} (hsplit : ∀ v ∈ split.vals, D.ValOk w (· < n) v)
    (hcases : ∀ c ∈ branches, D.ValOk w (· < n) c.1)
    (hfit : ∀ c ∈ branches, ∀ v u, D.Later w u → D.ValOk u (· < n) v →
      D.Runs True u (fit v c.2) fun _ _ => True) :
    D.Runs quiet w (chooseBranch fuel m split fit branches) fun _ _ => True := by
  suffices h : ∀ u, D.Later w u →
      D.Runs quiet u (chooseBranch fuel m split fit branches) fun _ _ => True from h w (hD.refl w)
  induction branches with
  | nil => exact fun u _ => hD.pure trivial
  | cons c branches ih =>
    obtain ⟨hcase, hcases⟩ := List.forall_mem_cons.1 hcases
    obtain ⟨hfirst, hfit⟩ := List.forall_mem_cons.1 hfit
    intro u hu
    refine hD.bindBranch_runs (fun v hv => hD.val_later hu (hsplit v hv)) (hD.val_later hu hcase)
      fun v hv => ?_
    refine hD.transaction (hfirst v u hu hv) ?_ ?_ ?_
    · exact fun z _ _ _ => hD.bind (hD.noteRoutine (.chooseBranch ..)) fun _ _ _ _ =>
        hD.pure trivial
    · intro z e hz hsoft
      simp only [hsoft, if_true]
      refine hD.bind (hD.noteRoutine (.rejectBranch ..)) fun y _ hy _ => ?_
      exact ih hcases hfit y (hD.trans hu (hD.trans hz hy))
    · intro e hsoft
      simp [hsoft]

/-! ## The three functions -/

/-- One step of unification keeps the discipline when the unifier with less fuel does. -/
theorem unify_runs (ih : D.UnifierOk g fuel) {mode : Mode} {a b : Val}
    (ha : D.ValOk w (· < n) a) (hb : D.ValOk w (· < n) b) :
    D.Runs quiet w (unify (fuel + 1) mode g n a b) fun _ _ => True := by
  refine hD.read (hD.forceMeta ha) fun a ha => hD.read (hD.forceMeta hb) fun b hb => ?_
  obtain ⟨ha, hopen⟩ := ha
  obtain ⟨hb, hopen'⟩ := hb
  refine hD.bind (hD.noteUnify ha hb) fun u _ hu hsolvable => ?_
  replace hopen {m sp} (h : a = .neutral (.metavar m) sp) (rhs : Val) : D.Solvable u m rhs :=
    hsolvable m rhs (hopen m sp h rhs)
  replace hopen' {m sp} (h : b = .neutral (.metavar m) sp) (rhs : Val) : D.Solvable u m rhs :=
    hsolvable m rhs (hopen' m sp h rhs)
  replace ha := hD.val_later hu ha
  replace hb := hD.val_later hu hb
  have enter {z : D.World} {c : Closure} (hc : D.ValOk z (· < n) (.closure c))
      {f : Val → Action Unit}
      (hf : ∀ v, D.ValOk z (· < n + 1) v → D.Runs quiet z (f v) fun _ _ => True) :
      D.Runs quiet z (liftM (c.enter fuel n) >>= f) fun _ _ => True :=
    hD.read (hD.enter hc) fun v hv => hf v (hD.val_weaken (fun l hl => by omega) hv)
  have expandFun {c : Closure} {v : Val} (hc : D.ValOk u (· < n) (.closure c))
      (hv : D.ValOk u (· < n) v) : D.Runs quiet u (do
        let x ← c.enter fuel n
        let y ← v.eliminate fuel (.app c.binder.kind.icit (.fresh n))
        unify fuel mode g (n + 1) x y) fun _ _ => True := by
    refine enter hc fun x hx => ?_
    have hv := hD.val_weaken (fun l hl => Nat.lt_succ_of_lt hl) hv
    have harg : ∀ y ∈ (Elim.app c.binder.kind.icit (.fresh n)).vals, D.ValOk u (· < n + 1) y :=
      List.forall_mem_singleton.2 (hD.val_fresh (Nat.lt_succ_self n))
    exact hD.read (hD.eliminate hv harg) fun y hy => ih.unify hx hy
  have expandPair {x y v : Val} (hx : D.ValOk u (· < n) x) (hy : D.ValOk u (· < n) y)
      (hv : D.ValOk u (· < n) v) : D.Runs quiet u (do
        let fst ← v.eliminate fuel (.proj .fst)
        unify fuel mode g n x fst
        let snd ← v.eliminate fuel (.proj .snd)
        unify fuel mode g n y snd) fun _ _ => True := by
    refine hD.read (hD.eliminate hv (List.forall_mem_nil _)) fun fst hfst => ?_
    refine hD.bind (ih.unify hx hfst) fun z _ hz _ => ?_
    refine hD.read (hD.eliminate (hD.val_later hz hv) (List.forall_mem_nil _)) fun snd hsnd => ?_
    exact ih.unify (hD.val_later hz hy) hsnd
  have hcmp := Compares.of mode a b
  generalize Comparison.of mode a b = cmp at hcmp
  cases hcmp with
  | type | nat => exact hD.pure trivial
  | mismatch => exact hD.mismatch_runs ha hb
  | @binders c d =>
    have hdomains : D.Runs quiet u (if c.binder.kind.isLam then pure ()
        else unify fuel mode g n c.dom d.dom) fun _ _ => True := by
      split
      · exact hD.pure trivial
      · exact ih.unify (hD.val_closure ha).2 (hD.val_closure hb).2
    refine hD.bind hdomains fun z _ hz _ => ?_
    exact enter (hD.val_later hz ha) fun x hx => enter (hD.val_later hz hb) fun y hy =>
      ih.unify hx hy
  | pairs =>
    obtain ⟨hx, hy⟩ := hD.val_pair ha
    obtain ⟨hx', hy'⟩ := hD.val_pair hb
    refine hD.bind (ih.unify hx hx') fun z _ hz _ => ?_
    exact ih.unify (hD.val_later hz hy) (hD.val_later hz hy')
  | numeralLeft => exact ih.unify hD.val_nat (hD.val_spine hb _ List.mem_cons_self)
  | numeralRight => exact ih.unify hD.val_nat (hD.val_spine ha _ List.mem_cons_self)
  | spines => exact hD.unifySpines_runs ih ha hb (hD.val_spine ha) (hD.val_spine hb)
  | solveLeft => exact ih.solve ha hb (hopen rfl b)
  | solveRight => exact ih.solve hb ha (hopen' rfl a)
  | expandFunLeft => exact expandFun ha hb
  | expandFunRight => exact expandFun hb ha
  | expandPairLeft => exact expandPair (hD.val_pair ha).1 (hD.val_pair ha).2 hb
  | expandPairRight => exact expandPair (hD.val_pair hb).1 (hD.val_pair hb).2 ha
  | sameGlobal =>
    refine hD.transaction
      (hD.unifySpines_runs ih ha hb (hD.val_gluedSpine ha) (hD.val_gluedSpine hb))
      (fun _ _ _ _ => hD.pure trivial) ?_ ?_
    · -- Folded they differ, so they are compared unfolded.
      intro z e hz hsoft
      simp only [hsoft, if_true]
      refine hD.read (hD.force (hD.val_later hz ha)) fun a ha => ?_
      exact hD.read (hD.force (hD.val_later hz hb)) fun b hb => ih.unify ha hb
    · intro e hsoft
      simp [hsoft]
  | unfoldLeft => exact hD.read (hD.force ha) fun _ ha => ih.unify ha hb
  | unfoldRight => exact hD.read (hD.force hb) fun _ hb => ih.unify ha hb

/-- Solving a metavariable keeps the discipline when the unifier with less fuel does. -/
theorem solve_runs (ih : D.UnifierOk g fuel) {m : MetaId} {sp : Spine} {rhs : Val}
    (hlhs : D.ValOk w (· < n) (.neutral (.metavar m) sp)) (hrhs : D.ValOk w (· < n) rhs)
    (hsolvable : D.Solvable w m rhs) :
    D.Runs quiet w (solve (fuel + 1) g n m sp rhs) fun _ _ => True := by
  refine hD.bind (hD.noteSolve hrhs hsolvable) fun u _ hu hready => ?_
  replace hlhs := hD.val_later hu hlhs
  replace hrhs := hD.val_later hu hrhs
  cases hsplit : BoolSplit.of? sp with
  | some split =>
    have hvals := BoolSplit.of?_vals hsplit (hD.val_spine hlhs)
    obtain ⟨hinit, hcases, -⟩ := BoolSplit.forall_vals.1 hvals
    replace hinit := hD.val_metavar hlhs hinit
    refine hD.bind (hD.chooseBranch_runs hvals (fun c hc => hcases c.1 (List.of_mem_zip hc).1)
      fun c hc v z hz hv => ?_) fun z chosen hz _ => ?_
    · refine hD.bind (ih.unify hv (hD.val_later hz hrhs)) fun y _ hy _ => ?_
      refine ih.solve (hD.val_later (hD.trans hz hy) hinit) hD.val_prim (hD.solvable_bool ?_)
      simpa using (List.of_mem_zip hc).2
    · cases chosen with
      | true => exact hD.pure trivial
      | false => exact hD.postpone (hD.val_later hz hlhs) (hD.val_later hz hrhs)
  | none =>
    show D.Runs quiet u (Action.metas >>= fun ms => liftM (Spine.params? fuel ms sp) >>= _) _
    rw [← bind_assoc]
    refine hD.read (hD.params (hD.val_spine hlhs)) fun params _ => ?_
    cases params with
    | none => exact hD.postpone hlhs hrhs
    | some params =>
      show D.Runs quiet u (if _ then _ else _) _
      split
      · rw [← bind_assoc]
        exact hD.bind (hD.assign hlhs hready hrhs) fun _ _ _ _ => ih.retryFor
      · exact hD.refuse nofun

/-- Retrying the problems of a metavariable keeps the discipline when the unifier with less fuel
does. -/
theorem retryFor_runs (ih : D.UnifierOk g fuel) {m : MetaId} :
    D.Runs quiet w (retryFor (fuel + 1) g m) fun _ _ => True := by
  refine hD.bind hD.takePostponed fun u problems hu hproblems => ?_
  have hnote : D.Runs quiet u (if problems.isEmpty then pure ()
      else emit (.retry m problems.length)) fun _ _ => True := by
    split
    · exact hD.pure trivial
    · exact hD.noteRoutine (.retry ..)
  refine hD.bind hnote fun z _ hz _ => hD.forM_runs fun p hp y hy => ?_
  have hlater := hD.trans hz hy
  exact ih.unify (hD.val_later hlater (hproblems p hp).1) (hD.val_later hlater (hproblems p hp).2)

/-- Unification keeps to the discipline. -/
theorem unifier_runs (fuel : Nat) : D.UnifierOk g fuel := by
  induction fuel with
  | zero => exact ⟨fun _ _ => hD.outOfFuel, fun _ _ _ => hD.outOfFuel, hD.outOfFuel⟩
  | succ fuel ih => exact ⟨hD.unify_runs ih, hD.solve_runs ih, hD.retryFor_runs ih⟩

/-! ## Trying again -/

/-- A bounded number of rounds of retrying keeps the discipline. -/
theorem retryRounds_runs (rounds : Nat) :
    D.Runs quiet w (retryRounds fuel g rounds) fun _ _ => True := by
  induction rounds generalizing w with
  | zero => exact hD.outOfFuel
  | succ rounds ih =>
    refine hD.read hD.metas fun before _ => ?_
    show D.Runs quiet w (if _ then _ else _) _
    split
    · refine hD.bind (hD.forM_runs fun m _ u _ => (hD.unifier_runs fuel).retryFor) fun u _ _ _ => ?_
      refine hD.read hD.metas fun after _ => ?_
      show D.Runs quiet u (if _ then _ else _) _
      split
      · exact ih
      · exact hD.pure trivial
    · exact hD.pure trivial

/-- Retrying every postponed problem keeps the discipline. -/
theorem retryAll_runs : D.Runs quiet w (retryAll fuel g) fun _ _ => True :=
  hD.read hD.metas fun _ _ => hD.retryRounds_runs _

end UnifyLaws

end Discipline

end Elaborator
