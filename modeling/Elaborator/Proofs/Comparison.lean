import Elaborator.Unify.Comparison

/-! # When two values lead to a comparison

`Comparison.of` decides by the forms of two values what there is to do about them. `Compares` says
the other way round which values a comparison comes from, and `Compares.of` that there are no
others. -/

namespace Elaborator

/-- A value that does not compute any further as it stands: its head is neutral or a folded
global. -/
def Val.Stuck : Val → Prop
  | .neutral .. | .glued .. => True
  | _ => False

/-- When two values lead to a comparison. -/
inductive Compares (mode : Mode) : Val → Val → Comparison → Prop
  | type : Compares mode .type .type .equal
  | nat {n : Nat} : Compares mode (.nat n) (.nat n) .equal
  | mismatch {a b : Val} : Compares mode a b .mismatch
  | binders {c d : Closure} (kind : c.binder.kind = d.binder.kind)
      (erased : c.binder.erased = d.binder.erased) :
      Compares mode (.closure c) (.closure d) (.binders c d)
  | pairs {a b s c d r : Val} : Compares mode (.pair a b s) (.pair c d r) (.pairs a b c d)
  | numeralLeft {n : Nat} {pred : Val} :
      Compares mode (.nat (n + 1)) (.neutral (.prim .succ) [.app .expl pred]) (.numeral n pred)
  | numeralRight {n : Nat} {pred : Val} :
      Compares mode (.neutral (.prim .succ) [.app .expl pred]) (.nat (n + 1)) (.numeral n pred)
  | spines {h : Head} {sa sb : Spine} : Compares mode (.neutral h sa) (.neutral h sb)
      (.spines sa sb)
  | solveLeft {m : MetaId} {sp : Spine} {b : Val} (solving : mode = .solving) :
      Compares mode (.neutral (.metavar m) sp) b (.solve m sp b)
  | solveRight {m : MetaId} {sp : Spine} {a : Val} (solving : mode = .solving) :
      Compares mode a (.neutral (.metavar m) sp) (.solve m sp a)
  | expandFunLeft {c : Closure} {b : Val} (lam : c.binder.kind.isLam) (stuck : b.Stuck) :
      Compares mode (.closure c) b (.expandFun c b)
  | expandFunRight {c : Closure} {a : Val} (lam : c.binder.kind.isLam) (stuck : a.Stuck) :
      Compares mode a (.closure c) (.expandFun c a)
  | expandPairLeft {x y s b : Val} (stuck : b.Stuck) :
      Compares mode (.pair x y s) b (.expandPair x y b)
  | expandPairRight {x y s a : Val} (stuck : a.Stuck) :
      Compares mode a (.pair x y s) (.expandPair x y a)
  | sameGlobal {x : Name} {sa sb : Spine} {u w : Val} :
      Compares mode (.glued x sa u) (.glued x sb w) (.sameGlobal sa sb)
  | unfoldLeft {a b : Val} : Compares mode a b .unfoldLeft
  | unfoldRight {a b : Val} : Compares mode a b .unfoldRight

namespace Compares

variable {mode : Mode}

/-- The comparison of two neutral values is one that the relation allows. -/
theorem ofNeutrals (h : Head) (sa : Spine) (k : Head) (sb : Spine) :
    Compares mode (.neutral h sa) (.neutral k sb) (Comparison.ofNeutrals mode h sa k sb) := by
  unfold Comparison.ofNeutrals
  split
  · next hk =>
    subst hk
    exact .spines
  · split
    · split
      · exact .solveRight rfl
      · exact .solveLeft rfl
    · exact .solveLeft rfl
    · exact .solveRight rfl
    · exact .mismatch

/-- A neutral value on the left. -/
theorem ofNeutralLeft (h : Head) (sp : Spine) (v : Val) :
    Compares mode (.neutral h sp) v (Comparison.ofNeutral mode h sp v .unfoldRight) := by
  unfold Comparison.ofNeutral
  split
  · exact .solveLeft rfl
  · split
    · unfold Comparison.ofLiteral
      split
      · exact .numeralRight
      · exact .mismatch
    · split
      · next hlam => exact .expandFunRight hlam trivial
      · exact .mismatch
    · exact .expandPairRight trivial
    · exact .unfoldRight
    · exact .mismatch

/-- A neutral value on the right. -/
theorem ofNeutralRight (h : Head) (sp : Spine) (v : Val) :
    Compares mode v (.neutral h sp) (Comparison.ofNeutral mode h sp v .unfoldLeft) := by
  unfold Comparison.ofNeutral
  split
  · exact .solveRight rfl
  · split
    · unfold Comparison.ofLiteral
      split
      · exact .numeralLeft
      · exact .mismatch
    · split
      · next hlam => exact .expandFunLeft hlam trivial
      · exact .mismatch
    · exact .expandPairLeft trivial
    · exact .unfoldLeft
    · exact .mismatch

/-- The comparison of a definition on the left with another value is one that the relation allows.
-/
theorem ofGluedLeft (x : Name) (sp : Spine) (u v : Val) :
    Compares mode (.glued x sp u) v (Comparison.ofGlued (.glued x sp u) v .unfoldLeft) := by
  unfold Comparison.ofGlued
  split
  · split
    · next hlam => exact .expandFunRight hlam trivial
    · exact .unfoldLeft
  · exact .expandPairRight trivial
  · exact .unfoldLeft

/-- The comparison of a definition on the right with another value is one that the relation allows.
-/
theorem ofGluedRight (x : Name) (sp : Spine) (u v : Val) :
    Compares mode v (.glued x sp u) (Comparison.ofGlued (.glued x sp u) v .unfoldRight) := by
  unfold Comparison.ofGlued
  split
  · split
    · next hlam => exact .expandFunLeft hlam trivial
    · exact .unfoldRight
  · exact .expandPairLeft trivial
  · exact .unfoldRight

/-- Every comparison is one of these. -/
theorem of (mode : Mode) (a b : Val) : Compares mode a b (Comparison.of mode a b) := by
  unfold Comparison.of
  split
  · exact .type
  · split
    · next hmn =>
      subst hmn
      exact .nat
    · exact .mismatch
  · split
    · next hc => exact .binders hc.1 hc.2
    · exact .mismatch
  · exact .pairs
  · exact ofNeutrals ..
  · split
    · next hxy =>
      subst hxy
      exact .sameGlobal
    · exact .unfoldLeft
  · exact ofNeutralLeft ..
  · exact ofNeutralRight ..
  · exact ofGluedLeft ..
  · exact ofGluedRight ..
  · exact .mismatch

end Compares

end Elaborator
