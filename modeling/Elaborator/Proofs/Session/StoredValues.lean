import Elaborator.Proofs.Session.Dependencies

/-! # Stored values

A definition is stored with the value that its term had when it was made, and this value keeps the
globals of that time. Later definitions, redefinitions and deletions change what the names mean. A
definition that others use is neither replaced nor deleted, so for everything that a stored term
mentions nothing has changed, and evaluating the term again gives the stored value
(`Session.Reached.value_current`).

There is one exception. A definition may replace an older one of the same name and mention it: the
stored value uses the old one, but the stored term, evaluated now, uses the new one
(`Session.value_outdated`). -/

namespace Elaborator

/-- The value of the definition `d` of `x` was computed from its term over definitions `past`, and
what the term mentions has the value that it had then. Only `x` itself may have been replaced. -/
structure Globals.Computed (g : Globals) (x : Name) (d : Definition) : Prop where
  term : d.term.Ground
  value : ∃ (past : Globals) (fuel : Nat), past.Ground ∧ d.term.eval fuel past.env = .ok d.val ∧
    ∀ y ∈ d.term.globals, y ≠ x → ∀ v, past.env.global? y = some v → g.env.global? y = some v

namespace Globals.Computed

variable {g : Globals} {x y : Name} {d e : Definition}

/-- A definition that is not used by `d` may change. -/
theorem of_unused (h : g.Computed y e) (hg : g.Consistent) {g' : Globals} (hne : y ≠ x)
    (he : g.find? y = some e) (hunused : g.contains x = true → g.dependents x = [])
    (hsame : ∀ z, z ≠ x → g'.env.global? z = g.env.global? z) : g'.Computed y e := by
  obtain ⟨hterm, past, fuel, hpast, hval, hvalues⟩ := h
  refine ⟨hterm, past, fuel, hpast, hval, fun z hz hzy v hv => ?_⟩
  have hnow := hvalues z hz hzy v hv
  have hzx : z ≠ x := by
    -- The value that `z` had then is still there, so `x` is in use.
    rintro rfl
    obtain ⟨f, hf, -⟩ := Globals.global?_env hnow
    have hdefined : g.contains z = true := by simp [contains, hf]
    exact hg.not_mem_of_dependents (hunused hdefined) he hne hz
  rw [hsame z hzx]
  exact hnow

/-- The value of a new definition was computed just now. -/
theorem of_adds {config : Config} (hg : g.Ground) (hnew : g.Adds config x d) :
    (g.insert x d).Computed x d := by
  obtain ⟨fuel, hval⟩ := hnew.evaluated
  refine ⟨(hnew.elaborated hg).term, g, fuel, hg, hval, fun z _ hz v hv => ?_⟩
  rw [env_global?, find?_insert, if_neg hz, ← env_global?]
  exact hv

end Globals.Computed

/-- All values were computed from their terms, whatever was done since. -/
theorem Session.Reached.computed {allowed : Session → Op → Prop} {s : Session}
    (h : s.Reached allowed) : ∀ x d, s.globals.find? x = some d → s.globals.Computed x d := by
  refine (h.globals_induct (I := fun g => ∀ x d, g.find? x = some d → g.Computed x d)
    (fun _ _ h => nomatch h) ?_ ?_).2.2
  · intro s op g x d _ hground hconsistent hg hnew y e he
    rw [Globals.find?_insert] at he
    by_cases hy : y = x
    · subst hy
      rw [if_pos rfl] at he
      obtain rfl := Option.some.inj he
      exact .of_adds hground hnew
    · rw [if_neg hy] at he
      refine (hg y e he).of_unused hconsistent hy he (fun hdefined => (hnew.free hdefined).2)
        fun z hz => ?_
      simp [Globals.env_global?, hz]
  · intro s x _ hconsistent hg hunused y e he
    rw [Globals.find?_erase] at he
    by_cases hy : y = x
    · simp [hy] at he
    · rw [if_neg hy] at he
      refine (hg y e he).of_unused hconsistent hy he (fun _ => hunused) fun z hz => ?_
      simp [Globals.env_global?, hz]

/-- **Stored values agree with stored terms.** Whatever was done in a session, let a definition not
mention its own name. Then its value was computed from its term over globals with the values that
they have now. So if the term is evaluated again and the result is read back with all globals
unfolded, the same term comes out as for the stored value, whenever both come out. -/
theorem Session.Reached.value_current {allowed : Session → Op → Prop} {s : Session}
    (h : s.Reached allowed) {x : Name} {d : Definition} (hd : s.globals.find? x = some d)
    (hself : x ∉ d.term.globals) :
    (∃ (past : Globals) (fuel : Nat), d.term.eval fuel past.env = .ok d.val ∧
      ∀ y ∈ d.term.globals, ∀ v, past.env.global? y = some v → s.globals.env.global? y = some v) ∧
    ∀ {f₁ f₂ f₃ : Nat} {ms ms' : MetaStore} {v : Val} {t u : Term},
      d.term.eval f₁ s.globals.env = .ok v →
      v.quote f₂ ms true 0 = .ok t → d.val.quote f₃ ms' true 0 = .ok u → t = u := by
  obtain ⟨hterm, past, fuel, hpast, hval, hvalues⟩ := h.computed x d hd
  have hsame : ∀ y ∈ d.term.globals, ∀ v, past.env.global? y = some v →
      s.globals.env.global? y = some v :=
    fun y hy => hvalues y hy fun hyx => hself (hyx ▸ hy)
  refine ⟨⟨past, fuel, hval, hsame⟩, ?_⟩
  intro f₁ f₂ f₃ ms ms' v t u hv ht hu
  -- The globals of then and now differ, but not in what the term mentions.
  have henv : Env.Like SameGround (· ∈ d.term.globals) past.env s.globals.env := by
    refine ⟨.nil, fun y hy a b ha hb => ?_⟩
    obtain rfl := Option.some.inj ((hsame y hy a ha).symm.trans hb)
    obtain ⟨e, he, rfl⟩ := Globals.global?_env ha
    exact ⟨rfl, (hpast (y, e) (Globals.mem_of_find? he)).1⟩
  have hlike := Term.eval_like henv fuel f₁ d.val v hval hv
  have hground : d.val.Ground := (hpast.eval_safely hterm fuel).answer d.val hval
  exact (hlike.quote hground true (fun _ _ _ _ => SameGround.like) f₃ f₂ 0 ms' ms u t hu ht).1.symm

/-- `b = S a` is replaced by `b = S (S a)`, and its value is up to date. -/
theorem Session.value_current_redefined :
    let succ (t : Surface) : Surface := .app (.prim .succ) .expl t
    let defs : List Def := [⟨"a", false, none, .nat 0⟩, ⟨"b", false, none, succ (.var "a")⟩,
      ⟨"b", false, none, succ (succ (.var "a"))⟩]
    let s := Op.after 20 (.new { allowRedefinition := true }) (.define defs)
    s.Reached (fun s _ => s.config.verify = true) ∧ ∃ d v t u, s.globals.find? "b" = some d ∧
      ("b" : Name) ∉ d.term.globals ∧ d.term.eval 20 s.globals.env = .ok v ∧
        v.quote 20 s.metas true 0 = .ok t ∧
      d.val.quote 20 s.metas true 0 = .ok u ∧ t = u := by
  intro succ defs s
  have hreached : s.Reached (fun s _ => s.config.verify = true) := .step (.new _) 20 (by decide)
  have hanswers : ∃ d ∈ s.globals.find? "b", ("b" : Name) ∉ d.term.globals ∧
      ∃ v ∈ (d.term.eval 20 s.globals.env).toOption,
        (∃ t ∈ (v.quote 20 s.metas true 0).toOption, True) ∧
        ∃ u ∈ (d.val.quote 20 s.metas true 0).toOption, True := by decide +kernel
  obtain ⟨d, hd, hself, v, hv, ⟨t, ht, -⟩, u, hu, -⟩ := hanswers
  rw [mem_toOption] at hv ht hu
  exact ⟨hreached, d, v, t, u, hd, hself, hv, ht, hu, (hreached.value_current hd hself).2 hv ht hu⟩

/-- `x = 0` is replaced by `x = S x`. The stored value is one, but the stored term has the value two
now. -/
theorem Session.value_outdated :
    let defs : List Def :=
  [⟨"x", false, none, .nat 0⟩, ⟨"x", false, none, .app (.prim .succ) .expl (.var "x")⟩]
    let s := Op.after 20 (.new { allowRedefinition := true }) (.define defs)
    let one : Term := .app (.prim .succ) .expl (.nat 0)
    s.Reached (fun s _ => s.config.verify = true) ∧ ∃ d v, s.globals.find? "x" = some d ∧
      d.term.eval 20 s.globals.env = .ok v ∧ v.quote 20 s.metas true 0 =
        .ok (.app (.prim .succ) .expl one) ∧
      d.val.quote 20 s.metas true 0 = .ok one := by
  intro defs s one
  have hreached : s.Reached (fun s _ => s.config.verify = true) := .step (.new _) 20 (by decide)
  have hanswers : ∃ d ∈ s.globals.find? "x", ∃ v ∈ (d.term.eval 20 s.globals.env).toOption,
      .app (.prim .succ) .expl one ∈ (v.quote 20 s.metas true 0).toOption ∧
        one ∈ (d.val.quote 20 s.metas true 0).toOption := by decide +kernel
  obtain ⟨d, hd, v, hv, ht, hu⟩ := hanswers
  rw [mem_toOption] at hv ht hu
  exact ⟨hreached, d, v, hd, hv, ht, hu⟩

end Elaborator
