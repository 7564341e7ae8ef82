import Mathlib.Data.List.Nodup
import Elaborator.Term.Named

/-! # Names for printed binders

A binder that would capture something is printed under another name, and the candidates are the
variants `x$0`, `x$1`, ... of its own name. Each of them has a larger number behind its last `$`
than the one before (`Name.rank_next`), so no name is tried twice. A name that is refused belongs to
a variable in scope or to a global of the body. There are only finitely many of these, so the search
ends, unless a number gets too large (`Term.freshBinderIn_ends`). -/

namespace Elaborator

/-! ## Numbers -/

namespace Decimal

theorem digit?_of_isDigit {c : Char} (h : c.isDigit = true) :
    digit? c = some (c.toNat - '0'.toNat) := by
  simp only [Char.isDigit, Bool.and_eq_true, decide_eq_true_eq] at h
  exact if_pos h

theorem digits?_of_isDigit {cs : List Char} (h : ∀ c ∈ cs, c.isDigit = true) (acc : Nat) :
    digits? acc cs = some (Nat.ofDigitChars 10 cs acc) := by
  induction cs generalizing acc with
  | nil => simp [digits?]
  | cons c cs ih =>
    obtain ⟨hc, hcs⟩ := List.forall_mem_cons.1 h
    rw [digits?, digit?_of_isDigit hc, Nat.ofDigitChars_cons]
    exact ih hcs _

/-- A number is read back from its digits. -/
theorem read?_toDigits {limit n : Nat} (h : n < limit) :
    read? limit (Nat.toDigits 10 n) = some n := by
  have hdigit : ∀ c ∈ Nat.toDigits 10 n, c.isDigit = true := fun c hc =>
    Nat.isDigit_of_mem_toDigits (by decide) (by decide) hc
  have hvalue : digits? 0 (Nat.toDigits 10 n) = some n := by
    rw [digits?_of_isDigit hdigit, Nat.ofDigitChars_ten_toDigits]
  have hne : Nat.toDigits 10 n ≠ [] := Nat.toDigits_ne_nil
  generalize Nat.toDigits 10 n = cs at hdigit hvalue hne
  cases cs with
  | nil => exact absurd rfl hne
  | cons c cs =>
    -- The sign is no digit, so nothing is dropped before the digits are read.
    have hplus : c ≠ '+' := by
      rintro rfl
      exact absurd (hdigit '+' List.mem_cons_self) (by decide)
    unfold read?
    split
    · next heq => exact absurd (List.cons.inj heq).1 hplus
    · simp [hvalue, Option.filter, h]

end Decimal

/-! ## Variants of a name -/

namespace Name

def variant (stem : List Char) (n : Nat) : Name := ⟨String.ofList stem ++ "$" ++ toString n⟩

/-- How far a name is in the sequence of variants: zero if it does not end in a number, else the
number and one. -/
def rank (x : Name) : Nat := (x.suffix?.map fun p => p.2 + 1).getD 0

/-- The variant of a stem by a number reads back as that stem and number. -/
theorem suffix?_variant {stem : List Char} {n : Nat} (h : n < wordLimit) :
    (variant stem n).suffix? = some (stem, n) := by
  have hdigit : ∀ c ∈ (Nat.toDigits 10 n).reverse, (c != '$') = true := by
    intro c hc
    have hdigit : c.isDigit = true :=
      Nat.isDigit_of_mem_toDigits (by decide) (by decide) (List.mem_reverse.1 hc)
    rw [bne_iff_ne]
    rintro rfl
    exact absurd hdigit (by decide)
  have htext : (variant stem n).text.toList.reverse =
      (Nat.toDigits 10 n).reverse ++ '$' :: stem.reverse := by
    simp [variant]
  rw [suffix?, htext]
  simp only [List.takeWhile_append_of_pos hdigit, List.dropWhile_append_of_pos hdigit]
  simp [Decimal.read?_toDigits h]

theorem rank_variant {stem : List Char} {n : Nat} (h : n < wordLimit) :
    (variant stem n).rank = n + 1 := by
  simp [rank, suffix?_variant h]

/-- The underscore has no number, so no variant is the underscore. -/
theorem isUnderscore_variant {stem : List Char} {n : Nat} (h : n < wordLimit) :
    (variant stem n).isUnderscore = false := by
  have hsuffix := @suffix?_variant stem n h
  cases hvariant : (variant stem n).isUnderscore with
  | false => rfl
  | true =>
    rw [eq_of_beq hvariant, show underscore.suffix? = none by decide +kernel] at hsuffix
    cases hsuffix

/-- What comes next is the variant with the number that the rank gives. -/
theorem next_eq_ok {x y : Name} (hx : x.isUnderscore = false) (h : x.next = .ok y) :
    x.rank < wordLimit ∧ ∃ stem, y = variant stem x.rank := by
  unfold next at h
  rw [hx, if_neg Bool.false_ne_true] at h
  cases hsuffix : x.suffix? with
  | none =>
    rw [hsuffix] at h
    cases h
    refine ⟨by simp [rank, hsuffix, wordLimit], x.text.toList, ?_⟩
    have hzero : "$" ++ toString 0 = "$0" := by decide
    rw [variant, rank, hsuffix, String.append_assoc, Option.map_none, Option.getD_none, hzero,
      String.ofList_toList]
  | some p =>
    rw [hsuffix] at h
    dsimp only at h
    split at h
    · next hlimit =>
      cases h
      exact ⟨by simpa [rank, hsuffix] using hlimit, p.1, by simp [variant, rank, hsuffix]⟩
    · cases h

/-- The next variant of a name ranks one higher. -/
theorem rank_next {x y : Name} (hx : x.isUnderscore = false) (h : x.next = .ok y) :
    y.rank = x.rank + 1 := by
  obtain ⟨hlimit, stem, rfl⟩ := next_eq_ok hx h
  exact rank_variant hlimit

theorem isUnderscore_next {x y : Name} (hx : x.isUnderscore = false) (h : x.next = .ok y) :
    y.isUnderscore = false := by
  obtain ⟨hlimit, stem, rfl⟩ := next_eq_ok hx h
  exact isUnderscore_variant hlimit

/-- The only way to have no next variant is to run out of numbers. -/
theorem next_eq_error {x : Name} {f : Fault} (h : x.next = .error f) : f = .overflow := by
  unfold next at h
  split at h
  · cases h
  · split at h
    · split at h <;> cases h
      rfl
    · cases h

end Name

/-! ## The search -/

namespace Term

variable {names : List Name} {body : Term} {x y : Name}

/-- A binder captures nothing in its body when the name is no definition of it and no variable it
uses. -/
theorem captures_eq_false :
    captures names x body = false ↔
      x ∉ body.globals ∧ ∀ i, names[i]? = some x → body.usesIndex (i + 1) = false := by
  simp only [captures, usesGlobal, Bool.or_eq_false_iff, List.contains_eq_mem,
    decide_eq_false_iff_not,
    List.any_eq_false, Bool.and_eq_true, beq_iff_eq, not_and, Bool.not_eq_true, Prod.forall,
    List.mk_mem_zipIdx_iff_le_and_getElem?_sub]
  refine and_congr_right fun _ => ⟨fun h i hi => ?_, fun h y i hi hy => ?_⟩
  · exact h x (i + 1) ⟨Nat.le_add_left 1 i, by simpa using hi⟩ rfl
  · obtain ⟨j, rfl⟩ := Nat.exists_eq_add_of_le' hi.1
    exact h j (by simpa [hy] using hi.2)

/-- A name that captures something is in scope or is a global of the body. -/
theorem mem_of_captures (h : captures names x body = true) : x ∈ names ++ body.globals := by
  by_contra hx
  obtain ⟨hnames, hglobals⟩ := not_or.1 (mt List.mem_append.2 hx)
  have hfree : captures names x body = false :=
    captures_eq_false.2 ⟨hglobals, fun i hi => absurd (List.mem_of_getElem? hi) hnames⟩
  rw [hfree] at h
  cases h

/-- The names that a search without an answer has tried: they are all different, and all of them
capture something. -/
theorem exists_tried {tries : Nat} (h : freshBinderIn names body tries x = .error .outOfFuel) :
    ∃ tried : List Name, tried.length = tries ∧ tried.Nodup ∧
      ∀ y ∈ tried, y ∈ names ++ body.globals ∧ x.rank ≤ y.rank := by
  induction tries generalizing x with
  | zero => exact ⟨[], rfl, List.nodup_nil, List.forall_mem_nil _⟩
  | succ tries ih =>
    rw [freshBinderIn] at h
    split at h
    · next hclash =>
      obtain ⟨hcaptures, hx⟩ := Bool.and_eq_true_iff.1 hclash
      cases hnext : x.next with
      | error f =>
        rw [hnext] at h
        cases h
        cases Name.next_eq_error hnext
      | ok y =>
        rw [hnext] at h
        obtain ⟨tried, hlength, hnodup, htried⟩ := ih h
        -- The ranks of the names tried increase, so no name is tried twice.
        have hrank := Name.rank_next (by simpa using hx) hnext
        refine ⟨x :: tried, by simp [hlength], List.nodup_cons.2 ⟨fun hmem => ?_, hnodup⟩, ?_⟩
        · have hle := (htried x hmem).2
          omega
        · refine List.forall_mem_cons.2
            ⟨⟨mem_of_captures hcaptures, Nat.le_refl _⟩, fun z hz => ⟨(htried z hz).1, ?_⟩⟩
          have hle := (htried z hz).2
          omega
    · cases h

/-- A fault of the search comes from running out of tries, or from a variant whose number would be
too large. -/
theorem freshBinderIn_eq_error {tries : Nat} {f : Fault}
    (h : freshBinderIn names body tries x = .error f) :
    f = .outOfFuel ∨ f = .overflow ∧ ∃ k, x.variants k = .error .overflow := by
  induction tries generalizing x with
  | zero =>
    cases h
    exact .inl rfl
  | succ tries ih =>
    rw [freshBinderIn] at h
    split at h
    · cases hnext : x.next with
      | error e =>
        rw [hnext] at h
        cases h
        obtain rfl := Name.next_eq_error hnext
        exact .inr ⟨rfl, 1, by rw [Name.variants, hnext]; rfl⟩
      | ok y =>
        rw [hnext] at h
        refine (ih h).imp_right fun ⟨hf, k, hk⟩ => ⟨hf, k + 1, ?_⟩
        rw [Name.variants, hnext]
        show (y.variants k >>= _) = _
        rw [hk]
        rfl
    · cases h

/-- More tries than there are names to avoid are enough: the search finds a name, or a variant of
the name has a number that is too large. -/
theorem freshBinderIn_ends {tries : Nat} (h : names.length + body.globals.length < tries)
    (x : Name) : (∃ y, freshBinderIn names body tries x = .ok y) ∨
      freshBinderIn names body tries x = .error .overflow ∧ ∃ k,
        x.variants k = .error .overflow := by
  cases hsearch : freshBinderIn names body tries x with
  | ok y => exact .inl ⟨y, rfl⟩
  | error f =>
    rcases freshBinderIn_eq_error hsearch with rfl | ⟨rfl, hoverflow⟩
    · obtain ⟨tried, hlength, hnodup, htried⟩ := exists_tried hsearch
      have hle := hnodup.length_le_of_subset fun y hy => (htried y hy).1
      rw [hlength, List.length_append] at hle
      omega
    · exact .inr ⟨rfl, hoverflow⟩

/-- A search that did not run out of tries gives the same answer with more of them. -/
theorem freshBinderIn_mono {m n : Nat} (h : freshBinderIn names body m x ≠ .error .outOfFuel)
    (hmn : m ≤ n) : freshBinderIn names body n x = freshBinderIn names body m x := by
  induction m generalizing n x with
  | zero => exact absurd rfl h
  | succ m ih =>
    obtain ⟨n, rfl⟩ := Nat.exists_eq_add_of_le' (Nat.lt_of_lt_of_le m.succ_pos hmn)
    rw [freshBinderIn] at h ⊢
    rw [freshBinderIn]
    split
    · next hclash =>
      rw [if_pos hclash] at h
      cases hnext : x.next with
      | error f => rfl
      | ok y =>
        rw [hnext] at h
        exact ih h (Nat.le_of_succ_le_succ hmn)
    · rfl

/-- How many tries a search gets does not matter, as long as there are more than names to avoid. -/
theorem freshBinderIn_eq_freshBinder {tries : Nat} (h : names.length + body.globals.length < tries)
    (x : Name) : freshBinderIn names body tries x = freshBinder names x body := by
  refine freshBinderIn_mono ?_ h
  intro hfuel
  rcases freshBinderIn_ends (Nat.lt_succ_self _) x with ⟨y, hy⟩ | ⟨hoverflow, -⟩
  · rw [hy] at hfuel
    cases hfuel
  · rw [hoverflow] at hfuel
    cases hfuel

/-- A name that was found captures nothing, unless it is the underscore. It is the name of the
binder or a variant. -/
theorem freshBinderIn_eq_ok {tries : Nat} (h : freshBinderIn names body tries x = .ok y) :
    (captures names y body = false ∨ y.isUnderscore = true) ∧
      (y = x ∨ y.isUnderscore = false ∧ ∃ stem n, y = .variant stem n ∧ n < wordLimit) := by
  induction tries generalizing x with
  | zero => cases h
  | succ tries ih =>
    rw [freshBinderIn] at h
    split at h
    · next hclash =>
      have hx : x.isUnderscore = false := by simpa using (Bool.and_eq_true_iff.1 hclash).2
      cases hnext : x.next with
      | error f =>
        rw [hnext] at h
        cases h
      | ok z =>
        rw [hnext] at h
        obtain ⟨hfree, hvariant⟩ := ih h
        refine ⟨hfree, .inr ?_⟩
        rcases hvariant with rfl | hvariant
        · obtain ⟨hlimit, stem, hstem⟩ := Name.next_eq_ok hx hnext
          exact ⟨Name.isUnderscore_next hx hnext, stem, x.rank, hstem, hlimit⟩
        · exact hvariant
    · next hclash =>
      cases h
      exact ⟨by simpa [Decidable.imp_iff_not_or] using hclash, .inl rfl⟩

end Term

end Elaborator
