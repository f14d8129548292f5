import Mathlib

/-! # Prefixes of a pattern at the end of a text

`Longest p s b q` says that among the prefixes of `p` of length at most `b` that are suffixes of
`s`, the one of length `q` is the longest.  When a text grows by one symbol, the new longest prefix
is found by falling back from one prefix to the longest proper one at its own end: `Candidate` is
what this search keeps. -/

namespace Code365

open List

variable {α : Type*} {p s : List α} {b q : ℕ} {c : α}

structure Longest (p s : List α) (b q : ℕ) : Prop where
  le : q ≤ b
  suffix : p.take q <:+ s
  max : ∀ k, k ≤ b → p.take k <:+ s → k ≤ q

/-- `failure` holds, for the prefixes of `p` up to length `b`, the longest proper prefix at the end
of each. -/
def IsFailure (p : List α) (b : ℕ) (failure : List ℕ) : Prop :=
  ∀ j, j < b → ∃ f, failure[j]? = some f ∧ Longest p (p.take (j + 1)) j f

theorem IsFailure.set {failure : List ℕ} {i : ℕ} (h : IsFailure p i failure)
    (hi : i < failure.length) (hq : Longest p (p.take (i + 1)) i q) :
    IsFailure p (i + 1) (failure.set i q) := by
  intro j hj
  by_cases hji : j = i
  · subst hji
    exact ⟨q, getElem?_set_self hi, hq⟩
  · rw [getElem?_set_ne (Ne.symm hji)]
    exact h j (by omega)

/-- The prefix of length `q` is at the end of `s`, and no longer one at the end of `s` is followed
by `c` in `p`. -/
structure Candidate (p s : List α) (b : ℕ) (c : α) (q : ℕ) : Prop where
  le : q ≤ b
  suffix : p.take q <:+ s
  max : ∀ k, k ≤ b → p.take k <:+ s → p[k]? = some c → k ≤ q

theorem take_suffix_take {j k : ℕ} (hj : p.take j <:+ s) (hk : p.take k <:+ s) (hjk : j ≤ k) :
    p.take j <:+ p.take k :=
  suffix_of_suffix_length_le hj hk (by simp only [length_take]; omega)

theorem take_add_one_suffix_iff {k : ℕ} (hk : k < p.length) :
    p.take (k + 1) <:+ s ++ [c] ↔ p.take k <:+ s ∧ p[k]? = some c := by
  rw [take_add_one, getElem?_eq_getElem hk, Option.toList_some, suffix_iff_exists_append_eq]
  constructor
  · rintro ⟨t, ht⟩
    rw [← append_assoc, append_singleton_inj] at ht
    exact ⟨⟨t, ht.1⟩, congrArg some ht.2⟩
  · rintro ⟨⟨t, rfl⟩, hc⟩
    exact ⟨t, by rw [← append_assoc, Option.some.inj hc]⟩

namespace Longest

theorem candidate (h : Longest p s b q) (c : α) :
    Candidate p s b c q := ⟨h.le, h.suffix, fun k hk hs _ => h.max k hk hs⟩

/-- A prefix that is not as long as allowed is also the longest under a smaller bound. -/
theorem of_lt (h : Longest p s (b + 1) q) (hq : q ≠ b + 1) : Longest p s b q :=
  ⟨by have := h.le; omega, h.suffix, fun k hk hs => h.max k (by omega) hs⟩

/-- After the whole pattern, the next shorter prefix is the one that `p` has at its own end. -/
theorem after_match {f : ℕ} (h : Longest p s (b + 1) (b + 1))
    (hf : Longest p (p.take (b + 1)) b f) : Longest p s b f where
  le := hf.le
  suffix := hf.suffix.trans h.suffix
  max k hk hs := hf.max k hk (take_suffix_take hs h.suffix (by omega))

end Longest

namespace Candidate

theorem fall {f : ℕ} (h : Candidate p s b c (q + 1)) (hne : p[q + 1]? ≠ some c)
    (hf : Longest p (p.take (q + 1)) q f) : Candidate p s b c f where
  le := hf.le.trans (by have := h.le; omega)
  suffix := hf.suffix.trans h.suffix
  max k hk hs hc := by
    have hkq : k ≠ q + 1 := by
      rintro rfl
      exact hne hc
    have hle := h.max k hk hs hc
    exact hf.max k (by omega) (take_suffix_take hs h.suffix hle)

theorem longest_of_eq (h : Candidate p s b c q) (hb : b < p.length) (hc : p[q]? = some c) :
    Longest p (s ++ [c]) (b + 1) (q + 1) := by
  have hq := h.le
  refine ⟨by omega, (take_add_one_suffix_iff (by omega)).mpr ⟨h.suffix, hc⟩, ?_⟩
  intro k hk hs
  cases k with
  | zero => omega
  | succ k =>
    obtain ⟨hs, hc⟩ := (take_add_one_suffix_iff (by omega)).mp hs
    exact Nat.succ_le_succ (h.max k (by omega) hs hc)

theorem longest_of_ne (h : Candidate p s b c 0) (hb : b < p.length) (hc : p[0]? ≠ some c) :
    Longest p (s ++ [c]) (b + 1) 0 := by
  refine ⟨Nat.zero_le _, by simp, ?_⟩
  intro k hk hs
  cases k with
  | zero => exact le_rfl
  | succ k =>
    obtain ⟨hs, hc'⟩ := (take_add_one_suffix_iff (by omega)).mp hs
    obtain rfl : k = 0 := Nat.le_zero.mp (h.max k (by omega) hs hc')
    exact absurd hc' hc

end Candidate

end Code365
