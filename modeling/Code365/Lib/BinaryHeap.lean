import Mathlib

/-! # The order of a binary heap

`k i` is the key at index `i`; the children of `i` are `2 * i + 1` and `2 * i + 2`.  The order may
be broken at one index, above it (`Up`) or below it (`Down`), and a swap with the parent or with the
least child moves the break one level on. -/

namespace Code365.BinaryHeap

variable {K : Type*} [LinearOrder K] {k : ℕ → K} {i : ℕ}

def Ordered (k : ℕ → K) : Prop := ∀ i, 0 < i → k ((i - 1) / 2) ≤ k i

theorem Ordered.root_le (h : Ordered k) (i : ℕ) : k 0 ≤ k i := by
  induction i using Nat.strong_induction_on with
  | _ i ih =>
    rcases Nat.eq_zero_or_pos i with rfl | hi
    · exact le_rfl
    · exact (ih ((i - 1) / 2) (by omega)).trans (h i hi)

/-- The children of `i` are not below its parent. -/
def Across (k : ℕ → K) (i : ℕ) : Prop := 0 < i → ∀ j, 0 < j → (j - 1) / 2 = i → k ((i - 1) / 2) ≤ k j

/-- In order but for `i` and its parent. -/
structure Up (k : ℕ → K) (i : ℕ) : Prop where
  others : ∀ j, 0 < j → j ≠ i → k ((j - 1) / 2) ≤ k j
  across : Across k i

/-- In order but for `i` and its children. -/
structure Down (k : ℕ → K) (i : ℕ) : Prop where
  others : ∀ j, 0 < j → (j - 1) / 2 ≠ i → k ((j - 1) / 2) ≤ k j
  across : Across k i

theorem Up.ordered (h : Up k i) (hi : 0 < i → k ((i - 1) / 2) ≤ k i) : Ordered k := by
  intro j hj
  by_cases hji : j = i
  · subst hji
    exact hi hj
  · exact h.others j hj hji

theorem Down.ordered (h : Down k i) (hi : ∀ j, 0 < j → (j - 1) / 2 = i → k i ≤ k j) :
    Ordered k := by
  intro j hj
  by_cases hji : (j - 1) / 2 = i
  · rw [hji]
    exact hi j hj hji
  · exact h.others j hj hji

omit [LinearOrder K] in
theorem comp_swap (k : ℕ → K) (i p : ℕ) : (k ∘ Equiv.swap i p) i = k p ∧
    (k ∘ Equiv.swap i p) p = k i ∧ ∀ {j}, j ≠ i → j ≠ p → (k ∘ Equiv.swap i p) j = k j :=
  ⟨congrArg k (Equiv.swap_apply_left i p), congrArg k (Equiv.swap_apply_right i p), fun hji hjp =>
    congrArg k (Equiv.swap_apply_of_ne_of_ne hji hjp)⟩

theorem Up.swap (h : Up k i) (hi : 0 < i) (hlt : k i < k ((i - 1) / 2)) :
    Up (k ∘ Equiv.swap i ((i - 1) / 2)) ((i - 1) / 2) := by
  obtain ⟨p, hp⟩ : ∃ p, (i - 1) / 2 = p := ⟨_, rfl⟩
  rw [hp] at hlt ⊢
  have hpi : p < i := by omega
  obtain ⟨hleft, hright, hother⟩ := comp_swap k i p
  refine ⟨fun j hj hjp => ?_, fun hp0 j hj hjp => ?_⟩
  · by_cases hji : j = i
    · subst hji
      rw [hp, hright, hleft]
      exact hlt.le
    rw [hother hji hjp]
    by_cases hpar : (j - 1) / 2 = i
    · rw [hpar, hleft, ← hp]
      exact h.across hi j hj hpar
    · by_cases hpar' : (j - 1) / 2 = p
      · rw [hpar', hright]
        exact hlt.le.trans (hpar' ▸ h.others j hj hji)
      · rw [hother hpar hpar']
        exact h.others j hj hji
  · have hpp : k ((p - 1) / 2) ≤ k p := h.others p hp0 hpi.ne
    rw [hother (by omega) (by omega)]
    by_cases hji : j = i
    · rw [hji, hleft]
      exact hpp
    · rw [hother hji (by omega)]
      exact hpp.trans (hjp ▸ h.others j hj hji)

theorem Down.swap {m : ℕ} (h : Down k i) (hm : 0 < m) (hmi : (m - 1) / 2 = i) (hlt : k m < k i)
    (hmin : ∀ j, 0 < j → (j - 1) / 2 = i → k m ≤ k j) : Down (k ∘ Equiv.swap i m) m := by
  obtain ⟨hleft, hright, hother⟩ := comp_swap k i m
  refine ⟨fun j hj hjm => ?_, fun _ j hj hjm => ?_⟩
  · by_cases hpar : (j - 1) / 2 = i
    · rw [hpar, hleft]
      by_cases hji : j = m
      · rw [hji, hright]
        exact hlt.le
      · rw [hother (by omega) hji]
        exact hmin j hj hpar
    · rw [hother hpar hjm]
      by_cases hji : j = i
      · subst hji
        rw [hleft]
        exact h.across hj m hm hmi
      · rw [hother hji (by omega)]
        exact h.others j hj hpar
  · rw [hmi, hleft, hother (by omega) (by omega), ← hjm]
    exact h.others j hj (by omega)

end Code365.BinaryHeap
