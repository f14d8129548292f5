import Mathlib

/-! # Maximal runs

`MaximalRun p start len` says that `p` holds at the `len` positions from `start` on and neither
right before them nor right after them.  A scan from left to right keeps the length of the run it is
in: `RunBefore p n len` says that `p` holds at the last `len` positions before `n` and at no more.
It goes on while `p` holds (`RunBefore.grow`), and where `p` does not hold it is the maximal run
that ends there (`RunBefore.ends_iff`). -/

namespace Code365

structure MaximalRun (p : ℕ → Prop) (start len : ℕ) : Prop where
  pos : 0 < len
  holds : ∀ i, start ≤ i → i < start + len → p i
  left : start = 0 ∨ ¬ p (start - 1)
  right : ¬ p (start + len)

structure RunBefore (p : ℕ → Prop) (n len : ℕ) : Prop where
  le : len ≤ n
  holds : ∀ i, n - len ≤ i → i < n → p i
  left : n - len = 0 ∨ ¬ p (n - len - 1)

namespace RunBefore

variable {p : ℕ → Prop} {n len start k : ℕ}

theorem zero (p : ℕ → Prop) :
    RunBefore p 0 0 := ⟨Nat.le_refl 0, fun _ _ h => absurd h (Nat.not_lt_zero _), .inl rfl⟩

theorem grow (h : RunBefore p n len) (hp : p n) : RunBefore p (n + 1) (len + 1) := by
  obtain ⟨hle, hholds, hleft⟩ := h
  have hstart : n + 1 - (len + 1) = n - len := by omega
  refine ⟨by omega, fun i hi hlt => ?_, by rwa [hstart]⟩
  obtain hlt | rfl := Nat.lt_or_eq_of_le (Nat.le_of_lt_succ hlt)
  · exact hholds i (by omega) hlt
  · exact hp

theorem reset (hp : ¬ p n) : RunBefore p (n + 1) 0 :=
  ⟨Nat.zero_le _, fun i hi hlt => by omega, .inr hp⟩

theorem unique (h : RunBefore p n len) (h' : RunBefore p n k) : len = k := by
  obtain ⟨hle, hholds, hleft⟩ := h
  obtain ⟨hle', hholds', hleft'⟩ := h'
  rcases Nat.lt_trichotomy len k with hlt | heq | hlt
  · obtain hzero | hnot := hleft
    · omega
    · exact absurd (hholds' _ (by omega) (by omega)) hnot
  · exact heq
  · obtain hzero | hnot := hleft'
    · omega
    · exact absurd (hholds _ (by omega) (by omega)) hnot

theorem ends_iff (h : RunBefore p n len) (hp : ¬ p n) :
    MaximalRun p start k ∧ start + k = n ↔ 0 < len ∧ k = len ∧ start = n - len := by
  constructor
  · rintro ⟨⟨hpos, hholds, hleft, _⟩, rfl⟩
    have hstart : start + k - k = start := by omega
    have hrun : RunBefore p (start + k) k :=
      ⟨by omega, fun i hi hlt => hholds i (by omega) hlt, by rwa [hstart]⟩
    obtain rfl := h.unique hrun
    exact ⟨hpos, rfl, hstart.symm⟩
  · rintro ⟨hpos, rfl, rfl⟩
    have hend : n - k + k = n := by
      have := h.le
      omega
    exact ⟨⟨hpos, fun i hi hlt => h.holds i hi (by omega), h.left, by rwa [hend]⟩, hend⟩

end RunBefore

end Code365
