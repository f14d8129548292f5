import Mathlib

/-! # Ranges and integer division of Python

`range(start, stop, step)` with a positive step, and the division of Python, which rounds down:
`//` is `Int.fdiv` and `%` is `Int.fmod`. -/

namespace Code365.Python

/-- `range(start, stop, step)` for a positive step. -/
def pyRange (start stop step : ℕ) : List ℕ := List.range' start ((stop - start + (step - 1)) / step) step

theorem mul_le_of_lt_count {stop step i : ℕ} (hi : i < (stop + (step - 1)) / step) :
    step * i ≤ stop := by
  have hle : step * i ≤ step * ((stop + (step - 1)) / step - 1) := Nat.mul_le_mul_left _ (by omega)
  have hdiv := Nat.mul_div_le (stop + (step - 1)) step
  rw [Nat.mul_sub] at hle
  omega

theorem natAbs_fmod_lt (b : ℤ) {a : ℤ} (h : a ≠ 0) : (b.fmod a).natAbs < a.natAbs := by
  have hn := Int.emod_nonneg b h
  have hlt := Int.emod_lt b h
  rw [Int.fmod_eq_emod]
  split
  · omega
  next hneg =>
    omega

theorem sub_fdiv_mul (u v : ℤ) : u - u.fdiv v * v = u.fmod v := by
  rw [Int.fmod_def]
  ring

theorem fmod_of_nonneg {a b : ℤ} (hb : 0 ≤ b) : a.fmod b = a % b := by
  rw [Int.fmod_eq_emod, if_pos (.inl hb), add_zero]

end Code365.Python
