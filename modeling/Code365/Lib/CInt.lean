import Mathlib

/-! # The type `int`

An `int` has 32 bits.  In C the result of an addition that does not fit is undefined; in Java, and
in a conversion of a longer number, the low 32 bits are kept (`wrap`). -/

namespace Code365.CInt

def INT_MAX : ℤ := 2147483647

def INT_MIN : ℤ := -2147483648

/-- The sum of two values of type `int`, `none` if it is undefined. -/
def add (a b : ℤ) : Option ℤ := if INT_MIN ≤ a + b ∧ a + b ≤ INT_MAX then some (a + b) else none

theorem add_of_range {a b : ℤ} (hmin : INT_MIN ≤ a + b) (hmax : a + b ≤ INT_MAX) :
    add a b = some (a + b) := if_pos ⟨hmin, hmax⟩

theorem ne_INT_MAX_of_le {a b : ℤ} (hab : a ≤ b) (hb : b < INT_MAX) : a ≠ INT_MAX :=
  ne_of_lt (lt_of_le_of_lt hab hb)

/-- What 32 bits keep of a number. -/
def wrap (x : ℤ) : ℤ := x.bmod (2 ^ 32)

variable {x : ℤ}

theorem wrap_eq_self (h0 : -2 ^ 31 ≤ x) (h1 : x < 2 ^ 31) : wrap x = x := by
  exact Int.bmod_eq_of_le (by omega) (by omega)

theorem wrap_eq_sub (h0 : 2 ^ 31 ≤ x) (h1 : x < 2 ^ 32) : wrap x = x - 2 ^ 32 := by
  unfold wrap
  rw [Int.bmod_def]
  omega

theorem wrap_bounds (x : ℤ) : -2 ^ 31 ≤ wrap x ∧ wrap x < 2 ^ 31 := by
  unfold wrap
  have hle := Int.le_bmod (x := x) (m := 2 ^ 32) (by decide)
  have hlt := Int.bmod_lt (x := x) (m := 2 ^ 32) (by decide)
  omega

theorem tdiv_two (x : ℤ) : x.tdiv 2 = if 0 ≤ x then x / 2 else -(-x / 2) := by
  split_ifs with hx
  · exact Int.tdiv_eq_ediv_of_nonneg hx
  · rw [← Int.neg_neg x, Int.neg_tdiv, Int.tdiv_eq_ediv_of_nonneg (by omega), Int.neg_neg]

/-- `array[i]` in Java; `none` is an index out of bounds. -/
def arrayGet {α : Type*} (array : List α) (i : ℤ) : Option α := if 0 ≤ i then array[i.toNat]? else none

theorem arrayGet_natCast {α : Type*} {array : List α} (k : ℕ) : arrayGet array k = array[k]? :=
  if_pos (Int.natCast_nonneg k)

end Code365.CInt
