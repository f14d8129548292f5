import Mathlib

/-! # Doubles

IEEE 754 binary64 numbers, as far as a C program that reads and prints decimal numbers uses them.  A
finite number is the rational it stands for, and every operation is the exact one rounded to the
nearest number, ties to even; the sign of zero is not kept, since no operation here shows it.  `pow`
is taken to be correctly rounded.  `(int)` of what is not in the range of `int` and the sign of a
NaN are those of x86.

`fixed` and `scientific` are the conversions `%.kf` and `%e`; `printed_fixed` and
`printed_scientific` say what their texts look like. -/

namespace Code365

open Nat

inductive Double where
  | nan
  | inf (negative : Bool)
  | finite (q : ℚ)
deriving DecidableEq, Repr

namespace Double

/-! ### Arithmetic -/

/-- The nearest integer, the even one of two. -/
def roundHalfEven (q : ℚ) : ℤ :=
  if Int.fract q < 1 / 2 then ⌊q⌋
  else if 1 / 2 < Int.fract q then ⌊q⌋ + 1
  else if ⌊q⌋ % 2 = 0 then ⌊q⌋ else ⌊q⌋ + 1

/-- The nearest double: 53 binary digits, the last not below `2 ^ -1074`. -/
def round (q : ℚ) : Double :=
  let e : ℤ := max (Int.log 2 |q| - 52) (-1074)
  let r : ℚ := roundHalfEven (q / 2 ^ e) * 2 ^ e
  if 2 ^ 1024 ≤ |r| then inf (q < 0) else finite r

def add : Double → Double → Double
  | finite a, finite b => round (a + b)
  | finite _, inf s => inf s
  | inf s, finite _ => inf s
  | inf s, inf t => if s = t then inf s else nan
  | _, _ => nan

def neg : Double → Double
  | nan => nan
  | inf s => inf !s
  | finite q => finite (-q)

def sub (x y : Double) : Double := add x (neg y)

def mul : Double → Double → Double
  | finite a, finite b => round (a * b)
  | finite a, inf s => if a = 0 then nan else inf (s != decide (a < 0))
  | inf s, finite b => if b = 0 then nan else inf (s != decide (b < 0))
  | inf s, inf t => inf (s != t)
  | _, _ => nan

/-- `pow(10.0, e)`; beyond 400 the result is infinite or zero. -/
def pow10 (e : ℤ) : Double :=
  if 400 < e then inf false else if e < -400 then finite 0 else round (10 ^ e)

def fabs : Double → Double
  | nan => nan
  | inf _ => inf false
  | finite q => finite |q|

def floor : Double → Double
  | finite q => finite ⌊q⌋
  | x => x

def lt : Double → Double → Bool
  | finite a, finite b => a < b
  | finite _, inf s => !s
  | inf s, finite _ => s
  | inf s, inf t => s && !t
  | _, _ => false

def le (x y : Double) : Bool := lt x y || (x = y && x ≠ nan)

def truncate (q : ℚ) : ℤ := if 0 ≤ q then ⌊q⌋ else ⌈q⌉

/-- `(int)x`. -/
def toInt : Double → ℤ
  | finite q => if -2 ^ 31 ≤ truncate q ∧ truncate q < 2 ^ 31 then truncate q else -2 ^ 31
  | _ => -2 ^ 31

/-! ### `printf` -/

def signText (negative : Bool) : List Char := if negative then ['-'] else []

def padded : ℕ → ℕ → List Char
  | 0, _ => []
  | k + 1, n => Nat.digitChar (n / 10 ^ k % 10) :: padded k n

/-- `%.kf`. -/
def fixed (k : ℕ) : Double → List Char
  | nan => "-nan".toList
  | inf s => signText s ++ "inf".toList
  | finite q =>
    let m := (roundHalfEven (|q| * 10 ^ k)).natAbs
    signText (q < 0) ++ (Nat.toDigits 10 (m / 10 ^ k) ++ if k = 0 then [] else '.' :: padded k m)

/-- The exponent of `%e`, with two digits at least. -/
def exponentText (e : ℤ) : List Char :=
  'e' :: (if e < 0 then '-' else '+') :: if e.natAbs < 10 then padded 2 e.natAbs else Nat.toDigits 10 e.natAbs

/-- `%e` of a number other than zero. -/
def scientific : Double → List Char
  | nan => "-nan".toList
  | inf s => signText s ++ "inf".toList
  | finite q =>
    let e := Int.log 10 |q|
    let m := (roundHalfEven (|q| / 10 ^ (e - 6))).natAbs
    -- the digits may round up to the next power of ten
    let (m, e) := if m = 10 ^ 7 then (10 ^ 6, e + 1) else (m, e)
    signText (q < 0) ++ (Nat.digitChar (m / 10 ^ 6 % 10) :: ('.' :: padded 6 m ++ exponentText e))

/-- A number as `printf` writes it: a sign, digits, and perhaps a fraction and an exponent. -/
inductive IsDecimal : List Char → Prop
  | mk (negative : Bool) (n : ℕ) (fraction exponent : List Char) :
      (fraction = [] ∨ ∃ ds, ds ≠ [] ∧ (∀ c ∈ ds, c.isDigit) ∧ fraction = '.' :: ds) →
      (exponent = [] ∨ ∃ sign ds, (sign = '+' ∨ sign = '-') ∧ (∀ c ∈ ds, c.isDigit) ∧
        exponent = 'e' :: sign :: ds) →
      IsDecimal (signText negative ++ (Nat.toDigits 10 n ++ (fraction ++ exponent)))

theorem isDigit_digitChar (n : ℕ) : (digitChar (n % 10)).isDigit := by
  have h : ∀ d < 10, (digitChar d).isDigit := by decide
  exact h _ (mod_lt _ (by decide))

theorem isDigit_of_mem_padded : ∀ {k n : ℕ} {c : Char}, c ∈ padded k n → c.isDigit
  | k + 1, n, c, h => by
    rcases List.mem_cons.mp h with rfl | h
    · exact isDigit_digitChar _
    · exact isDigit_of_mem_padded h

theorem padded_ne_nil (k n : ℕ) : padded (k + 1) n ≠ [] := List.cons_ne_nil _ _

def Printed (s : List Char) : Prop :=
  s = "-nan".toList ∨ (∃ negative, s = signText negative ++ "inf".toList) ∨ IsDecimal s

theorem printed_fixed (k : ℕ) (x : Double) : Printed (fixed k x) := by
  cases x with
  | nan => exact .inl rfl
  | inf s => exact .inr (.inl ⟨s, rfl⟩)
  | finite q =>
    refine .inr (.inr ?_)
    have h := IsDecimal.mk (q < 0) ((roundHalfEven (|q| * 10 ^ k)).natAbs / 10 ^ k)
      (if k = 0 then [] else '.' :: padded k (roundHalfEven (|q| * 10 ^ k)).natAbs) [] ?_ (.inl rfl)
    · rwa [List.append_nil] at h
    · cases k with
      | zero => exact .inl rfl
      | succ k => exact .inr ⟨_, padded_ne_nil k _, fun c => isDigit_of_mem_padded, rfl⟩

theorem isDecimal_scientific (negative : Bool) (m : ℕ) (e : ℤ) : IsDecimal (signText negative ++
    (digitChar (m / 10 ^ 6 % 10) :: ('.' :: padded 6 m ++ exponentText e))) := by
  have hdigit : toDigits 10 (m / 10 ^ 6 % 10) = [digitChar (m / 10 ^ 6 % 10)] :=
    toDigits_of_lt_base (mod_lt _ (by decide))
  have hexponent : ∀ c ∈ (if e.natAbs < 10 then padded 2 e.natAbs else toDigits 10 e.natAbs), c.isDigit := by
    intro c hc
    split at hc
    · exact isDigit_of_mem_padded hc
    · exact isDigit_of_mem_toDigits (by decide) (by decide) hc
  have h := IsDecimal.mk negative (m / 10 ^ 6 % 10) _ _
    (.inr ⟨padded 6 m, padded_ne_nil 5 m, fun c => isDigit_of_mem_padded, rfl⟩)
    (.inr ⟨if e < 0 then '-' else '+', _, by split <;> simp, hexponent, rfl⟩)
  rwa [hdigit] at h

theorem printed_scientific (x : Double) : Printed (scientific x) := by
  cases x with
  | nan => exact .inl rfl
  | inf s => exact .inr (.inl ⟨s, rfl⟩)
  | finite q => exact .inr (.inr (isDecimal_scientific _ _ _))

end Double

end Code365
