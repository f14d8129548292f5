import Mathlib

/-! # AES-128

The cipher of FIPS 197 for an arbitrary invertible S-box: bytes as polynomials over GF(2), the four
transformations of the state and their inverses, the key expansion, and the cipher.  A state is
indexed by the column and the row of a byte.  The inverse cipher undoes the cipher whatever the
round keys are, because each transformation is undone by its inverse. -/

namespace Code365.Aes

abbrev Byte := BitVec 8

/-- For the numerals of rows and columns. -/
scoped instance neZero_four : NeZero 4 := Nat.instNeZeroSucc

/-! ### Bytes as polynomials -/

/-- The product with the polynomial `x`, modulo `x^8 + x^4 + x^3 + x + 1`. -/
def xtime (a : Byte) : Byte := (a <<< 1) ^^^ (if a.msb then 0x1b else 0)

/-- The product with a polynomial of degree at most 3, given by its coefficients. -/
def mul (p : BitVec 4) (a : Byte) : Byte :=
  (if p.getLsbD 0 then a else 0) ^^^ (if p.getLsbD 1 then xtime a else 0) ^^^
    (if p.getLsbD 2 then xtime (xtime a) else 0) ^^^ (if p.getLsbD 3 then xtime (xtime (xtime a)) else 0)

theorem xtime_xor (a b : Byte) : xtime (a ^^^ b) = xtime a ^^^ xtime b := by
  unfold xtime
  have hcarry : (if (a ^^^ b).msb then (0x1b : Byte) else 0) =
      (if a.msb then 0x1b else 0) ^^^ (if b.msb then 0x1b else 0) := by
    rw [BitVec.msb_xor]
    cases a.msb <;> cases b.msb <;> rfl
  rw [BitVec.shiftLeft_xor_distrib, hcarry]
  ac_rfl

theorem ite_xor (c : Bool) (x y : Byte) :
    (if c then x ^^^ y else 0) = (if c then x else 0) ^^^ (if c then y else 0) := by
  cases c with
  | false => simp
  | true => rfl

theorem mul_xor (p : BitVec 4) (a b : Byte) : mul p (a ^^^ b) = mul p a ^^^ mul p b := by
  unfold mul
  simp only [xtime_xor, ite_xor]
  ac_rfl

/-! ### Transformations of the state -/

/-- A column of the state, or a word of the key. -/
abbrev Column := Fin 4 → Byte

abbrev State := Fin 4 → Column

/-- The S-box and its inverse. -/
structure SBox where
  sub : Byte → Byte
  inv : Byte → Byte
  inv_sub : ∀ a, inv (sub a) = a

def subBytes (S : SBox) (s : State) : State := fun c r => S.sub (s c r)

def invSubBytes (S : SBox) (s : State) : State := fun c r => S.inv (s c r)

def shiftRows (s : State) : State := fun c r => s (c + r) r

def invShiftRows (s : State) : State := fun c r => s (c - r) r

def mixColumn (x : Column) : Column := fun r => mul 2 (x r) ^^^ mul 3 (x (r + 1)) ^^^ x (r + 2) ^^^ x (r + 3)

def invMixColumn (x : Column) : Column := fun r =>
  mul 14 (x r) ^^^ mul 11 (x (r + 1)) ^^^ mul 13 (x (r + 2)) ^^^ mul 9 (x (r + 3))

def mixColumns (s : State) : State := fun c => mixColumn (s c)

def invMixColumns (s : State) : State := fun c => invMixColumn (s c)

def addRoundKey (s k : State) : State := fun c r => s c r ^^^ k c r

theorem invSubBytes_subBytes (S : SBox) (s : State) : invSubBytes S (subBytes S s) = s := by
  funext c r
  exact S.inv_sub _

theorem invShiftRows_shiftRows (s : State) : invShiftRows (shiftRows s) = s := by
  funext c r
  have hc : ∀ c r : Fin 4, c - r + r = c := by decide
  exact congrArg (fun c => s c r) (hc c r)

theorem addRoundKey_addRoundKey (s k : State) : addRoundKey (addRoundKey s k) k = s := by
  funext c r
  unfold addRoundKey
  rw [BitVec.xor_assoc, BitVec.xor_self, BitVec.xor_zero]

/-- The product of the two circulant matrices is the identity: one line for each distance of the two
rows. -/
theorem invMix_coefficients : ∀ a : Byte, mul 14 (mul 2 a) ^^^ mul 11 a ^^^ mul 13 a ^^^
    mul 9 (mul 3 a) = a ∧ mul 14 (mul 3 a) ^^^ mul 11 (mul 2 a) ^^^ mul 13 a ^^^ mul 9 a = 0 ∧
    mul 14 a ^^^ mul 11 (mul 3 a) ^^^ mul 13 (mul 2 a) ^^^ mul 9 a = 0 ∧
    mul 14 a ^^^ mul 11 a ^^^ mul 13 (mul 3 a) ^^^ mul 9 (mul 2 a) = 0 := by
  decide +kernel

theorem invMixColumn_mixColumn (x : Column) : invMixColumn (mixColumn x) = x := by
  funext r
  have hrow : ∀ r : Fin 4, r + 1 + 1 = r + 2 ∧ r + 1 + 2 = r + 3 ∧ r + 1 + 3 = r ∧
    r + 2 + 1 = r + 3 ∧ r + 2 + 2 = r ∧ r + 2 + 3 = r + 1 ∧ r + 3 + 1 = r ∧ r + 3 + 2 = r + 1 ∧
    r + 3 + 3 = r + 2 := by decide
  obtain ⟨h11, h12, h13, h21, h22, h23, h31, h32, h33⟩ := hrow r
  calc invMixColumn (mixColumn x) r
      = (mul 14 (mul 2 (x r)) ^^^ mul 11 (x r) ^^^ mul 13 (x r) ^^^ mul 9 (mul 3 (x r))) ^^^
        (mul 14 (mul 3 (x (r + 1))) ^^^ mul 11 (mul 2 (x (r + 1))) ^^^ mul 13 (x (r + 1)) ^^^
          mul 9 (x (r + 1))) ^^^
        (mul 14 (x (r + 2)) ^^^ mul 11 (mul 3 (x (r + 2))) ^^^ mul 13 (mul 2 (x (r + 2))) ^^^
          mul 9 (x (r + 2))) ^^^
        (mul 14 (x (r + 3)) ^^^ mul 11 (x (r + 3)) ^^^ mul 13 (mul 3 (x (r + 3))) ^^^
          mul 9 (mul 2 (x (r + 3)))) := by
        unfold invMixColumn mixColumn
        simp only [h11, h12, h13, h21, h22, h23, h31, h32, h33, mul_xor]
        ac_rfl
    _ = x r ^^^ 0 ^^^ 0 ^^^ 0 := by
        rw [(invMix_coefficients (x r)).1, (invMix_coefficients (x (r + 1))).2.1,
          (invMix_coefficients (x (r + 2))).2.2.1, (invMix_coefficients (x (r + 3))).2.2.2]
    _ = x r := by simp

theorem invMixColumns_mixColumns (s : State) : invMixColumns (mixColumns s) = s := by
  funext c
  exact invMixColumn_mixColumn (s c)

/-! ### Rounds -/

def round (S : SBox) (k s : State) : State := addRoundKey (mixColumns (shiftRows (subBytes S s))) k

/-- The last round has no `mixColumns`. -/
def lastRound (S : SBox) (k s : State) : State := addRoundKey (shiftRows (subBytes S s)) k

/-- The state after `i` rounds, before the substitution of round `i + 1`. -/
def states (S : SBox) (w : ℕ → State) (s : State) : ℕ → State
  | 0 => addRoundKey s (w 0)
  | i + 1 => round S (w (i + 1)) (states S w s i)

def encrypt (S : SBox) (w : ℕ → State) (s : State) : State := lastRound S (w 10) (states S w s 9)

/-! ### Key expansion -/

def rcon (i : ℕ) : Byte := xtime^[i - 1] 1

/-- The rotated and substituted last word of a round key. -/
def scheduleCore (S : SBox) (i : ℕ) (x : Column) : Column := fun r =>
  S.sub (x (r + 1)) ^^^ (if r = 0 then rcon i else 0)

def nextKey (S : SBox) (i : ℕ) (k : State) : State :=
  ![fun r => scheduleCore S i (k 3) r ^^^ k 0 r,
    fun r => scheduleCore S i (k 3) r ^^^ k 0 r ^^^ k 1 r,
    fun r => scheduleCore S i (k 3) r ^^^ k 0 r ^^^ k 1 r ^^^ k 2 r,
    fun r => scheduleCore S i (k 3) r ^^^ k 0 r ^^^ k 1 r ^^^ k 2 r ^^^ k 3 r]

def roundKeys (S : SBox) (key : State) : ℕ → State
  | 0 => key
  | i + 1 => nextKey S (i + 1) (roundKeys S key i)

end Code365.Aes
