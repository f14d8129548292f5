import Code365.Lib.While

/-! # `crc32.java` (`algorithms/java/Others`)

A byte is a `BitVec 8`, an `int` a `BitVec 32`.  A bit that the `BitSet` does not hold is 0, also
one of the zero bits at the end, which it drops.  The bound `data.length*8` wraps: from 2^28 bytes
on the loop is over too early. -/

namespace Code365.Algorithms.Crc32

open List

def bitSetGet (data : List (BitVec 8)) (i : ℕ) : Bool := (data.getD (i / 8) 0).getLsbD (i % 8)

/-- The body of the loop. -/
def step (data : List (BitVec 8)) (i : ℕ) (crc32 : BitVec 32) : BitVec 32 :=
  if (crc32 >>> 31) &&& 1#32 ≠ (if bitSetGet data i then 1#32 else 0#32) then
    (crc32 <<< 1) ^^^ 0x04C11DB7#32
  else crc32 <<< 1

/-- The rounds of the loop; a negative `data.length*8` gives none. -/
def rounds (data : List (BitVec 8)) : ℕ := (BitVec.ofNat 32 data.length * 8#32).toInt.toNat

def crc32 (data : List (BitVec 8)) : BitVec 32 :=
  (forLoop 0 (rounds data) (step data) 0xFFFFFFFF#32).reverse ^^^ 0xFFFFFFFF#32

/-! ### The definition -/

/-- The register is shifted to the right. -/
def shift (r : BitVec 32) : BitVec 32 := if r.getLsbD 0 then (r >>> 1) ^^^ 0xEDB88320#32 else r >>> 1

def addByte (r : BitVec 32) (b : BitVec 8) : BitVec 32 := shift^[8] (r ^^^ b.setWidth 32)

/-- The register after the bytes. -/
def register (data : List (BitVec 8)) : BitVec 32 := data.foldl addByte 0xFFFFFFFF#32

def standardCrc32 (data : List (BitVec 8)) : BitVec 32 := ~~~register data

/-! ### One bit -/

theorem reverse_xor (a b : BitVec 32) : (a ^^^ b).reverse = a.reverse ^^^ b.reverse := by
  apply BitVec.eq_of_getLsbD_eq
  simp [BitVec.getLsbD_reverse]

theorem reverse_shiftLeft (a : BitVec 32) : (a <<< 1).reverse = a.reverse >>> 1 := by
  apply BitVec.eq_of_getLsbD_eq
  intro i hi
  rw [BitVec.getLsbD_reverse, BitVec.getLsbD_ushiftRight, BitVec.getLsbD_reverse,
    BitVec.getMsbD_shiftLeft, Nat.add_comm]

/-- The bit `b` enters the reversed register. -/
def addBit (r : BitVec 32) (b : Bool) : BitVec 32 :=
  if r.getLsbD 0 ≠ b then (r >>> 1) ^^^ 0xEDB88320#32 else r >>> 1

theorem reverse_step (data : List (BitVec 8)) (i : ℕ) (r : BitVec 32) :
    (step data i r).reverse = addBit r.reverse (bitSetGet data i) := by
  have hpoly : (0x04C11DB7#32).reverse = 0xEDB88320#32 := by decide +kernel
  have hbit : (r >>> 31) &&& 1#32 = if r.reverse.getLsbD 0 then 1#32 else 0#32 := by
    rw [BitVec.and_one_eq_setWidth_ofBool_getLsbD, BitVec.getLsbD_ushiftRight,
      BitVec.getLsbD_reverse, BitVec.getMsbD]
    cases h : r.getLsbD 31 <;> simp
  have hne : ((if r.reverse.getLsbD 0 then 1#32 else 0#32) ≠ if bitSetGet data i then 1#32 else 0#32) ↔
      r.reverse.getLsbD 0 ≠ bitSetGet data i := by
    cases r.reverse.getLsbD 0 <;> cases bitSetGet data i <;> decide
  unfold step addBit
  rw [hbit, if_congr hne rfl rfl, apply_ite BitVec.reverse, reverse_xor, reverse_shiftLeft, hpoly]

/-- A byte that is there from the start meets the bits that leave the register. -/
theorem shift_xor (r e : BitVec 32) : shift (r ^^^ e) = addBit r (e.getLsbD 0) ^^^ (e >>> 1) := by
  have hcomm : ∀ a b p : BitVec 32, a ^^^ b ^^^ p = a ^^^ p ^^^ b := fun a b p => by
    rw [BitVec.xor_assoc, BitVec.xor_comm b, BitVec.xor_assoc]
  unfold shift addBit
  rw [BitVec.getLsbD_xor, BitVec.ushiftRight_xor_distrib, hcomm]
  cases r.getLsbD 0 <;> cases e.getLsbD 0 <;> simp

/-! ### All bits -/

def byteAt (data : List (BitVec 8)) (q : ℕ) : BitVec 32 := (data.getD q 0).setWidth 32

theorem byteAt_shift (data : List (BitVec 8)) (q : ℕ) : byteAt data q >>> 8 = 0#32 := by
  apply BitVec.eq_of_getLsbD_eq
  intro i _
  simp [byteAt]

variable {data : List (BitVec 8)}

theorem register_take {q : ℕ} (hq : q < data.length) :
    register (data.take (q + 1)) = shift^[8] (register (data.take q) ^^^ byteAt data q) := by
  rw [register, take_add_one, getElem?_eq_getElem hq, foldl_append, byteAt, List.getD, getElem?_eq_getElem hq]
  rfl

/-- The loop over the bits of `k` bytes leaves the register reversed. -/
theorem forLoop_step {k : ℕ} (hk : k ≤ data.length) :
    (forLoop 0 (8 * k) (step data) 0xFFFFFFFF#32).reverse = register (data.take k) := by
  have hones : (0xFFFFFFFF#32).reverse = 0xFFFFFFFF#32 := by decide +kernel
  -- in the middle of a byte, its bits still to come are part of the register of the definition
  have hloop := forLoop_induct (I := fun i r => r.reverse ^^^ (byteAt data (i / 8) >>> (i % 8)) =
    shift^[i % 8] (register (data.take (i / 8)) ^^^ byteAt data (i / 8))) (f := step data) (s :=
    0xFFFFFFFF#32)
    (Nat.zero_le (8 * k)) (by simp [hones, register]) (by
      intro i r _ hi h
      have hbit : bitSetGet data i = (byteAt data (i / 8) >>> (i % 8)).getLsbD 0 := by
        have : i % 8 < 32 := by omega
        simp [bitSetGet, byteAt, this]
      have hstep : shift^[i % 8 + 1] (register (data.take (i / 8)) ^^^ byteAt data (i / 8)) =
          (step data i r).reverse ^^^ (byteAt data (i / 8) >>> (i % 8 + 1)) := by
        rw [Function.iterate_succ_apply', ← h, shift_xor, reverse_step, hbit, BitVec.shiftRight_add]
      by_cases hlast : i % 8 = 7
      · rw [hlast, byteAt_shift, BitVec.xor_zero, ← register_take (by omega)] at hstep
        rw [show (i + 1) / 8 = i / 8 + 1 by omega, show (i + 1) % 8 = 0 by omega, ← hstep]
        rfl
      · rw [show (i + 1) / 8 = i / 8 by omega, show (i + 1) % 8 = i % 8 + 1 by omega, hstep])
  rw [Nat.mul_mod_right, Nat.mul_div_cancel_left k (by decide)] at hloop
  have hxor := congrArg (· ^^^ byteAt data k) hloop
  simpa [BitVec.xor_assoc] using hxor

/-- The number of bytes that the loop gets to. -/
def kept (data : List (BitVec 8)) : ℕ := if data.length % 2 ^ 29 < 2 ^ 28 then data.length % 2 ^ 29 else 0

theorem rounds_eq (data : List (BitVec 8)) : rounds data = 8 * kept data := by
  unfold rounds kept
  rw [BitVec.toInt_eq_toNat_cond, BitVec.toNat_mul, BitVec.toNat_ofNat, BitVec.toNat_ofNat]
  split_ifs <;> omega

/-- From 2^28 bytes on the code is right only if the bytes that it leaves out bring the register
back to where it was. -/
theorem crc32_eq_iff (data : List (BitVec 8)) : crc32 data = standardCrc32 data ↔ data.length <
      2 ^ 28 ∨ (data.drop (kept data)).foldl addByte (register (data.take (kept data))) =
      register (data.take (kept data)) := by
  have hle : kept data ≤ data.length := by
    unfold kept
    split_ifs <;> omega
  have hall : (data.drop (kept data)).foldl addByte (register (data.take (kept data))) = register data := by
    rw [register, ← foldl_append, take_append_drop, register]
  have hones : (0xFFFFFFFF#32) = BitVec.allOnes 32 := rfl
  rw [crc32, rounds_eq, forLoop_step hle, standardCrc32, hall, hones, BitVec.xor_allOnes,
    BitVec.not_inj, eq_comm]
  refine (or_iff_right_of_imp fun hlt => ?_).symm
  have hkept : kept data = data.length := by
    unfold kept
    split_ifs <;> omega
  rw [hkept, take_length]

/-- `n` bytes, of which the first four clear the register. -/
def clearing (n : ℕ) : List (BitVec 8) := replicate 4 0xFF#8 ++ replicate (n - 4) 0#8

theorem register_clearing (n : ℕ) : register (clearing n) = 0#32 := by
  have hclear : (replicate 4 0xFF#8).foldl addByte 0xFFFFFFFF#32 = 0#32 := by decide +kernel
  rw [register, clearing, foldl_append, hclear]
  induction n - 4 with
  | zero => rfl
  | succ n ih => rw [replicate_succ, foldl_cons, show addByte 0#32 0#8 = 0#32 by decide +kernel, ih]

theorem crc32_of_length (h : data.length = 2 ^ 28) : crc32 data = 0#32 := by
  have hkept : kept data = 0 := by
    rw [kept, h, if_neg (by omega)]
  rw [crc32, rounds_eq, hkept, Nat.mul_zero, forLoop_self]
  decide +kernel

theorem crc32_clearing : crc32 (clearing (2 ^ 28)) ≠ standardCrc32 (clearing (2 ^ 28)) := by
  have hlen : (clearing (2 ^ 28)).length = 2 ^ 28 := by
    rw [clearing, length_append, length_replicate, length_replicate]
    omega
  rw [crc32_of_length hlen, standardCrc32, register_clearing]
  decide

end Code365.Algorithms.Crc32
