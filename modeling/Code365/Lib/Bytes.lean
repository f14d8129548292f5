import Mathlib

/-! # Bytes in memory

A memory is a function from addresses to bytes.  `window` reads some bytes from an address on and
`place` writes a list of bytes there; two windows that meet are one (`window_add`), and writing is
seen in the window it fills and in no window apart from it (`window_place_self`,
`window_place_of_disjoint`).  Numbers are kept with the lowest byte first. -/

namespace Code365.Bytes

open List

abbrev Memory := ℕ → UInt8

def window (mem : Memory) (offset length : ℕ) : List UInt8 := (List.range length).map fun i => mem (offset + i)

def place (mem : Memory) (offset : ℕ) (bytes : List UInt8) : Memory :=
  fun o => if offset ≤ o then bytes.getD (o - offset) (mem o) else mem o

/-- The lowest bytes of a number. -/
def littleEndian : ℕ → ℕ → List UInt8
  | 0, _ => []
  | width + 1, v => UInt8.ofNat v :: littleEndian width (v / 256)

def ofLittleEndian : List UInt8 → ℕ
  | [] => 0
  | b :: bs => b.toNat + 256 * ofLittleEndian bs

variable {mem : Memory} {offset o n : ℕ} {bytes : List UInt8}

@[simp] theorem length_window : (window mem offset n).length = n := by simp [window]

theorem window_add (mem : Memory) (offset a b : ℕ) :
    window mem offset (a + b) = window mem offset a ++ window mem (offset + a) b := by
  unfold window
  rw [range_add, map_append, map_map]
  simp [Function.comp_def, add_assoc]

theorem window_congr {mem' : Memory} (h : ∀ i < n, mem' (offset + i) = mem (offset + i)) :
    window mem' offset n = window mem offset n := by
  exact map_congr_left fun i hi => h i (mem_range.mp hi)

theorem window_place_self (mem : Memory) (offset : ℕ) (bytes : List UInt8) :
    window (place mem offset bytes) offset bytes.length = bytes := by
  apply ext_getElem
  · exact length_window
  · intro i h1 h2
    simp [window, place, h2]

theorem window_place_of_disjoint (h : o + n ≤ offset ∨ offset + bytes.length ≤ o) :
    window (place mem offset bytes) o n = window mem o n := by
  apply window_congr
  intro i hi
  unfold place
  split
  next hle =>
    have hout : bytes.length ≤ o + i - offset := by omega
    rw [getD_eq_default _ _ hout]
  · rfl

@[simp] theorem length_littleEndian : ∀ width v : ℕ, (littleEndian width v).length = width
  | 0, _ => rfl
  | width + 1, v => by rw [littleEndian, length_cons, length_littleEndian]

theorem ofLittleEndian_littleEndian :
    ∀ {width v : ℕ}, v < 256 ^ width → ofLittleEndian (littleEndian width v) = v
  | 0, v, h => by
    obtain rfl : v = 0 := by simpa using h
    rfl
  | width + 1, v, h => by
    have hdiv : v / 256 < 256 ^ width := Nat.div_lt_of_lt_mul (by rwa [pow_succ'] at h)
    rw [littleEndian, ofLittleEndian, ofLittleEndian_littleEndian hdiv, UInt8.toNat_ofNat']
    omega

/-! ### Rows of one length -/

section Rows

variable {α : Type*} {m : ℕ} {f : ℕ → List α}

theorem length_flatMap_range (hf : ∀ i, (f i).length = m) :
    ∀ n : ℕ, ((List.range n).flatMap f).length = n * m
  | 0 => by simp
  | n + 1 => by
    rw [range_succ, flatMap_append, length_append, length_flatMap_range hf n, flatMap_singleton, hf,
      Nat.succ_mul]

theorem getElem?_flatMap_range (hf : ∀ i, (f i).length = m) {i k : ℕ} (hk : k < m) :
    ∀ {n : ℕ}, i < n → ((List.range n).flatMap f)[i * m + k]? = (f i)[k]?
  | n + 1, hi => by
    rw [range_succ, flatMap_append, flatMap_singleton]
    obtain hlt | rfl := lt_or_eq_of_le (Nat.le_of_lt_succ hi)
    · have hmul : i * m + m ≤ n * m := by
        rw [← Nat.succ_mul]
        exact Nat.mul_le_mul_right m hlt
      rw [getElem?_append_left (by rw [length_flatMap_range hf]; omega), getElem?_flatMap_range hf hk hlt]
    · rw [getElem?_append_right (by rw [length_flatMap_range hf]; omega), length_flatMap_range hf,
        Nat.add_sub_cancel_left]

end Rows

end Code365.Bytes
