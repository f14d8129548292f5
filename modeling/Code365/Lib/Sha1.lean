import Mathlib

/-! # SHA-1

The hash function of FIPS 180 on messages of whole bytes: padding to blocks of 64 bytes, the
schedule of 80 words of a block, the 80 rounds on the five working variables, and the chaining of
the digest from block to block. `hexDigest` is the digest as 40 hexadecimal digits; different
digests have different digits (`hexDigest_injective`). -/

namespace Code365.Sha1

open List

abbrev Byte := BitVec 8

abbrev Word := BitVec 32

/-! ### Bytes and digits -/

def ofBigEndian (bytes : List Byte) : ℕ := bytes.foldl (fun n b => n * 256 + b.toNat) 0

/-- The last `count` bytes of a number, the highest first. -/
def toBigEndian : ℕ → ℕ → List Byte
  | 0, _ => []
  | count + 1, n => toBigEndian count (n / 256) ++ [BitVec.ofNat 8 n]

/-- The last `count` hexadecimal digits of a number. -/
def hexDigits : ℕ → ℕ → List Char
  | 0, _ => []
  | count + 1, n => hexDigits count (n / 16) ++ [Nat.digitChar (n % 16)]

/-! ### Blocks -/

/-- The least number of zero bytes that leaves eight bytes of the last block for the length. -/
def zeros (length : ℕ) : ℕ := (119 - length % 64) % 64

def pad (data : List Byte) : List Byte :=
  data ++ [0x80] ++ List.replicate (zeros data.length) 0 ++ toBigEndian 8 (8 * data.length)

def blocks (padded : List Byte) : List (List Byte) :=
  (List.range (padded.length / 64)).map fun i => (padded.drop (64 * i)).take 64

/-! ### The compression function -/

/-- A digest, or the five working variables. -/
structure Vars where
  a : Word
  b : Word
  c : Word
  d : Word
  e : Word
deriving DecidableEq, Repr

def ch (x y z : Word) : Word := (x &&& y) ^^^ (~~~x &&& z)

def parity (x y z : Word) : Word := x ^^^ y ^^^ z

def maj (x y z : Word) : Word := (x &&& y) ^^^ (x &&& z) ^^^ (y &&& z)

def f (t : ℕ) (x y z : Word) : Word :=
  if t < 20 then ch x y z else if t < 40 then parity x y z else if t < 60 then maj x y z else parity x y z

def k (t : ℕ) : Word :=
  if t < 20 then 0x5A827999 else if t < 40 then 0x6ED9EBA1 else if t < 60 then 0x8F1BBCDC else 0xCA62C1D6

/-- The sixteen words of a block. -/
def words (block : List Byte) : List Word :=
  (List.range 16).map fun t => BitVec.ofNat 32 (ofBigEndian ((block.drop (4 * t)).take 4))

/-- The next word of the schedule. -/
def extend (w : List Word) : List Word :=
  w ++ [(w.getD (w.length - 3) 0 ^^^ w.getD (w.length - 8) 0 ^^^ w.getD (w.length - 14) 0 ^^^
    w.getD (w.length - 16) 0).rotateLeft 1]

def schedule (block : List Byte) : List Word := extend^[64] (words block)

def round (w : List Word) (v : Vars) (t : ℕ) : Vars :=
  { a := v.a.rotateLeft 5 + f t v.b v.c v.d + v.e + k t + w.getD t 0
    b := v.a
    c := v.b.rotateLeft 30
    d := v.c
    e := v.d }

def Vars.add (h v : Vars) : Vars :=
  { a := h.a + v.a, b := h.b + v.b, c := h.c + v.c, d := h.d + v.d, e := h.e + v.e }

def compress (h : Vars) (block : List Byte) : Vars := h.add ((List.range 80).foldl (round (schedule block)) h)

def initial : Vars := { a := 0x67452301, b := 0xEFCDAB89, c := 0x98BADCFE, d := 0x10325476, e := 0xC3D2E1F0 }

/-- The digest after the blocks so far. -/
def chain (blocks : List (List Byte)) : Vars := blocks.foldl compress initial

def digest (data : List Byte) : Vars := chain (blocks (pad data))

def Vars.words (v : Vars) : List Word := [v.a, v.b, v.c, v.d, v.e]

def hexDigest (v : Vars) : List Char := v.words.flatMap fun w => hexDigits 8 w.toNat

/-! ### Facts -/

@[simp] theorem length_toBigEndian : ∀ count n : ℕ, (toBigEndian count n).length = count
  | 0, _ => rfl
  | count + 1, n => by rw [toBigEndian, length_append, length_toBigEndian]; rfl

@[simp] theorem length_hexDigits : ∀ count n : ℕ, (hexDigits count n).length = count
  | 0, _ => rfl
  | count + 1, n => by rw [hexDigits, length_append, length_hexDigits]; rfl

theorem ofBigEndian_lt (bytes : List Byte) : ofBigEndian bytes < 256 ^ bytes.length := by
  induction bytes using List.reverseRecOn with
  | nil => decide
  | append_singleton bytes b ih =>
    have hstep : ofBigEndian (bytes ++ [b]) = ofBigEndian bytes * 256 + b.toNat := by
      unfold ofBigEndian
      rw [foldl_append]
      rfl
    rw [hstep, length_append, length_singleton, pow_succ]
    omega

theorem length_pad (data : List Byte) : (pad data).length = ((data.length + 8) / 64 + 1) * 64 := by
  have hz : data.length + 1 + zeros data.length + 8 = ((data.length + 8) / 64 + 1) * 64 := by
    unfold zeros
    omega
  unfold pad
  rw [length_append, length_append, length_append, length_singleton, length_replicate,
    length_toBigEndian, hz]

theorem length_of_mem_blocks {data block : List Byte} (h : block ∈ blocks (pad data)) :
    block.length = 64 := by
  obtain ⟨i, hi, rfl⟩ := mem_map.mp h
  have hi := mem_range.mp hi
  rw [length_take, length_drop]
  omega

theorem length_words (block : List Byte) : (words block).length = 16 := by
  unfold words
  rw [length_map, length_range]

theorem length_extend (w : List Word) : (extend w).length = w.length + 1 := by
  unfold extend
  rw [length_append, length_singleton]

theorem length_iterate_extend (w : List Word) : ∀ n : ℕ, (extend^[n] w).length = w.length + n
  | 0 => rfl
  | n + 1 => by rw [Function.iterate_succ_apply', length_extend, length_iterate_extend w n, add_assoc]

theorem digitChar_injective {a b : ℕ} (ha : a < 16) (hb : b < 16)
    (h : Nat.digitChar a = Nat.digitChar b) : a = b := by
  have hall : ∀ a < 16, ∀ b < 16, Nat.digitChar a = Nat.digitChar b → a = b := by decide
  exact hall a ha b hb h

theorem hexDigits_injective : ∀ {count a b : ℕ}, a < 16 ^ count → b < 16 ^ count →
    hexDigits count a = hexDigits count b → a = b
  | 0, a, b, ha, hb, _ => by omega
  | count + 1, a, b, ha, hb, h => by
    obtain ⟨hhigh, hlow⟩ := append_inj h (by simp)
    have hmod : a % 16 = b % 16 :=
      digitChar_injective (Nat.mod_lt _ (by omega)) (Nat.mod_lt _ (by omega)) (List.cons.inj hlow).1
    have hdiv : a / 16 = b / 16 := hexDigits_injective (by omega) (by omega) hhigh
    omega

theorem hexDigits_word_injective {x y : Word}
    (h : hexDigits 8 x.toNat = hexDigits 8 y.toNat) : x = y :=
  BitVec.eq_of_toNat_eq (hexDigits_injective x.isLt y.isLt h)

theorem hexDigest_injective {u v : Vars} (h : hexDigest u = hexDigest v) : u = v := by
  obtain ⟨a, b, c, d, e⟩ := u
  simp only [hexDigest, Vars.words, flatMap_cons, flatMap_nil, append_nil] at h
  obtain ⟨ha, h⟩ := append_inj h (by simp)
  obtain ⟨hb, h⟩ := append_inj h (by simp)
  obtain ⟨hc, h⟩ := append_inj h (by simp)
  obtain ⟨hd, he⟩ := append_inj h (by simp)
  rw [hexDigits_word_injective ha, hexDigits_word_injective hb, hexDigits_word_injective hc,
    hexDigits_word_injective hd, hexDigits_word_injective he]

end Code365.Sha1
