import Code365.Lib.Python
import Code365.Lib.Sha1
import Code365.Lib.While

/-! # `SHA1Hash` (`python/hashes/sha1.py`)

The numbers of the program are Python integers, of any size and sign; they are masked to 32 bits by
`rotate` and after the sums of a round.  `final_hash` starts the working variables of every block
from `self.h` and adds them to it only after the last block, so its result is the compression of the
last block with the initial state (`finalHash_eq`).  For a message of one block this is SHA-1; for a
longer one only if the chained state happens to compress the last block to the same digest
(`finalHash_iff`). -/

namespace Code365.Algorithms.Sha1Hash

open List Sha1 Python

/-- `self.h`, or the variables `a` to `e`. -/
structure Ints where
  a : ℤ
  b : ℤ
  c : ℤ
  d : ℤ
  e : ℤ
deriving DecidableEq, Repr

/-- What `__init__` sets `self.h` to. -/
def h : Ints := { a := 0x67452301, b := 0xEFCDAB89, c := 0x98BADCFE, d := 0x10325476, e := 0xC3D2E1F0 }

def rotate (n : ℤ) (b : ℕ) : ℤ := Int.land (Int.lor (n <<< b) (n >>> (32 - b))) 0xffffffff

/-- `none` for a `struct.error`: the length does not fit eight bytes. -/
def padding (data : List Byte) : Option (List Byte) :=
  if 8 * data.length < 2 ^ 64 then
    some (data ++ ([0x80] ++ List.replicate (63 - (data.length + 8) % 64) 0) ++
      toBigEndian 8 (8 * data.length))
  else none

def splitBlocks (paddedData : List Byte) : List (List Byte) :=
  (pyRange 0 paddedData.length 64).map fun i => (paddedData.drop i).take 64

/-- `struct.unpack('>16L', block)`; `none` for a `struct.error`: the block has not 64 bytes. -/
def unpack (block : List Byte) : Option (List ℤ) :=
  if block.length = 64 then
    some ((List.range 16).map fun t => (ofBigEndian ((block.drop (4 * t)).take 4) : ℤ))
  else none

/-- The assignment to `w[i]`. -/
def expandStep (w : List ℤ) (i : ℕ) : List ℤ :=
  w.set i (rotate (Int.xor (Int.xor (Int.xor (w.getD (i - 3) 0) (w.getD (i - 8) 0)) (w.getD (i - 14) 0))
    (w.getD (i - 16) 0)) 1)

def expandBlock (block : List Byte) : Option (List ℤ) :=
  (unpack block).map fun w => (pyRange 16 80 1).foldl expandStep (w ++ List.replicate 64 0)

def fOf (i : ℕ) (b c d : ℤ) : ℤ :=
  if i < 20 then Int.lor (Int.land b c) (Int.land (Int.lnot b) d)
  else if i < 40 then Int.xor (Int.xor b c) d
  else if i < 60 then Int.lor (Int.lor (Int.land b c) (Int.land b d)) (Int.land c d)
  else Int.xor (Int.xor b c) d

def kOf (i : ℕ) : ℤ :=
  if i < 20 then 0x5A827999 else if i < 40 then 0x6ED9EBA1 else if i < 60 then 0x8F1BBCDC else 0xCA62C1D6

/-- One pass of the inner loop. -/
def roundStep (expandedBlock : List ℤ) (v : Ints) (i : ℕ) : Ints :=
  { a := Int.land (rotate v.a 5 + fOf i v.b v.c v.d + v.e + kOf i + expandedBlock.getD i 0) 0xffffffff
    b := v.a
    c := rotate v.b 30
    d := v.c
    e := v.d }

/-- The body of the loop over the blocks: the variables start from `self.h`. -/
def blockStep (block : List Byte) : Option Ints :=
  (expandBlock block).map fun expandedBlock => (pyRange 0 80 1).foldl (roundStep expandedBlock) h

/-- The sums after the loop. -/
def finalSums (v : Ints) : Ints :=
  { a := Int.land (h.a + v.a) 0xffffffff
    b := Int.land (h.b + v.b) 0xffffffff
    c := Int.land (h.c + v.c) 0xffffffff
    d := Int.land (h.d + v.d) 0xffffffff
    e := Int.land (h.e + v.e) 0xffffffff }

/-- `'%08x' % n` for `n >= 0`. -/
def hex08 (n : ℤ) : List Char := (Nat.toDigits 16 n.toNat).leftpad 8 '0'

def format (v : Ints) : List Char := hex08 v.a ++ hex08 v.b ++ hex08 v.c ++ hex08 v.d ++ hex08 v.e

/-- The loop over the blocks: the variables of the last block, none before the first. -/
def blockLoop (blocks : List (List Byte)) : Option (Option Ints) :=
  blocks.foldlM (fun _ block => (blockStep block).map some) none

/-- `none` for an exception. -/
def finalHash (data : List Byte) : Option (List Char) :=
  (padding data).bind fun paddedData =>
    (blockLoop (splitBlocks paddedData)).bind fun v => v.map fun v => format (finalSums v)

/-! ### Words as integers -/

def ofWord (w : Word) : ℤ := (w.toNat : ℤ)

def ofVars (v : Vars) : Ints :=
  { a := ofWord v.a, b := ofWord v.b, c := ofWord v.c, d := ofWord v.d, e := ofWord v.e }

theorem land_mask (n : ℕ) : Int.land (n : ℤ) 0xffffffff = ((n % 2 ^ 32 : ℕ) : ℤ) := by
  change ((n &&& 2 ^ 32 - 1 : ℕ) : ℤ) = _
  rw [Nat.and_two_pow_sub_one_eq_mod]

theorem rotate_ofWord (w : Word) {b : ℕ} (hb : b < 32) :
    rotate (ofWord w) b = ofWord (w.rotateLeft b) := by
  have hint : rotate (ofWord w) b =
    Int.land ((w.toNat <<< b ||| w.toNat >>> (32 - b) : ℕ) : ℤ) 0xffffffff := rfl
  have hsmall : w.toNat >>> (32 - b) < 2 ^ 32 := (Nat.shiftRight_le _ _).trans_lt w.isLt
  rw [hint, land_mask, Nat.or_mod_two_pow, Nat.mod_eq_of_lt hsmall, ofWord, BitVec.toNat_rotateLeft,
    Nat.mod_eq_of_lt hb]

theorem xor_ofWord (x y : Word) : Int.xor (ofWord x) (ofWord y) = ofWord (x ^^^ y) := by
  rfl

theorem land_ofWord (x y : Word) : Int.land (ofWord x) (ofWord y) = ofWord (x &&& y) := by
  rfl

theorem lor_ofWord (x y : Word) : Int.lor (ofWord x) (ofWord y) = ofWord (x ||| y) := by
  rfl

theorem land_lnot_ofWord (x y : Word) :
    Int.land (Int.lnot (ofWord x)) (ofWord y) = ofWord (~~~x &&& y) := by
  have hint : Int.land (Int.lnot (ofWord x)) (ofWord y) = ((y.toNat.ldiff x.toNat : ℕ) : ℤ) := rfl
  rw [hint]
  congr 1
  apply Nat.eq_of_testBit_eq
  intro i
  rw [Nat.testBit_ldiff]
  change (y.getLsbD i && !x.getLsbD i) = (~~~x &&& y).getLsbD i
  by_cases hi : i < 32
  · simp [hi, Bool.and_comm]
  · have hy : y.getLsbD i = false := BitVec.getLsbD_of_ge y i (by omega)
    simp [hy]

theorem fOf_ofWord (i : ℕ) (x y z : Word) :
    fOf i (ofWord x) (ofWord y) (ofWord z) = ofWord (f i x y z) := by
  have hch : (x &&& y) ||| (~~~x &&& z) = ch x y z := by
    unfold ch
    ext j hj
    simp only [BitVec.getElem_or, BitVec.getElem_and, BitVec.getElem_not, BitVec.getElem_xor]
    cases x[j] <;> cases y[j] <;> cases z[j] <;> rfl
  have hmaj : (x &&& y) ||| (x &&& z) ||| (y &&& z) = maj x y z := by
    unfold maj
    ext j hj
    simp only [BitVec.getElem_or, BitVec.getElem_and, BitVec.getElem_xor]
    cases x[j] <;> cases y[j] <;> cases z[j] <;> rfl
  unfold fOf f
  simp only [land_ofWord, land_lnot_ofWord, lor_ofWord, xor_ofWord, hch, hmaj, apply_ite ofWord, parity]

theorem kOf_eq (i : ℕ) : kOf i = ofWord (k i) := by
  unfold kOf k
  simp only [apply_ite ofWord]
  rfl

variable (w : List Word)

theorem getD_map_ofWord (i : ℕ) : (w.map ofWord).getD i 0 = ofWord (w.getD i 0) :=
  getD_map w 0 ofWord

theorem roundStep_ofVars (v : Vars) (i : ℕ) :
    roundStep (w.map ofWord) (ofVars v) i = ofVars (Sha1.round w v i) := by
  unfold roundStep ofVars Sha1.round
  simp only [rotate_ofWord _ (by omega : 5 < 32), rotate_ofWord _ (by omega : 30 < 32), fOf_ofWord, kOf_eq,
    getD_map_ofWord]
  congr 1
  have hsum : ∀ a b c d e : Word, Int.land (ofWord a + ofWord b + ofWord c + ofWord d + ofWord e) 0xffffffff =
      ofWord (a + b + c + d + e) := by
    intro a b c d e
    change Int.land ((a.toNat + b.toNat + c.toNat + d.toNat + e.toNat : ℕ) : ℤ) 0xffffffff = _
    rw [land_mask]
    simp [ofWord]
  exact hsum _ _ _ _ _

/-! ### One block -/

theorem foldl_roundStep (ts : List ℕ) (v : Vars) :
    ts.foldl (roundStep (w.map ofWord)) (ofVars v) = ofVars (ts.foldl (Sha1.round w) v) :=
  foldl_hom ofVars (roundStep_ofVars w)

/-- The assignment to `w[i]` writes the next word of the schedule in the place of the first zero. -/
theorem expandStep_extend (hw : 16 ≤ w.length) (n : ℕ) : expandStep (w.map ofWord ++
    replicate (n + 1) 0) w.length = (extend w).map ofWord ++ replicate n 0 := by
  have hget : ∀ j, 0 < j → j ≤ 16 →
      (w.map ofWord ++ replicate (n + 1) 0).getD (w.length - j) 0 = ofWord (w.getD (w.length - j) 0) := by
    intro j hj0 hj
    rw [getD_append _ _ _ _ (by rw [length_map]; omega), getD_map_ofWord]
  unfold expandStep extend
  rw [hget 3 (by omega) (by omega), hget 8 (by omega) (by omega), hget 14 (by omega) (by omega),
    hget 16 (by omega) (by omega), xor_ofWord, xor_ofWord, xor_ofWord, rotate_ofWord _ (by omega)]
  rw [set_append_right _ _ (by rw [length_map]), length_map, Nat.sub_self, replicate_succ,
    set_cons_zero, map_append, append_assoc]
  rfl

theorem foldl_expandStep (w : List Word) (hw : w.length = 16) : ∀ n m : ℕ,
    (range' 16 n).foldl expandStep (w.map ofWord ++ replicate (n + m) 0) =
      (extend^[n] w).map ofWord ++ replicate m 0
  | 0, m => by rw [zero_add]; rfl
  | n + 1, m => by
    have hlen : (extend^[n] w).length = 16 + n := by rw [length_iterate_extend, hw]
    have ih := foldl_expandStep w hw n (m + 1)
    rw [range'_1_concat, foldl_append, add_right_comm n 1 m, add_assoc n m 1, ih,
      foldl_cons, foldl_nil, ← hlen, expandStep_extend _ (by omega), Function.iterate_succ_apply']

variable {block : List Byte}

theorem unpack_eq (h : block.length = 64) : unpack block = some ((words block).map ofWord) := by
  unfold unpack words
  rw [if_pos h, map_map]
  congr 1
  apply map_congr_left
  intro t ht
  have ht := mem_range.mp ht
  have hlt := ofBigEndian_lt ((block.drop (4 * t)).take 4)
  have hlen : ((block.drop (4 * t)).take 4).length = 4 := by
    rw [length_take, length_drop]
    omega
  rw [hlen] at hlt
  change _ = (((BitVec.ofNat 32 (ofBigEndian ((block.drop (4 * t)).take 4))).toNat : ℕ) : ℤ)
  rw [BitVec.toNat_ofNat, Nat.mod_eq_of_lt (by omega)]

theorem expandBlock_eq (hb : block.length = 64) :
    expandBlock block = some ((schedule block).map ofWord) := by
  have hfold := foldl_expandStep (words block) (length_words block) 64 0
  rw [replicate_zero, append_nil] at hfold
  unfold expandBlock
  rw [unpack_eq hb, Option.map_some]
  exact congrArg some hfold

/-- A block is compressed from the initial state, wherever it stands. -/
theorem blockStep_eq (hb : block.length = 64) :
    blockStep block = some (ofVars ((range 80).foldl (Sha1.round (schedule block)) initial)) := by
  have hrange : pyRange 0 80 1 = range 80 := by decide
  have hh : h = ofVars initial := rfl
  unfold blockStep
  rw [expandBlock_eq hb, Option.map_some, hrange, hh, foldl_roundStep]

/-! ### The whole message -/

theorem padding_eq {data : List Byte} (hlen : data.length < 2 ^ 61) :
    padding data = some (pad data) := by
  have hzeros : 63 - (data.length + 8) % 64 = zeros data.length := by
    unfold zeros
    omega
  unfold padding pad
  rw [if_pos (by omega), hzeros]
  simp only [append_assoc]

variable (data : List Byte)

theorem splitBlocks_pad : splitBlocks (pad data) = blocks (pad data) := by
  have hlen := length_pad data
  have hcount : ((pad data).length - 0 + (64 - 1)) / 64 = (pad data).length / 64 := by omega
  unfold splitBlocks pyRange blocks
  rw [hcount]
  apply ext_getElem
  · simp
  · simp

theorem foldlM_blockStep (bs : List (List Byte)) (v : Option Ints) (h : ∀ b ∈ bs, b.length = 64) :
    ∃ v', bs.foldlM (fun _ block => (blockStep block).map some) v = some v' := by
  obtain ⟨v', hv', _⟩ :=
    foldlM_induct (f := fun _ block => (blockStep block).map some) (I := fun _ _ => True) trivial
    fun _ b _ hb _ => ⟨_, by rw [blockStep_eq (h b hb)]; rfl, trivial⟩
  exact ⟨v', hv'⟩

/-- Only the last block is left of the loop. -/
theorem blockLoop_append {bs : List (List Byte)} {last : List Byte}
    (h : ∀ b ∈ bs ++ [last], b.length = 64) : blockLoop (bs ++ [last]) =
    some (some (ofVars ((range 80).foldl (Sha1.round (schedule last)) initial))) := by
  obtain ⟨v, hv⟩ := foldlM_blockStep bs none fun b hb => h b (mem_append_left _ hb)
  have hlast : last.length = 64 := h last (mem_append_right _ mem_cons_self)
  unfold blockLoop
  rw [foldlM_append, hv]
  change (blockStep last).map some >>= _ = _
  rw [blockStep_eq hlast]
  rfl

theorem finalSums_ofVars (v : Vars) : finalSums (ofVars v) = ofVars (initial.add v) := by
  have hsum : ∀ x y : Word, Int.land (ofWord x + ofWord y) 0xffffffff = ofWord (x + y) := by
    intro x y
    change Int.land ((x.toNat + y.toNat : ℕ) : ℤ) 0xffffffff = _
    rw [land_mask, ofWord, BitVec.toNat_add]
  have hh : h = ofVars initial := rfl
  unfold finalSums
  rw [hh]
  simp only [ofVars, hsum, Vars.add]

theorem hexDigits_zero : ∀ count : ℕ, hexDigits count 0 = replicate count '0'
  | 0 => rfl
  | count + 1 => by
    rw [hexDigits, Nat.zero_div, hexDigits_zero count, replicate_succ']
    rfl

theorem leftpad_toDigits : ∀ {count n : ℕ}, n < 16 ^ (count + 1) →
    (Nat.toDigits 16 n).leftpad (count + 1) '0' = hexDigits (count + 1) n
  | count, n, h => by
    rw [Nat.toDigits_eq_if (by omega)]
    split
    next hlt =>
      rw [hexDigits, Nat.div_eq_of_lt hlt, Nat.mod_eq_of_lt hlt, hexDigits_zero]
      rfl
    next hge =>
      -- a number of two digits or more has at least two places
      cases count with
      | zero => omega
      | succ count =>
        have ih := @leftpad_toDigits count (n / 16) (by omega)
        rw [hexDigits, ← ih]
        simp [leftpad]

theorem format_ofVars (v : Vars) : format (ofVars v) = hexDigest v := by
  have hhex : ∀ w : Word, hex08 (ofWord w) = hexDigits 8 w.toNat := by
    intro w
    exact leftpad_toDigits w.isLt
  unfold format ofVars hexDigest Vars.words
  simp only [hhex, flatMap_cons, flatMap_nil, append_nil, append_assoc]

/-- The last block of the padded message. -/
def lastBlock (data : List Byte) : List Byte := (blocks (pad data)).getLastD []

def earlierBlocks (data : List Byte) : List (List Byte) := (blocks (pad data)).dropLast

theorem blocks_eq : blocks (pad data) = earlierBlocks data ++ [lastBlock data] := by
  have hne : blocks (pad data) ≠ [] := by
    have hlen := length_pad data
    unfold blocks
    rw [ne_eq, map_eq_nil_iff, range_eq_nil]
    omega
  unfold earlierBlocks lastBlock
  rw [getLastD_eq_getLast?, getLast?_eq_some_getLast hne, Option.getD_some, dropLast_concat_getLast]

theorem length_blocks : (blocks (pad data)).length = (data.length + 8) / 64 + 1 := by
  have hlen := length_pad data
  unfold blocks
  rw [length_map, length_range]
  omega

/-- The state is never carried from a block to the next. -/
theorem finalHash_eq {data : List Byte} (hlen : data.length < 2 ^ 61) :
    finalHash data = some (hexDigest (compress initial (lastBlock data))) := by
  have hblocks : ∀ b ∈ earlierBlocks data ++ [lastBlock data], b.length = 64 := by
    rw [← blocks_eq]
    exact fun b hb => length_of_mem_blocks hb
  unfold finalHash
  rw [padding_eq hlen, Option.bind_some, splitBlocks_pad, blocks_eq, blockLoop_append hblocks,
    Option.bind_some, Option.map_some, finalSums_ofVars, format_ofVars]
  rfl

theorem digest_eq : digest data = compress (chain (earlierBlocks data)) (lastBlock data) := by
  unfold digest
  rw [blocks_eq]
  unfold chain
  rw [foldl_append]
  rfl

/-- The result is the SHA-1 digest for every message of one block, and for a longer message exactly
if the state after its earlier blocks and the initial state compress its last block to the same
digest. -/
theorem finalHash_iff (data : List Byte) (hlen : data.length < 2 ^ 61) :
    (data.length ≤ 55 → finalHash data = some (hexDigest (digest data))) ∧
      (finalHash data = some (hexDigest (digest data)) ↔ compress initial (lastBlock data) =
      compress (chain (earlierBlocks data)) (lastBlock data)) := by
  have hiff : finalHash data = some (hexDigest (digest data)) ↔
      compress initial (lastBlock data) = compress (chain (earlierBlocks data)) (lastBlock data) := by
    rw [finalHash_eq hlen, digest_eq, Option.some_inj]
    constructor
    · exact hexDigest_injective
    · exact congrArg hexDigest
  refine ⟨fun hshort => ?_, hiff⟩
  apply hiff.mpr
  have hnone : earlierBlocks data = [] := by
    apply eq_nil_of_length_eq_zero
    unfold earlierBlocks
    rw [length_dropLast, length_blocks]
    omega
  rw [hnone]
  rfl

/-- The message `abc`. -/
theorem finalHash_abc :
    finalHash [0x61, 0x62, 0x63] = some (hexDigest (digest [0x61, 0x62, 0x63])) :=
  (finalHash_iff [0x61, 0x62, 0x63] (by decide)).1 (by decide)

/-- A message of 56 bytes has two blocks, and its digest is not found. -/
theorem finalHash_ne_of_two_blocks :
    finalHash (List.replicate 56 0) ≠ some (hexDigest (digest (List.replicate 56 0))) := by
  decide +kernel

end Code365.Algorithms.Sha1Hash
