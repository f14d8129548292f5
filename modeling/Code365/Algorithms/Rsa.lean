import Code365.Lib.Python

/-! # RSA on messages (`python/ciphers/rsa_cipher.py`, `cryptomath_module.py`)

A message is cut into blocks, each the number whose base 256 digits are the bytes, the first byte
the lowest; the last block may be short.  Blocks are encrypted by `pow(block, e, n)` and decrypted
by `pow(block, d, n)`, where `d` comes from the extended Euclidean loop of `findModInverse`.
Decryption of an encryption gives the message back (`decryptMessage_encryptMessage`).

A Python string is the list of its code points. -/

namespace Code365.Algorithms.Rsa

open List Nat Int Option Python

/-! ### `cryptomath_module` -/

/-- The loop of `gcd`. -/
def gcd (a b : ℤ) : ℤ := if a = 0 then b else gcd (b.fmod a) a
termination_by a.natAbs
decreasing_by exact natAbs_fmod_lt b ‹_›

/-- The loop of `findModInverse`; the result is `u1`. -/
def inverseLoop (u1 u2 u3 v1 v2 v3 : ℤ) : ℤ :=
  if v3 = 0 then u1
  else inverseLoop v1 v2 v3 (u1 - u3.fdiv v3 * v1) (u2 - u3.fdiv v3 * v2) (u3 - u3.fdiv v3 * v3)
termination_by v3.natAbs
decreasing_by
  rw [sub_fdiv_mul]
  exact natAbs_fmod_lt u3 ‹_›

def findModInverse (a m : ℤ) : Option ℤ :=
  if gcd a m ≠ 1 then none else some ((inverseLoop 1 0 a 0 1 m).fmod m)

theorem gcd_eq {a b : ℤ} (ha : 0 ≤ a) (hb : 0 ≤ b) : gcd a b = Int.gcd a b := by
  fun_induction gcd a b with
  | case1 b =>
    rw [Int.gcd_zero_left, natAbs_of_nonneg hb]
  | case2 a b h ih =>
    rw [ih (fmod_nonneg hb ha) ha, fmod_of_nonneg ha, Int.gcd_comm a b, gcd_emod]

/-- The loop keeps `u3` and `v3` as combinations of `a` and `m`, and ends with their gcd. -/
theorem inverseLoop_spec {a m u1 u2 u3 v1 v2 v3 : ℤ} (hu : u1 * a + u2 * m = u3)
    (hv : v1 * a + v2 * m = v3) (hu3 : 0 ≤ u3) (hv3 : 0 ≤ v3) :
    ∃ s, inverseLoop u1 u2 u3 v1 v2 v3 * a + s * m = Int.gcd u3 v3 := by
  fun_induction inverseLoop u1 u2 u3 v1 v2 v3 with
  | case1 u1 u2 u3 v1 v2 =>
    refine ⟨u2, ?_⟩
    rw [hu, Int.gcd_zero_right, natAbs_of_nonneg hu3]
  | case2 u1 u2 u3 v1 v2 v3 h ih =>
    have hrest : (u1 - u3.fdiv v3 * v1) * a + (u2 - u3.fdiv v3 * v2) * m = u3 - u3.fdiv v3 * v3 := by
      linear_combination hu - u3.fdiv v3 * hv
    have hnonneg : 0 ≤ u3 - u3.fdiv v3 * v3 := by
      rw [sub_fdiv_mul]
      exact fmod_nonneg hu3 hv3
    obtain ⟨s, hs⟩ := ih hv hrest hv3 hnonneg
    refine ⟨s, hs.trans ?_⟩
    rw [sub_fdiv_mul, fmod_of_nonneg hv3, Int.gcd_comm v3, gcd_emod]

theorem findModInverse_spec {a m : ℕ} (hm : 0 < m) (h : a.Coprime m) :
    ∃ d : ℕ, findModInverse a m = some (d : ℤ) ∧ a * d ≡ 1 [MOD m] := by
  have hgcd : Int.gcd (a : ℤ) m = 1 := h
  obtain ⟨s, hs⟩ := inverseLoop_spec (m := m) (by ring : (1 : ℤ) * a + 0 * m = a)
    (by ring : (0 : ℤ) * a + 1 * m = m) (natCast_nonneg a) (natCast_nonneg m)
  rw [hgcd] at hs
  have hfmod : (inverseLoop 1 0 a 0 1 m).fmod m = inverseLoop 1 0 a 0 1 m % m :=
    fmod_of_nonneg (natCast_nonneg m)
  have hpos : 0 ≤ inverseLoop 1 0 a 0 1 m % m := emod_nonneg _ (by omega)
  refine ⟨(inverseLoop 1 0 a 0 1 m % m).toNat, ?_, ?_⟩
  · unfold findModInverse
    rw [if_neg, hfmod, toNat_of_nonneg hpos]
    rw [gcd_eq (natCast_nonneg a) (natCast_nonneg m), hgcd]
    simp
  · rw [← natCast_modEq_iff]
    push_cast
    rw [toNat_of_nonneg hpos]
    calc (a : ℤ) * (inverseLoop 1 0 a 0 1 m % m)
        ≡ a * inverseLoop 1 0 a 0 1 m [ZMOD m] := Int.ModEq.mul_left _ (Int.mod_modEq _ _)
      _ ≡ 1 [ZMOD m] := by
          rw [Int.modEq_iff_dvd]
          exact ⟨s, by linear_combination -hs⟩

/-! ### Blocks -/

def BYTE_SIZE : ℕ := 256

/-- A Python string by its code points. -/
abbrev PyStr := List ℕ

/-- `message.encode('ascii')`; `none` for a `UnicodeEncodeError`. -/
def encodeAscii (message : PyStr) : Option (List ℕ) := if ∀ c ∈ message, c < 128 then some message else none

/-- The inner loop of `getBlocksFromText`. -/
def blockFrom (messageBytes : List ℕ) (blockSize blockStart : ℕ) : ℕ :=
  (pyRange blockStart (min (blockStart + blockSize) messageBytes.length) 1).foldl
    (fun blockInt i => blockInt + messageBytes.getD i 0 * BYTE_SIZE ^ (i % blockSize)) 0

/-- `none` for an exception: the message is not ASCII, or `range` gets the step 0. -/
def getBlocksFromText (message : PyStr) (blockSize : ℕ) : Option (List ℕ) :=
  if blockSize = 0 then none
  else (encodeAscii message).map fun messageBytes =>
    (pyRange 0 messageBytes.length blockSize).map (blockFrom messageBytes blockSize)

/-- `chr(n)`; `none` for a `ValueError`. -/
def chr (n : ℕ) : Option ℕ := if n < 0x110000 then some n else none

/-- The inner loop of `getTextFromBlocks`, for `i` from the first argument less one down to 0;
`done` is `len(message)`. -/
def blockText (messageLength done : ℕ) : ℕ → ℕ → List ℕ → Option (List ℕ)
  | 0, _, blockMessage => some blockMessage
  | i + 1, blockInt, blockMessage =>
    if done + i < messageLength then
      (chr (blockInt / BYTE_SIZE ^ i)).bind fun c =>
        blockText messageLength done i (blockInt % BYTE_SIZE ^ i) (c :: blockMessage)
    else blockText messageLength done i blockInt blockMessage

def getTextFromBlocks (blockInts : List ℕ) (messageLength blockSize : ℕ) : Option PyStr :=
  blockInts.foldlM (fun message blockInt =>
    (blockText messageLength message.length blockSize blockInt []).map (message ++ ·)) []

def powMod (block exponent n : ℕ) : ℕ := block ^ exponent % n

def encryptMessage (message : PyStr) (key : ℕ × ℕ) (blockSize : ℕ) : Option (List ℕ) :=
  (getBlocksFromText message blockSize).map fun blocks => blocks.map fun block => powMod block key.2 key.1

def decryptMessage (encryptedBlocks : List ℕ) (messageLength : ℕ) (key : ℕ × ℕ)
    (blockSize : ℕ) : Option PyStr :=
  getTextFromBlocks (encryptedBlocks.map fun block => powMod block key.2 key.1) messageLength blockSize

/-! ### Blocks and their text -/

variable {bytes message : List ℕ} {blockSize start messageLength done p q e d x keySize : ℕ}

theorem foldl_block (hs : start % blockSize = 0) : ∀ {n : ℕ}, n ≤ blockSize → start + n ≤
    bytes.length → (List.range' start n 1).foldl (fun blockInt i => blockInt + bytes.getD i 0 *
    BYTE_SIZE ^ (i % blockSize)) 0 = ofDigits BYTE_SIZE ((bytes.drop start).take n)
  | 0, _, _ => by simp
  | n + 1, hn, hl => by
    have hlt : n < (bytes.drop start).length := by
      rw [length_drop]
      omega
    have hmod : (start + n) % blockSize = n := by
      rw [add_mod, hs, zero_add, mod_mod, mod_eq_of_lt (by omega)]
    have hget : bytes.getD (start + n) 0 = (bytes.drop start)[n] := by
      rw [getElem_drop, getD_eq_getElem _ _ (by omega)]
    rw [range'_concat, foldl_append, foldl_block hs (by omega) (by omega), one_mul,
      take_add_one, getElem?_eq_getElem hlt, toList_some, ofDigits_append,
      length_take, min_eq_left (by omega), foldl_cons, foldl_nil, hmod, hget,
      ofDigits_singleton, mul_comm]

theorem blockFrom_eq (hs : start % blockSize = 0) (hl : start ≤ bytes.length) : blockFrom bytes
    blockSize start = ofDigits BYTE_SIZE ((bytes.drop start).take blockSize) := by
  have hcount : (min (start + blockSize) bytes.length - start + (1 - 1)) / 1 =
      min blockSize (bytes.length - start) := by
    omega
  unfold blockFrom pyRange
  rw [hcount, foldl_block hs (min_le_left _ _) (by omega), ← length_drop, ← take_eq_take_min]

theorem blockText_skip {r : ℕ} (h : messageLength ≤ done + r) (blockInt : ℕ)
    (blockMessage : List ℕ) : ∀ n, blockText messageLength done (r + n) blockInt blockMessage =
    blockText messageLength done r blockInt blockMessage
  | 0 => rfl
  | n + 1 => by
    rw [← add_assoc, blockText, if_neg (by omega), blockText_skip h]

theorem blockText_ofDigits {l : List ℕ} (hd : ∀ c ∈ l, c < BYTE_SIZE)
    (hlen : done + l.length ≤ messageLength) (blockMessage : List ℕ) : blockText messageLength done
    l.length (ofDigits BYTE_SIZE l) blockMessage = some (l ++ blockMessage) := by
  induction l using List.reverseRecOn generalizing blockMessage with
  | nil => rfl
  | append_singleton l c ih =>
    have hl : ∀ c ∈ l, c < BYTE_SIZE := fun c hc => hd c (by simp [hc])
    have hc : c < 256 := hd c (by simp)
    have hlt : ofDigits BYTE_SIZE l < BYTE_SIZE ^ l.length := ofDigits_lt_base_pow_length (by decide) hl
    have hpos : 0 < BYTE_SIZE ^ l.length := by omega
    rw [length_append, length_singleton] at hlen
    rw [length_append, length_singleton, blockText, if_pos (by omega), ofDigits_append,
      ofDigits_singleton, add_mul_div_left _ _ hpos, div_eq_of_lt hlt, add_mul_mod_self_left,
      mod_eq_of_lt hlt, zero_add]
    have hchr : chr c = some c := if_pos (by omega)
    rw [hchr, bind_some, ih hl (by omega), append_assoc]
    rfl

theorem blockText_chunk (hd : ∀ c ∈ message, c < BYTE_SIZE) (hs : start ≤ message.length) :
    blockText message.length start blockSize (ofDigits BYTE_SIZE
    ((message.drop start).take blockSize)) [] = some ((message.drop start).take blockSize) := by
  have hdigits : ∀ c ∈ (message.drop start).take blockSize, c < BYTE_SIZE :=
    fun c hc => hd c (drop_subset _ _ (take_subset _ _ hc))
  have hlen : ((message.drop start).take blockSize).length = min blockSize (message.length - start) := by
    rw [length_take, length_drop]
  have hfit : start + ((message.drop start).take blockSize).length ≤ message.length := by omega
  have htext := blockText_ofDigits hdigits hfit []
  rw [append_nil] at htext
  obtain hle | hgt := le_total blockSize (message.length - start)
  · rw [hlen, min_eq_left hle] at htext
    exact htext
  · rw [hlen, min_eq_right hgt] at htext
    obtain ⟨n, hn⟩ := Nat.exists_eq_add_of_le hgt
    rw [hn, blockText_skip (by omega), ← hn]
    exact htext

theorem foldlM_blocks (hd : ∀ c ∈ message, c < BYTE_SIZE) : ∀ {j : ℕ},
    (∀ i < j, blockSize * i ≤ message.length) → ((List.range' 0 j blockSize).map fun start =>
    ofDigits BYTE_SIZE ((message.drop start).take blockSize)).foldlM (fun text blockInt =>
    (blockText message.length text.length blockSize blockInt []).map (text ++ ·)) [] =
    some (message.take (blockSize * j))
  | 0, _ => by simp
  | j + 1, h => by
    have hj : blockSize * j ≤ message.length := h j (by omega)
    have hlen : (message.take (blockSize * j)).length = blockSize * j := by
      rw [length_take, min_eq_left hj]
    rw [range'_concat, map_append, foldlM_append, foldlM_blocks hd fun i hi => h i (by omega)]
    simp only [map_cons, map_nil, foldlM_cons, foldlM_nil, Option.pure_def, bind_eq_bind,
      bind_some, zero_add, hlen, blockText_chunk hd hj, map_some]
    rw [mul_succ, take_add]

/-! ### The exponents -/

theorem pow_modEq_self {k : ℕ} (hp : p.Prime) (h : k ≡ 1 [MOD p - 1]) (hk : 0 < k) (x : ℕ) :
    x ^ k ≡ x [MOD p] := by
  have hfact : Fact p.Prime := ⟨hp⟩
  obtain ⟨c, hc⟩ := (modEq_iff_dvd' (by omega)).mp h.symm
  have hkc : k = (p - 1) * c + 1 := by omega
  rw [← ZMod.natCast_eq_natCast_iff]
  push_cast
  by_cases hx : (x : ZMod p) = 0
  · rw [hx, zero_pow (by omega)]
  · rw [hkc, pow_succ, pow_mul, ZMod.pow_card_sub_one_eq_one hx, one_pow, one_mul]

theorem powMod_powMod (hp : p.Prime) (hq : q.Prime) (hpq : p ≠ q)
    (hed : e * d ≡ 1 [MOD (p - 1) * (q - 1)]) (hpos : 0 < e * d) (hx : x < p * q) :
    powMod (powMod x e (p * q)) d (p * q) = x := by
  have hmodp : x ^ (e * d) ≡ x [MOD p] := pow_modEq_self hp (hed.of_mul_right _) hpos x
  have hmodq : x ^ (e * d) ≡ x [MOD q] := pow_modEq_self hq (hed.of_mul_left _) hpos x
  have hmod : x ^ (e * d) ≡ x [MOD p * q] :=
    (modEq_and_modEq_iff_modEq_mul ((coprime_primes hp hq).mpr hpq)).mp ⟨hmodp, hmodq⟩
  unfold powMod
  rw [← pow_mod, ← pow_mul, hmod, mod_eq_of_lt hx]

/-! ### Messages -/

theorem block_lt (hp : 2 ^ (keySize - 1) ≤ p) (hq : 2 ^ (keySize - 1) ≤ q)
    (hbk : blockSize * 8 ≤ keySize) (hx : x < BYTE_SIZE ^ blockSize) : x < p * q := by
  calc x < BYTE_SIZE ^ blockSize := hx
    _ = 2 ^ (8 * blockSize) := by rw [pow_mul]; rfl
    _ ≤ 2 ^ (keySize - 1 + (keySize - 1)) := Nat.pow_le_pow_right (by omega) (by omega)
    _ = 2 ^ (keySize - 1) * 2 ^ (keySize - 1) := pow_add _ _ _
    _ ≤ p * q := Nat.mul_le_mul hp hq

theorem exponents_pos (hpq : p ≠ q) (hed : e * d ≡ 1 [MOD (p - 1) * (q - 1)]) : 0 < e * d := by
  by_contra hz
  rw [Nat.eq_zero_of_not_pos hz, modEq_iff_dvd' (by omega), dvd_one, mul_eq_one] at hed
  omega

theorem map_powMod_blocks (hp : p.Prime) (hq : q.Prime) (hpq : p ≠ q) (hplo : 2 ^ (keySize - 1) ≤ p)
    (hqlo : 2 ^ (keySize - 1) ≤ q) (hed : e * d ≡ 1 [MOD (p - 1) * (q - 1)])
    (hbk : blockSize * 8 ≤ keySize) (hd : ∀ c ∈ message, c < BYTE_SIZE) (starts : List ℕ) :
    ((starts.map fun start => ofDigits BYTE_SIZE ((message.drop start).take blockSize)).map
    fun block => powMod block e (p * q)).map (fun block => powMod block d (p * q)) =
    starts.map fun start => ofDigits BYTE_SIZE ((message.drop start).take blockSize) := by
  rw [List.map_map, List.map_map]
  refine map_congr_left fun start _ => powMod_powMod hp hq hpq hed (exponents_pos hpq hed) ?_
  apply block_lt hplo hqlo hbk
  have hlt : ofDigits BYTE_SIZE ((message.drop start).take blockSize) <
      BYTE_SIZE ^ ((message.drop start).take blockSize).length :=
    ofDigits_lt_base_pow_length (by decide) fun c hc => hd c (drop_subset _ _ (take_subset _ _ hc))
  exact hlt.trans_le (Nat.pow_le_pow_right (by decide) (length_take_le _ _))

theorem getBlocksFromText_eq {message : PyStr} (hb : 1 ≤ blockSize)
    (hascii : ∀ c ∈ message, c < 128) : getBlocksFromText message blockSize = some
    ((List.range' 0 ((message.length + (blockSize - 1)) / blockSize) blockSize).map fun start =>
    ofDigits BYTE_SIZE ((message.drop start).take blockSize)) := by
  unfold getBlocksFromText encodeAscii
  rw [if_neg (by omega), if_pos hascii, map_some, pyRange, Nat.sub_zero]
  congr 1
  refine map_congr_left fun start hs => ?_
  obtain ⟨i, hi, rfl⟩ := mem_range'.mp hs
  rw [zero_add]
  exact blockFrom_eq (mul_mod_right _ _) (mul_le_of_lt_count hi)

/-- Every ASCII message is decrypted from its encryption. -/
theorem decryptMessage_encryptMessage {p q e keySize blockSize : ℕ} {message : PyStr} (hp : p.Prime)
    (hq : q.Prime) (hpq : p ≠ q) (hplo : 2 ^ (keySize - 1) ≤ p) (hqlo : 2 ^ (keySize - 1) ≤ q)
    (he : Nat.gcd e ((p - 1) * (q - 1)) = 1) (hb : 1 ≤ blockSize) (hbk : blockSize * 8 ≤ keySize)
    (hascii : ∀ c ∈ message, c < 128) : ∃ d : ℕ, findModInverse e ((p - 1) * (q - 1) : ℕ) =
      some (d : ℤ) ∧ (encryptMessage message (p * q, e) blockSize).bind (fun blocks =>
      decryptMessage blocks message.length (p * q, d) blockSize) = some message := by
  have hm : 0 < (p - 1) * (q - 1) :=
    Nat.mul_pos (Nat.sub_pos_of_lt hp.one_lt) (Nat.sub_pos_of_lt hq.one_lt)
  have hbyte : ∀ c ∈ message, c < BYTE_SIZE := fun c hc => (hascii c hc).trans (by decide)
  obtain ⟨d, hd, hed⟩ := findModInverse_spec hm he
  refine ⟨d, hd, ?_⟩
  unfold encryptMessage decryptMessage getTextFromBlocks
  rw [getBlocksFromText_eq hb hascii, map_some, bind_some,
    map_powMod_blocks hp hq hpq hplo hqlo hed hbk hbyte, foldlM_blocks hbyte, take_of_length_le]
  · have hdiv := lt_div_mul_add (a := message.length + (blockSize - 1)) (b := blockSize) (by omega)
    rw [mul_comm] at hdiv
    omega
  · exact fun i hi => mul_le_of_lt_count hi

theorem decryptMessage_encryptMessage_hi : ∃ d : ℕ, findModInverse 3 ((131 - 1) * (137 - 1) : ℕ) =
      some (d : ℤ) ∧ (encryptMessage [72, 105] (131 * 137, 3) 1).bind (fun blocks =>
      decryptMessage blocks 2 (131 * 137, d) 1) = some [72, 105] :=
  decryptMessage_encryptMessage (by norm_num) (by norm_num) (by decide)
    (by decide : 2 ^ (8 - 1) ≤ 131) (by decide)
    (by decide) (by decide) (by decide) (by decide)

end Code365.Algorithms.Rsa
