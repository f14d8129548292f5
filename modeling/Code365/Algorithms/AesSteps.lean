import Code365.Algorithms.Aes
import Code365.Lib.Yields

/-! # The steps of `AES` on states

A block is the number of a state of the cipher (`toBlock`).  Each step of a round returns exactly if
no text in it has to be filled up with zeros, and then does to the state what the step of the cipher
does: `onCells_does` for the steps that go through the cells, `nextRoundKey_yields` for the key
expansion. -/

namespace Code365.Algorithms.AesBlock

open List Option Digits
open scoped Aes

/-! ### Padding and substrings -/

/-- The padding loop ends only if it is not entered. -/
theorem zeroPadding_eq : ∀ (fuel length n : ℕ) (s : List Char),
    zeroPadding fuel length n s = if length < n then none else some s
  | 0, length, n, s => rfl
  | fuel + 1, length, n, s => by
    unfold zeroPadding
    split
    next hlt => rw [zeroPadding_eq fuel, if_pos hlt]
    next => rfl

/-- Writing a number of bytes in full: it takes no padding exactly if its highest digit is not
zero. -/
theorem zeroPadding_toDigits {b m : ℕ} (hb : 1 < b) {ds : List ℕ} (h : ∀ d ∈ ds, d < b ^ m) {c : ℕ}
    (hc0 : 0 < c) (hc : ds.length * m = c + 1) (fuel : ℕ) :
    Yields (zeroPadding fuel (Nat.toDigits b (ofDigits (b ^ m) ds)).length (c + 1)
    (Nat.toDigits b (ofDigits (b ^ m) ds))) (b ^ c ≤ ofDigits (b ^ m) ds) (spelled b m ds) := by
  have hshort : (Nat.toDigits b (ofDigits (b ^ m) ds)).length < c + 1 ↔ ofDigits (b ^ m) ds < b ^ c := by
    rw [Nat.lt_succ_iff, Nat.length_toDigits_le_iff hb hc0]
  rw [zeroPadding_eq]
  split
  next hlt =>
    exact fun s => ⟨nofun, fun hs => absurd hs.1 (by omega)⟩
  next hge =>
    rw [hshort, not_lt] at hge
    exact .of_eq (by rw [toDigits_ofDigits hb h hc hge]) hge

variable {d fuel : ℕ} {s : Aes.State}

theorem zeroPadding_cell {b c : ℕ} (hb : 1 < b) (hc0 : 0 < c) (hd : d < b ^ (c + 1)) (fuel : ℕ) :
    Yields (zeroPadding fuel (Nat.toDigits b d).length (c + 1) (Nat.toDigits b d)) (b ^ c ≤
    d) (spelled b (c + 1) [d]) := by
  have h := zeroPadding_toDigits hb (forall_mem_singleton.mpr hd) hc0 (by rw [length_singleton, one_mul]) fuel
  rwa [show ofDigits (b ^ (c + 1)) [d] = d by simp [ofDigits]] at h

theorem substring_append (s t u : List Char) :
    substring (s ++ t ++ u) s.length (s.length + t.length) = some t := by
  unfold substring
  rw [if_pos ⟨by omega, by rw [length_append, length_append]; omega⟩, ← length_append,
    take_left, drop_left]

theorem substring_spelled (b m : ℕ) (pre post : List ℕ) (d : ℕ) :
    substring (spelled b m (pre ++ d :: post)) (pre.length * m) ((pre.length + 1) * m) =
    some (spelled b m [d]) := by
  have h := substring_append (spelled b m pre) (spelled b m [d]) (spelled b m post)
  rw [length_spelled, length_spelled, ← spelled_append, ← spelled_append, append_assoc] at h
  rw [Nat.succ_mul]
  simpa using h

/-! ### Splitting and merging -/

theorem parse_cell {b m : ℕ} (hb : 1 < b) (hb' : b ≤ 16) (hm : 0 < m) (hd : d < b ^ m) :
    parse b (spelled b m [d]) = some d := by
  rw [parse_spelled hb hb' hm (cons_ne_nil _ _) (forall_mem_singleton.mpr hd)]
  simp [ofDigits]

theorem mapM_cells : ∀ pre post : List ℕ, (∀ d ∈ post, d < 2 ^ 8) →
    (List.range' pre.length post.length).mapM (fun i =>
    (substring (spelled 2 8 (pre ++ post)) (8 * i) (8 * (i + 1))).bind (parse 2)) = some post
  | _, [], _ => rfl
  | pre, d :: post, h => by
    have hd : d < 2 ^ 8 := h d mem_cons_self
    have ih := mapM_cells (pre ++ [d]) post fun d hd => h d (mem_cons_of_mem _ hd)
    rw [length_append, length_singleton, append_assoc, singleton_append] at ih
    rw [length_cons, range'_succ, mapM_cons, mul_comm 8, mul_comm 8, substring_spelled,
      bind_some, parse_cell (by omega) (by omega) (by omega) hd, ih]
    rfl

theorem splitBlockIntoCells_yields {ds : List ℕ} (hlen : ds.length = 16) (h : ∀ d ∈ ds, d < 2 ^ 8)
    (fuel : ℕ) :
    Yields (splitBlockIntoCells fuel (ofDigits 256 ds)) (2 ^ 127 ≤ ofDigits 256 ds) ds := by
  have hmap := mapM_cells [] ds h
  rw [hlen] at hmap
  exact (zeroPadding_toDigits (by omega) h (by omega) (by omega) fuel).bind_eq hmap

theorem foldlM_merge (fuel : ℕ) : ∀ {cells : List ℕ} {acc : List Char}, (∀ d ∈ cells, d < 2 ^ 8) →
    Yields (cells.foldlM (fun blockBits cell =>
    (zeroPadding fuel (Nat.toDigits 2 cell).length 8 (Nat.toDigits 2 cell)).map (blockBits ++ ·))
    acc) (∀ d ∈ cells, 128 ≤ d) (acc ++ spelled 2 8 cells)
  | [], acc, _ => .of_eq (congrArg some (append_nil acc).symm) nofun
  | d :: cells, acc, h => by
    have hcell : spelled 2 8 (d :: cells) = spelled 2 8 [d] ++ spelled 2 8 cells :=
      spelled_append 2 8 [d] cells
    rw [forall_mem_cons] at h
    rw [foldlM_cons, hcell, ← append_assoc, forall_mem_cons]
    exact ((zeroPadding_cell (by omega) (by omega) h.1 fuel).map _).bind fun _ => foldlM_merge fuel h.2

theorem mergeCellsIntoBlock_yields {cells : List ℕ} (hlen : cells.length = 16)
    (h : ∀ d ∈ cells, d < 2 ^ 8) (fuel : ℕ) :
    Yields (mergeCellsIntoBlock fuel cells) (∀ d ∈ cells, 128 ≤ d) (ofDigits 256 cells) := by
  have hne : cells ≠ [] := by
    rintro rfl
    exact absurd hlen (by decide)
  exact (foldlM_merge fuel h).bind_eq (parse_spelled (by omega) (by omega) (by omega) hne h)

/-! ### States and blocks -/

/-- The cells of a state, column by column. -/
def cells (s : Aes.State) : List ℕ :=
  [0, 1, 2, 3].flatMap fun c => [0, 1, 2, 3].map fun r => (s c r).toNat

def toBlock (s : Aes.State) : ℕ := ofDigits 256 (cells s)

/-- The state of a block: the byte of column `c` and row `r` is cell `4 c + r`. -/
def ofBlock (n : ℕ) : Aes.State := fun c r => BitVec.ofNat 8 ((digits 256 16 n).getD (4 * c + r) 0)

theorem length_cells (s : Aes.State) : (cells s).length = 16 := rfl

theorem forall_cells {p : ℕ → Prop} : (∀ d ∈ cells s, p d) ↔ ∀ c r, p (s c r).toNat := by
  simp [cells, Fin.forall_fin_succ, and_assoc]

theorem cells_lt : ∀ d ∈ cells s, d < 2 ^ 8 := forall_cells.mpr fun c r => (s c r).isLt

theorem toBlock_ofBlock {n : ℕ} (h : n < 2 ^ 128) : toBlock (ofBlock n) = n := by
  have hcells : cells (ofBlock n) = digits 256 16 n := by
    change (List.range 16).map (fun i => (BitVec.ofNat 8 ((digits 256 16 n).getD i 0)).toNat) = digits 256 16 n
    apply ext_getElem
    · rw [length_map, length_range, length_digits]
    · intro i hi hi'
      have hlt : (digits 256 16 n)[i] < 256 := digits_lt (by omega) (getElem_mem hi')
      rw [getElem_map, getElem_range, getD_eq_getElem _ _ hi', BitVec.toNat_ofNat,
        Nat.mod_eq_of_lt hlt]
  unfold toBlock
  rw [hcells]
  exact ofDigits_digits 256 16 n h

theorem toBlock_lt (s : Aes.State) : toBlock s < 2 ^ 128 := by
  have h := ofDigits_lt (cells s) cells_lt
  rw [length_cells, ← Nat.pow_mul] at h
  exact h

/-- No cell is written with a leading zero. -/
def Full (s : Aes.State) : Prop := ∀ c r, 128 ≤ (s c r).toNat

theorem full_iff : Full s ↔ ∀ d ∈ cells s, 128 ≤ d := forall_cells.symm

/-- The block is written without a leading zero exactly if its first cell is. -/
theorem le_toBlock_iff (s : Aes.State) : 2 ^ 127 ≤ toBlock s ↔ 128 ≤ (s 0 0).toNat := by
  have hsplit : cells s = [(s 0 0).toNat] ++ (cells s).tail := rfl
  have hrest : ofDigits 256 (cells s).tail < 256 ^ (cells s).tail.length :=
    ofDigits_lt (cells s).tail fun d hd => cells_lt d (mem_of_mem_tail hd)
  have hfirst : ofDigits 256 [(s 0 0).toNat] = (s 0 0).toNat := by simp [ofDigits]
  unfold toBlock
  rw [length_tail, length_cells] at hrest
  rw [hsplit, ofDigits_append, length_tail, length_cells, hfirst]
  omega

/-- A step on blocks does to states what `F` does, and returns exactly if no cell takes a leading
zero. -/
def Does (f : ℕ → Option ℕ) (F : Aes.State → Aes.State) : Prop :=
  ∀ s, Yields (f (toBlock s)) (128 ≤ (s 0 0).toNat ∧ Full (F s)) (toBlock (F s))

theorem onCells_does {g : List ℕ → List ℕ} {F : Aes.State → Aes.State}
    (hg : ∀ s, g (cells s) = cells (F s)) (fuel : ℕ) : Does (onCells g fuel) F := by
  intro s
  rw [← le_toBlock_iff, full_iff]
  refine (splitBlockIntoCells_yields (length_cells s) cells_lt fuel).bind fun _ => ?_
  rw [hg]
  exact mergeCellsIntoBlock_yields (length_cells (F s)) cells_lt fuel

theorem subBytes_does (fuel : ℕ) : Does (subBytes fuel) (Aes.subBytes sbox) := by
  apply onCells_does
  intro s
  simp only [cells, flatMap_cons, flatMap_nil, map_cons, map_nil, cons_append, nil_append,
    getD_SBOX, Aes.subBytes]

theorem subBytesDec_does (fuel : ℕ) : Does (subBytesDec fuel) (Aes.invSubBytes sbox) := by
  apply onCells_does
  intro s
  simp only [cells, flatMap_cons, flatMap_nil, map_cons, map_nil, cons_append, nil_append,
    getD_INVERSE_SBOX, Aes.invSubBytes]

theorem shiftRows_does (fuel : ℕ) :
    Does (shiftRows fuel) Aes.shiftRows := onCells_does (fun _ => rfl) fuel

theorem shiftRowsDec_does (fuel : ℕ) :
    Does (shiftRowsDec fuel) Aes.invShiftRows := onCells_does (fun _ => rfl) fuel

theorem onRows_cells {f : ℕ → ℕ → ℕ → ℕ → List ℕ} {F : Aes.Column → Aes.Column}
    (h : ∀ x : Aes.Column, f (x 0).toNat (x 1).toNat (x 2).toNat (x 3).toNat =
    [0, 1, 2, 3].map fun r => (F x r).toNat) (s : Aes.State) :
    onRows f (cells s) = cells fun c => F (s c) := by
  change f (s 0 0).toNat (s 0 1).toNat (s 0 2).toNat (s 0 3).toNat ++
    (f (s 1 0).toNat (s 1 1).toNat (s 1 2).toNat (s 1 3).toNat ++
    (f (s 2 0).toNat (s 2 1).toNat (s 2 2).toNat (s 2 3).toNat ++
    (f (s 3 0).toNat (s 3 1).toNat (s 3 2).toNat (s 3 3).toNat ++ []))) = _
  rw [h, h, h, h]
  rfl

theorem mixColumns_does (fuel : ℕ) : Does (mixColumns fuel) Aes.mixColumns := by
  apply onCells_does
  apply onRows_cells
  intro x
  unfold mixRow Aes.mixColumn
  simp only [getD_MULT2, getD_MULT3, map_cons, map_nil, BitVec.toNat_xor, Fin.reduceAdd]
  ac_rfl

theorem mixColumnsDec_does (fuel : ℕ) : Does (mixColumnsDec fuel) Aes.invMixColumns := by
  apply onCells_does
  apply onRows_cells
  intro x
  unfold mixRowDec Aes.invMixColumn
  simp only [getD_MULT9, getD_MULT11, getD_MULT13, getD_MULT14, map_cons, map_nil, BitVec.toNat_xor,
    Fin.reduceAdd]
  ac_rfl

theorem addRoundKey_toBlock (s k : Aes.State) :
    addRoundKey (toBlock s) (toBlock k) = toBlock (Aes.addRoundKey s k) := by
  have hcells : ∀ s : Aes.State, cells s =
      ([0, 1, 2, 3].flatMap fun c => [0, 1, 2, 3].map fun r => (c, r)).map
        fun p : Fin 4 × Fin 4 => (s p.1 p.2).toNat := fun _ => rfl
  have hlt : ∀ s : Aes.State, ∀ p : Fin 4 × Fin 4, (s p.1 p.2).toNat < 2 ^ 8 := fun s p => (s p.1 p.2).isLt
  unfold addRoundKey toBlock
  rw [hcells, hcells, hcells]
  exact ofDigits_xor _ _ _ (hlt s) (hlt k)

/-! ### Words of the key -/

def bytes (x : Aes.Column) : List ℕ := [0, 1, 2, 3].map fun r => (x r).toNat

def toWord (x : Aes.Column) : ℕ := ofDigits 256 (bytes x)

theorem length_bytes (x : Aes.Column) : (bytes x).length = 4 := rfl

theorem forall_bytes {x : Aes.Column} {p : ℕ → Prop} :
    (∀ d ∈ bytes x, p d) ↔ ∀ r, p (x r).toNat := by
  simp [bytes, Fin.forall_fin_succ]

theorem bytes_lt {x : Aes.Column} : ∀ d ∈ bytes x, d < 2 ^ 8 := forall_bytes.mpr fun r => (x r).isLt

theorem toWord_lt (x : Aes.Column) : toWord x < 2 ^ 32 := by
  have h : toWord x < 256 ^ (bytes x).length := ofDigits_lt (bytes x) bytes_lt
  rw [length_bytes] at h
  omega

theorem toWord_xor (x y : Aes.Column) : toWord x ^^^ toWord y = toWord fun r => x r ^^^ y r :=
  ofDigits_xor _ _ _ (fun r => (x r).isLt) fun r => (y r).isLt

theorem toBlock_eq (s : Aes.State) : toBlock s =
    ((toWord (s 0) * 2 ^ 32 + toWord (s 1)) * 2 ^ 32 + toWord (s 2)) * 2 ^ 32 + toWord (s 3) := by
  have hcells : cells s = bytes (s 0) ++ bytes (s 1) ++ bytes (s 2) ++ bytes (s 3) := rfl
  have hbase : 256 ^ 4 = 2 ^ 32 := by decide
  unfold toBlock
  rw [hcells, ofDigits_append, ofDigits_append, ofDigits_append, length_bytes, length_bytes,
    length_bytes, hbase]
  rfl

/-- The byte that the loop puts in the place of `d`. -/
def newByte (rconCounter i d : ℕ) : ℕ :=
  if i = 0 then SBOX.getD d 0 ^^^ RCON.getD rconCounter 0 else SBOX.getD d 0

theorem substituteByte_yields {rconCounter : ℕ} {pre post : List ℕ} (hd : d < 16 ^ 2)
    (hnew : newByte rconCounter pre.length d < 16 ^ 2) : Yields (substituteByte fuel rconCounter
    (spelled 16 2 (pre ++ d :: post)) pre.length) (16 ≤ newByte rconCounter pre.length d)
    (spelled 16 2 (pre ++ newByte rconCounter pre.length d :: post)) := by
  have hbefore : substring (spelled 16 2 (pre ++ d :: post)) 0 (pre.length * 2) = some (spelled 16 2 pre) := by
    have h := substring_append [] (spelled 16 2 pre) (spelled 16 2 (d :: post))
    rw [nil_append, ← spelled_append, length_spelled] at h
    simpa using h
  have hafter : substring (spelled 16 2 (pre ++ d :: post)) ((pre.length + 1) * 2)
      (spelled 16 2 (pre ++ d :: post)).length = some (spelled 16 2 post) := by
    have h := substring_append (spelled 16 2 (pre ++ [d])) (spelled 16 2 post) []
    rw [append_nil, ← length_append, ← spelled_append, length_spelled, length_append,
      append_assoc] at h
    exact h
  have hparse : parse 16 (spelled 16 2 [d]) = some d := parse_cell (by omega) (by omega) (by omega) hd
  unfold substituteByte
  simp only [substring_spelled, bind_eq_bind, bind_some, hparse, hbefore, hafter]
  refine (zeroPadding_cell (by omega) (by omega) hnew fuel).bind_eq (congrArg some ?_)
  rw [← spelled_append, ← spelled_append, append_assoc]
  rfl

/-- What the loop makes of the bytes from place `i` on. -/
def newBytes (rconCounter : ℕ) : ℕ → List ℕ → List ℕ
  | _, [] => []
  | i, d :: ds => newByte rconCounter i d :: newBytes rconCounter (i + 1) ds

theorem foldlM_substituteByte (fuel rconCounter : ℕ) : ∀ {pre post : List ℕ},
    (∀ d ∈ post, d < 16 ^ 2) → (∀ d ∈ newBytes rconCounter pre.length post, d < 16 ^ 2) →
    Yields ((List.range' pre.length post.length).foldlM (substituteByte fuel rconCounter)
    (spelled 16 2 (pre ++ post))) (∀ d ∈ newBytes rconCounter pre.length post, 16 ≤
    d) (spelled 16 2 (pre ++ newBytes rconCounter pre.length post))
  | pre, [], _, _ => .of_eq rfl nofun
  | pre, d :: post, h, hnew => by
    rw [newBytes, forall_mem_cons] at hnew
    rw [forall_mem_cons] at h
    have ih := @foldlM_substituteByte fuel rconCounter (pre ++ [newByte rconCounter pre.length d]) post h.2
    rw [length_append, length_singleton, append_assoc, append_assoc, singleton_append,
      singleton_append] at ih
    rw [length_cons, range'_succ, foldlM_cons, newBytes, forall_mem_cons]
    exact (substituteByte_yields h.1 hnew.1).bind fun _ => ih hnew.2

variable {i : ℕ}

theorem newByte_eq (hi : i < 10) (x : Aes.Column) (r : Fin 4) :
    newByte (i + 1) r (x (r + 1)).toNat = (Aes.scheduleCore sbox (i + 1) x r).toNat := by
  unfold newByte Aes.scheduleCore
  rw [getD_SBOX, getD_RCON i hi, BitVec.toNat_xor]
  by_cases hr : r = 0
  · rw [if_pos hr, hr]
    rfl
  · have hr' : (r : ℕ) ≠ 0 := fun h => hr (Fin.ext h)
    rw [if_neg hr, if_neg hr']
    exact (Nat.xor_zero _).symm

/-- The word of the next round key takes no leading zeros: neither the last word of `k` nor the new
bytes. -/
def KeyFull (i : ℕ) (k : Aes.State) : Prop :=
  16 ≤ (k 3 0).toNat ∧ ∀ r, 16 ≤ (Aes.scheduleCore sbox i (k 3) r).toNat

theorem newBytes_eq (hi : i < 10) (x : Aes.Column) : newBytes (i + 1) 0 [(x 1).toNat, (x 2).toNat,
    (x 3).toNat, (x 0).toNat] = bytes (Aes.scheduleCore sbox (i + 1) x) := by
  unfold bytes
  simp only [← newByte_eq hi x]
  rfl

theorem le_toWord_iff (x : Aes.Column) : 16 ^ 7 ≤ toWord x ↔ 16 ≤ (x 0).toNat := by
  have hword : toWord x =
    (((0 * 256 + (x 0).toNat) * 256 + (x 1).toNat) * 256 + (x 2).toNat) * 256 + (x 3).toNat := rfl
  omega

theorem scheduleCore_yields (hi : i < 10) (x : Aes.Column) :
    Yields (scheduleCore fuel (toWord x) (i + 1)) (16 ≤ (x 0).toNat ∧ ∀ r, 16 ≤
    (Aes.scheduleCore sbox (i + 1) x r).toNat) (toWord (Aes.scheduleCore sbox (i + 1) x)) := by
  have hrotating : substring (spelled 16 2 (bytes x)) 0 2 = some (spelled 16 2 [(x 0).toNat]) :=
    substring_spelled 16 2 [] _ _
  have hfixed : substring (spelled 16 2 (bytes x)) 2 (spelled 16 2 (bytes x)).length =
      some (spelled 16 2 [(x 1).toNat, (x 2).toNat, (x 3).toNat]) := by
    have h := substring_append (spelled 16 2 [(x 0).toNat])
      (spelled 16 2 [(x 1).toNat, (x 2).toNat, (x 3).toNat]) []
    exact h
  have hbytes : ∀ d ∈ [(x 1).toNat, (x 2).toNat, (x 3).toNat, (x 0).toNat], d < 16 ^ 2 :=
    @forall_bytes (![x 1, x 2, x 3, x 0]) (· < 16 ^ 2) |>.mpr fun r => (![x 1, x 2, x 3, x 0] r).isLt
  have hloop := @foldlM_substituteByte fuel (i + 1) [] [(x 1).toNat, (x 2).toNat, (x 3).toNat,
    (x 0).toNat] hbytes
  rw [length_nil, newBytes_eq hi x] at hloop
  have hloop := hloop bytes_lt
  rw [forall_bytes] at hloop
  have hparse := parse_spelled (b := 16) (m := 2) (by omega) (by omega) (by omega)
    (by unfold bytes; exact cons_ne_nil _ _) (@bytes_lt (Aes.scheduleCore sbox (i + 1) x))
  have hpad := @zeroPadding_toDigits 16 2 (by omega) (bytes x) bytes_lt 7 (by omega) rfl fuel
  rw [← le_toWord_iff]
  refine hpad.bind fun _ => ?_
  exact hloop.bind_eq hparse

theorem nextRoundKey_yields (hi : i < 10) (k : Aes.State) : Yields (nextRoundKey fuel (i + 1)
    (toBlock k)) (KeyFull (i + 1) k) (toBlock (Aes.nextKey sbox (i + 1) k)) := by
  have h1 := toWord_lt (k 1)
  have h2 := toWord_lt (k 2)
  have h3 := toWord_lt (k 3)
  have hblock := toBlock_eq k
  have hw3 : toBlock k % 0x100000000 = toWord (k 3) := by omega
  have hw2 : toBlock k % 0x10000000000000000 / 0x100000000 = toWord (k 2) := by omega
  have hw1 : toBlock k % 0x1000000000000000000000000 / 0x10000000000000000 = toWord (k 1) := by omega
  have hw0 : toBlock k / 0x1000000000000000000000000 = toWord (k 0) := by omega
  have hnext := toBlock_eq (Aes.nextKey sbox (i + 1) k)
  have e0 : toWord (Aes.scheduleCore sbox (i + 1) (k 3)) ^^^ toWord (k 0) =
    toWord (Aes.nextKey sbox (i + 1) k 0) := toWord_xor _ _
  have e1 : toWord (Aes.nextKey sbox (i + 1) k 0) ^^^ toWord (k 1) = toWord (Aes.nextKey sbox (i + 1) k 1) :=
    toWord_xor _ _
  have e2 : toWord (Aes.nextKey sbox (i + 1) k 1) ^^^ toWord (k 2) = toWord (Aes.nextKey sbox (i + 1) k 2) :=
    toWord_xor _ _
  have e3 : toWord (Aes.nextKey sbox (i + 1) k 2) ^^^ toWord (k 3) = toWord (Aes.nextKey sbox (i + 1) k 3) :=
    toWord_xor _ _
  unfold nextRoundKey KeyFull
  rw [hw0, hw1, hw2, hw3]
  refine (scheduleCore_yields hi (k 3)).bind_eq ?_
  simp only [e0, e1, e2, e3]
  apply congrArg some
  omega

/-- The first `n + 1` round keys, and zeros for the others. -/
def firstKeys (key : Aes.State) (n m : ℕ) : List ℕ :=
  ((List.range (n + 1)).map fun i => toBlock (Aes.roundKeys sbox key i)) ++ List.replicate m 0

theorem firstKeys_getD (key : Aes.State) {n : ℕ} (hi : i ≤ n) (m : ℕ) :
    (firstKeys key n m).getD i 0 = toBlock (Aes.roundKeys sbox key i) := by
  have hlt : i < n + 1 := by omega
  unfold firstKeys
  rw [getD_eq_getElem?_getD, getElem?_append_left (by rw [length_map, length_range]; exact hlt),
    getElem?_map, getElem?_range hlt, map_some, getD_some]

theorem firstKeys_set (key : Aes.State) (n m : ℕ) : (firstKeys key n (m + 1)).set (n + 1)
    (toBlock (Aes.roundKeys sbox key (n + 1))) = firstKeys key (n + 1) m := by
  unfold firstKeys
  rw [set_append_right _ _ (by simp), length_map, length_range, Nat.sub_self, replicate_succ,
    set_cons_zero, range_succ (n := n + 1), map_append, append_assoc, map_singleton,
    singleton_append]

theorem keyExpansion_yields (fuel : ℕ) (key : Aes.State) : Yields (keyExpansion fuel (toBlock key))
    (∀ i < 10, KeyFull (i + 1) (Aes.roundKeys sbox key i)) (firstKeys key 10 0) := by
  refine Yields.foldlM (s := fun n => firstKeys key n (10 - n)) fun i x hx => ?_
  obtain ⟨hi, rfl⟩ := List.getElem?_eq_some_iff.mp hx
  rw [length_range'] at hi
  rw [getElem_range', one_mul, add_comm 1 i, Nat.add_sub_cancel, firstKeys_getD key le_rfl,
    show 10 - i = 10 - (i + 1) + 1 by omega, ← firstKeys_set]
  exact (nextRoundKey_yields hi _).map _

end Code365.Algorithms.AesBlock
