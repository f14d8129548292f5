import Code365.Algorithms.AesTables
import Code365.Lib.Digits

/-! # `AES` (`java/ciphers/AES.java`)

A block, a key and a round key are `BigInteger`s, here natural numbers; in each step of a round a
block is written as text of binary digits, cut into cells and put together again.  Each place that
would fill up a text with zeros does so in a loop whose condition reads a length taken before the
loop, so the loop never ends once it is entered.  A function takes the number of passes a padding
loop may make as `fuel`; `none` stands for a loop that has not ended by then, or an exception.  A
table is read with `getD`: its index is always the value of a cell or, for `RCON`, the number of a
round. -/

namespace Code365.Algorithms.AesBlock

open Digits

/-! ### Text -/

/-- `while (length < n) s = "0" + s;` -/
def zeroPadding : (fuel : ℕ) → (length n : ℕ) → List Char → Option (List Char)
  | 0, length, n, s => if length < n then none else some s
  | fuel + 1, length, n, s => if length < n then zeroPadding fuel length n ('0' :: s) else some s

def substring (s : List Char) (i j : ℕ) : Option (List Char) :=
  if i ≤ j ∧ j ≤ s.length then some ((s.take j).drop i) else none

/-! ### Key expansion -/

/-- The body of the loop over the bytes of the word. -/
def substituteByte (fuel rconCounter : ℕ) (rBytes : List Char) (i : ℕ) : Option (List Char) := do
  let currentByteBits ← substring rBytes (i * 2) ((i + 1) * 2)
  let currentByte ← parse 16 currentByteBits
  let currentByte := SBOX.getD currentByte 0
  let currentByte := if i = 0 then currentByte ^^^ RCON.getD rconCounter 0 else currentByte
  let currentByteBits := Nat.toDigits 16 currentByte
  let currentByteBits ← zeroPadding fuel currentByteBits.length 2 currentByteBits
  let before ← substring rBytes 0 (i * 2)
  let after ← substring rBytes ((i + 1) * 2) rBytes.length
  return before ++ currentByteBits ++ after

def scheduleCore (fuel t rconCounter : ℕ) : Option ℕ := do
  let rBytes := Nat.toDigits 16 t
  let rBytes ← zeroPadding fuel rBytes.length 8 rBytes
  let rotatingBytes ← substring rBytes 0 2
  let fixedBytes ← substring rBytes 2 rBytes.length
  let rBytes ← (List.range 4).foldlM (substituteByte fuel rconCounter) (fixedBytes ++ rotatingBytes)
  parse 16 rBytes

def nextRoundKey (fuel rconCounter prev : ℕ) : Option ℕ := do
  let t ← scheduleCore fuel (prev % 0x100000000) rconCounter
  let t0 := t ^^^ (prev / 0x1000000000000000000000000)
  let t1 := t0 ^^^ (prev % 0x1000000000000000000000000 / 0x10000000000000000)
  let t2 := t1 ^^^ (prev % 0x10000000000000000 / 0x100000000)
  let t3 := t2 ^^^ (prev % 0x100000000)
  return t0 * 0x1000000000000000000000000 + t1 * 0x10000000000000000 + t2 * 0x100000000 + t3

/-- `roundKeys`; the counter of the round constants is the number of the round key. -/
def keyExpansion (fuel initialKey : ℕ) : Option (List ℕ) :=
  (List.range' 1 10).foldlM
    (fun roundKeys i => (nextRoundKey fuel i (roundKeys.getD (i - 1) 0)).map (roundKeys.set i))
    (initialKey :: List.replicate 10 0)

/-! ### Cells -/

def splitBlockIntoCells (fuel block : ℕ) : Option (List ℕ) := do
  let blockBits := Nat.toDigits 2 block
  let blockBits ← zeroPadding fuel blockBits.length 128 blockBits
  (List.range 16).mapM fun i => (substring blockBits (8 * i) (8 * (i + 1))).bind (parse 2)

def mergeCellsIntoBlock (fuel : ℕ) (cells : List ℕ) : Option ℕ := do
  let blockBits ← cells.foldlM
    (fun blockBits cell =>
      (zeroPadding fuel (Nat.toDigits 2 cell).length 8 (Nat.toDigits 2 cell)).map (blockBits ++ ·)) []
  parse 2 blockBits

/-- The steps of a round split the block, compute with the cells and merge them. -/
def onCells (g : List ℕ → List ℕ) (fuel ciphertext : ℕ) : Option ℕ := do
  let cells ← splitBlockIntoCells fuel ciphertext
  mergeCellsIntoBlock fuel (g cells)

def addRoundKey (ciphertext key : ℕ) : ℕ := ciphertext ^^^ key

def subBytes : (fuel ciphertext : ℕ) → Option ℕ := onCells fun cells => cells.map fun cell => SBOX.getD cell 0

def subBytesDec : (fuel ciphertext : ℕ) → Option ℕ :=
  onCells fun cells => cells.map fun cell => INVERSE_SBOX.getD cell 0

def shiftRows : (fuel ciphertext : ℕ) → Option ℕ := onCells fun cells =>
  [0, 5, 10, 15, 4, 9, 14, 3, 8, 13, 2, 7, 12, 1, 6, 11].map fun i => cells.getD i 0

def shiftRowsDec : (fuel ciphertext : ℕ) → Option ℕ := onCells fun cells =>
  [0, 13, 10, 7, 4, 1, 14, 11, 8, 5, 2, 15, 12, 9, 6, 3].map fun i => cells.getD i 0

/-- What `mixColumns` computes from `row`. -/
def mixRow (row0 row1 row2 row3 : ℕ) : List ℕ :=
  [MULT2.getD row0 0 ^^^ MULT3.getD row1 0 ^^^ row2 ^^^ row3,
    row0 ^^^ MULT2.getD row1 0 ^^^ MULT3.getD row2 0 ^^^ row3,
    row0 ^^^ row1 ^^^ MULT2.getD row2 0 ^^^ MULT3.getD row3 0,
    MULT3.getD row0 0 ^^^ row1 ^^^ row2 ^^^ MULT2.getD row3 0]

/-- What `mixColumnsDec` computes from `row`. -/
def mixRowDec (row0 row1 row2 row3 : ℕ) : List ℕ :=
  [MULT14.getD row0 0 ^^^ MULT11.getD row1 0 ^^^ MULT13.getD row2 0 ^^^ MULT9.getD row3 0,
    MULT9.getD row0 0 ^^^ MULT14.getD row1 0 ^^^ MULT11.getD row2 0 ^^^ MULT13.getD row3 0,
    MULT13.getD row0 0 ^^^ MULT9.getD row1 0 ^^^ MULT14.getD row2 0 ^^^ MULT11.getD row3 0,
    MULT11.getD row0 0 ^^^ MULT13.getD row1 0 ^^^ MULT9.getD row2 0 ^^^ MULT14.getD row3 0]

/-- The loop over the four rows of `mixColumns` and `mixColumnsDec`. -/
def onRows (f : ℕ → ℕ → ℕ → ℕ → List ℕ) (cells : List ℕ) : List ℕ := (List.range 4).flatMap fun i =>
  f (cells.getD (i * 4) 0) (cells.getD (i * 4 + 1) 0) (cells.getD (i * 4 + 2) 0) (cells.getD (i * 4 + 3) 0)

def mixColumns : (fuel ciphertext : ℕ) → Option ℕ := onCells (onRows mixRow)

def mixColumnsDec : (fuel ciphertext : ℕ) → Option ℕ := onCells (onRows mixRowDec)

/-! ### The cipher -/

def mainRound (fuel : ℕ) (roundKeys : List ℕ) (plainText i : ℕ) : Option ℕ := do
  let plainText ← subBytes fuel plainText
  let plainText ← shiftRows fuel plainText
  let plainText ← mixColumns fuel plainText
  return addRoundKey plainText (roundKeys.getD i 0)

def encrypt (fuel plainText key : ℕ) : Option ℕ := do
  let roundKeys ← keyExpansion fuel key
  let plainText ← (List.range' 1 9).foldlM (mainRound fuel roundKeys)
    (addRoundKey plainText (roundKeys.getD 0 0))
  let plainText ← subBytes fuel plainText
  let plainText ← shiftRows fuel plainText
  return addRoundKey plainText (roundKeys.getD 10 0)

def mainRoundDec (fuel : ℕ) (roundKeys : List ℕ) (cipherText i : ℕ) : Option ℕ := do
  let cipherText ← mixColumnsDec fuel (addRoundKey cipherText (roundKeys.getD i 0))
  let cipherText ← shiftRowsDec fuel cipherText
  subBytesDec fuel cipherText

def decrypt (fuel cipherText key : ℕ) : Option ℕ := do
  let roundKeys ← keyExpansion fuel key
  let cipherText ← shiftRowsDec fuel (addRoundKey cipherText (roundKeys.getD 10 0))
  let cipherText ← subBytesDec fuel cipherText
  let cipherText ← (List.range' 1 9).reverse.foldlM (mainRoundDec fuel roundKeys) cipherText
  return addRoundKey cipherText (roundKeys.getD 0 0)

end Code365.Algorithms.AesBlock
