import Code365.Lib.Bytes

/-! # The download frame of `dnw` (`tiny4412/dnw/dnw.c`)

`load_file` builds a frame in a block of `n + 10` bytes: the load address and the size, four bytes
each, the file and two bytes for the checksum.  The memory counts from the start of the block; what
`malloc` finds in the block and the bytes behind it may be anything. Numbers are stored with the
lowest byte first.

`size` counts the whole frame but the checksum adds up `data[0]` to `data[size - 1]`, so it takes
the two bytes of the checksum itself, not yet written, and the eight bytes behind the block
(`frame_eq`). -/

namespace Code365.Tiny4412.Dnw

open List Bytes

def BLOCK_SIZE : ℕ := 1 * 1024 * 1024

/-- `sizeof(struct download_buffer)`, the offset of `data`. -/
def HEADER_SIZE : ℕ := 8

/-- `buf->size`. -/
def sizeField (mem : Memory) : ℕ := ofLittleEndian (window mem 4 4)

/-- The offsets from which the loop of `cal_and_set_checksum` reads. -/
def checksumReads (size : ℕ) : List ℕ := (List.range size).map fun i => HEADER_SIZE + i

def calAndSetChecksum (mem : Memory) : Memory :=
  let size := sizeField mem
  let sum := (checksumReads size).foldl (fun sum o => (sum + (mem o).toNat) % 2 ^ 16) 0
  place mem (size - 2) (littleEndian 2 sum)

/-- `alloc_buffer` in a block where `malloc` leaves `mem`. -/
def allocBuffer (mem : Memory) (dataSize : ℕ) : Memory :=
  place mem 4 (littleEndian 4 (dataSize + HEADER_SIZE + 2))

/-- `load_file` of a file with this content. -/
def loadFile (mem : Memory) (file : List UInt8) (loadAddr : ℕ) : Memory :=
  let buffer := allocBuffer mem file.length
  let buffer := place buffer HEADER_SIZE file
  let buffer := place buffer 0 (littleEndian 4 loadAddr)
  calAndSetChecksum buffer

/-- The size of the next block. -/
def toWrite (remainSize : ℕ) : ℕ := if remainSize > BLOCK_SIZE then BLOCK_SIZE else remainSize

theorem toWrite_pos {remainSize : ℕ} (h : remainSize > 0) : 0 < toWrite remainSize := by
  unfold toWrite
  split
  · decide
  · exact h

theorem toWrite_le (remainSize : ℕ) :
    toWrite remainSize ≤ remainSize ∧ toWrite remainSize ≤ BLOCK_SIZE := by
  unfold toWrite
  split <;> omega

/-- The loop of `_download_buffer`: the blocks that are written and whether all of them are;
`accepts` says of a block from an offset on whether the device takes it. -/
def writeBlocks (accepts : ℕ → ℕ → Bool) (mem : Memory) (remainSize writed : ℕ) : Bool × List (List UInt8) :=
  if _h : remainSize > 0 then
    if !accepts writed (toWrite remainSize) then (false, [])
    else
      let rest := writeBlocks accepts mem (remainSize - toWrite remainSize) (writed + toWrite remainSize)
      (rest.1, window mem writed (toWrite remainSize) :: rest.2)
  else (true, [])
termination_by remainSize
decreasing_by exact Nat.sub_lt _h (toWrite_pos _h)

def downloadBuffer (accepts : ℕ → ℕ → Bool) (mem : Memory) : Bool × List (List UInt8) :=
  writeBlocks accepts mem (sizeField mem) 0

/-! ### The blocks -/

theorem writeBlocks_eq {accepts : ℕ → ℕ → Bool} (h : ∀ o n, accepts o n) (mem : Memory)
    (remainSize writed : ℕ) : (writeBlocks accepts mem remainSize writed).1 ∧
    (writeBlocks accepts mem remainSize writed).2.flatten = window mem writed remainSize ∧
    ∀ block ∈ (writeBlocks accepts mem remainSize writed).2, block.length ≤ BLOCK_SIZE := by
  induction remainSize using Nat.strong_induction_on generalizing writed with
  | _ remainSize ih =>
    unfold writeBlocks
    by_cases hpos : remainSize > 0
    · obtain ⟨hle, hblock⟩ := toWrite_le remainSize
      obtain ⟨hok, hflat, hlength⟩ := ih (remainSize - toWrite remainSize) (Nat.sub_lt hpos (toWrite_pos hpos))
        (writed + toWrite remainSize)
      simp only [dif_pos hpos, h, Bool.not_true, Bool.false_eq_true, if_false]
      refine ⟨hok, ?_, ?_⟩
      · rw [flatten_cons, hflat, ← window_add, Nat.add_sub_cancel' hle]
      · intro block hmem
        obtain rfl | hmem := mem_cons.mp hmem
        · rwa [length_window]
        · exact hlength block hmem
    · have hzero : remainSize = 0 := by omega
      simp [hzero, window]

/-! ### The frame -/

section Frame

variable (mem : Memory) (file : List UInt8) (loadAddr : ℕ)

/-- The buffer before the checksum. -/
def filled : Memory := place (place (allocBuffer mem file.length) HEADER_SIZE file) 0 (littleEndian 4 loadAddr)

/-- What was in the last two bytes of the block and in the eight bytes behind it. -/
def leftover (mem : Memory) (n : ℕ) : List UInt8 := window mem (HEADER_SIZE + n) 10

theorem window_filled_addr : window (filled mem file loadAddr) 0 4 = littleEndian 4 loadAddr :=
  (congrArg _ (length_littleEndian 4 loadAddr).symm).trans (window_place_self _ _ _)

theorem window_filled_size :
    window (filled mem file loadAddr) 4 4 = littleEndian 4 (file.length + 10) := by
  unfold filled
  rw [window_place_of_disjoint (.inr (by simp)), window_place_of_disjoint (.inl (by decide))]
  exact (congrArg _ (length_littleEndian 4 _).symm).trans (window_place_self _ _ _)

theorem window_filled_file : window (filled mem file loadAddr) 8 file.length = file := by
  unfold filled
  rw [window_place_of_disjoint (.inr (by simp))]
  exact window_place_self _ _ _

theorem window_filled_leftover :
    window (filled mem file loadAddr) (8 + file.length) 10 = leftover mem file.length := by
  unfold filled allocBuffer
  rw [window_place_of_disjoint (.inr (by simp; omega)), window_place_of_disjoint
    (.inr (by simp [HEADER_SIZE])), window_place_of_disjoint (.inr (by simp))]
  rfl

theorem sizeField_filled {file : List UInt8} (h : file.length + 10 < 2 ^ 31) :
    sizeField (filled mem file loadAddr) = file.length + 10 := by
  unfold sizeField
  rw [window_filled_size, ofLittleEndian_littleEndian (by omega)]

theorem foldl_sum (l : List ℕ) : l.foldl (fun sum o => (sum + (mem o).toNat) % 2 ^ 16) 0 =
    ((l.map mem).map UInt8.toNat).sum % 2 ^ 16 := by
  induction l using reverseRecOn with
  | nil => rfl
  | append_singleton l o ih =>
    rw [foldl_append, foldl_cons, foldl_nil, ih, map_append, map_append, sum_append]
    simp

/-- The checksum: the file, and what was in memory after it. -/
def checksum (n : ℕ) (file : List UInt8) : ℕ := ((file ++ leftover mem n).map UInt8.toNat).sum % 2 ^ 16

theorem loadFile_eq {file : List UInt8} (h : file.length + 10 < 2 ^ 31) :
    loadFile mem file loadAddr = place (filled mem file loadAddr) (8 + file.length)
    (littleEndian 2 (checksum mem file.length file)) := by
  have hreads : (checksumReads (file.length + 10)).map (filled mem file loadAddr) = file ++
      leftover mem file.length := by
    unfold checksumReads
    rw [map_map]
    exact (window_add _ 8 file.length 10).trans
      (congrArg₂ _ (window_filled_file mem file loadAddr) (window_filled_leftover mem file loadAddr))
  change calAndSetChecksum (filled mem file loadAddr) = _
  unfold calAndSetChecksum checksum
  rw [sizeField_filled mem loadAddr h]
  dsimp only
  rw [foldl_sum, hreads]
  congr 1
  omega

variable {file : List UInt8} (h : file.length + 10 < 2 ^ 31)

include h

theorem window_loadFile {o n : ℕ} (hn : o + n ≤ 8 + file.length) :
    window (loadFile mem file loadAddr) o n = window (filled mem file loadAddr) o n := by
  rw [loadFile_eq mem loadAddr h]
  exact window_place_of_disjoint (.inl hn)

theorem frame_eq : window (loadFile mem file loadAddr) 0 (file.length + 10) =
    littleEndian 4 loadAddr ++ (littleEndian 4 (file.length + 10) ++
    (file ++ littleEndian 2 (checksum mem file.length file))) := by
  have hsum : window (loadFile mem file loadAddr) (8 + file.length) 2 =
      littleEndian 2 (checksum mem file.length file) := by
    rw [loadFile_eq mem loadAddr h]
    exact (congrArg _ (length_littleEndian 2 _).symm).trans (window_place_self _ _ _)
  rw [show file.length + 10 = 4 + (4 + (file.length + 2)) by omega, window_add, window_add, window_add, hsum,
    window_loadFile mem loadAddr h (by omega), window_loadFile mem loadAddr h (by omega),
    window_loadFile mem loadAddr h (by omega), window_filled_addr, window_filled_size, window_filled_file]
  congr 3
  omega

theorem sizeField_loadFile : sizeField (loadFile mem file loadAddr) = file.length + 10 := by
  unfold sizeField
  rw [window_loadFile mem loadAddr h (by omega)]
  exact sizeField_filled mem loadAddr h

theorem downloaded_eq : (downloadBuffer (fun _ _ => true) (loadFile mem file loadAddr)).2.flatten =
    littleEndian 4 loadAddr ++ (littleEndian 4 (file.length + 10) ++
    (file ++ littleEndian 2 (checksum mem file.length file))) := by
  unfold downloadBuffer
  rw [(writeBlocks_eq (fun _ _ => rfl) _ _ _).2.1, sizeField_loadFile mem loadAddr h]
  exact frame_eq mem loadAddr h

end Frame

/-- What the device should get, and that the checksum is computed inside the frame. -/
structure FrameLaw (mem : Memory) (file : List UInt8) (loadAddr : ℕ) : Prop where
  written : (downloadBuffer (fun _ _ => true) (loadFile mem file loadAddr)).2.flatten =
    littleEndian 4 loadAddr ++ (littleEndian 4 (file.length + 10) ++
      (file ++ littleEndian 2 ((file.map UInt8.toNat).sum % 2 ^ 16)))
  inside : ∀ o ∈ checksumReads (sizeField (loadFile mem file loadAddr)), o < file.length + 10

/-- The blocks are the frame, but its checksum is that of the file and of ten bytes more, eight of
which are behind the block; so the checksum is never computed inside the frame. -/
theorem dnw_frame_never (mem : Memory) (file : List UInt8) (loadAddr : ℕ)
    (h : file.length + 10 < 2 ^ 31) :
    (downloadBuffer (fun _ _ => true) (loadFile mem file loadAddr)).2.flatten =
      littleEndian 4 loadAddr ++ (littleEndian 4 (file.length + 10) ++ (file ++
      littleEndian 2 (((file ++ leftover mem file.length).map UInt8.toNat).sum % 2 ^ 16))) ∧
      (∀ k < 8, file.length + 10 + k ∈ checksumReads (sizeField (loadFile mem file loadAddr))) ∧
      ¬ FrameLaw mem file loadAddr := by
  have hreads : ∀ k < 8, file.length + 10 + k ∈ checksumReads (sizeField (loadFile mem file loadAddr)) := by
    intro k hk
    rw [sizeField_loadFile mem loadAddr h, checksumReads, List.mem_map]
    exact ⟨file.length + 2 + k, List.mem_range.mpr (by omega), by unfold HEADER_SIZE; omega⟩
  refine ⟨downloaded_eq mem loadAddr h, hreads, fun hlaw => ?_⟩
  have hinside := hlaw.inside _ (hreads 0 (by decide))
  omega

theorem dnw_frame_never_two : ¬ FrameLaw (fun _ => 0xff) [1, 2] 0x57e00000 :=
  (dnw_frame_never (fun _ => 0xff) [1, 2] 0x57e00000 (by decide)).2.2

/-- A file of one byte `1` in memory that is full of `0xff`: the checksum is 2551. -/
theorem dnw_frame_garbage :
    (downloadBuffer (fun _ _ => true) (loadFile (fun _ => 0xff) [1] 0x57e00000)).2.flatten =
        [0x00, 0x00, 0xe0, 0x57, 11, 0, 0, 0, 1, 0xf7, 0x09] ∧
      littleEndian 2 (([1].map UInt8.toNat).sum % 2 ^ 16) = [1, 0] := by
  rw [downloaded_eq _ _ (by decide)]
  decide

end Code365.Tiny4412.Dnw
