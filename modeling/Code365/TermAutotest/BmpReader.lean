import Code365.TermAutotest.BmpWriter

/-! # Reading a BMP file (`term-autotest/jpg_bmp.c`)

`process_bmp_jpg` reads the pixels of an image of a fixed size behind a header of 54 bytes and
builds the lines for the encoder: one index runs over the pixels, the colours of each are put in the
other order, and the lines are put from the last place to the first.  The memory that `malloc` gives
is arbitrary, and what the file does not fill of it is used as it is. -/

namespace Code365.TermAutotest

open List Function Bytes

def imgW : ℕ := 1920

def imgH : ℕ := 1080

def imgColor : ℕ := 3

def sizeImage : ℕ := imgW * imgH * imgColor

/-- What the calls for the two files give: the content of the BMP file if it is opened, whether
reading it fails, and whether the other file is opened. -/
structure Files where
  bmpFile : Option (List UInt8)
  ferror : Bool
  jpgFile : Bool

/-- The line that is filled, and the place in the data. -/
structure Cursor where
  rgbIndex : ℕ
  lineData : Memory

/-- One step of the inner loop. -/
def readPixel (data : Memory) (s : Cursor) (j : ℕ) : Cursor :=
  let line := update s.lineData (j * 3 + 2) (data s.rgbIndex)
  let line := update line (j * 3 + 1) (data (s.rgbIndex + 1))
  let line := update line (j * 3 + 0) (data (s.rgbIndex + 1 + 1))
  ⟨s.rgbIndex + 1 + 1 + 1, line⟩

def readLine (data : Memory) (s : Cursor) (width : ℕ) : Cursor := (List.range width).foldl (readPixel data) s

/-- The index and the lines that are set. -/
structure Rows where
  rgbIndex : ℕ
  rowPointer : ℕ → Option Memory

/-- One step of the loop over the lines; `fresh i` is the memory for the line. -/
def readRow (data : Memory) (fresh : ℕ → Memory) (s : Rows) (i : ℕ) : Rows :=
  let line := readLine data ⟨s.rgbIndex, fresh i⟩ imgW
  ⟨line.rgbIndex, update s.rowPointer (imgH - i - 1) (some line.lineData)⟩

def readRows (data : Memory) (fresh : ℕ → Memory) (rows : ℕ) : Rows :=
  (List.range rows).foldl (readRow data fresh) ⟨0, fun _ => none⟩

/-- The lines that are given to the encoder, or `none` for the result `-1`.  A short file is not an
error. -/
def processBmpJpg (files : Files) (data : Memory) (fresh : ℕ → Memory) : Option (ℕ → Option Memory) :=
  match files.bmpFile with
  | none => none
  | some file =>
    let read := (file.drop 54).take sizeImage
    if read.length < sizeImage ∧ files.ferror then none
    else if files.jpgFile then some (readRows (place data 0 read) fresh imgH).rowPointer
    else none

/-! ### Lines -/

/-- The inner loop is the one of the writer, and the index has passed three bytes for each pixel. -/
theorem readLine_eq (data : Memory) (s : Cursor) (width : ℕ) : readLine data s width = ⟨s.rgbIndex +
    width * 3, convertRow .rgb (fun o => data o.toNat) s.rgbIndex width s.lineData⟩ := by
  induction width with
  | zero => rfl
  | succ width ih =>
    have hstep : readLine data s (width + 1) = readPixel data (readLine data s width) width := by
      unfold readLine
      rw [range_succ, foldl_append]
      rfl
    rw [hstep, ih, convertRow_succ, Nat.succ_mul]
    rfl

theorem readLine_apply (data : Memory) (s : Cursor) {width k : ℕ} (hk : k < width * 3) :
    (readLine data s width).lineData k = data (s.rgbIndex + (k / 3 * 3 + (2 - k % 3))) := by
  rw [readLine_eq]
  change convertRow .rgb _ _ _ _ k = _
  rw [convertRow_rgb, if_pos hk, ← Nat.cast_add, Int.toNat_natCast]

/-- After some lines those from the end are set, each from its part of the data. -/
theorem readRows_spec (data : Memory) (fresh : ℕ → Memory) {rows : ℕ} (hrows : rows ≤ imgH) :
    (readRows data fresh rows).rgbIndex = rows * (imgW * 3) ∧
    ∀ i < rows, (readRows data fresh rows).rowPointer (imgH - i - 1) =
    some (readLine data ⟨i * (imgW * 3), fresh i⟩ imgW).lineData := by
  induction rows with
  | zero => exact ⟨(zero_mul _).symm, fun i hi => absurd hi (Nat.not_lt_zero i)⟩
  | succ rows ih =>
    obtain ⟨hindex, hset⟩ := ih (by omega)
    have hstep : readRows data fresh (rows + 1) = readRow data fresh (readRows data fresh rows) rows := by
      unfold readRows
      rw [range_succ, foldl_append]
      rfl
    rw [hstep, readRow, hindex]
    refine ⟨?_, fun i hi => ?_⟩
    · rw [readLine_eq, Nat.succ_mul]
    · obtain hlt | rfl := lt_or_eq_of_le (Nat.le_of_lt_succ hi)
      · have hne : imgH - i - 1 ≠ imgH - rows - 1 := by omega
        exact (update_of_ne hne _ _).trans (hset i hlt)
      · exact update_self _ _ _

theorem processBmpJpg_of_length {file : List UInt8}
    (hlen : ((file.drop 54).take sizeImage).length = sizeImage) (ferror : Bool) (data : Memory)
    (fresh : ℕ → Memory) : processBmpJpg ⟨some file, ferror, true⟩ data fresh =
    some (readRows (place data 0 ((file.drop 54).take sizeImage)) fresh imgH).rowPointer := by
  unfold processBmpJpg
  dsimp only
  rw [hlen, if_neg fun hlt => lt_irrefl _ hlt.1, if_pos rfl]

/-! ### A file of the writer -/

/-- The image that the writer and the reader share. -/
def fullHd : Image := ⟨imgW, imgH, .rgb⟩

theorem fullHd_bounded : fullHd.Bounded := ⟨by decide, by decide, by decide, by decide⟩

theorem fullHd_stride : fullHd.stride = imgW * 3 := by decide

theorem fullHd_fits : fullHd.headersize + fullHd.stride * fullHd.outputHeight < 2 ^ 32 := by decide

theorem length_fullHd_pixels (src : ℤ → UInt8) :
    (((fullHd.file src).drop 54).take sizeImage).length = sizeImage := by
  rw [length_take, length_drop, fullHd_bounded.length_file]
  decide

theorem fullHd_pixel (src : Memory) (data : Memory) {y k : ℕ} (hy : y < imgH) (hk : k < imgW * 3) :
    place data 0 (((fullHd.file fun o => src o.toNat).drop 54).take sizeImage)
    ((imgH - y - 1) * (imgW * 3) + k) = src (y * (imgW * 3) + (k / 3 * 3 + (2 - k % 3))) := by
  have hsize : sizeImage = imgH * (imgW * 3) := by decide
  have hlt : (imgH - y - 1) * (imgW * 3) + k < sizeImage := by
    rw [hsize]
    exact Image.pixel_lt (by omega) hk
  have hfile : (fullHd.file fun o => src o.toNat)[54 + ((imgH - 1 - y) * (imgW * 3) + k)]? =
      some (src (y * (imgW * 3) + (k / 3 * 3 + (2 - k % 3)))) := by
    have hwidth : k < fullHd.outputWidth * fullHd.depth := hk
    have hrow := fullHd_bounded.getElem?_file (fun o => src o.toNat) fullHd_fits hy (fullHd_stride ▸ hk)
    rw [if_pos hwidth, fullHd_stride, Int.toNat_natCast] at hrow
    exact hrow
  unfold place
  rw [if_pos (Nat.zero_le _), Nat.sub_zero, getD_eq_getElem?_getD, getElem?_take_of_lt hlt, getElem?_drop,
    Nat.sub_right_comm, hfile, Option.getD_some]

/-- Reading the file of an image gives its lines again. -/
theorem bmp_reader_undoes_writer (src : Memory) (ferror : Bool) (data : Memory)
    (fresh : ℕ → Memory) : ∃ rowPointer, processBmpJpg ⟨some (fullHd.file fun o => src o.toNat),
      ferror, true⟩ data fresh = some rowPointer ∧ ∀ y < imgH, ∃ line, rowPointer y = some line ∧
      window line 0 (imgW * imgColor) = window src (y * (imgW * imgColor)) (imgW * imgColor) := by
  refine ⟨_, processBmpJpg_of_length (length_fullHd_pixels _) ferror data fresh, fun y hy => ?_⟩
  have hset :=
    (readRows_spec (place data 0 (((fullHd.file fun o => src o.toNat).drop 54).take sizeImage))
    fresh (le_refl imgH)).2 (imgH - y - 1) (by omega)
  rw [show imgH - (imgH - y - 1) - 1 = y by omega] at hset
  refine ⟨_, hset, ?_⟩
  refine List.map_congr_left fun k hk => ?_
  have hlt : k < imgW * 3 := List.mem_range.mp hk
  -- swapping the colours twice gives them back
  have hswap : (k / 3 * 3 + (2 - k % 3)) / 3 * 3 + (2 - (k / 3 * 3 + (2 - k % 3)) % 3) = k := by omega
  rw [zero_add, readLine_apply _ _ hlt, fullHd_pixel src data hy (by unfold imgW at hlt ⊢; omega), hswap]
  rfl

end Code365.TermAutotest
