import Code365.Lib.Bytes

/-! # Writing a BMP file (`term-autotest/jpg_bmp.c`)

`analyse_jpeg` decodes an image into a buffer of rows from the top to the bottom, and
`write_bmp_header` and `write_bmp_data` write the file: a header, for a gray image with its palette,
and the rows from the bottom to the top, each filled with zeros up to a multiple of four bytes and
with its colours in the other order.  The structures of the header are packed, and their numbers
have the lowest byte first.  The sizes are computed on 32 bits; `uint32` is written where a product
or a sum may be cut.

The source is the memory around `src_buff`, as a function of the offset. -/

namespace Code365.TermAutotest

open Nat List Function Bytes

/-- The images that are converted: gray or with three colours. -/
inductive Components
  | gray
  | rgb
deriving DecidableEq

/-- `output_components`. -/
def Components.depth : Components → ℕ
  | gray => 1
  | rgb => 3

/-- The fields of `cinfo` that are used. -/
structure Image where
  outputWidth : ℕ
  outputHeight : ℕ
  components : Components

def uint32 (n : ℕ) : ℕ := n % 2 ^ 32

/-! ### The header -/

structure BmpFileheader where
  bfType : ℕ := 0
  bfSize : ℕ := 0
  bfReverved1 : ℕ := 0
  bfReverved2 : ℕ := 0
  bfOffBits : ℕ := 0

structure BmpInfoheader where
  biSize : ℕ := 0
  biWidth : ℕ := 0
  biHeight : ℕ := 0
  biPlanes : ℕ := 0
  biBitCount : ℕ := 0
  biCompression : ℕ := 0
  biSizeImage : ℕ := 0
  biXPelsPerMeter : ℕ := 0
  biYPelsPerMeter : ℕ := 0
  biClrUsed : ℕ := 0
  biClrImportant : ℕ := 0

def BmpFileheader.bytes (h : BmpFileheader) : List UInt8 :=
  littleEndian 2 h.bfType ++ littleEndian 4 h.bfSize ++ littleEndian 2 h.bfReverved1 ++
    littleEndian 2 h.bfReverved2 ++ littleEndian 4 h.bfOffBits

def BmpInfoheader.bytes (h : BmpInfoheader) : List UInt8 :=
  littleEndian 4 h.biSize ++ littleEndian 4 h.biWidth ++ littleEndian 4 h.biHeight ++
    littleEndian 2 h.biPlanes ++ littleEndian 2 h.biBitCount ++ littleEndian 4 h.biCompression ++
    littleEndian 4 h.biSizeImage ++ littleEndian 4 h.biXPelsPerMeter ++
    littleEndian 4 h.biYPelsPerMeter ++ littleEndian 4 h.biClrUsed ++ littleEndian 4 h.biClrImportant

namespace Image

variable (img : Image)

def depth : ℕ := img.components.depth

def headersize : ℕ :=
  match img.components with
  | .gray => 14 + 40 + 256 * 4
  | .rgb => 14 + 40

/-- `width * depth`. -/
def bmpwidth : ℕ := uint32 (img.outputWidth * img.depth)

/-- `((width * depth + 3) / 4) * 4`. -/
def bufwidth : ℕ := uint32 (uint32 (img.bmpwidth + 3) / 4 * 4)

def bmpsize : ℕ := uint32 (img.bufwidth * img.outputHeight)

def filesize : ℕ := uint32 (img.headersize + img.bmpsize)

def fileheader : BmpFileheader where
  bfType := 0x4D42
  bfSize := img.filesize
  bfOffBits := img.headersize

def infoheader : BmpInfoheader where
  biSize := 40
  biWidth := img.outputWidth
  biHeight := img.outputHeight
  biPlanes := 1
  biBitCount := img.depth * 8
  biSizeImage := img.bmpsize
  biXPelsPerMeter := 0x99c1
  biYPelsPerMeter := 0x99c1

/-- The palette of gray images. -/
def platte : List UInt8 := (List.range 256).flatMap fun j => [UInt8.ofNat j, UInt8.ofNat j, UInt8.ofNat j, 0]

def writeBmpHeader : List UInt8 :=
  img.fileheader.bytes ++ img.infoheader.bytes ++
    match img.components with
    | .gray => platte
    | .rgb => []

end Image

/-! ### The data -/

/-- One step of the inner loop. -/
def convertPixel (c : Components) (src : ℤ → UInt8) (point : ℤ) (dst : Memory) (j : ℕ) : Memory :=
  match c with
  | .gray => update dst j (src (point + j))
  | .rgb =>
    let dst := update dst (j + 2) (src (point + (j + 0 : ℕ)))
    let dst := update dst (j + 1) (src (point + (j + 1 : ℕ)))
    update dst (j + 0) (src (point + (j + 2 : ℕ)))

/-- The inner loop, with a step for each pixel. -/
def convertRow (c : Components) (src : ℤ → UInt8) (point : ℤ) (width : ℕ) (dst : Memory) : Memory :=
  (List.range width).foldl (fun dst x => convertPixel c src point dst (x * c.depth)) dst

namespace Image

variable (img : Image)

/-- The loop over the rows; `dst` is `dst_width_buff`. -/
def writeRows (src : ℤ → UInt8) : ℕ → ℤ → Memory → List UInt8
  | 0, _, _ => []
  | rows + 1, point, dst =>
    let dst := convertRow img.components src point img.outputWidth dst
    window dst 0 img.bufwidth ++ writeRows src rows (point - img.bmpwidth) dst

def writeBmpData (src : ℤ → UInt8) : List UInt8 :=
  img.writeRows src img.outputHeight
    (uint32 (img.bmpwidth * uint32 (img.outputHeight + 2 ^ 32 - 1))) fun _ => 0

/-- The size of the buffer for the decoded image. -/
def allocated : ℕ := uint32 (uint32 (img.outputWidth * img.outputHeight) * img.depth)

/-- The loop of `analyse_jpeg` that reads the lines into the buffer. -/
def readScanlines (scanline : ℕ → List UInt8) (mem : Memory) : ℕ → Memory
  | 0 => mem
  | lines + 1 => place (readScanlines scanline mem lines) (lines * img.bmpwidth) (scanline lines)

/-- The file that `analyse_jpeg` writes for an image with these lines, or `none` when its buffer is
too small for them. The memory of the buffer is cleared first. -/
def analyseJpeg (scanline : ℕ → List UInt8) : Option (List UInt8) :=
  if img.allocated < img.outputWidth * img.outputHeight * img.depth then none
  else
    let src := img.readScanlines scanline (fun _ => 0) img.outputHeight
    some (img.writeBmpHeader ++ img.writeBmpData fun o => src o.toNat)

end Image

/-! ### Rows -/

/-- The byte of the source that goes to a byte of the row. -/
def Components.swapped : Components → ℕ → ℕ
  | gray, k => k
  | rgb, k => k / 3 * 3 + (2 - k % 3)

section convertRow

variable (c : Components) (src : ℤ → UInt8) (point : ℤ) (width : ℕ) (dst : Memory) (k : ℕ)

theorem convertRow_succ : convertRow c src point (width + 1) dst =
    convertPixel c src point (convertRow c src point width dst) (width * c.depth) := by
  unfold convertRow
  rw [range_succ, foldl_append]
  rfl

theorem convertRow_gray :
    convertRow .gray src point width dst k = if k < width then src (point + k) else dst k := by
  induction width with
  | zero => simp [convertRow]
  | succ width ih =>
    have hstep : convertRow .gray src point (width + 1) dst =
        update (convertRow .gray src point width dst) width (src (point + width)) := by
      rw [convertRow_succ, Components.depth, mul_one]
      rfl
    rw [hstep, update_apply, ih]
    by_cases hk : k = width
    · rw [if_pos hk, if_pos (by omega), hk]
    · have hiff : k < width + 1 ↔ k < width := by omega
      simp only [hk, hiff, if_false]

theorem convertRow_rgb : convertRow .rgb src point width dst k = if k <
    width * 3 then src (point + (k / 3 * 3 + (2 - k % 3) : ℕ)) else dst k := by
  induction width with
  | zero => simp [convertRow]
  | succ width ih =>
    have hstep : convertRow .rgb src point (width + 1) dst =
        convertPixel .rgb src point (convertRow .rgb src point width dst) (width * 3) := convertRow_succ ..
    rw [hstep]
    simp only [convertPixel, update_apply, ih]
    -- the three bytes of the last pixel, or another place
    obtain hlt | rfl | rfl | rfl | hge : k < width * 3 ∨ k = width * 3 + 0 ∨ k = width * 3 + 1 ∨
      k = width * 3 + 2 ∨ (width + 1) * 3 ≤ k := by omega
    · rw [if_neg (by omega), if_neg (by omega), if_neg (by omega), if_pos hlt, if_pos (by omega)]
    · rw [if_pos rfl, if_pos (by omega),
        show (width * 3 + 0) / 3 * 3 + (2 - (width * 3 + 0) % 3) = width * 3 + 2 by omega]
    · rw [if_neg (by omega), if_pos rfl, if_pos (by omega),
        show (width * 3 + 1) / 3 * 3 + (2 - (width * 3 + 1) % 3) = width * 3 + 1 by omega]
    · rw [if_neg (by omega), if_neg (by omega), if_pos rfl, if_pos (by omega),
        show (width * 3 + 2) / 3 * 3 + (2 - (width * 3 + 2) % 3) = width * 3 + 0 by omega]
    · rw [if_neg (by omega), if_neg (by omega), if_neg (by omega), if_neg (by omega), if_neg (by omega)]

theorem convertRow_apply : convertRow c src point width dst k = if k <
    width * c.depth then src (point + c.swapped k) else dst k := by
  cases c with
  | gray => exact (convertRow_gray src point width dst k).trans (by rw [Components.depth, mul_one]; rfl)
  | rgb => exact convertRow_rgb src point width dst k

end convertRow

/-- The colour of the source for a colour of the file. -/
def Components.channel : Components → ℕ → ℕ
  | gray, c => c
  | rgb, c => 2 - c

theorem Components.channel_lt (comp : Components) {c : ℕ} (hc : c < comp.depth) :
    comp.channel c < comp.depth := by
  cases comp with
  | gray => exact hc
  | rgb =>
    change 2 - c < 3
    omega

theorem Components.swapped_pixel (comp : Components) (x : ℕ) {c : ℕ} (hc : c < comp.depth) :
    comp.swapped (x * comp.depth + c) = x * comp.depth + comp.channel c := by
  cases comp with
  | gray => rfl
  | rgb =>
    change c < 3 at hc
    change (x * 3 + c) / 3 * 3 + (2 - (x * 3 + c) % 3) = x * 3 + (2 - c)
    omega

namespace Image

variable (img : Image)

/-- A row of the file, from a place of the source. -/
def row (src : ℤ → UInt8) (point : ℤ) : List UInt8 :=
  (List.range img.bufwidth).map fun k =>
    if k < img.outputWidth * img.depth then src (point + img.components.swapped k) else 0

theorem length_row (src : ℤ → UInt8) (point : ℤ) : (img.row src point).length = img.bufwidth := by
  rw [row, length_map, length_range]

/-- The rest of the buffer stays zero, so every row is filled with zeros. -/
theorem writeRows_eq (src : ℤ → UInt8) (rows : ℕ) (point : ℤ) (dst : Memory)
    (hdst : ∀ k, img.outputWidth * img.depth ≤ k → dst k = 0) : img.writeRows src rows point dst =
    (List.range rows).flatMap fun i : ℕ => img.row src (point - i * img.bmpwidth) := by
  induction rows generalizing point dst with
  | zero => rfl
  | succ rows ih =>
    have happly : ∀ k, convertRow img.components src point img.outputWidth dst k =
        if k < img.outputWidth * img.depth then src (point + img.components.swapped k) else dst k :=
      convertRow_apply img.components src point img.outputWidth dst
    have hrow : window (convertRow img.components src point img.outputWidth dst) 0 img.bufwidth =
        img.row src point := by
      refine map_congr_left fun k _ => ?_
      rw [zero_add, happly]
      by_cases hk : k < img.outputWidth * img.depth
      · rw [if_pos hk, if_pos hk]
      · rw [if_neg hk, if_neg hk, hdst k (by omega)]
    have hrest := ih (point - img.bmpwidth)
      (convertRow img.components src point img.outputWidth dst) fun k hk => by
      rw [happly, if_neg (by omega), hdst k hk]
    rw [writeRows, hrow, hrest, range_succ_eq_map, flatMap_cons, flatMap_map]
    congr 2
    · simp
    · funext i
      congr 1
      push_cast
      ring

/-! ### Sizes -/

/-- The length of a row in the file. -/
def stride : ℕ := (img.outputWidth * img.depth + 3) / 4 * 4

/-- The images that the library decodes. -/
structure Bounded : Prop where
  width_pos : 1 ≤ img.outputWidth
  width_le : img.outputWidth ≤ 65500
  height_pos : 1 ≤ img.outputHeight
  height_le : img.outputHeight ≤ 65500

theorem depth_le : 1 ≤ img.depth ∧ img.depth ≤ 3 := by
  unfold depth
  cases img.components <;> decide

theorem length_writeBmpHeader : img.writeBmpHeader.length = img.headersize := by
  have hplatte : platte.length = 1024 := length_flatMap_range (m := 4) (fun _ => rfl) 256
  unfold writeBmpHeader headersize
  cases img.components <;> simp [BmpFileheader.bytes, BmpInfoheader.bytes, hplatte]

theorem le_stride : img.outputWidth * img.depth ≤ img.stride := by
  unfold stride
  omega

/-- The whole file. -/
def file (src : ℤ → UInt8) : List UInt8 := img.writeBmpHeader ++ img.writeBmpData src

variable (src : ℤ → UInt8)

theorem filesize_of_file : ofLittleEndian (((img.file src).drop 2).take 4) = img.filesize := by
  have hlt : img.filesize < 256 ^ 4 := mod_lt _ (by decide)
  have hbytes : ((img.file src).drop 2).take 4 = littleEndian 4 img.filesize := by
    simp [file, writeBmpHeader, BmpFileheader.bytes, fileheader]
  rw [hbytes, ofLittleEndian_littleEndian hlt]

theorem bmpsize_of_file : ofLittleEndian (((img.file src).drop 34).take 4) = img.bmpsize := by
  have hlt : img.bmpsize < 256 ^ 4 := mod_lt _ (by decide)
  have hbytes : ((img.file src).drop 34).take 4 = littleEndian 4 img.bmpsize := by
    simp [file, writeBmpHeader, BmpFileheader.bytes, BmpInfoheader.bytes, infoheader, drop_append,
      drop_eq_nil_of_le]
  rw [hbytes, ofLittleEndian_littleEndian hlt]

theorem pixel_lt {width depth x c : ℕ} (hx : x < width) (hc : c < depth) :
    x * depth + c < width * depth := by
  calc x * depth + c < x * depth + depth := by omega
    _ = (x + 1) * depth := (succ_mul _ _).symm
    _ ≤ width * depth := mul_le_mul_right _ hx

/-- The sizes of the header are those of the data and of the file, the buffer has room for the
image, and the bytes after the header are those of the image from the last row to the first. -/
structure WellWritten : Prop where
  sizeImage : ofLittleEndian (((img.file src).drop 34).take 4) = (img.writeBmpData src).length
  size : ofLittleEndian (((img.file src).drop 2).take 4) = (img.file src).length
  room : img.outputWidth * img.outputHeight * img.depth ≤ img.allocated
  pixel : ∀ y < img.outputHeight, ∀ x < img.outputWidth, ∀ c < img.depth,
    (img.file src)[img.headersize + ((img.outputHeight - 1 - y) * img.stride + (x * img.depth + c))]? =
      some (src ((y * (img.outputWidth * img.depth) + (x * img.depth + img.components.channel c) : ℕ)))
  padding : ∀ y < img.outputHeight, ∀ k < img.stride, img.outputWidth * img.depth ≤ k →
    (img.file src)[img.headersize + ((img.outputHeight - 1 - y) * img.stride + k)]? = some 0

variable {img}

theorem readScanlines_apply (scanline : ℕ → List UInt8) (hlines : ∀ y, (scanline y).length =
    img.bmpwidth) (mem : Memory) {lines y k : ℕ} (hy : y < lines) (hk : k < img.bmpwidth) :
    some (img.readScanlines scanline mem lines (y * img.bmpwidth + k)) = (scanline y)[k]? := by
  induction lines with
  | zero => omega
  | succ lines ih =>
    unfold readScanlines place
    obtain hlt | rfl := lt_or_eq_of_le (le_of_lt_succ hy)
    · have hle : (y + 1) * img.bmpwidth ≤ lines * img.bmpwidth := mul_le_mul_right _ hlt
      rw [succ_mul] at hle
      rw [if_neg (by omega), ih hlt]
    · rw [if_pos (Nat.le_add_right _ _), Nat.add_sub_cancel_left, getD_eq_getElem _ _ (by rwa [hlines]),
        getElem?_eq_getElem]

variable (h : img.Bounded)

include h

theorem Bounded.bmpwidth_eq : img.bmpwidth = img.outputWidth * img.depth := by
  have hle : img.outputWidth * img.depth ≤ 65500 * 3 := Nat.mul_le_mul h.width_le img.depth_le.2
  unfold bmpwidth uint32
  omega

theorem Bounded.bufwidth_eq : img.bufwidth = img.stride := by
  have hle : img.outputWidth * img.depth ≤ 65500 * 3 := Nat.mul_le_mul h.width_le img.depth_le.2
  unfold bufwidth stride
  rw [h.bmpwidth_eq]
  unfold uint32
  omega

theorem Bounded.bmpsize_eq : img.bmpsize = uint32 (img.stride * img.outputHeight) := by
  rw [bmpsize, h.bufwidth_eq]

theorem Bounded.writeBmpData_eq :
    img.writeBmpData src = (List.range img.outputHeight).flatMap fun i : ℕ =>
    img.row src ((uint32 (img.bmpwidth * (img.outputHeight - 1)) : ℕ) - i * img.bmpwidth) := by
  have hheight : uint32 (img.outputHeight + 2 ^ 32 - 1) = img.outputHeight - 1 := by
    have := h.height_pos
    have := h.height_le
    unfold uint32
    omega
  unfold writeBmpData
  rw [hheight]
  exact img.writeRows_eq src _ _ _ fun _ _ => rfl

theorem Bounded.length_writeBmpData :
    (img.writeBmpData src).length = img.stride * img.outputHeight := by
  rw [h.writeBmpData_eq, length_flatMap_range fun i => img.length_row src _, h.bufwidth_eq, mul_comm]

theorem Bounded.length_file :
    (img.file src).length = img.headersize + img.stride * img.outputHeight := by
  rw [file, length_append, length_writeBmpHeader, h.length_writeBmpData]

variable (hfits : img.headersize + img.stride * img.outputHeight < 2 ^ 32)

include hfits

/-- When the file has fewer than `2 ^ 32` bytes, the place of the last row is not cut. -/
theorem Bounded.point_eq : uint32 (img.bmpwidth * (img.outputHeight - 1)) =
    img.outputWidth * img.depth * (img.outputHeight - 1) := by
  have hle : img.outputWidth * img.depth * (img.outputHeight - 1) ≤ img.stride * img.outputHeight :=
    Nat.mul_le_mul img.le_stride (Nat.sub_le _ _)
  rw [h.bmpwidth_eq]
  exact mod_eq_of_lt (by omega)

theorem Bounded.getElem?_file {y k : ℕ} (hy : y < img.outputHeight) (hk : k < img.stride) :
    (img.file src)[img.headersize + ((img.outputHeight - 1 - y) * img.stride + k)]? =
    some (if k < img.outputWidth * img.depth then src
    ((y * (img.outputWidth * img.depth) + img.components.swapped k : ℕ)) else 0) := by
  have hrows : ∀ i : ℕ,
    (img.row src ((uint32 (img.bmpwidth * (img.outputHeight - 1)) : ℕ) - i * img.bmpwidth)).length =
    img.stride := fun i => (img.length_row src _).trans h.bufwidth_eq
  rw [file, getElem?_append_right (by rw [length_writeBmpHeader]; omega), length_writeBmpHeader,
    Nat.add_sub_cancel_left, h.writeBmpData_eq, getElem?_flatMap_range hrows hk (by omega), h.point_eq hfits,
    h.bmpwidth_eq, row, getElem?_map, getElem?_range (by rwa [h.bufwidth_eq]), Option.map_some]
  -- the rows before it are `height - 1 - y` lines back from the last one
  have hpoint : ((img.outputWidth * img.depth * (img.outputHeight - 1) : ℕ) : ℤ) -
      ((img.outputHeight - 1 - y : ℕ) : ℤ) * ((img.outputWidth * img.depth : ℕ) : ℤ) =
        ((y * (img.outputWidth * img.depth) : ℕ) : ℤ) := by
    obtain ⟨n, hn⟩ : ∃ n, img.outputHeight - 1 = n + y := ⟨img.outputHeight - 1 - y, by omega⟩
    rw [hn, Nat.add_sub_cancel]
    push_cast
    ring
  rw [hpoint, cast_add]

omit h in
theorem room : img.outputWidth * img.outputHeight * img.depth ≤ img.allocated := by
  have hle : img.outputWidth * img.outputHeight * img.depth ≤ img.stride * img.outputHeight := by
    rw [mul_right_comm]
    exact mul_le_mul_right _ img.le_stride
  have hprod : img.outputWidth * img.outputHeight ≤ img.outputWidth * img.outputHeight * img.depth :=
    Nat.le_mul_of_pos_right _ img.depth_le.1
  rw [allocated, uint32, uint32, mod_eq_of_lt (a := img.outputWidth * img.outputHeight) (by omega),
    mod_eq_of_lt (by omega)]

/-! ### The whole file -/

theorem Bounded.wellWritten : img.WellWritten src where
  sizeImage := by
    rw [bmpsize_of_file, h.bmpsize_eq, h.length_writeBmpData]
    exact mod_eq_of_lt (by omega)
  size := by
    rw [filesize_of_file, filesize, h.bmpsize_eq, h.length_file]
    unfold uint32
    rw [mod_eq_of_lt (a := img.stride * img.outputHeight) (by omega), mod_eq_of_lt hfits]
  room := room hfits
  pixel y hy x hx c hc := by
    have hlt := pixel_lt hx hc
    rw [h.getElem?_file src hfits hy (lt_of_lt_of_le hlt img.le_stride), if_pos hlt]
    unfold depth
    rw [img.components.swapped_pixel x hc]
  padding y hy k hk hle := by
    rw [h.getElem?_file src hfits hy hk, if_neg (not_lt.mpr hle)]

omit src in
/-- The file for a decoded image has its lines, from the last to the first. -/
theorem Bounded.analyseJpeg_pixel (scanline : ℕ → List UInt8)
    (hlines : ∀ y, (scanline y).length = img.outputWidth * img.depth) :
    ∃ file, img.analyseJpeg scanline = some file ∧
      ∀ y < img.outputHeight, ∀ x < img.outputWidth, ∀ c < img.depth,
      file[img.headersize + ((img.outputHeight - 1 - y) * img.stride + (x * img.depth + c))]? =
      (scanline y)[x * img.depth + img.components.channel c]? := by
  refine ⟨_, if_neg (not_lt.mpr (room hfits)), fun y hy x hx c hc => ?_⟩
  have hchannel : img.components.channel c < img.depth := img.components.channel_lt hc
  have hlt : x * img.depth + img.components.channel c < img.bmpwidth := by
    rw [h.bmpwidth_eq]
    exact pixel_lt hx hchannel
  have hpixel := (h.wellWritten (fun o =>
    img.readScanlines scanline (fun _ => 0) img.outputHeight o.toNat) hfits).pixel y hy x hx c hc
  have hline := readScanlines_apply scanline (fun y => (hlines y).trans h.bmpwidth_eq.symm) (fun _ => 0) hy hlt
  rw [← hline, h.bmpwidth_eq]
  exact hpixel

omit h hfits

/-- Two lines of one pixel: the second one comes first in the file, from its third component on. -/
theorem analyseJpeg_twoLines : ∃ file, (⟨1, 2, .rgb⟩ : Image).analyseJpeg (fun y => if y =
      0 then [1, 2, 3] else [4, 5, 6]) = some file ∧ file[54]? = some 6 ∧ file[58]? = some 3 := by
  have hb : (⟨1, 2, .rgb⟩ : Image).Bounded := by constructor <;> decide
  have hlines : ∀ y : ℕ, (if y = 0 then [1, 2, 3] else [4, 5, 6] : List UInt8).length = 3 := by
    intro y
    split <;> rfl
  obtain ⟨file, hrun, hpixel⟩ := hb.analyseJpeg_pixel (by decide) _ hlines
  refine ⟨file, hrun, ?_, ?_⟩
  · exact hpixel 1 one_lt_two 0 one_pos 0 (by decide)
  · exact hpixel 0 two_pos 0 one_pos 0 (by decide)

/-- The sizes are cut when the file is larger than `2 ^ 32` bytes, and the file is right exactly
when they are not. -/
theorem bmp_file_well_written_iff (h : img.Bounded) : (∀ src : ℤ → UInt8, img.WellWritten src) ↔
      img.headersize + img.stride * img.outputHeight < 2 ^ 32 := by
  constructor
  · intro hlaw
    have hsize := (hlaw fun _ => 0).size
    rw [filesize_of_file, h.length_file] at hsize
    rw [← hsize]
    exact Nat.mod_lt _ (by decide)
  · intro hfits src
    exact h.wellWritten src hfits

theorem bmp_file_well_written_small : (⟨2, 2, .rgb⟩ : Image).Bounded ∧
    ((∀ src : ℤ → UInt8, (⟨2, 2, .rgb⟩ : Image).WellWritten src) ↔ 54 + 8 * 2 < 2 ^ 32) :=
  ⟨⟨by decide, by decide, by decide, by decide⟩,
    bmp_file_well_written_iff ⟨by decide, by decide, by decide, by decide⟩⟩

/-- For the largest image the header gives another size, and the buffer is too small. -/
theorem bmp_file_largest_cut : (⟨65500, 65500, .rgb⟩ : Image).Bounded ∧
    (⟨65500, 65500, .rgb⟩ : Image).filesize = 4280815462 ∧
    (∀ src, ((⟨65500, 65500, .rgb⟩ : Image).file src).length = 12870750054) ∧
    (⟨65500, 65500, .rgb⟩ : Image).allocated < 65500 * 65500 * 3 ∧
    ¬ (⟨65500, 65500, .rgb⟩ : Image).WellWritten fun _ => 0 := by
  have hb : (⟨65500, 65500, .rgb⟩ : Image).Bounded := ⟨by decide, by decide, by decide, by decide⟩
  have hlen : ∀ src, ((⟨65500, 65500, .rgb⟩ : Image).file src).length = 12870750054 := fun src =>
    hb.length_file src
  have hsize : (⟨65500, 65500, .rgb⟩ : Image).filesize = 4280815462 := by decide
  have hroom : (⟨65500, 65500, .rgb⟩ : Image).allocated < 65500 * 65500 * 3 := by decide
  refine ⟨hb, hsize, hlen, hroom, fun hlaw => ?_⟩
  exact absurd hlaw.room (not_le.mpr hroom)

end Image

end Code365.TermAutotest
