import Code365.Lib.CString

/-! # `set_resolution` (`tools/set-resolution/set_resolution.c`)

The tool stores a resolution in the vendor sector.  `string_to_int16` multiplies into 16 bits, skips
what is not a digit and only then reports an error; each conversion clears the error of the one
before, so the last argument alone can be refused (`main_eq_set_iff`).  Arguments are the texts
after the name of the program; `flag` is their first character less `'0'`, on 8 bits. -/

namespace Code365.Tools.SetResolution

open List Function CString

/-! ### The vendor sector -/

/-- The bytes of `sysData.data`. -/
abbrev Sector := ℕ → ℕ

/-- `*p = v` for a `uint16 *p` at an offset, the low byte first. -/
def storeUint16 (data : Sector) (offset v : ℕ) : Sector :=
  update (update data offset (v % 2 ^ 8)) (offset + 1) (v / 2 ^ 8 % 2 ^ 8)

def loadUint16 (data : Sector) (offset : ℕ) : ℕ := data offset + 2 ^ 8 * data (offset + 1)

/-- What `rknand_vendor_set_resolution` writes back. -/
def rknandVendorSetResolution (data : Sector) (xres yres refresh flag : ℕ) : Sector :=
  let data := update data 1 flag
  if flag ≠ 0 then
    let data := update data 1 0xAC
    let data := storeUint16 data 2 xres
    let data := storeUint16 data 4 yres
    update data 6 refresh
  else data

/-- The four numbers that `read_vender_resolution` prints. -/
def readVenderResolution (data : Sector) : ℕ × ℕ × ℕ × ℕ :=
  (data 1, loadUint16 data 2, loadUint16 data 4, data 6)

theorem loadUint16_store (data : Sector) (offset : ℕ) {v : ℕ} (hv : v < 2 ^ 16) :
    loadUint16 (storeUint16 data offset v) offset = v := by
  have hne : offset ≠ offset + 1 := by omega
  simp only [loadUint16, storeUint16, update_self, update_of_ne hne]
  omega

theorem loadUint16_update {data : Sector} {offset i : ℕ} (h : i ≠ offset ∧ i ≠ offset + 1) (v : ℕ) :
    loadUint16 (update data i v) offset = loadUint16 data offset := by
  rw [loadUint16, loadUint16, update_of_ne h.1.symm, update_of_ne h.2.symm]

theorem readVenderResolution_set (data : Sector) {xres yres flag : ℕ} (refresh : ℕ)
    (hx : xres < 2 ^ 16) (hy : yres < 2 ^ 16) (hflag : flag ≠ 0) : readVenderResolution
    (rknandVendorSetResolution data xres yres refresh flag) = (0xAC, xres, yres, refresh) := by
  have hset : rknandVendorSetResolution data xres yres refresh flag = update (storeUint16
      (storeUint16 (update (update data 1 flag) 1 0xAC) 2 xres) 4 yres) 6 refresh := if_pos hflag
  unfold readVenderResolution
  rw [hset, loadUint16_update (by decide), loadUint16_update (by decide), loadUint16_store _ 4 hy]
  have hload : ∀ d : Sector, loadUint16 (storeUint16 d 4 yres) 2 = loadUint16 d 2 := by
    intro d
    rw [storeUint16, loadUint16_update (by decide), loadUint16_update (by decide)]
  rw [hload, loadUint16_store _ 2 hx]
  simp [storeUint16]

/-! ### `main` -/

/-- `string_to_int16`, with `*err`. -/
def stringToInt16 (str : List Char) : ℕ × Bool :=
  str.foldl (fun (res, err) c =>
    let abyte : ℤ := c.toNat - '0'.toNat
    if abyte < 0 ∨ 9 < abyte then (res, true) else ((res * 10 + abyte.toNat) % 2 ^ 16, err)) (0, false)

inductive Outcome
  | printed
  | refused
  | set (xres yres refresh flag : ℕ)
deriving DecidableEq

/-- `*argv[1] - '0'` as a `uint8`. -/
def flagOf (arg : List Char) : ℕ := (((arg.headD '\x00').toNat - '0'.toNat : ℤ) % 2 ^ 8).toNat

/-- The check of the parameters when there are at least three. -/
def checked (err : Bool) (xres yres refresh flag : ℕ) : Outcome :=
  if err then .refused
  else if (xres < 800 ∨ 2560 < xres) ∨ yres < 600 ∨ 1600 < yres then .refused
  else .set xres yres refresh flag

def main : List (List Char) → Outcome
  | [] => .printed
  | [f] | [f, _] => if flagOf f ≠ 0 then .refused else .set 0 0 0 (flagOf f)
  | [f, x, y] =>
    let (xres, _) := stringToInt16 x
    let (yres, err) := stringToInt16 y
    checked err xres yres 60 (flagOf f)
  | [f, x, y, r] =>
    let (xres, _) := stringToInt16 x
    let (yres, _) := stringToInt16 y
    let (refTmp, err) := stringToInt16 r
    checked err xres yres (refTmp % 2 ^ 8) (flagOf f)
  | _ => checked false 0 0 0 0

/-! ### The conversions -/

/-- The number of the digits of a text. -/
def digitsOf (str : List Char) : ℕ := digitsValue 10 (str.filter Char.isDigit)

def DigitsOnly (str : List Char) : Prop := ∀ c ∈ str, c.isDigit

theorem digitsOf_of_digitsOnly {str : List Char} (h : DigitsOnly str) :
    digitsOf str = digitsValue 10 str := by
  unfold digitsOf
  rw [filter_eq_self.mpr h]

theorem digitsOf_concat (str : List Char) (c : Char) : digitsOf (str ++ [c]) =
    if c.isDigit then 10 * digitsOf str + digitValue c else digitsOf str := by
  have hdigits : ∀ s : List Char, ∀ d ∈ s.filter Char.isDigit, digitValue d < 10 := fun s d hd =>
    (digitValue_of_isDigit (mem_filter.mp hd).2).2
  unfold digitsOf
  by_cases hc : c.isDigit
  · rw [if_pos hc, digitsValue_eq_foldl (hdigits _), digitsValue_eq_foldl (hdigits _),
      filter_append, foldl_append]
    simp [hc]
  · simp [filter_append, hc]

theorem stringToInt16_eq (str : List Char) :
    stringToInt16 str = (digitsOf str % 2 ^ 16, !str.all Char.isDigit) := by
  induction str using reverseRecOn with
  | nil => rfl
  | append_singleton str c ih =>
    have hstep : stringToInt16 (str ++ [c]) =
        if ((c.toNat : ℤ) - '0'.toNat < 0 ∨ 9 < (c.toNat : ℤ) - '0'.toNat) then ((stringToInt16 str).1, true)
        else (((stringToInt16 str).1 * 10 + ((c.toNat : ℤ) - '0'.toNat).toNat) % 2 ^ 16,
          (stringToInt16 str).2) := by
      unfold stringToInt16
      rw [foldl_append]
      rfl
    have h0 : '0'.toNat = 48 := rfl
    have hdigit := isDigit_iff (c := c)
    rw [hstep, ih, digitsOf_concat, all_append]
    by_cases hc : c.isDigit
    · have hrange := hdigit.mp hc
      have hv := (digitValue_of_isDigit hc).1
      rw [if_neg (by omega), if_pos hc]
      simp only [all_cons, hc, all_nil, Bool.and_self, Bool.and_true, Prod.mk.injEq, and_true]
      omega
    · have hrange := mt hdigit.mpr hc
      rw [if_pos (by omega), if_neg hc]
      simp [hc]

/-! ### What is accepted -/

variable {f x y : List Char} {r : Option (List Char)} {xres yres refresh : ℕ}

/-- The refresh rate that is passed on. -/
def refreshOf : Option (List Char) → ℕ
  | none => 60
  | some t => digitsOf t % 2 ^ 16 % 2 ^ 8

/-- What `main` looks at: whether the last argument has digits only, and the last 16 bits of the
other numbers. -/
structure Passes (x y : List Char) (r : Option (List Char)) : Prop where
  last : DigitsOnly (r.getD y)
  x_ge : 800 ≤ digitsOf x % 2 ^ 16
  x_le : digitsOf x % 2 ^ 16 ≤ 2560
  y_ge : 600 ≤ digitsOf y % 2 ^ 16
  y_le : digitsOf y % 2 ^ 16 ≤ 1600

theorem main_eq_checked (f x y : List Char) (r : Option (List Char)) :
    main (f :: x :: y :: r.toList) = checked (!(r.getD y).all Char.isDigit) (digitsOf x % 2 ^ 16)
    (digitsOf y % 2 ^ 16) (refreshOf r) (flagOf f) := by
  cases r with
  | none | some t => simp [main, stringToInt16_eq, refreshOf]

theorem main_eq_set_iff (f x y : List Char) (r : Option (List Char)) (xres yres refresh : ℕ) :
    main (f :: x :: y :: r.toList) = .set xres yres refresh (flagOf f) ↔ Passes x y r ∧
    xres = digitsOf x % 2 ^ 16 ∧ yres = digitsOf y % 2 ^ 16 ∧ refresh = refreshOf r := by
  have hlast : (!(r.getD y).all Char.isDigit) = false ↔ DigitsOnly (r.getD y) := by simp [DigitsOnly]
  rw [main_eq_checked, checked]
  constructor
  · intro h
    split_ifs at h with herr hrange
    obtain ⟨rfl, rfl, rfl, _⟩ := Outcome.set.inj h
    refine ⟨⟨hlast.mp (by simpa using herr), ?_, ?_, ?_, ?_⟩, rfl, rfl, rfl⟩
    all_goals omega
  · rintro ⟨⟨hdigits, hx, hx', hy, hy'⟩, rfl, rfl, rfl⟩
    rw [if_neg (by rw [hlast.mpr hdigits]; decide), if_neg (by omega)]

def Stores (data : Sector) (f x y : List Char) (r : Option (List Char)) (xres yres refresh : ℕ) : Prop :=
  main (f :: x :: y :: r.toList) = .set xres yres refresh (flagOf f) ∧
    readVenderResolution (rknandVendorSetResolution data xres yres refresh (flagOf f)) =
    (0xAC, xres, yres, refresh)

/-- The arguments are numbers in their ranges. -/
structure Valid (x y : List Char) (r : Option (List Char)) (xres yres refresh : ℕ) : Prop where
  digits_x : DigitsOnly x
  digits_y : DigitsOnly y
  digits_r : ∀ t ∈ r, DigitsOnly t
  x_eq : xres = digitsValue 10 x
  y_eq : yres = digitsValue 10 y
  r_eq : refresh = r.elim 60 (digitsValue 10)
  x_range : 800 ≤ xres ∧ xres ≤ 2560
  y_range : 600 ≤ yres ∧ yres ≤ 1600
  r_le : refresh ≤ 255

theorem stores_iff (data : Sector) (hflag : flagOf f ≠ 0) :
    Stores data f x y r xres yres refresh ↔ Passes x y r ∧ xres = digitsOf x % 2 ^ 16 ∧
    yres = digitsOf y % 2 ^ 16 ∧ refresh = refreshOf r := by
  rw [← main_eq_set_iff f]
  refine and_iff_left_of_imp fun h => readVenderResolution_set data refresh ?_ ?_ hflag
  all_goals
    rw [main_eq_set_iff] at h
    omega

theorem refreshOf_eq {t : List Char} (h : digitsOf t < 2 ^ 8) :
    refreshOf (some t) = digitsOf t := by
  change digitsOf t % 2 ^ 16 % 2 ^ 8 = digitsOf t
  omega

theorem Valid.stores (h : Valid x y r xres yres refresh) (data : Sector) (hflag : flagOf f ≠ 0) :
    Stores data f x y r xres yres refresh := by
  obtain ⟨hx, hy, hr, rfl, rfl, rfl, hxrange, hyrange, hrle⟩ := h
  rw [← digitsOf_of_digitsOnly hx] at hxrange ⊢
  rw [← digitsOf_of_digitsOnly hy] at hyrange ⊢
  rw [stores_iff data hflag]
  refine ⟨⟨?_, by omega, by omega, by omega, by omega⟩, by omega, by omega, ?_⟩
  · cases r with
    | none => exact hy
    | some t => exact hr t rfl
  · cases r with
    | none => rfl
    | some t =>
      rw [Option.elim_some, ← digitsOf_of_digitsOnly (hr t rfl)] at hrle ⊢
      exact (refreshOf_eq (by omega)).symm

/-- The tool does what its arguments say just when no argument passes for another one: all are
digits only, and none is cut to the bits that are kept. -/
theorem set_resolution_validation_iff (data : Sector) (f x y : List Char) (r : Option (List Char))
    (hflag : flagOf f ≠ 0) : (∀ xres yres refresh, Stores data f x y r xres yres refresh ↔
      Valid x y r xres yres refresh) ↔ (Passes x y r → DigitsOnly x ∧ DigitsOnly y ∧
      digitsOf x < 2 ^ 16 ∧ digitsOf y < 2 ^ 16 ∧ ∀ t ∈ r, digitsOf t < 2 ^ 8) := by
  constructor
  · intro h hpasses
    obtain ⟨hx, hy, hr, hxeq, hyeq, hreq, _, _, hrle⟩ :=
      (h _ _ _).mp ((stores_iff data hflag).mpr ⟨hpasses, rfl, rfl, rfl⟩)
    rw [← digitsOf_of_digitsOnly hx] at hxeq
    rw [← digitsOf_of_digitsOnly hy] at hyeq
    refine ⟨hx, hy, by omega, by omega, ?_⟩
    rintro t ⟨⟩
    rw [Option.elim_some, ← digitsOf_of_digitsOnly (hr t rfl)] at hreq
    omega
  · intro h xres yres refresh
    refine ⟨fun hstores => ?_, fun hvalid => hvalid.stores data hflag⟩
    obtain ⟨hpasses, rfl, rfl, rfl⟩ := (stores_iff data hflag).mp hstores
    obtain ⟨hx, hy, hxlt, hylt, hrlt⟩ := h hpasses
    obtain ⟨hlast, hx1, hx2, hy1, hy2⟩ := hpasses
    rw [Nat.mod_eq_of_lt hxlt] at hx1 hx2 ⊢
    rw [Nat.mod_eq_of_lt hylt] at hy1 hy2 ⊢
    refine ⟨hx, hy, ?_, digitsOf_of_digitsOnly hx, digitsOf_of_digitsOnly hy, ?_, ⟨hx1, hx2⟩, ⟨hy1, hy2⟩, ?_⟩
    · rintro t ⟨⟩
      exact hlast
    · cases r with
      | none => rfl
      | some t =>
        rw [refreshOf_eq (hrlt t rfl), Option.elim_some]
        exact digitsOf_of_digitsOnly hlast
    · cases r with
      | none => decide
      | some t =>
        have hlt := hrlt t rfl
        rw [refreshOf_eq hlt]
        omega

theorem set_resolution_validation_full_hd : flagOf "1".toList = 1 ∧ ∀ xres yres refresh, Stores
      (fun _ => 0) "1".toList "1920".toList "1080".toList (some "60".toList) xres yres refresh ↔
      Valid "1920".toList "1080".toList (some "60".toList) xres yres refresh := by
  refine ⟨by decide, ?_⟩
  rw [set_resolution_validation_iff _ _ _ _ _ (by decide)]
  intro _
  refine ⟨by simp [DigitsOnly], by simp [DigitsOnly], by decide, by decide, ?_⟩
  decide

/-- A width of 66336 is stored as 800, and a width that is not a number is taken when the height is
one. -/
theorem set_resolution_validation_wraps :
    Stores (fun _ => 0) "1".toList "66336".toList "1080".toList none 800 1080 60 ∧
      Stores (fun _ => 0) "1".toList "8x00".toList "1080".toList (some "316".toList) 800 1080 60 ∧
      ¬ Valid "66336".toList "1080".toList none 800 1080 60 := by
  refine ⟨⟨by decide, by decide⟩, ⟨by decide, by decide⟩, fun h => ?_⟩
  exact absurd h.x_eq (by decide)

end Code365.Tools.SetResolution
