import Code365.Lib.Text

/-! # What C's library does with lines and numbers

Blanks (`isspace`), the pieces `fgets` returns of a file, the conversions `%[..]` and the literal
directives of `sscanf`, `%d` and `strtol` with base 0.  A `char *` is the list of its characters
without the NUL; lower case and blanks are those of the C locale. -/

namespace Code365.CString

open Nat List

/-- `isspace` in the C locale. -/
def isspace (c : Char) : Bool := c = ' ' || 9 ≤ c.toNat && c.toNat ≤ 13

/-- A text without the blanks at its two ends. -/
def strip (s : List Char) : List Char := (s.dropWhile isspace).rdropWhile isspace

/-- The pieces that successive calls of `fgets` return when each has room for a whole line: every
piece ends with its newline, except a last one the file does not terminate. -/
def readLines : List Char → List (List Char)
  | [] => []
  | c :: s =>
    if c = '\n' then [c] :: readLines s
    else match readLines s with
      | [] => [[c]]
      | l :: ls => (c :: l) :: ls

/-- The pieces that successive calls of `fgets` return with a buffer of this size; `room` is what
the first of them may still take. -/
def readPieces (size : ℕ) : ℕ → List Char → List (List Char)
  | _, [] => []
  | room, c :: s =>
    if c = '\n' ∨ room ≤ 1 then [c] :: readPieces size (size - 1) s
    else match readPieces size (room - 1) s with
      | [] => [[c]]
      | l :: ls => (c :: l) :: ls

/-- `%[..]` of `sscanf`: the longest run of characters of the set, which must not be empty, and
what follows it. -/
def scanSet (p : Char → Bool) (s : List Char) : Option (List Char × List Char) :=
  if s.takeWhile p = [] then none else some (s.takeWhile p, s.dropWhile p)

/-- A literal text in the format of `sscanf`. -/
def literal (w s : List Char) : Option (List Char) :=
  if w.isPrefixOf s then some (s.drop w.length) else none

/-- `%d`. -/
def decimal (v : ℤ) : List Char :=
  if v < 0 then '-' :: Nat.toDigits 10 v.natAbs else Nat.toDigits 10 v.natAbs

/-- The value of a digit in bases up to 16. -/
def digitValue (c : Char) : ℕ :=
  if c.isDigit then c.toNat - '0'.toNat
  else if c.isLower then c.toNat - 'a'.toNat + 10
  else if c.isUpper then c.toNat - 'A'.toNat + 10
  else 36

/-- The number that a run of digits starts with. -/
def digitsValue (base : ℕ) (s : List Char) : ℕ :=
  (s.takeWhile (fun c => digitValue c < base)).foldl (fun n c => base * n + digitValue c) 0

/-- The base that `strtol` with base 0 finds, and the text after a `0x`. -/
def detectBase : List Char → ℕ × List Char
  | '0' :: x :: c :: s =>
    if (x = 'x' ∨ x = 'X') ∧ digitValue c < 16 then (16, c :: s) else (8, '0' :: x :: c :: s)
  | '0' :: s => (8, '0' :: s)
  | s => (10, s)

/-- The sign of a number and what follows it. -/
def takeSign : List Char → Bool × List Char
  | '-' :: s => (true, s)
  | '+' :: s => (false, s)
  | s => (false, s)

/-- `strtol(s, NULL, 0)`, clipped to a 64-bit `long`. -/
def strtol (s : List Char) : ℤ :=
  let signed := takeSign (s.dropWhile isspace)
  let based := detectBase signed.2
  let n : ℤ := digitsValue based.1 based.2
  max (-2 ^ 63) (min (2 ^ 63 - 1) (if signed.1 then -n else n))

/-- `atoi(s)`: the `long` of `strtol` with base 10, cut to an `int`. -/
def atoi (s : List Char) : Int32 :=
  let signed := takeSign (s.dropWhile isspace)
  let n : ℤ := digitsValue 10 signed.2
  Int32.ofInt (max (-2 ^ 63) (min (2 ^ 63 - 1) (if signed.1 then -n else n)))

/-- `%d` of `sscanf`: the number and what follows it.  The value is that of `strtol`, cut to an
`int`. -/
def scanInt (s : List Char) : Option (Int32 × List Char) :=
  let signed := takeSign (s.dropWhile isspace)
  if signed.2.takeWhile Char.isDigit = [] then none
  else
    let n : ℤ := digitsValue 10 signed.2
    some (Int32.ofInt (max (-2 ^ 63) (min (2 ^ 63 - 1) (if signed.1 then -n else n))),
      signed.2.dropWhile Char.isDigit)

/-- The values that `sscanf` stores for a format of `%d`s with blanks between them. -/
def scanInts : ℕ → List Char → List Int32
  | 0, _ => []
  | n + 1, s =>
    match scanInt s with
    | none => []
    | some (v, rest) => v :: scanInts n (rest.dropWhile isspace)

/-! ### Blanks -/

theorem dropWhile_rdropWhile {α : Type*} (p : α → Bool) (s : List α) :
    (s.rdropWhile p).dropWhile p = (s.dropWhile p).rdropWhile p := by
  induction s using reverseRecOn with
  | nil => simp
  | append_singleton s a ih =>
    rw [rdropWhile_concat, dropWhile_append]
    by_cases h : p a
    · rw [if_pos h, ih]
      by_cases he : s.dropWhile p = []
      · simp [he, h]
      · simp only [List.isEmpty_iff, he, if_false]
        rw [rdropWhile_concat_pos _ _ _ h]
    · rw [if_neg h, dropWhile_append]
      by_cases he : s.dropWhile p = []
      · simp [he, h, rdropWhile_singleton]
      · simp only [List.isEmpty_iff, he, if_false]
        rw [rdropWhile_concat_neg _ _ _ h]

theorem strip_rdropWhile (s : List Char) : strip (s.rdropWhile isspace) = strip s := by
  unfold strip
  rw [dropWhile_rdropWhile, rdropWhile_idempotent]

variable {s a w rest l : List Char}

theorem strip_eq_self (hh : ∀ c ∈ s.head?, ¬ isspace c) (hl : ∀ c ∈ s.getLast?, ¬ isspace c) :
    strip s = s := by
  unfold strip
  have hd : s.dropWhile isspace = s := by
    rw [dropWhile_eq_self_iff]
    intro h
    exact hh _ (by simp [head?_eq_getElem?])
  rw [hd, rdropWhile_eq_self_iff]
  intro h
  exact hl _ (getLast?_eq_some_getLast h)

theorem strip_strip (s : List Char) : strip (strip s) = strip s := by
  have h : (strip s).dropWhile isspace = strip s := by
    unfold strip
    rw [← dropWhile_rdropWhile, dropWhile_idempotent]
  rw [show strip (strip s) = ((strip s).dropWhile isspace).rdropWhile isspace from rfl, h]
  exact rdropWhile_idempotent _ _

theorem strip_isInfix (s : List Char) : strip s <:+: s :=
  ( rdropWhile_prefix _ _).isInfix.trans (dropWhile_suffix _).isInfix

/-! ### Beginnings of a text -/

variable {x c : Char}

theorem takeWhile_ne_self (h : x ∉ a) : a.takeWhile (· ≠ x) = a := by
  rw [takeWhile_eq_self_iff]
  intro c hc
  rw [decide_eq_true_iff]
  rintro rfl
  exact h hc

theorem takeWhile_ne_append (h : x ∉ a) (b : List Char) : (a ++ x :: b).takeWhile (· ≠ x) = a := by
  rw [takeWhile_append, takeWhile_ne_self h, if_pos rfl]
  simp

theorem dropWhile_ne_append (h : x ∉ a) (b : List Char) :
    (a ++ x :: b).dropWhile (· ≠ x) = x :: b := by
  have ht := takeWhile_append_dropWhile (p := fun c => decide (c ≠ x)) (l := a ++ x :: b)
  rw [takeWhile_ne_append h b] at ht
  exact (append_right_inj a).mp ht

variable {p : Char → Bool}

theorem takeWhile_append_eq (hw : ∀ c ∈ w, p c) (hrest : ∀ c ∈ rest.head?, ¬ p c) :
    (w ++ rest).takeWhile p = w := by
  rw [takeWhile_append_of_pos hw]
  cases rest with
  | nil => simp
  | cons c rest => simp [hrest c rfl]

theorem dropWhile_append_eq (hw : ∀ c ∈ w, p c) (hrest : ∀ c ∈ rest.head?, ¬ p c) :
    (w ++ rest).dropWhile p = rest := by
  rw [dropWhile_append_of_pos hw]
  cases rest with
  | nil => rfl
  | cons c rest => simp [hrest c rfl]

theorem scanSet_append (rest : List Char) (hw : ∀ c ∈ w, p c) (hne : w ≠ [])
    (hrest : ∀ c ∈ rest.head?, ¬ p c) : scanSet p (w ++ rest) = some (w, rest) := by
  rw [scanSet, takeWhile_append_eq hw hrest, dropWhile_append_eq hw hrest, if_neg hne]

theorem prefix_takeWhile (h : w <+: l) (hp : ∀ c ∈ w, p c) : w <+: l.takeWhile p := by
  obtain ⟨t, rfl⟩ := h
  rw [takeWhile_append_of_pos hp]
  exact prefix_append _ _

theorem prefix_rdropWhile (h : w <+: l) (hw : ∀ c ∈ w.getLast?, ¬ isspace c) :
    w <+: l.rdropWhile isspace := by
  obtain ⟨t, rfl⟩ := h
  induction t using reverseRecOn with
  | nil =>
    rw [append_nil, rdropWhile_eq_self_iff.mpr fun hne => hw _ (getLast?_eq_some_getLast hne)]
  | append_singleton t c ih =>
    rw [← append_assoc, rdropWhile_concat]
    split
    · exact ih
    · rw [append_assoc]
      exact prefix_append _ _

theorem strip_append_spaces {t : List Char} (ht : ∀ c ∈ t, isspace c) (s : List Char) :
    strip (s ++ t) = strip s := by
  induction t using reverseRecOn with
  | nil => rw [append_nil]
  | append_singleton t c ih =>
    rw [← strip_rdropWhile, ← append_assoc, rdropWhile_concat_pos _ _ _ (ht c (by simp)),
      strip_rdropWhile]
    exact ih fun c hc => ht c (by simp [hc])

theorem strip_dropWhile (s : List Char) : strip (s.dropWhile isspace) = strip s := by
  unfold strip
  rw [dropWhile_idempotent]

theorem takeWhile_eq_of_isPrefix (h : w <+: l) (hc : c ∈ w)
    (hp : p c = false) : l.takeWhile p = w.takeWhile p := by
  obtain ⟨t, rfl⟩ := h
  rw [takeWhile_append]
  split
  next he =>
    have hself := ( takeWhile_prefix p).eq_of_length he
    rw [← hself] at hc
    simp [mem_takeWhile_imp hc] at hp
  · rfl

/-! ### Lower case -/

theorem toLower_eq_iff (hx : x.isAlpha = false) : c.toLower = x ↔ c = x := by
  constructor
  · rintro rfl
    exact (Char.toLower_eq_of_not_isUpper (by simp_all [Char.isAlpha])).symm
  · rintro rfl
    exact Char.toLower_eq_of_not_isUpper (by simp_all [Char.isAlpha])

theorem isspace_eq_false (h : 33 ≤ c.toNat) : isspace c = false := by
  have hs : c ≠ ' ' := by
    rintro rfl
    exact absurd h (by decide)
  simp only [isspace, hs, decide_false, Bool.false_or, Bool.and_eq_false_imp, decide_eq_true_eq,
    decide_eq_false_iff_not]
  omega

theorem isspace_of_isAlpha (h : c.isAlpha) : isspace c = false := by
  apply isspace_eq_false
  simp only [Char.isAlpha, Char.isUpper, Char.isLower, Bool.or_eq_true, Bool.and_eq_true,
    decide_eq_true_eq, UInt32.le_iff_toNat_le, ge_iff_le] at h
  have hA : 'A'.val.toNat = 65 := rfl
  have ha : 'a'.val.toNat = 97 := rfl
  have hv : c.toNat = c.val.toNat := rfl
  omega

theorem isspace_toLower (c : Char) : isspace c.toLower = isspace c := by
  by_cases h : c.isUpper
  · have ha : c.isAlpha := by simp [Char.isAlpha, h]
    rw [isspace_of_isAlpha ha, isspace_of_isAlpha (by rwa [Char.isAlpha_toLower_eq_isAlpha])]
  · rw [Char.toLower_eq_of_not_isUpper h]

/-! ### Lines -/

theorem readLines_line (h : '\n' ∉ l) (s : List Char) :
    readLines (l ++ '\n' :: s) = (l ++ ['\n']) :: readLines s := by
  induction l with
  | nil => simp [readLines]
  | cons c l ih =>
    have hc : c ≠ '\n' := fun he => h (by simp [he])
    have ih := ih (fun hm => h (mem_cons_of_mem _ hm))
    simp [readLines, hc, ih]

theorem readLines_flatMap {ls : List (List Char)} (h : ∀ l ∈ ls, '\n' ∉ l) :
    readLines (ls.flatMap (fun l => l ++ ['\n'])) = ls.map (fun l => l ++ ['\n']) := by
  induction ls with
  | nil => rfl
  | cons l ls ih =>
    rw [flatMap_cons, append_assoc, singleton_append,
      readLines_line (h l mem_cons_self), ih fun l hl => h l (mem_cons_of_mem _ hl), map_cons]

theorem readPieces_line (h : '\n' ∉ l) {size room : ℕ} (hroom : l.length < room) (s : List Char) :
    readPieces size room (l ++ '\n' :: s) = (l ++ ['\n']) :: readPieces size (size - 1) s := by
  induction l generalizing room with
  | nil => simp [readPieces]
  | cons c l ih =>
    rw [length_cons] at hroom
    have hc : ¬ (c = '\n' ∨ room ≤ 1) := by
      rintro (rfl | hle)
      · exact h mem_cons_self
      · omega
    have hrest := ih (fun hm => h (mem_cons_of_mem _ hm)) (show l.length < room - 1 by omega)
    rw [cons_append, readPieces, if_neg hc, hrest]
    rfl

/-- A buffer that is full after `l` ends the piece. -/
theorem readPieces_full (size : ℕ) (s : List Char) : ∀ {l : List Char}, '\n' ∉ l → l ≠ [] →
    readPieces size l.length (l ++ s) = l :: readPieces size (size - 1) s
  | [c], _, _ => by simp [readPieces]
  | c :: d :: l, h, _ => by
    have hrest := readPieces_full size s (l := d :: l) (fun hm => h (mem_cons_of_mem c hm))
      (cons_ne_nil d l)
    have hc : ¬ (c = '\n' ∨ (c :: d :: l).length ≤ 1) := by
      rintro (rfl | hlen)
      · exact h mem_cons_self
      · simp at hlen
    rw [cons_append, readPieces, if_neg hc, length_cons, Nat.add_sub_cancel, hrest]

/-- Lines that the buffer has room for are returned whole. -/
theorem readPieces_flatMap {ls : List (List Char)} (h : ∀ l ∈ ls, '\n' ∉ l) {size : ℕ}
    (hsize : ∀ l ∈ ls, l.length < size - 1) :
    readPieces size (size - 1) (ls.flatMap fun l => l ++ ['\n']) = ls.map fun l => l ++ ['\n'] := by
  induction ls with
  | nil => rfl
  | cons l ls ih =>
    have hrest := ih (fun l hl => h l (mem_cons_of_mem _ hl)) fun l hl => hsize l (mem_cons_of_mem _ hl)
    rw [flatMap_cons, append_assoc, singleton_append,
      readPieces_line (h l mem_cons_self) (hsize l mem_cons_self), hrest, map_cons]

theorem newline_notMem_dropLast {piece : List Char} : ∀ {s : List Char}, piece ∈ readLines s →
    '\n' ∉ piece.dropLast
  | [], h => by simp [readLines] at h
  | c :: s, h => by
    have ih := fun p (hp : p ∈ readLines s) => newline_notMem_dropLast hp
    unfold readLines at h
    split at h
    next hc =>
      rw [mem_cons] at h
      obtain rfl | h := h
      · simp
      · exact ih _ h
    next hc =>
      split at h
      · rw [mem_singleton] at h
        simp [h]
      next l ls hl =>
        rw [hl] at ih
        rw [mem_cons] at h
        obtain rfl | h := h
        · have hl := ih l mem_cons_self
          cases l with
          | nil => simp
          | cons a l =>
            rw [dropLast_cons_of_ne_nil (cons_ne_nil _ _), mem_cons]
            exact not_or.mpr ⟨fun he => hc he.symm, hl⟩
        · exact ih _ (mem_cons_of_mem _ h)

/-! ### Numbers -/

theorem head_toDigits_ne_zero {n : ℕ} (h : 0 < n) : (toDigits 10 n).head? ≠ some '0' := by
  induction n using Nat.strong_induction_on with
  | _ n ih =>
    rw [toDigits_eq_if (by decide)]
    split
    next hn =>
      intro he
      rw [head?_cons, Option.some.injEq, digitChar_eq_zero] at he
      omega
    next hn =>
      rw [head?_append_of_ne_nil _ toDigits_ne_nil]
      exact ih (n / 10) (by omega) (by omega)

theorem isDigit_iff : c.isDigit ↔ 48 ≤ c.toNat ∧ c.toNat ≤ 57 := by
  simp only [Char.isDigit, Bool.and_eq_true, decide_eq_true_eq, UInt32.le_iff_toNat_le, ge_iff_le]
  exact Iff.rfl

theorem digitValue_of_isDigit (h : c.isDigit) :
    digitValue c = c.toNat - '0'.toNat ∧ digitValue c < 10 := by
  have h0 : '0'.toNat = 48 := rfl
  have hc := isDigit_iff.mp h
  unfold digitValue
  rw [if_pos h]
  omega

theorem digitValue_lt_iff (c : Char) : digitValue c < 10 ↔ c.isDigit := by
  constructor
  · intro hlt
    unfold digitValue at hlt
    split_ifs at hlt
    all_goals omega
  · exact fun hc => (digitValue_of_isDigit hc).2

theorem digitsValue_eq_foldl {base : ℕ} (h : ∀ c ∈ s, digitValue c < base) :
    digitsValue base s = s.foldl (fun n c => base * n + digitValue c) 0 := by
  unfold digitsValue
  rw [takeWhile_eq_self_iff.mpr fun c hc => decide_eq_true (h c hc)]

theorem digitsValue_append (hs : ∀ c ∈ s, c.isDigit) (hr : ∀ c ∈ rest.head?, ¬ c.isDigit) :
    digitsValue 10 (s ++ rest) = digitsValue 10 s := by
  have hp : ∀ c ∈ s, decide (digitValue c < 10) := fun c hc =>
    decide_eq_true ((digitValue_lt_iff c).mpr (hs c hc))
  have hrest : ∀ c ∈ rest.head?, ¬decide (digitValue c < 10) :=
    fun c hc => by simpa [digitValue_lt_iff] using hr c hc
  unfold digitsValue
  rw [takeWhile_append_eq hp hrest, takeWhile_eq_self_iff.mpr hp]

theorem takeSign_of_isDigit (h : c.isDigit) (s : List Char) :
    takeSign ((c :: s).dropWhile isspace) = (false, c :: s) := by
  have hc := isDigit_iff.mp h
  rw [dropWhile_cons_of_neg (by simp [isspace_eq_false (show 33 ≤ c.toNat by omega)])]
  unfold takeSign
  split
  · simp_all
  · simp_all
  · rfl

theorem atoi_append (hs : ∀ c ∈ s, c.isDigit) (hne : s ≠ [])
    (hr : ∀ c ∈ rest.head?, ¬ c.isDigit) : atoi (s ++ rest) = atoi s := by
  obtain ⟨c, t, rfl⟩ := exists_cons_of_ne_nil hne
  have hskip := takeSign_of_isDigit (hs c mem_cons_self)
  have hvalue := digitsValue_append hs hr
  rw [cons_append] at hvalue
  simp only [atoi, cons_append, hskip, hvalue]

theorem isDigit_of_mem_toDigits {n : ℕ} (hc : c ∈ toDigits 10 n) : c.isDigit :=
  Nat.isDigit_of_mem_toDigits (by decide) (by decide) hc

theorem digitsValue_toDigits (n : ℕ) : digitsValue 10 (toDigits 10 n) = n := by
  rw [digitsValue_eq_foldl fun c hc => (digitValue_of_isDigit (isDigit_of_mem_toDigits hc)).2]
  conv_rhs => rw [← ofDigitChars_toDigits (b := 10) (n := n) (by decide) (by decide)]
  exact foldl_ext _ _ _ fun m c hc => by rw [(digitValue_of_isDigit (isDigit_of_mem_toDigits hc)).1]

theorem detectBase_toDigits (n : ℕ) :
    digitsValue (detectBase (toDigits 10 n)).1 (detectBase (toDigits 10 n)).2 = n := by
  obtain rfl | hn := Nat.eq_zero_or_pos n
  · decide
  have h := head_toDigits_ne_zero hn
  have hb : detectBase (toDigits 10 n) = (10, toDigits 10 n) := by
    unfold detectBase
    split <;> simp_all
  rw [hb]
  exact digitsValue_toDigits n

variable {v : ℤ}

theorem mem_decimal (h : c ∈ decimal v) : c = '-' ∨ c.isDigit := by
  unfold decimal at h
  split at h
  · obtain rfl | h := mem_cons.mp h
    · exact .inl rfl
    · exact .inr (isDigit_of_mem_toDigits h)
  · exact .inr (isDigit_of_mem_toDigits h)

theorem ne_of_mem_decimal (h : c ∈ decimal v) (hx : ¬(x = '-' ∨ x.isDigit)) : c ≠ x := by
  rintro rfl
  exact hx (mem_decimal h)

theorem decimal_ne_nil (v : ℤ) : decimal v ≠ [] := by
  unfold decimal
  split
  · exact cons_ne_nil _ _
  · exact toDigits_ne_nil

theorem isspace_of_mem_decimal (h : c ∈ decimal v) : isspace c = false := by
  obtain rfl | h := mem_decimal h
  · decide
  · have := isDigit_iff.mp h
    exact isspace_eq_false (by omega)

theorem takeSign_toDigits (n : ℕ) (rest : List Char) : takeSign
    ((toDigits 10 n ++ rest).dropWhile isspace) = (false, toDigits 10 n ++ rest) := by
  obtain ⟨c, ds, hds⟩ := exists_cons_of_ne_nil (toDigits_ne_nil (n := n))
  rw [hds]
  exact takeSign_of_isDigit (isDigit_of_mem_toDigits (n := n) (by simp [hds])) _

theorem takeSign_decimal (v : ℤ) (rest : List Char) :
    takeSign ((decimal v ++ rest).dropWhile isspace) =
    (decide (v < 0), toDigits 10 v.natAbs ++ rest) := by
  unfold decimal
  by_cases hv : v < 0
  · rw [if_pos hv, decide_eq_true hv]
    rfl
  · rw [if_neg hv, decide_eq_false hv, takeSign_toDigits]

theorem strtol_decimal (hl : -2 ^ 63 ≤ v) (hu : v < 2 ^ 63) : strtol (decimal v) = v := by
  have hn := detectBase_toDigits v.natAbs
  have hs := takeSign_decimal v []
  rw [append_nil, append_nil] at hs
  unfold strtol
  simp only [hs, hn, decide_eq_true_eq]
  split <;> omega

theorem scanInt_decimal (v : Int32) (hrest : ∀ c ∈ rest.head?, ¬ c.isDigit) :
    scanInt (decimal v.toInt ++ rest) = some (v, rest) := by
  have hdigits : ∀ c ∈ toDigits 10 v.toInt.natAbs, c.isDigit := fun c => isDigit_of_mem_toDigits
  have hvalue : digitsValue 10 (toDigits 10 v.toInt.natAbs ++ rest) = v.toInt.natAbs :=
    (digitsValue_append hdigits hrest).trans (digitsValue_toDigits _)
  have hclip : max (-2 ^ 63) (min (2 ^ 63 - 1) (if v.toInt <
      0 then -(v.toInt.natAbs : ℤ) else v.toInt.natAbs)) = v.toInt := by
    have hlo := v.le_toInt
    have hhi := v.toInt_lt
    split <;> omega
  unfold scanInt
  simp only [takeSign_decimal, takeWhile_append_eq hdigits hrest, dropWhile_append_eq hdigits hrest, hvalue,
    decide_eq_true_eq, hclip, Int32.ofInt_toInt]
  rw [if_neg toDigits_ne_nil]

theorem of_mem_intercalate {sep : List Char} : ∀ {ls : List (List Char)}, c ∈ intercalate sep ls →
    (∃ l ∈ ls, c ∈ l) ∨ c ∈ sep
  | [], h => by simp at h
  | [l], h => by
    rw [intercalate_singleton] at h
    exact .inl ⟨l, mem_singleton_self l, h⟩
  | l :: l' :: ls, h => by
    rw [intercalate_cons_cons, append_assoc, mem_append, mem_append] at h
    obtain h | h | h := h
    · exact .inl ⟨l, mem_cons_self, h⟩
    · exact .inr h
    · obtain ⟨m, hm, hc⟩ | hsep := of_mem_intercalate h
      · exact .inl ⟨m, mem_cons_of_mem _ hm, hc⟩
      · exact .inr hsep

theorem scanInts_dropWhile (n : ℕ) (s : List Char) :
    scanInts n (s.dropWhile isspace) = scanInts n s := by
  cases n with
  | zero => rfl
  | succ n => rw [scanInts, scanInts, scanInt, scanInt, dropWhile_idempotent]

/-- Numbers that are printed with blanks between them are read again. -/
theorem scanInts_intercalate : ∀ vs : List Int32,
    scanInts vs.length (intercalate [' '] (vs.map fun v => decimal v.toInt) ++ ['\n']) = vs
  | [] => rfl
  | [v] => by
    have hscan : scanInt (decimal v.toInt ++ ['\n']) = some (v, ['\n']) := scanInt_decimal v (by simp)
    rw [map_singleton, intercalate_singleton, length_singleton, scanInts, hscan]
    rfl
  | v :: w :: vs => by
    have hrest := scanInts_intercalate (w :: vs)
    have hscan : ∀ rest, scanInt (decimal v.toInt ++ ' ' :: rest) = some (v, ' ' :: rest) := fun rest =>
      scanInt_decimal v (by simp)
    rw [map_cons] at hrest
    rw [map_cons, map_cons, intercalate_cons_cons, append_assoc, append_assoc, singleton_append,
      length_cons, scanInts, hscan]
    dsimp only
    rw [dropWhile_cons_of_pos (by decide), scanInts_dropWhile, hrest]

theorem length_decimal_le (v : Int32) : (decimal v.toInt).length ≤ 11 := by
  have hlo := v.le_toInt
  have hhi := v.toInt_lt
  have hdigits : (toDigits 10 v.toInt.natAbs).length ≤ 10 :=
    (length_toDigits_le_iff (by decide) (by decide)).mpr (by omega)
  unfold decimal
  split
  · rw [length_cons]
    omega
  · omega

end Code365.CString
