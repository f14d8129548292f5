import Mathlib

/-! # Numbers and their digits

The last digits of a number in a base, the highest first, and the number of given digits.  A number
written with leading zeros has its last digits as text; a number that needs no leading zeros is
written with the same characters (`toDigits_eq`), and a text of digits is parsed to their number
(`parse_text`).  The digits in base `b` are the digits in base `b ^ m` written out (`digits_mul`);
`spelled` is the text of a number given by its digits in base `b ^ m`. -/

namespace Code365.Digits

open List

/-- The last `count` digits of a number, the highest first. -/
def digits (b : ℕ) : ℕ → ℕ → List ℕ
  | 0, _ => []
  | count + 1, n => digits b count (n / b) ++ [n % b]

def ofDigits (b : ℕ) (ds : List ℕ) : ℕ := ds.foldl (fun n d => n * b + d) 0

@[simp] theorem length_digits (b : ℕ) : ∀ count n : ℕ, (digits b count n).length = count
  | 0, _ => rfl
  | count + 1, n => by rw [digits, length_append, length_digits]; rfl

theorem digits_add (b : ℕ) (c n : ℕ) :
    ∀ m : ℕ, digits b (c + m) n = digits b c (n / b ^ m) ++ digits b m n := by
  intro m
  induction m generalizing n with
  | zero => simp [digits]
  | succ m ih =>
    rw [← add_assoc, digits, ih, digits, append_assoc, Nat.div_div_eq_div_mul, pow_succ, mul_comm b]

theorem digits_mod (b : ℕ) : ∀ m n : ℕ, digits b m (n % b ^ m) = digits b m n
  | 0, _ => rfl
  | m + 1, n => by
    rw [digits, digits, pow_succ, Nat.mod_mul_left_div_self, digits_mod b m (n / b),
      Nat.mod_mod_of_dvd n (Nat.dvd_mul_left b (b ^ m))]

theorem digits_mul (b m : ℕ) :
    ∀ k n : ℕ, digits b (k * m) n = (digits (b ^ m) k n).flatMap (digits b m)
  | 0, n => by rw [zero_mul]; rfl
  | k + 1, n => by
    rw [Nat.succ_mul, digits_add, digits_mul b m k, digits, flatMap_append, flatMap_singleton, digits_mod]

theorem ofDigits_append_singleton (b d : ℕ) (ds : List ℕ) :
    ofDigits b (ds ++ [d]) = ofDigits b ds * b + d := by
  unfold ofDigits
  rw [foldl_append]
  rfl

theorem ofDigits_append (b : ℕ) (ds es : List ℕ) :
    ofDigits b (ds ++ es) = ofDigits b ds * b ^ es.length + ofDigits b es := by
  induction es using List.reverseRecOn with
  | nil =>
    rw [append_nil, length_nil, pow_zero, mul_one]
    rfl
  | append_singleton es e ih =>
    rw [← append_assoc, ofDigits_append_singleton, ih, ofDigits_append_singleton, length_append,
      length_singleton, pow_succ, add_mul, mul_assoc, add_assoc]

variable {b radix m : ℕ}

theorem digits_ofDigits (ds : List ℕ) (h : ∀ d ∈ ds, d < b) :
    digits b ds.length (ofDigits b ds) = ds := by
  induction ds using List.reverseRecOn with
  | nil => rfl
  | append_singleton ds d ih =>
    have hd : d < b := h d (by simp)
    have hdiv : (ofDigits b ds * b + d) / b = ofDigits b ds := by
      rw [mul_comm, Nat.mul_add_div (by omega), Nat.div_eq_of_lt hd, add_zero]
    rw [length_append, length_singleton, digits, ofDigits_append_singleton, hdiv,
      ih fun d hd => h d (mem_append_left _ hd), mul_comm, Nat.mul_add_mod, Nat.mod_eq_of_lt hd]

theorem digits_lt (hb : 0 < b) : ∀ {count n d : ℕ}, d ∈ digits b count n → d < b
  | count + 1, n, d, h => by
    rcases mem_append.mp h with h | h
    · exact digits_lt hb h
    · rw [mem_singleton] at h
      rw [h]
      exact Nat.mod_lt _ hb

theorem ofDigits_lt (ds : List ℕ) (h : ∀ d ∈ ds, d < b) : ofDigits b ds < b ^ ds.length := by
  induction ds using List.reverseRecOn with
  | nil => exact Nat.zero_lt_one
  | append_singleton ds d ih =>
    have hd : d < b := h d (by simp)
    have hlt := ih fun d hd => h d (mem_append_left _ hd)
    rw [ofDigits_append_singleton, length_append, length_singleton, pow_succ]
    nlinarith

theorem ofDigits_digits (b : ℕ) : ∀ count n : ℕ, n < b ^ count → ofDigits b (digits b count n) = n
  | 0, n, h => by
    rw [pow_zero] at h
    change 0 = n
    omega
  | count + 1, n, h => by
    rw [pow_succ, mul_comm] at h
    rw [digits, ofDigits_append_singleton, ofDigits_digits b count (n / b) (Nat.div_lt_of_lt_mul h),
      Nat.div_add_mod']

theorem ofDigits_xor {ι : Type*} {w : ℕ} (f g : ι → ℕ) (is : List ι) (hf : ∀ i, f i < 2 ^ w)
    (hg : ∀ i, g i < 2 ^ w) : ofDigits (2 ^ w) (is.map f) ^^^ ofDigits (2 ^ w) (is.map g) =
    ofDigits (2 ^ w) (is.map fun i => f i ^^^ g i) := by
  induction is using List.reverseRecOn with
  | nil => exact Nat.xor_self 0
  | append_singleton is i ih =>
    simp only [map_append, map_cons, map_nil, ofDigits_append_singleton]
    rw [← ih, mul_comm _ (2 ^ w), mul_comm _ (2 ^ w), mul_comm _ (2 ^ w)]
    apply Nat.eq_of_testBit_eq
    intro j
    rw [Nat.testBit_xor, Nat.testBit_two_pow_mul_add _ (hf i), Nat.testBit_two_pow_mul_add _ (hg i),
      Nat.testBit_two_pow_mul_add _ (Nat.xor_lt_two_pow (hf i) (hg i)), Nat.testBit_xor, Nat.testBit_xor]
    split
    · rfl
    · rfl

/-! ### Digits as text -/

/-- The value of a digit, capital letters as the small ones; 36 for another character. -/
def digitValue (c : Char) : ℕ :=
  if '0' ≤ c ∧ c ≤ '9' then c.toNat - '0'.toNat
  else if 'a' ≤ c ∧ c ≤ 'z' then c.toNat - 'a'.toNat + 10
  else if 'A' ≤ c ∧ c ≤ 'Z' then c.toNat - 'A'.toNat + 10
  else 36

def digit (radix : ℕ) (c : Char) : Option ℕ := if digitValue c < radix then some (digitValue c) else none

/-- The number a text of digits stands for; none for an empty text or another character. -/
def parse (radix : ℕ) (s : List Char) : Option ℕ :=
  if s = [] then none else (s.mapM (digit radix)).map (ofDigits radix)

def text (ds : List ℕ) : List Char := ds.map Nat.digitChar

theorem digit_digitChar {d : ℕ} (hr : radix ≤ 16) (hd : d < radix) :
    digit radix (Nat.digitChar d) = some d := by
  have hall : ∀ radix ≤ 16, ∀ d < radix, digit radix (Nat.digitChar d) = some d := by decide
  exact hall radix hr d hd

variable {ds : List ℕ}

theorem parse_text (hr : radix ≤ 16) (hne : ds ≠ []) (h : ∀ d ∈ ds, d < radix) :
    parse radix (text ds) = some (ofDigits radix ds) := by
  have hmap : (text ds).mapM (digit radix) = some ds := by
    clear hne
    induction ds with
    | nil => rfl
    | cons d ds ih =>
      unfold text at ih ⊢
      rw [map_cons, mapM_cons, digit_digitChar hr (h d mem_cons_self),
        ih fun d hd => h d (mem_cons_of_mem _ hd)]
      rfl
  have hne' : text ds ≠ [] := fun he => hne (map_eq_nil_iff.mp he)
  unfold parse
  rw [if_neg hne', hmap]
  rfl

theorem toDigits_eq (hb : 1 < b) : ∀ {c n : ℕ}, b ^ c ≤ n → n < b ^ (c + 1) →
    Nat.toDigits b n = text (digits b (c + 1) n)
  | 0, n, _, hlt => by
    rw [zero_add, Nat.pow_one] at hlt
    rw [Nat.toDigits_of_lt_base hlt, digits, Nat.mod_eq_of_lt hlt]
    rfl
  | c + 1, n, hle, hlt => by
    have hpos : 1 ≤ b ^ c := Nat.one_le_pow _ _ (by omega)
    rw [pow_succ] at hle hlt
    have hn : ¬n < b := by nlinarith
    have hdiv : b ^ c ≤ n / b := (Nat.le_div_iff_mul_le (by omega)).mpr hle
    have hdiv' : n / b < b ^ (c + 1) := Nat.div_lt_of_lt_mul (by rwa [mul_comm] at hlt)
    have hstep : digits b (c + 1 + 1) n = digits b (c + 1) (n / b) ++ [n % b] := rfl
    rw [Nat.toDigits_eq_if hb, if_neg hn, toDigits_eq hb hdiv hdiv', hstep]
    unfold text
    rw [map_append]
    rfl

/-- The digits in base `b` of a number given by its digits in base `b ^ m`. -/
def spelled (b m : ℕ) (ds : List ℕ) : List Char := text (ds.flatMap (digits b m))

theorem spelled_append (b m : ℕ) (ds es : List ℕ) :
    spelled b m (ds ++ es) = spelled b m ds ++ spelled b m es := by
  unfold spelled text
  rw [flatMap_append, map_append]

theorem spelled_singleton (b m d : ℕ) : spelled b m [d] = text (digits b m d) := by
  unfold spelled
  rw [flatMap_singleton]

theorem length_spelled (b m : ℕ) : ∀ ds : List ℕ, (spelled b m ds).length = ds.length * m
  | [] => by rw [length_nil, zero_mul]; rfl
  | d :: ds => by
    rw [← singleton_append, spelled_append, length_append, length_spelled b m ds, spelled_singleton,
      text, length_map, length_digits, length_append, add_mul, length_singleton, one_mul]

theorem spelled_eq (h : ∀ d ∈ ds, d < b ^ m) :
    spelled b m ds = text (digits b (ds.length * m) (ofDigits (b ^ m) ds)) := by
  rw [digits_mul, digits_ofDigits ds h]
  rfl

theorem parse_spelled (hb : 1 < b) (hb' : b ≤ 16) (hm : 0 < m) (hne : ds ≠ [])
    (h : ∀ d ∈ ds, d < b ^ m) : parse b (spelled b m ds) = some (ofDigits (b ^ m) ds) := by
  have hpos : 0 < ds.length * m := Nat.mul_pos (length_pos_iff.mpr hne) hm
  have hlt : ofDigits (b ^ m) ds < b ^ (ds.length * m) := by
    rw [mul_comm, Nat.pow_mul]
    exact ofDigits_lt ds h
  have hne' : digits b (ds.length * m) (ofDigits (b ^ m) ds) ≠ [] := by
    intro he
    have hlen := length_digits b (ds.length * m) (ofDigits (b ^ m) ds)
    rw [he] at hlen
    change 0 = _ at hlen
    omega
  rw [spelled_eq h, parse_text hb' hne' fun d hd => digits_lt (by omega) hd, ofDigits_digits b _ _ hlt]

/-- A number of full width is spelled without leading zeros, and one that is not has a shorter
text. -/
theorem toDigits_ofDigits (hb : 1 < b) (h : ∀ d ∈ ds, d < b ^ m) {c : ℕ}
    (hc : ds.length * m = c + 1) (hle : b ^ c ≤ ofDigits (b ^ m) ds) :
    Nat.toDigits b (ofDigits (b ^ m) ds) = spelled b m ds := by
  have hlt : ofDigits (b ^ m) ds < b ^ (c + 1) := by
    rw [← hc, mul_comm, Nat.pow_mul]
    exact ofDigits_lt ds h
  rw [toDigits_eq hb hle hlt, spelled_eq h, hc]

end Code365.Digits
