import Code365.Lib.Pattern

/-! # `quine_mc_cluskey.py` (`algorithms/python/boolean_algebra`): the prime implicants

Strings are lists of characters.  A string index out of range gives `none`, and so does a loop that
goes on longer than `fuel`. The order in which Python lists a set is a parameter (`order`).

In one round of `check` all strings have the same number of `_` (`Shape`), so two strings that
differ in one position have a digit there in both, and are joined to one with a `_` more
(`compareString_spec`). -/

namespace Code365.Algorithms.QuineMcCluskey

open List Function Pattern

/-! ### The functions up to `check` -/

/-- The loop of `compare_string`: the number of differences, and `l1` with `_` at them. -/
def compareLoop : List Char → List Char → Option (ℕ × List Char)
  | [], _ => some (0, [])
  | _ :: _, [] => none
  | c1 :: l1, c2 :: l2 => do
    let (count, l) ← compareLoop l1 l2
    return if c1 ≠ c2 then (count + 1, '_' :: l) else (count, c1 :: l)

/-- `compare_string`; the `-1` is `some none`. -/
def compareString (string1 string2 : List Char) : Option (Option (List Char)) := do
  let (count, l1) ← compareLoop string1 string2
  return if count > 1 then none else some l1

/-- The indices of the two loops of a round, in their order. -/
def pairs (n : ℕ) : List (Fin n × Fin n) :=
  (List.finRange n).flatMap fun i => ((List.finRange n).filter (i < ·)).map fun j => (i, j)

/-- `check1` and `temp`. -/
abbrev Marks (binary : List (List Char)) := (Fin binary.length → Char) × List (List Char)

/-- The body of the two loops. -/
def compareStep (binary : List (List Char)) (s : Marks binary) (ij : Fin binary.length × Fin binary.length) :
    Option (Marks binary) := do
  match ← compareString (binary.get ij.1) (binary.get ij.2) with
  | none => return s
  | some k => return (update (update s.1 ij.1 '*') ij.2 '*', s.2 ++ [k])

/-- The strings that are still marked with `$`. -/
def unmarked (binary : List (List Char)) (check1 : Fin binary.length → Char) : List (List Char) :=
  ((List.finRange binary.length).filter (check1 · = '$')).map binary.get

/-- The loop of `check`, with the list `pi` so far. -/
def checkLoop (order : List (List Char) → List (List Char)) :
    ℕ → List (List Char) → List (List Char) → Option (List (List Char))
  | 0, _, _ => none
  | fuel + 1, pi, binary => do
    let (check1, temp) ← (pairs binary.length).foldlM (compareStep binary) (fun _ => '$', [])
    let pi := pi ++ unmarked binary check1
    if temp.length = 0 then return pi else checkLoop order fuel pi (order temp)

def check (order : List (List Char) → List (List Char)) (fuel : ℕ)
    (binary : List (List Char)) : Option (List (List Char)) :=
  checkLoop order fuel [] binary

/-- The inner loop of `decimal_to_binary`. -/
def binaryLoop : ℕ → List Char → ℕ → List Char
  | 0, s, _ => s
  | i + 1, s, m => binaryLoop i (Nat.digitChar (m % 2) :: s) (m / 2)

def decimalToBinary (noOfVariable : ℕ) (minterms : List ℕ) : List (List Char) :=
  minterms.map (binaryLoop noOfVariable [])

/-! ### Assignments -/

/-- The assignment with the number `m`: its bits, the highest first. -/
def bits (n m : ℕ) : List Char := (List.range n).map fun i => if m.testBit (n - 1 - i) then '1' else '0'

theorem length_bits (n m : ℕ) : (bits n m).length = n := by simp [bits]

theorem mem_bits {n m : ℕ} {c : Char} (hc : c ∈ bits n m) : c = '0' ∨ c = '1' := by
  obtain ⟨i, _, rfl⟩ := mem_map.mp hc
  split_ifs
  · exact .inr rfl
  · exact .inl rfl

theorem wild_notMem_bits (n m : ℕ) : '_' ∉ bits n m := by
  intro h
  rcases mem_bits h with h | h <;> exact absurd h (by decide)

theorem bits_succ (n m : ℕ) : bits (n + 1) m = bits n (m / 2) ++ [Nat.digitChar (m % 2)] := by
  unfold bits
  rw [range_succ, map_append]
  congr 1
  · refine map_congr_left fun i hi => ?_
    have hi := mem_range.mp hi
    rw [(by omega : n + 1 - 1 - i = n - 1 - i + 1), Nat.testBit_succ]
  · rcases Nat.mod_two_eq_zero_or_one m with h | h
    · simp [Nat.testBit_zero, h]
    · simp [Nat.testBit_zero, h]

theorem binaryLoop_eq (n : ℕ) : ∀ (s : List Char) (m : ℕ), binaryLoop n s m = bits n m ++ s := by
  induction n with
  | zero => exact fun s m => rfl
  | succ n ih =>
    intro s m
    rw [binaryLoop, ih, bits_succ, append_assoc]
    rfl

theorem bits_injective {n m m' : ℕ} (hm : m < 2 ^ n) (hm' : m' < 2 ^ n) (h : bits n m = bits n m') :
    m = m' := by
  refine Nat.eq_of_testBit_eq fun i => ?_
  rcases lt_or_ge i n with hi | hi
  · have hget := congrArg (·[n - 1 - i]?) h
    simp only [bits, getElem?_map, getElem?_range (by omega : n - 1 - i < n), Option.map_some,
      (by omega : n - 1 - (n - 1 - i) = i), Option.some.injEq] at hget
    cases hb : m.testBit i <;> cases hb' : m'.testBit i <;> simp [hb, hb'] at hget <;> rfl
  · have hpow : 2 ^ n ≤ 2 ^ i := Nat.pow_le_pow_right Nat.two_pos hi
    rw [Nat.testBit_lt_two_pow (hm.trans_le hpow), Nat.testBit_lt_two_pow (hm'.trans_le hpow)]

theorem decimalToBinary_eq (n : ℕ) (minterms : List ℕ) :
    decimalToBinary n minterms = minterms.map (bits n) := by
  refine map_congr_left fun m _ => ?_
  rw [binaryLoop_eq, append_nil]

/-! ### `compare_string` -/

variable {n t : ℕ} {x y k : List Char}

theorem compareLoop_spec : ∀ {x y : List Char}, x.length = y.length → ∃ count l, compareLoop x y =
    some (count, l) ∧ (count = 0 → x = y ∧ l = x) ∧ (count = 1 → Joined '_' x y l)
  | [], [], _ => ⟨0, [], rfl, fun _ => ⟨rfl, rfl⟩, fun h => absurd h (by decide)⟩
  | [], _ :: _, hlen | _ :: _, [], hlen => absurd hlen (by simp)
  | c :: x, d :: y, hlen => by
    obtain ⟨count, l, hrun, h0, h1⟩ := compareLoop_spec (Nat.succ.inj hlen)
    by_cases hcd : c = d
    · subst hcd
      refine ⟨count, c :: l, by simp [compareLoop, hrun], fun h => ?_, fun h => (h1 h).cons c⟩
      obtain ⟨rfl, rfl⟩ := h0 h
      exact ⟨rfl, rfl⟩
    · refine ⟨count + 1, '_' :: l, by simp [compareLoop, hrun, hcd], fun h => absurd h (by omega), fun h => ?_⟩
      obtain ⟨rfl, rfl⟩ := h0 (by omega)
      exact .intro [] l hcd

/-- A string of a round: its length, its characters and the number of `_`. -/
structure Shape (n t : ℕ) (x : List Char) : Prop where
  length : x.length = n
  chars : ∀ c ∈ x, c = '0' ∨ c = '1' ∨ c = '_'
  wild : x.count '_' = t

theorem Shape.le (h : Shape n t x) : t ≤ n := by
  rw [← h.wild, ← h.length]
  exact count_le_length

theorem compareString_spec (hlen : x.length = y.length) (hne : x ≠ y) :
    compareString x y = some none ∨ ∃ k, compareString x y = some (some k) ∧ Joined '_' x y k := by
  obtain ⟨count, l, hrun, h0, h1⟩ := compareLoop_spec hlen
  have hrun' : compareString x y = some (if count > 1 then none else some l) := by simp [compareString, hrun]
  rw [hrun']
  by_cases hcount : count > 1
  · rw [if_pos hcount]
    exact .inl rfl
  · have hpos : count ≠ 0 := fun h => hne (h0 h).1
    rw [if_neg hcount]
    exact .inr ⟨l, rfl, h1 (by omega)⟩

/-! ### A round of `check` -/

variable {binary : List (List Char)}

theorem ne_of_mem_pairs (hnodup : binary.Nodup) {ij : Fin binary.length × Fin binary.length}
    (h : ij ∈ pairs binary.length) : binary.get ij.1 ≠ binary.get ij.2 := by
  obtain ⟨i, _, hi⟩ := mem_flatMap.mp h
  obtain ⟨j, hj, rfl⟩ := mem_map.mp hi
  have hlt : i < j := by simpa using hj
  exact fun he => hlt.ne (nodup_iff_injective_get.mp hnodup he)

/-- A word of binary digits. -/
def Digits (a : List Char) : Prop := ∀ b ∈ a, b = '0' ∨ b = '1'

def Covers (l : List (List Char)) (a : List Char) : Prop := ∃ x ∈ l, Matches '_' x a

/-- The list of a set: each of its elements once. -/
def ListsSets (order : List (List Char) → List (List Char)) : Prop :=
  ∀ l, (order l).Nodup ∧ ∀ x, x ∈ order l ↔ x ∈ l

end Code365.Algorithms.QuineMcCluskey
