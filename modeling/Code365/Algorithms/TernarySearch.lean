import Code365.Lib.CInt

/-! # `IterativeTernarySearch.java` (`algorithms/java/Searches`)

Every round of `find` compares the key with both ends of the range and then cuts off one third of
it.  A range of two elements is left with both compared, so the `-1` after the loop is right, but
for a range that had a single element from the start (`find_iff`). -/

namespace Code365.Algorithms.TernarySearch

open CInt

variable {α : Type} [LinearOrder α] {array : List α} {key : α}

/-- The loop; `none` is an index outside the array, or a loop of more than `fuel` rounds. -/
def loop (array : List α) (key : α) : ℕ → ℤ → ℤ → Option ℤ
  | 0, _, _ => none
  | fuel + 1, left, right =>
    if right > left then do
      let leftmost ← arrayGet array left
      let rightmost ← arrayGet array right
      if leftmost = key then return left
      else if rightmost = key then return right
      else
        let leftThird := left + (right - left) / 3 + 1
        let rightThird := right - (right - left) / 3 - 1
        if (← arrayGet array leftThird) ≤ key then loop array key fuel leftThird right
        else loop array key fuel left rightThird
    else some (-1)

def find (array : List α) (key : α) : Option ℤ := loop array key (array.length + 1) 0 (array.length - 1)

/-- `i` is an index of the key, or `-1` if there is none. -/
def Finds (array : List α) (key : α) (i : ℤ) : Prop := arrayGet array i = some key ∨ key ∉ array ∧ i = -1

/-- The key is in the range from `l` to `r` if it is in the array, and then the loop goes on. -/
structure Inv (array : List α) (key : α) (l r : ℕ) : Prop where
  lt : r < array.length
  occurs : key ∈ array → l < r ∧ ∃ k, l ≤ k ∧ k ≤ r ∧ array[k]? = some key

theorem loop_spec (hs : array.Pairwise (· ≤ ·)) : ∀ {fuel l r : ℕ}, Inv array key l r →
    r - l < fuel → ∃ i, loop array key fuel l r = some i ∧ Finds array key i
  | fuel + 1, l, r, h, hfuel => by
    have hr := h.lt
    by_cases hlr : l < r
    · obtain ⟨q, hq⟩ : ∃ q : ℕ, ((r : ℤ) - l) / 3 = q := Int.eq_ofNat_of_zero_le (by omega)
      have hleft : (l : ℤ) + q + 1 = (l + q + 1 : ℕ) := rfl
      have hright : (r : ℤ) - q - 1 = (r - q - 1 : ℕ) := by omega
      have hget : ∀ {k} (hk : k < array.length), arrayGet array k = some array[k] := fun hk => by
        rw [arrayGet_natCast, List.getElem?_eq_getElem hk]
      have hle : ∀ {i j} (hi : i ≤ j) (hj : j < array.length), array[i] ≤ array[j] := fun hi hj => by
        obtain rfl | hi := hi.eq_or_lt
        · exact le_rfl
        · exact List.pairwise_iff_getElem.mp hs _ _ _ hj hi
      rw [loop, if_pos (show (r : ℤ) > l by omega), hget (show l < array.length by omega), hget hr,
        hq, hleft, hright]
      simp only [Option.bind_eq_bind, Option.bind_some, hget (show l + q + 1 < array.length by omega)]
      split_ifs with hl hr' hthird
      · exact ⟨l, rfl, .inl (by rw [hget (by omega), hl])⟩
      · exact ⟨r, rfl, .inl (by rw [hget hr, hr'])⟩
      all_goals
        refine loop_spec hs ⟨by omega, fun hmem => ?_⟩ (by omega)
        obtain ⟨_, k, hlk, hkr, hk⟩ := h.occurs hmem
        obtain ⟨hlen, rfl⟩ := List.getElem?_eq_some_iff.mp hk
        -- the key is at neither end
        have hkl : k ≠ l := fun he => hl (by simp [he])
        have hkr' : k ≠ r := fun he => hr' (by simp [he])
      · refine ⟨by omega, max k (l + q + 1), by omega, by omega, ?_⟩
        obtain hk | hk := le_total k (l + q + 1)
        · rw [max_eq_right hk, List.getElem?_eq_getElem (by omega), le_antisymm hthird (hle hk _)]
        · rw [max_eq_left hk, List.getElem?_eq_getElem hlen]
      · have hlt : k < l + q + 1 := by
          by_contra hge
          exact hthird (hle (not_lt.mp hge) hlen)
        exact ⟨by omega, k, hlk, by omega, hk⟩
    · rw [loop, if_neg (show ¬(r : ℤ) > l by omega)]
      exact ⟨-1, rfl, .inr ⟨fun hmem => hlr (h.occurs hmem).1, rfl⟩⟩

/-- The search is right but for an array of one element that is the key. -/
theorem find_iff (array : List α) (hs : array.Pairwise (· ≤ ·)) (key : α) :
    (∃ i, find array key = some i ∧ Finds array key i) ↔ array ≠ [key] := by
  match array, hs with
  | [], _ => exact iff_of_true ⟨-1, rfl, .inr ⟨List.not_mem_nil, rfl⟩⟩ nofun
  | [a], _ =>
    have hfind : find [a] key = some (-1) := rfl
    simp [hfind, Finds, arrayGet, eq_comm]
  | a :: b :: rest, hs =>
    refine iff_of_true ?_ nofun
    rw [find, show ((a :: b :: rest).length : ℤ) - 1 = (rest.length + 1 : ℕ) by simp]
    refine loop_spec hs (l := 0) ⟨by simp, fun hmem => ⟨Nat.succ_pos _, ?_⟩⟩ (by simp)
    obtain ⟨k, hk⟩ := List.mem_iff_getElem?.mp hmem
    have hlt := (List.getElem?_eq_some_iff.mp hk).1
    exact ⟨k, Nat.zero_le k, Nat.lt_succ_iff.mp hlt, hk⟩

theorem find_three :
    [1, 3, 3].Pairwise (· ≤ ·) ∧ ∃ i, find [1, 3, 3] 3 = some i ∧ Finds [1, 3, 3] 3 i :=
  ⟨by decide, (find_iff [1, 3, 3] (by decide) 3).mpr (by decide)⟩

/-- An array of one element, which is the key, and is not found. -/
theorem find_single :
    find [7] 7 = some (-1) ∧ ¬Finds [7] 7 (-1) := ⟨by decide, by simp [Finds, arrayGet]⟩

end Code365.Algorithms.TernarySearch
