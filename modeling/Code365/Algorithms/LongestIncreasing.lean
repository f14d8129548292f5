import Code365.Lib.CInt
import Code365.Lib.While

/-! # `LongestIncreasingSubsequence.java` (`algorithms/java/Dynamic Programming`)

`tail` is an array of `N` numbers, of which the first `length` are in use; an access outside it
gives `none`.  After the elements `xs`, the last one first, `tail[k]` is the least number with which
an increasing subsequence of length `k + 1` can end (`Inv`).

The sum `l + r` of the search is an `int`.  It can wrap when more than `2 ^ 30 + 1` numbers of
`tail` are in use, and the index `m` is negative then (`whileLoop_wraps`). -/

namespace Code365.Algorithms.LongestIncreasing

open List Function CInt

/-- `ar[i]`, for an array of length `N`. -/
def get (N : ℕ) (ar : ℕ → ℤ) (i : ℤ) : Option ℤ := if 0 ≤ i ∧ i < N then some (ar i.toNat) else none

/-- `ar[i] = x`. -/
def set (N : ℕ) (ar : ℕ → ℤ) (i x : ℤ) : Option (ℕ → ℤ) :=
  if 0 ≤ i ∧ i < N then some (update ar i.toNat x) else none

/-- The body of the loop of `upperBound`, on `l` and `r`. -/
def halve (N : ℕ) (ar : ℕ → ℤ) (key : ℤ) (s : ℤ × ℤ) : Option (ℤ × ℤ) := do
  let m := (wrap (s.1 + s.2)).tdiv 2
  if (← get N ar m) ≥ key then return (s.1, m)
  else return (m, s.2)

def upperBound (N fuel : ℕ) (ar : ℕ → ℤ) (l r key : ℤ) : Option ℤ := do
  let s ← whileLoop (fun s : ℤ × ℤ => s.1 < s.2 - 1) (halve N ar key) fuel (l, r)
  return s.2

/-- The body of the loop, on `tail` and `length`. -/
def step (N : ℕ) (s : (ℕ → ℤ) × ℤ) (x : ℤ) : Option ((ℕ → ℤ) × ℤ) := do
  if x < (← get N s.1 0) then return (← set N s.1 0 x, s.2)
  else if x > (← get N s.1 (s.2 - 1)) then return (← set N s.1 s.2 x, s.2 + 1)
  else
    let j ← upperBound N (N + 1) s.1 (-1) (s.2 - 1) x
    return (← set N s.1 j x, s.2)

/-- An increasing subsequence with `k` elements before `v`; all lists are reversed. -/
def Ends (xs : List ℤ) (k : ℕ) (v : ℤ) : Prop :=
  ∃ l, l.length = k ∧ (v :: l).Sublist xs ∧ (v :: l).Pairwise (· > ·)

variable {k : ℕ}

theorem Ends.pred {xs : List ℤ} {v : ℤ} (h : Ends xs (k + 1) v) : ∃ u < v, Ends xs k u := by
  obtain ⟨l, hk, hsub, hlt⟩ := h
  cases l with
  | nil => cases hk
  | cons u l =>
    obtain ⟨hu, hl⟩ := pairwise_cons.mp hlt
    exact ⟨u, hu u mem_cons_self, l, Nat.succ.inj hk, (sublist_cons_self v _).trans hsub, hl⟩

theorem ends_cons {x : ℤ} {xs : List ℤ} {v : ℤ} :
    Ends (x :: xs) k v ↔ Ends xs k v ∨ v = x ∧ (k = 0 ∨ ∃ u < x, ∃ m, k = m + 1 ∧ Ends xs m u) := by
  constructor
  · rintro ⟨l, rfl, hsub, hlt⟩
    cases hsub with
    | cons _ hsub => exact .inl ⟨l, rfl, hsub, hlt⟩
    | cons_cons _ hsub =>
      obtain ⟨hx, hl⟩ := pairwise_cons.mp hlt
      cases l with
      | nil => exact .inr ⟨rfl, .inl rfl⟩
      | cons u l => exact .inr ⟨rfl, .inr ⟨u, hx u mem_cons_self, l.length, rfl, l, rfl, hsub, hl⟩⟩
  · rintro (⟨l, hk, hsub, hlt⟩ | ⟨rfl, rfl | ⟨u, hu, m, rfl, l, rfl, hsub, hlt⟩⟩)
    · exact ⟨l, hk, hsub.cons x, hlt⟩
    · exact ⟨[], rfl, by simp, pairwise_singleton _ _⟩
    · refine ⟨u :: l, rfl, hsub.cons_cons v, pairwise_cons.mpr ⟨?_, hlt⟩⟩
      rw [forall_mem_cons]
      exact ⟨hu, fun w hw => lt_trans ((pairwise_cons.mp hlt).1 w hw) hu⟩

/-! ### The array `tail` -/

structure Inv (xs : List ℤ) (tail : ℕ → ℤ) (length : ℕ) : Prop where
  ends : ∀ k < length, Ends xs k (tail k)
  least : ∀ k v, Ends xs k v → k < length ∧ tail k ≤ v

variable {xs : List ℤ} {tail : ℕ → ℤ} {length j N i n : ℕ} {x : ℤ}

theorem Inv.mono (h : Inv xs tail length) {m : ℕ} (hkm : k ≤ m) (hm : m < length) :
    tail k ≤ tail m := by
  induction m, hkm using Nat.le_induction with
  | base => exact le_rfl
  | succ m _ ih =>
    obtain ⟨u, hu, hends⟩ := (h.ends _ hm).pred
    exact (ih (by omega)).trans ((h.least m u hends).2.trans hu.le)

/-- `x` is put in the first place that does not hold a smaller number. -/
theorem Inv.put (h : Inv xs tail length) (hj : j ≤ length) (hlt : ∀ k < j, tail k < x)
    (hge : j < length → x ≤ tail j) : Inv (x :: xs) (update tail j x) (max length (j + 1)) := by
  have hnew : ∀ k v, Ends (x :: xs) k v ↔ Ends xs k v ∨ v = x ∧ k ≤ j := by
    intro k v
    rw [ends_cons]
    apply or_congr_right
    apply and_congr_right
    intro _
    constructor
    · rintro (rfl | ⟨u, hu, m, rfl, hends⟩)
      · omega
      · obtain ⟨hm, hle⟩ := h.least m u hends
        by_contra hjm
        have := h.mono (show j ≤ m by omega) hm
        omega
    · intro hk
      cases k with
      | zero => exact .inl rfl
      | succ k => exact .inr ⟨tail k, hlt k (by omega), k, rfl, h.ends k (by omega)⟩
  refine ⟨fun k hk => ?_, fun k v hv => ?_⟩
  · rw [hnew]
    by_cases hkj : k = j
    · subst hkj
      exact .inr ⟨update_self .., le_rfl⟩
    · rw [update_of_ne hkj]
      exact .inl (h.ends k (by omega))
  · rcases (hnew k v).mp hv with hv | ⟨rfl, hk⟩
    · obtain ⟨hk, hle⟩ := h.least k v hv
      by_cases hkj : k = j
      · subst hkj
        rw [update_self]
        exact ⟨by omega, (hge hk).trans hle⟩
      · rw [update_of_ne hkj]
        exact ⟨by omega, hle⟩
    · by_cases hkj : k = j
      · subst hkj
        rw [update_self]
        exact ⟨by omega, le_rfl⟩
      · rw [update_of_ne hkj]
        exact ⟨by omega, (hlt k (by omega)).le⟩

theorem get_eq (h : i < N) : get N tail i = some (tail i) := if_pos ⟨Int.natCast_nonneg i, by omega⟩

theorem set_eq (h : i < N) :
    set N tail i x = some (update tail i x) := if_pos ⟨Int.natCast_nonneg i, by omega⟩

theorem halve_of_lt {l r : ℤ} {m : ℕ} (hpos : 0 ≤ l + r) (hsum : l + r < 2 ^ 31)
    (hm : (l + r) / 2 = m) (hN : m < N) :
    halve N tail x (l, r) = some (if x ≤ tail m then (l, (m : ℤ)) else ((m : ℤ), r)) := by
  have hwrap : (wrap (l + r)).tdiv 2 = (m : ℤ) := by
    rw [wrap_eq_self (by omega) hsum, Int.tdiv_eq_ediv_of_nonneg hpos, hm]
  simp only [halve, hwrap, get_eq hN]
  by_cases hx : x ≤ tail m <;> simp [hx]

theorem upperBound_spec (h : Inv xs tail length) (hN : length ≤ N) {r : ℕ} (hr : r < length)
    (hint : r ≤ 2 ^ 30) (hx : x ≤ tail r) : ∃ j : ℕ, upperBound N (N + 1) tail (-1) r x =
    some (j : ℤ) ∧ j ≤ r ∧ (∀ k < j, tail k < x) ∧ x ≤ tail j := by
  -- the bounds are `l - 1` and `r`, for which the numbers are smaller and not smaller
  let I : ℤ × ℤ → Prop := fun s => ∃ l r' : ℕ, s = ((l : ℤ) - 1, (r' : ℤ)) ∧ l ≤ r' ∧ r' ≤ r ∧
    (∀ k < l, tail k < x) ∧ x ≤ tail r'
  have hbody : ∀ s, I s → decide (s.1 < s.2 - 1) = true →
      ∃ t, halve N tail x s = some t ∧ I t ∧ (t.2 - t.1).toNat < (s.2 - s.1).toNat := by
    rintro _ ⟨l, r', rfl, hlr, hr', hlt, hge⟩ htest
    rw [decide_eq_true_eq] at htest
    obtain ⟨m, hm⟩ : ∃ m : ℕ, ((l : ℤ) - 1 + r') / 2 = m := Int.eq_ofNat_of_zero_le (by omega)
    have hml : l ≤ m ∧ m < r' := by omega
    rw [halve_of_lt (by omega) (by omega) hm (by omega)]
    by_cases hxm : x ≤ tail m
    · exact ⟨_, rfl,
        ⟨l, m, by rw [if_pos hxm], hml.1, by omega, hlt, hxm⟩, by rw [if_pos hxm]; simp only; omega⟩
    · refine ⟨_, rfl, ⟨m + 1, r', by simp [hxm], by omega, hr', fun k hk => ?_, hge⟩,
        by rw [if_neg hxm]; simp only; omega⟩
      exact lt_of_le_of_lt (h.mono (by omega) (by omega)) (not_le.mp hxm)
  have hstart : I (-1, (r : ℤ)) :=
    ⟨0, r, rfl, Nat.zero_le r, le_rfl, fun k hk => absurd hk (Nat.not_lt_zero k), hx⟩
  obtain ⟨_, hloop, ⟨l, j, rfl, hlj, hjr, hlt, hge⟩, hend⟩ := whileLoop_total _ hbody hstart
    (show _ < N + 1 by simp only; omega)
  rw [decide_eq_false_iff_not] at hend
  exact ⟨j, by rw [upperBound, hloop]; rfl, hjr, fun k hk => hlt k (by omega), hge⟩

theorem step_spec (h : Inv xs tail length) (hpos : 0 < length) (hN : length < N)
    (hint : length ≤ 2 ^ 30 + 1) (x : ℤ) :
    ∃ tail' length', step N (tail, (length : ℤ)) x = some (tail', ((length' : ℕ) : ℤ)) ∧
    Inv (x :: xs) tail' length' ∧ 0 < length' ∧ length' ≤ length + 1 := by
  obtain ⟨r, rfl⟩ : ∃ r, length = r + 1 := ⟨length - 1, by omega⟩
  have hlast : ((r + 1 : ℕ) : ℤ) - 1 = (r : ℕ) := by omega
  have hzero : get N tail 0 = some (tail 0) := get_eq (i := 0) (by omega)
  simp only [step, hzero, hlast, get_eq (show r < N by omega), Option.bind_eq_bind, Option.bind_some]
  split_ifs with hlt hgt
  · refine ⟨update tail 0 x, r + 1, by rw [show set N tail 0 x =
      _ from set_eq (i := 0) (by omega)]; rfl, ?_, by omega, by omega⟩
    have hput := h.put (x := x) (by omega) (by omega) (fun _ => hlt.le)
    rwa [max_eq_left (by omega)] at hput
  · refine ⟨update tail (r + 1) x, r + 2, by rw [set_eq hN]; rfl, ?_, by omega, by omega⟩
    have hput := h.put (x :=
      x) le_rfl (fun k hk => lt_of_le_of_lt (h.mono (by omega) (by omega)) hgt) (by omega)
    rwa [max_eq_right (by omega)] at hput
  · obtain ⟨j, hj, hjr, hbelow, hge⟩ := upperBound_spec h hN.le (Nat.lt_succ_self r) (by omega) (not_lt.mp hgt)
    refine ⟨update tail j x,
      r + 1, by rw [hj, Option.bind_some, set_eq (by omega)]; rfl, ?_, by omega, by omega⟩
    have hput := h.put (by omega) hbelow (fun _ => hge)
    rwa [max_eq_left (by omega)] at hput

/-- An increasing subsequence of the elements that stand before the last one is not too long for the
search. -/
def Short (array : List ℤ) : Prop :=
  ∀ l : List ℤ, l.Sublist array.dropLast → l.Pairwise (· < ·) → l.length ≤ 2 ^ 30 + 1

theorem Inv.exists_sublist (h : Inv xs tail length) :
    ∃ l : List ℤ, l.Sublist xs.reverse ∧ l.Pairwise (· < ·) ∧ l.length = length := by
  cases length with
  | zero => exact ⟨[], by simp⟩
  | succ k =>
    obtain ⟨l, hk, hsub, hgt⟩ := h.ends k (by omega)
    exact ⟨(tail k :: l).reverse, hsub.reverse, by rwa [pairwise_reverse], by simp [hk]⟩

theorem Inv.length_le (h : Inv xs tail length) {l : List ℤ} (hl : l.Sublist xs.reverse)
    (hlt : l.Pairwise (· < ·)) : l.length ≤ length := by
  cases hrev : l.reverse with
  | nil => simp [reverse_eq_nil_iff.mp hrev]
  | cons v m =>
    rw [← reverse_sublist, hrev, reverse_reverse] at hl
    rw [← pairwise_reverse, hrev] at hlt
    have := (h.least m.length v ⟨m, rfl, hl, hlt⟩).1
    rw [← length_reverse, hrev, length_cons]
    omega

theorem foldlM_step : ∀ {rest : List ℤ} {xs : List ℤ} {tail : ℕ → ℤ} {length : ℕ},
    Inv xs tail length → 0 < length → length + rest.length ≤ N → Short (xs.reverse ++ rest) →
    ∃ tail' length', rest.foldlM (step N) (tail, (length : ℤ)) = some (tail', ((length' : ℕ) : ℤ)) ∧
    Inv (rest.reverse ++ xs) tail' length'
  | [], xs, tail, length, h, _, _, _ => ⟨tail, length, rfl, h⟩
  | x :: rest, xs, tail, length, h, hpos, hN, hshort => by
    rw [length_cons] at hN
    have hint : length ≤ 2 ^ 30 + 1 := by
      obtain ⟨l, hl, hlt, hlen⟩ := h.exists_sublist
      rw [← hlen]
      refine hshort l (hl.trans ?_) hlt
      rw [dropLast_append_cons]
      exact sublist_append_left _ _
    obtain ⟨tail1, length1, hstep, h1, hpos1, hle⟩ := step_spec h hpos (show length < N by omega) hint x
    obtain ⟨tail', length', hrun, h'⟩ := foldlM_step h1 hpos1 (show length1 + rest.length ≤ N by omega)
      (by rwa [reverse_cons, append_assoc])
    refine ⟨tail', length', by rw [foldlM_cons, hstep]; exact hrun, ?_⟩
    rwa [reverse_cons, append_assoc]

theorem Inv.mem (h : Inv xs tail length) (hk : k < length) : tail k ∈ xs := by
  obtain ⟨l, _, hsub, _⟩ := h.ends k hk
  exact hsub.subset mem_cons_self

end Code365.Algorithms.LongestIncreasing
