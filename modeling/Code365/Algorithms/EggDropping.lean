import Code365.Lib.CInt
import Code365.Lib.While

/-! # `EggDropping.java` (`algorithms/java/Dynamic Programming`)

The table `eggFloor` is a function here; no index that is used lies outside it.  Its sizes `n + 1`
and `m + 1` are values of type `int`: they wrap for `Integer.MAX_VALUE`, and a negative size throws
(`minTrials_eq_none_iff`).  The entries are at most `m`, but a cell starts with
`Integer.MAX_VALUE`. -/

namespace Code365.Algorithms.EggDropping

open Finset CInt

/-- `Integer.MAX_VALUE` -/
def maxValue : ℕ := INT_MAX.toNat

/-- The body of the loop over `x`. -/
def chooseFloor (i j x : ℕ) (eggFloor : ℕ → ℕ → ℕ) : ℕ → ℕ → ℕ :=
  let result := 1 + max (eggFloor (i - 1) (x - 1)) (eggFloor i (j - x))
  if result < eggFloor i j then setCell eggFloor i j result else eggFloor

/-- The body of the loop over `j`. -/
def fillCell (i j : ℕ) (eggFloor : ℕ → ℕ → ℕ) : ℕ → ℕ → ℕ :=
  forLoop 1 (j + 1) (chooseFloor i j) (setCell eggFloor i j maxValue)

/-- `eggFloor[n][m]` after the loops. -/
def fillTable (n m : ℕ) : ℕ :=
  let eggFloor : ℕ → ℕ → ℕ := fun _ _ => 0
  let eggFloor := forLoop 1 (n + 1) (fun i eggFloor => setCell (setCell eggFloor i 0 0) i 1 1) eggFloor
  let eggFloor := forLoop 1 (m + 1) (fun j eggFloor => setCell eggFloor 1 j j) eggFloor
  let eggFloor := forLoop 2 (n + 1) (fun i => forLoop 2 (m + 1) (fillCell i)) eggFloor
  eggFloor n m

/-- `none` is a `NegativeArraySizeException` of `new int[n+1][m+1]`. -/
def minTrials (n m : ℕ) : Option ℕ :=
  if wrap (n + 1) < 0 ∨ wrap (m + 1) < 0 then none else some (fillTable n m)

/-! ### The floors that some trials tell apart -/

/-- The number of floors for which `t` trials with `n` eggs are enough. -/
def covered (t n : ℕ) : ℕ := ∑ k ∈ Icc 1 n, t.choose k

variable {i j n m t : ℕ}

theorem covered_succ (t n : ℕ) : covered (t + 1) (n + 1) = 1 + covered t n + covered t (n + 1) := by
  induction n with
  | zero => simp [covered, Nat.add_comm]
  | succ n ih =>
    have hlast : ∀ t, covered t (n + 2) = covered t (n + 1) + t.choose (n + 2) := fun t =>
      sum_Icc_succ_top (by omega) _
    have hlast' : covered t (n + 1) = covered t n + t.choose (n + 1) := sum_Icc_succ_top (by omega) _
    rw [hlast, hlast, ih, Nat.choose_succ_succ, hlast']
    ring

theorem covered_zero (n : ℕ) : covered 0 n = 0 :=
  sum_eq_zero fun _ hk => Nat.choose_eq_zero_of_lt (mem_Icc.mp hk).1

theorem le_covered (t : ℕ) (hn : 1 ≤ n) : t ≤ covered t n := by
  have h := single_le_sum (f := t.choose) (fun _ _ => Nat.zero_le _) (mem_Icc.mpr ⟨le_rfl, hn⟩)
  rwa [Nat.choose_one_right] at h

/-- `v` is the least number of trials for `m` floors. -/
def Least (n m v : ℕ) : Prop := ∀ t, v ≤ t ↔ m ≤ covered t n

theorem exists_floor_iff {f : ℕ → ℕ → ℕ} (hj : 1 ≤ j) (hf : ∀ k < j, Least (i + 1) k (f (i + 1) k))
    (hf' : ∀ k < j, Least i k (f i k)) : (∃ x, 1 ≤ x ∧ x < j + 1 ∧
    1 + max (f i (x - 1)) (f (i + 1) (j - x)) ≤ t) ↔ j ≤ covered t (i + 1) := by
  rcases t with _ | t
  · rw [covered_zero]
    exact ⟨fun ⟨x, _, _, h⟩ => by omega, fun h => by omega⟩
  have hle : ∀ x, 1 ≤ x → x < j + 1 → (1 + max (f i (x - 1)) (f (i + 1) (j - x)) ≤ t + 1 ↔
      x - 1 ≤ covered t i ∧ j - x ≤ covered t (i + 1)) := by
    intro x hx hxj
    rw [← hf' (x - 1) (by omega), ← hf (j - x) (by omega), ← max_le_iff]
    omega
  rw [covered_succ]
  constructor
  · rintro ⟨x, hx, hxj, h⟩
    have := (hle x hx hxj).mp h
    omega
  · intro h
    -- as many floors below `x` as can be told apart after the egg has broken
    refine ⟨min (covered t i) (j - 1) + 1, by omega, by omega, (hle _ (by omega) (by omega)).mpr ?_⟩
    omega

/-! ### The table -/

theorem fillCell_spec (i j : ℕ) (f : ℕ → ℕ → ℕ) :
    ∃ v, fillCell (i + 1) j f = setCell f (i + 1) j v ∧ ∀ t, v ≤ t ↔ maxValue ≤ t ∨ ∃ x, 1 ≤ x ∧
    x < j + 1 ∧ 1 + max (f i (x - 1)) (f (i + 1) (j - x)) ≤ t := by
  refine forLoop_induct (I := fun (y : ℕ) (g : ℕ → ℕ → ℕ) => ∃ v, g = setCell f (i + 1) j v ∧ ∀ t, v ≤ t ↔
      maxValue ≤ t ∨ ∃ x, 1 ≤ x ∧ x < y ∧ 1 + max (f i (x - 1)) (f (i + 1) (j - x)) ≤ t) (by omega) ?_ ?_
  · refine ⟨maxValue, rfl, fun t => ?_⟩
    omega
  · rintro y _ hy hyj ⟨v, rfl, hv⟩
    refine ⟨min v (1 + max (f i (y - 1)) (f (i + 1) (j - y))), ?_, fun t => ?_⟩
    · unfold chooseFloor
      rw [setCell_of_ne _ _ (by omega), setCell_of_ne _ _ (by omega), setCell_self, Nat.add_sub_cancel]
      dsimp only
      split_ifs with hlt
      · rw [setCell_setCell, min_eq_right hlt.le]
      · rw [min_eq_left (not_lt.mp hlt)]
    · rw [min_le_iff, hv t, or_assoc]
      refine or_congr_right ⟨?_, ?_⟩
      · rintro (⟨x, hx, hxy, h⟩ | h)
        · exact ⟨x, hx, by omega, h⟩
        · exact ⟨y, hy, by omega, h⟩
      · rintro ⟨x, hx, hxy, h⟩
        rcases Nat.lt_succ_iff_lt_or_eq.mp hxy with hlt | rfl
        · exact .inl ⟨x, hx, hlt, h⟩
        · exact .inr h

/-- The cells of `S` are right. -/
def Filled (S : ℕ → ℕ → Prop) (f : ℕ → ℕ → ℕ) : Prop := ∀ k l, S k l → Least k l (f k l)

theorem Filled.setCell {S T : ℕ → ℕ → Prop} {f : ℕ → ℕ → ℕ} {v : ℕ} (h : Filled S f)
    (hv : Least i j v) (hS : ∀ k l, T k l → S k l ∨ k = i ∧ l = j) :
    Filled T (setCell f i j v) := by
  intro k l hkl
  by_cases he : k = i ∧ l = j
  · obtain ⟨rfl, rfl⟩ := he
    rwa [setCell_self]
  · rw [setCell_of_ne _ _ he]
    exact h k l ((hS k l hkl).resolve_right he)

theorem least_zero (n : ℕ) : Least n 0 0 := fun t => by simp

theorem least_one (hn : 1 ≤ n) : Least n 1 1 := by
  intro t
  refine ⟨fun h => h.trans (le_covered t hn), fun h => ?_⟩
  rcases t with _ | t
  · rwa [covered_zero] at h
  · omega

theorem least_self (m : ℕ) : Least 1 m m := fun t => by simp [covered]

/-- The cells of the columns 0 and 1, of the rows before `i`, and of the row `i` before `j`. -/
def Before (n m i j k l : ℕ) : Prop := 1 ≤ k ∧ k ≤ n ∧ l ≤ m ∧ (l ≤ 1 ∨ k < i ∨ k = i ∧ l < j)

theorem Filled.fillCell {f : ℕ → ℕ → ℕ} (h : Filled (Before n m (i + 1) j) f) (hi : 1 ≤ i)
    (hn : i + 1 ≤ n) (hj : 1 ≤ j) (hm : j ≤ m) (hint : m ≤ maxValue) :
    Filled (Before n m (i + 1) (j + 1)) (fillCell (i + 1) j f) := by
  obtain ⟨v, hfill, hv⟩ := fillCell_spec i j f
  rw [hfill]
  refine h.setCell (fun t => ?_) (by unfold Before; omega)
  rw [hv t, exists_floor_iff hj (fun k hk => h _ k (by unfold Before; omega)) fun k hk =>
    h _ k (by unfold Before; omega)]
  exact or_iff_right_of_imp fun ht => (hm.trans (hint.trans ht)).trans (le_covered t (by omega))

theorem fillTable_isLeast (hn : 1 ≤ n) (hm : 1 ≤ m) (hint : m ≤ maxValue) :
    IsLeast {t | m ≤ ∑ k ∈ Icc 1 n, t.choose k} (fillTable n m) := by
  have hbase := forLoop_induct (I := fun i => Filled fun k l => 1 ≤ k ∧ k < i ∧ l ≤ 1) (s := fun _ _ => 0)
    (show 1 ≤ n + 1 by omega) (fun k l h => by omega)
    fun i f hi _ h => (h.setCell (least_zero i) (T := fun k l => 1 ≤ k ∧
      (k < i ∧ l ≤ 1 ∨ k = i ∧ l = 0)) (by omega)).setCell
      (least_one hi) (by omega)
  have hrow := forLoop_induct (I := fun j => Filled (Before n m 1 j))
    (show 1 ≤ m + 1 by omega) (fun k l h => hbase k l (by unfold Before at h; omega))
    fun j f _ _ h => h.setCell (least_self j) (by unfold Before; omega)
  have hall := forLoop_induct (I := fun i => Filled (Before n m i 0)) (f := fun i =>
    forLoop 2 (m + 1) (fillCell i))
    (show 2 ≤ n + 1 by omega) (fun k l h => hrow k l (by unfold Before at h ⊢; omega)) (by
      rintro (_ | i) f hi hin h
      · omega
      have hcells := forLoop_induct (I := fun j => Filled (Before n m (i + 1) j))
        (show 2 ≤ m + 1 by omega) (fun k l hkl => h k l (by unfold Before at hkl ⊢; omega))
        fun j f hj hjm h => h.fillCell (by omega) (by omega) (by omega) (by omega) hint
      exact fun k l hkl => hcells k l (by unfold Before at hkl ⊢; omega))
  have hleast : Least n m (fillTable n m) := hall n m (by unfold Before; omega)
  exact ⟨(hleast _).mp le_rfl, fun t ht => (hleast t).mpr ht⟩

theorem wrap_size_neg_iff (h : n ≤ maxValue) : wrap (n + 1) < 0 ↔ n = maxValue := by
  have hmax : maxValue = 2147483647 := rfl
  by_cases heq : n = maxValue
  · rw [wrap_eq_sub (by omega) (by omega)]
    omega
  · rw [wrap_eq_self (by omega) (by omega)]
    omega

theorem minTrials_eq_none_iff (hn : n ≤ maxValue) (hm : m ≤ maxValue) :
    minTrials n m = none ↔ n = maxValue ∨ m = maxValue := by
  simp [minTrials, wrap_size_neg_iff hn, wrap_size_neg_iff hm, or_iff_not_imp_left]

/-- For numbers that are an `int`, `minTrials` returns the least number of trials just if the sizes
of the table are an `int` too. -/
theorem minTrials_isLeast_iff (n m : ℕ) (hn : 1 ≤ n ∧ n ≤ maxValue) (hm : 1 ≤ m ∧ m ≤ maxValue) :
    (∃ v, minTrials n m = some v ∧ IsLeast {t | m ≤ ∑ k ∈ Icc 1 n, t.choose k} v) ↔
      n < maxValue ∧ m < maxValue := by
  have hnone := minTrials_eq_none_iff hn.2 hm.2
  constructor
  · rintro ⟨v, hv, _⟩
    rw [hv] at hnone
    have hsizes := mt hnone.mpr (by simp)
    omega
  · intro hlt
    have hsizes : ¬(wrap (n + 1) < 0 ∨ wrap (m + 1) < 0) := by
      rw [wrap_size_neg_iff hn.2, wrap_size_neg_iff hm.2]
      omega
    exact ⟨_, if_neg hsizes, fillTable_isLeast hn.1 hm.1 hm.2⟩

theorem minTrials_isLeast_iff_two :
    (∃ v, minTrials 2 10 = some v ∧ IsLeast {t | 10 ≤ ∑ k ∈ Icc 1 2, t.choose k} v) ↔
      2 < maxValue ∧ 10 < maxValue :=
  minTrials_isLeast_iff 2 10 (by decide) (by decide)

theorem minTrials_many_floors : minTrials 1 2147483647 = none :=
  (minTrials_eq_none_iff (by decide) (by decide)).mpr (by decide)

end Code365.Algorithms.EggDropping
