import Code365.Algorithms.QuinePrimes

/-! # `quine_mc_cluskey.py`: the chart and the selection

The chart has a row for each prime implicant and a column for each minterm.  Its indices are always
in range, so it is a function here; only `chart[0]` needs a row.

`selection` takes rows and clears the columns in which they have a 1, first for the essential rows
and then for a row with the most of them.  Whatever rows it takes, a column is as at the start, or
is cleared and a row that was taken has a 1 there at the start (`Accounted`); it ends when there are
no more 1s. -/

namespace Code365.Algorithms.QuineMcCluskey

open List Pattern

/-- The loop of `is_for_table`. -/
def countLoop : List Char → List Char → Option ℕ
  | [], _ => some 0
  | _ :: _, [] => none
  | c1 :: l1, c2 :: l2 => do
    let countN ← countLoop l1 l2
    return if c1 ≠ c2 then countN + 1 else countN

def isForTable (string1 string2 : List Char) (count : ℕ) : Option Bool := do
  let countN ← countLoop string1 string2
  return countN = count

structure Chart (rows cols : ℕ) where
  entry : Fin rows → Fin cols → ℕ

instance {rows cols : ℕ} : CoeFun (Chart rows cols) fun _ => Fin rows → Fin cols → ℕ := ⟨Chart.entry⟩

/-- The body of the two loops of `prime_implicant_chart`. -/
def chartStep (primeImplicants binary : List (List Char)) (chart : Chart primeImplicants.length binary.length)
    (ij : Fin primeImplicants.length × Fin binary.length) :
      Option (Chart primeImplicants.length binary.length) := do
  let count := (primeImplicants.get ij.1).count '_'
  if ← isForTable (primeImplicants.get ij.1) (binary.get ij.2) count then
    return ⟨Function.update chart ij.1 (Function.update (chart ij.1) ij.2 1)⟩
  else return chart

def primeImplicantChart (primeImplicants binary : List (List Char)) :
    Option (Chart primeImplicants.length binary.length) :=
  ((List.finRange primeImplicants.length).flatMap fun i =>
    (List.finRange binary.length).map fun j => (i, j)).foldlM
    (chartStep primeImplicants binary) ⟨fun _ _ => 0⟩

section selection

variable {rows cols : ℕ}

/-- One row of the scan of a column: the number of 1s and the last row with a 1. -/
def scanStep (chart : Chart rows cols) (i : Fin cols) (s : ℕ × Option (Fin rows))
    (j : Fin rows) : ℕ × Option (Fin rows) :=
  if chart j i = 1 then (s.1 + 1, some j) else s

/-- The rows that are the only ones with a 1 in some column. -/
def selectStep (chart : Chart rows cols) (select : Fin rows → ℕ) (i : Fin cols) : Fin rows → ℕ :=
  match (List.finRange rows).foldl (scanStep chart i) (0, none) with
  | (1, some rem) => Function.update select rem 1
  | _ => select

/-- `for k in range(len(chart)): chart[k][j] = 0`. -/
def clearColumn (chart : Chart rows cols) (j : Fin cols) : Chart rows cols :=
  ⟨fun k j' => if j' = j then 0 else chart k j'⟩

/-- The columns in which the row has a 1 are cleared. -/
def clearRow (chart : Chart rows cols) (i : Fin rows) : Chart rows cols :=
  (List.finRange cols).foldl (fun chart j => if chart i j = 1 then clearColumn chart j else chart) chart

/-- `chart[i].count(1)`. -/
def ones (chart : Chart rows cols) (i : Fin rows) : ℕ := (List.finRange cols).countP (chart i · = 1)

/-- One row of the search for the most 1s. -/
def maxStep (chart : Chart rows cols) (s : ℕ × Option (Fin rows)) (i : Fin rows) : ℕ × Option (Fin rows) :=
  if ones chart i > s.1 then (ones chart i, some i) else s

variable {α : Type} (primeImplicants : Fin rows → α)

/-- The second loop of `selection`: the essential rows are taken. -/
def takeStep (select : Fin rows → ℕ) (s : Chart rows cols × List α)
    (i : Fin rows) : Chart rows cols × List α :=
  if select i = 1 then (clearRow s.1 i, s.2 ++ [primeImplicants i]) else s

/-- The last loop of `selection`. -/
def greedyLoop : ℕ → Chart rows cols → List α → Option (List α)
  | 0, _, _ => none
  | fuel + 1, chart, temp =>
    match (List.finRange rows).foldl (maxStep chart) (0, none) with
    | (0, _) => some temp
    | (_ + 1, none) => none
    | (_ + 1, some rem) => greedyLoop fuel (clearRow chart rem) (temp ++ [primeImplicants rem])

end selection

def selection {cols : ℕ} (primeImplicants : List (List Char)) (chart : Chart primeImplicants.length cols) :
    Option (List (List Char)) := do
  guard (0 < primeImplicants.length)
  let select := (List.finRange cols).foldl (selectStep chart) fun _ => 0
  let s := (List.finRange primeImplicants.length).foldl (takeStep primeImplicants.get select) (chart, [])
  greedyLoop primeImplicants.get (cols + 1) s.1 s.2

/-! ### The chart -/

variable {n t : ℕ} {x y : List Char} {p : List (List Char)}

theorem countLoop_eq :
    ∀ {x y : List Char}, x.length = y.length → countLoop x y = some (mismatches x y)
  | [], [], _ => rfl
  | [], _ :: _, hlen | _ :: _, [], hlen => absurd hlen (by simp)
  | c :: x, d :: y, hlen => by
    rw [countLoop, countLoop_eq (Nat.succ.inj hlen), mismatches]
    by_cases hcd : c = d
    · simp [hcd]
    · simp [hcd, add_comm]

theorem isForTable_spec (hlen : x.length = y.length) (hy : '_' ∉ y) :
    ∃ b, isForTable x y (x.count '_') = some b ∧ (b = true ↔ Matches '_' x y) := by
  refine ⟨decide (mismatches x y = x.count '_'), by simp [isForTable, countLoop_eq hlen], ?_⟩
  rw [decide_eq_true_eq]
  exact (count_mismatches hlen hy).2

theorem chartStep_spec {b : List (List Char)} (hp : ∀ x ∈ p, x.length = n)
    (hb : ∀ y ∈ b, y.length = n ∧ '_' ∉ y) (chart : Chart p.length b.length)
    (ij : Fin p.length × Fin b.length) : ∃ chart1, chartStep p b chart ij = some chart1 ∧
    ∀ i j, chart1 i j = 1 ↔ chart i j = 1 ∨ (i, j) = ij ∧ Matches '_' (p.get i) (b.get j) := by
  obtain ⟨i0, j0⟩ := ij
  obtain ⟨hlen, hwild⟩ := hb _ (get_mem b j0)
  obtain ⟨r, hr, hiff⟩ := isForTable_spec ((hp _ (get_mem p i0)).trans hlen.symm) hwild
  cases r with
  | false =>
    refine ⟨chart, by simp only [chartStep, hr]; rfl, fun i j => (or_iff_left ?_).symm⟩
    rintro ⟨hij, hmatch⟩
    cases hij
    exact absurd (hiff.mpr hmatch) (by decide)
  | true =>
    refine ⟨_, by simp only [chartStep, hr]; rfl, fun i j => ?_⟩
    by_cases hi : i = i0
    · subst hi
      by_cases hj : j = j0
      · subst hj
        exact iff_of_true (by simp) (.inr ⟨rfl, hiff.mp rfl⟩)
      · simp [hj]
    · simp [hi]

theorem primeImplicantChart_spec {b : List (List Char)} (hp : ∀ x ∈ p, x.length = n)
    (hb : ∀ y ∈ b, y.length = n ∧ '_' ∉ y) : ∃ chart, primeImplicantChart p b = some chart ∧
    ∀ i j, chart i j = 1 ↔ Matches '_' (p.get i) (b.get j) := by
  obtain ⟨chart, hchart, hones⟩ := foldlM_induct
    (f := chartStep p b)
    (I := fun done (chart : Chart p.length b.length) =>
      ∀ i j, chart i j = 1 ↔ (i, j) ∈ done ∧ Matches '_' (p.get i) (b.get j)) (s := ⟨fun _ _ => 0⟩) (by simp)
    fun done ij chart _ hdone => by
      obtain ⟨chart1, hstep, hones⟩ := chartStep_spec hp hb chart ij
      exact ⟨chart1, hstep, fun i j => by rw [hones, hdone, mem_append, mem_singleton, or_and_right]⟩
  refine ⟨chart, hchart, fun i j => ?_⟩
  rw [hones]
  simp

/-! ### The selection -/

variable {rows cols : ℕ} {chart0 chart : Chart rows cols}

theorem clearRow_fold (i : Fin rows) (k : Fin rows) (j : Fin cols) :
    ∀ (l : List (Fin cols)) (chart : Chart rows cols),
    (l.foldl (fun chart j => if chart i j = 1 then clearColumn chart j else chart) chart) k j =
    if j ∈ l ∧ chart i j = 1 then 0 else chart k j
  | [], chart => by simp
  | j0 :: l, chart => by
    rw [foldl_cons, clearRow_fold i k j l]
    by_cases hj : j = j0
    · subst hj
      by_cases hone : chart i j = 1
      · simp [hone, clearColumn]
      · simp [hone]
    · by_cases hone : chart i j0 = 1
      · simp [hone, clearColumn, hj]
      · simp [hone, hj]

theorem clearRow_apply (chart : Chart rows cols) (i k : Fin rows) (j : Fin cols) :
    clearRow chart i k j = if chart i j = 1 then 0 else chart k j := by
  rw [clearRow, clearRow_fold]
  simp

variable {α : Type} (primeImplicants : Fin rows → α)

/-- A column is as in `chart0`, or cleared and one of the rows in `temp` has a 1 there; `temp` has
only rows. -/
structure Accounted (chart0 chart : Chart rows cols) (temp : List α) : Prop where
  column : ∀ j, (∀ k, chart k j = chart0 k j) ∨
    (∀ k, chart k j = 0) ∧ ∃ i, primeImplicants i ∈ temp ∧ chart0 i j = 1
  row : ∀ x ∈ temp, ∃ i, primeImplicants i = x

variable {primeImplicants} {temp : List α}

theorem Accounted.take (h : Accounted primeImplicants chart0 chart temp) (i : Fin rows) :
    Accounted primeImplicants chart0 (clearRow chart i) (temp ++ [primeImplicants i]) := by
  refine ⟨fun j => ?_, fun x hx => ?_⟩
  · rcases h.column j with hsame | ⟨hzero, i', hi', hone⟩
    · by_cases hone : chart i j = 1
      · refine .inr ⟨fun k => by rw [clearRow_apply, if_pos hone], i, by simp, ?_⟩
        rw [← hsame i, hone]
      · refine .inl fun k => ?_
        rw [clearRow_apply, if_neg hone, hsame k]
    · refine .inr ⟨fun k => ?_, i', mem_append_left _ hi', hone⟩
      rw [clearRow_apply, hzero i, hzero k]
      rfl
  · rcases mem_append.mp hx with hx | hx
    · exact h.row x hx
    · exact ⟨i, (mem_singleton.mp hx).symm⟩

theorem Accounted.takes (h : Accounted primeImplicants chart0 chart temp) (select : Fin rows → ℕ)
    (l : List (Fin rows)) :
    Accounted primeImplicants chart0 (l.foldl (takeStep primeImplicants select) (chart, temp)).1
    (l.foldl (takeStep primeImplicants select) (chart, temp)).2 := by
  induction l generalizing chart temp with
  | nil => exact h
  | cons i l ih =>
    rw [foldl_cons, takeStep]
    split_ifs
    · exact ih (h.take i)
    · exact ih h

theorem ones_eq_zero_iff {i : Fin rows} : ones chart i = 0 ↔ ∀ j, chart i j ≠ 1 := by
  simp [ones, countP_eq_zero]

theorem maxStep_fold (chart : Chart rows cols) :
    ∀ (l : List (Fin rows)) (s : ℕ × Option (Fin rows)), s.1 ≤ (l.foldl (maxStep chart) s).1 ∧
    (∀ i ∈ l, ones chart i ≤ (l.foldl (maxStep chart) s).1) ∧
    (l.foldl (maxStep chart) s = s ∨ ∃ i, l.foldl (maxStep chart) s = (ones chart i, some i))
  | [], s => ⟨le_rfl, fun i hi => absurd hi (by simp), .inl rfl⟩
  | i :: l, s => by
    rw [foldl_cons]
    obtain ⟨hle, hall, hform⟩ := maxStep_fold chart l (maxStep chart s i)
    have hstep : s.1 ≤ (maxStep chart s i).1 ∧ ones chart i ≤ (maxStep chart s i).1 := by
      unfold maxStep
      split_ifs with h
      · exact ⟨h.le, le_rfl⟩
      · exact ⟨le_rfl, not_lt.mp h⟩
    refine ⟨hstep.1.trans hle, fun i' hi' => ?_, ?_⟩
    · rcases mem_cons.mp hi' with rfl | hi'
      · exact hstep.2.trans hle
      · exact hall i' hi'
    · rcases hform with hform | hform
      · rw [hform, maxStep]
        split_ifs
        · exact .inr ⟨i, rfl⟩
        · exact .inl rfl
      · exact .inr hform

def openColumns (chart : Chart rows cols) : Finset (Fin cols) := {j | ∃ k, chart k j = 1}

theorem openColumns_clearRow {i : Fin rows} (h : ones chart i ≠ 0) :
    (openColumns (clearRow chart i)).card < (openColumns chart).card := by
  obtain ⟨j, hj⟩ : ∃ j, chart i j = 1 := by
    by_contra hnone
    exact h (ones_eq_zero_iff.mpr fun j hj => hnone ⟨j, hj⟩)
  refine Finset.card_lt_card ((Finset.ssubset_iff_of_subset fun j' hj' => ?_).mpr ⟨j, ?_, fun hj' => ?_⟩)
  · simp only [openColumns, Finset.mem_filter, Finset.mem_univ, true_and] at hj' ⊢
    obtain ⟨k, hk⟩ := hj'
    rw [clearRow_apply] at hk
    split_ifs at hk
    exact ⟨k, hk⟩
  · simpa [openColumns] using ⟨i, hj⟩
  · simp only [openColumns, Finset.mem_filter, Finset.mem_univ, true_and] at hj'
    obtain ⟨k, hk⟩ := hj'
    rw [clearRow_apply, if_pos hj] at hk
    exact absurd hk (by decide)

theorem greedyLoop_spec : ∀ {fuel : ℕ} {chart : Chart rows cols} {temp : List α},
    Accounted primeImplicants chart0 chart temp → (openColumns chart).card < fuel →
    ∃ temp', greedyLoop primeImplicants fuel chart temp = some temp' ∧
    (∀ x ∈ temp', ∃ i, primeImplicants i = x) ∧ ∀ i j, chart0 i j = 1 →
    ∃ i', primeImplicants i' ∈ temp' ∧ chart0 i' j = 1
  | fuel + 1, chart, temp, h, hfuel => by
    obtain ⟨_, hall, hform⟩ := maxStep_fold chart (List.finRange rows) (0, none)
    cases hmax : (List.finRange rows).foldl (maxStep chart) (0, none) with
    | mk maxN rem =>
      rw [greedyLoop, hmax]
      rw [hmax] at hall hform
      cases maxN with
      | zero =>
        refine ⟨temp, rfl, h.row, fun i j hone => ?_⟩
        rcases h.column j with hsame | ⟨_, i', hi', hone'⟩
        · have hzero : ones chart i = 0 := Nat.le_zero.mp (hall i (mem_finRange i))
          exact absurd ((hsame i).trans hone) (ones_eq_zero_iff.mp hzero j)
        · exact ⟨i', hi', hone'⟩
      | succ maxN =>
        obtain ⟨i, hi⟩ := hform.resolve_left fun he => absurd (congrArg Prod.fst he) (Nat.succ_ne_zero maxN)
        obtain ⟨hones, rfl⟩ := Prod.mk.inj hi
        have hless := openColumns_clearRow (hones ▸ Nat.succ_ne_zero maxN : ones chart i ≠ 0)
        exact greedyLoop_spec (h.take i) (by omega)

/-- The rows that are selected have a 1 in every column in which some row has one. -/
theorem selection_spec (chart : Chart p.length cols) (hp : p ≠ []) :
    ∃ chosen, selection p chart = some chosen ∧ (∀ x ∈ chosen, x ∈ p) ∧ ∀ i j, chart i j = 1 →
    ∃ i', p.get i' ∈ chosen ∧ chart i' j = 1 := by
  have hstart : Accounted p.get chart chart [] := ⟨fun j => .inl fun k => rfl, fun x hx => absurd hx (by simp)⟩
  have htakes :=
    hstart.takes ((List.finRange cols).foldl (selectStep chart) fun _ => 0) (List.finRange p.length)
  obtain ⟨chosen, hrun, hrow, hcover⟩ := greedyLoop_spec htakes
    (Nat.lt_succ_of_le (Finset.card_le_univ _))
  refine ⟨chosen, ?_, fun x hx => ?_, hcover⟩
  · simpa [selection, guard, length_pos_iff.mpr hp] using hrun
  · obtain ⟨i, rfl⟩ := hrow x hx
    exact get_mem p i

/-! ### The pipeline -/

theorem shape_bits (n m : ℕ) : Shape n 0 (bits n m) := by
  refine ⟨length_bits n m, fun c hc => ?_, List.count_eq_zero.mpr (wild_notMem_bits n m)⟩
  rcases mem_bits hc with hc | hc
  · exact .inl hc
  · exact .inr (.inl hc)

theorem bits_mem_map_iff {minterms : List ℕ} (hlt : ∀ m ∈ minterms, m < 2 ^ n) {m : ℕ}
    (hm : m < 2 ^ n) : bits n m ∈ minterms.map (bits n) ↔ m ∈ minterms := by
  refine ⟨fun h => ?_, mem_map_of_mem⟩
  obtain ⟨m', hm', he⟩ := mem_map.mp h
  rwa [← bits_injective (hlt m' hm') hm he]

/-- The patterns that are chosen are prime implicants, and together they match exactly the
minterms. -/
theorem chosen_matches_minterms (n : ℕ) (minterms : List ℕ) (hne : minterms ≠ [])
    (hnodup : minterms.Nodup) (hlt : ∀ m ∈ minterms, m < 2 ^ n)
    (order : List (List Char) → List (List Char)) (horder : ListsSets order) :
    ∃ p chart chosen, check order (n + 1) (decimalToBinary n minterms) = some p ∧
      primeImplicantChart p (decimalToBinary n minterms) = some chart ∧
      selection p chart = some chosen ∧ (∀ x ∈ chosen, x ∈ p) ∧
      ∀ m < 2 ^ n, (∃ x ∈ chosen, Matches '_' x (bits n m)) ↔ m ∈ minterms := by
  rw [decimalToBinary_eq]
  have hbits : ∀ y ∈ minterms.map (bits n), ∃ m, y = bits n m := by
    intro y hy
    obtain ⟨m, _, rfl⟩ := mem_map.mp hy
    exact ⟨m, rfl⟩
  have hnodup' : (minterms.map (bits n)).Nodup :=
    (nodup_map_iff_inj_on hnodup).mpr fun m hm m' hm' he => bits_injective (hlt m hm) (hlt m' hm') he
  have hshape : ∀ x ∈ minterms.map (bits n), Shape n 0 x := by
    intro x hx
    obtain ⟨m, rfl⟩ := hbits x hx
    exact shape_bits n m
  obtain ⟨p, hcheck, _, hprime⟩ := check_primes horder hnodup' hshape
  have hcovers : ∀ {m}, m < 2 ^ n → (Covers p (bits n m) ↔ m ∈ minterms) := fun hm =>
    (covers_primes_iff hprime hnodup' hshape fun b hb => mem_bits hb).trans (bits_mem_map_iff hlt hm)
  obtain ⟨chart, hchart, hones⟩ := primeImplicantChart_spec (p := p)
    (fun x hx => by
      obtain ⟨t, hx⟩ := ((hprime x).mp hx).shape
      exact hx.length)
    (fun y hy => by
      obtain ⟨m, rfl⟩ := hbits y hy
      exact ⟨length_bits n m, wild_notMem_bits n m⟩)
  have hp : p ≠ [] := by
    rintro rfl
    obtain ⟨m, hm⟩ := exists_mem_of_ne_nil minterms hne
    obtain ⟨x, hx, _⟩ := (hcovers (hlt m hm)).mpr hm
    exact absurd hx (by simp)
  obtain ⟨chosen, hsel, hmem, hcol⟩ := selection_spec chart hp
  refine ⟨p, chart, chosen, hcheck, hchart, hsel, hmem, fun m hm => ⟨?_, fun hmin => ?_⟩⟩
  · rintro ⟨x, hx, hmatch⟩
    exact (hcovers hm).mp ⟨x, hmem x hx, hmatch⟩
  · -- the column of the minterm has a 1 in the row of a prime implicant, and so in a chosen row
    obtain ⟨x, hx, hmatch⟩ := (hcovers hm).mpr hmin
    obtain ⟨i, rfl⟩ := get_of_mem hx
    obtain ⟨j, hj⟩ := get_of_mem (mem_map_of_mem (f := bits n) hmin)
    rw [← hj] at hmatch ⊢
    obtain ⟨i', hi', hone⟩ := hcol i j ((hones i j).mpr hmatch)
    exact ⟨_, hi', (hones i' j).mp hone⟩

theorem chosen_matches_minterms_three :
    ∃ p chart chosen, check List.dedup 3 (decimalToBinary 2 [0, 1, 3]) = some p ∧
      primeImplicantChart p (decimalToBinary 2 [0, 1, 3]) = some chart ∧
      selection p chart = some chosen ∧ (∀ x ∈ chosen, x ∈ p) ∧
      ∀ m < 2 ^ 2, (∃ x ∈ chosen, Matches '_' x (bits 2 m)) ↔ m ∈ [0, 1, 3] :=
  chosen_matches_minterms 2 [0, 1, 3] (by decide) (by decide) (by decide) List.dedup
    fun l => ⟨nodup_dedup l, fun _ => mem_dedup⟩

end Code365.Algorithms.QuineMcCluskey
