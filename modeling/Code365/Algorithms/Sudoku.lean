import Mathlib

/-! # `sudokusolver.c` (`algorithms/c/misc`)

`N`, `R` and `C` are the globals of the source, parameters here, and an access outside the array
gives `none`.  The two loops of `solve` over the cells go on after a cell at which every value has
failed; the fuel is the depth of the recursion. -/

namespace Code365.Algorithms.Sudoku

open Nat List

def M : ℕ := 144

/-- None of the cells at these indices holds `v`. -/
def absent (a : List ℕ) (v : ℕ) (cells : List ℕ) : Option Bool := cells.allM fun k => do return (← a[k]?) ≠ v

section

variable (N R C : ℕ)

def okRow (a : List ℕ) (x v : ℕ) : Option Bool := absent a v ((List.range N).map fun j => x * N + j)

def okCol (a : List ℕ) (y v : ℕ) : Option Bool := absent a v ((List.range N).map fun i => i * N + y)

def okBox (a : List ℕ) (x y v : ℕ) : Option Bool :=
  absent a v ((List.range R).flatMap fun i => (List.range C).map fun j =>
    (i + x / R * R) * N + (j + y / C * C))

def ok (a : List ℕ) (x y v : ℕ) : Option Bool := do
  if ← okRow N a x v then
    if ← okCol N a y v then okBox N R C a x y v else return false
  else return false

/-- The loop over the values at the cell `(i, j)`, with the recursive call as a parameter. -/
def tryValues (solve : List ℕ → Option (Bool × List ℕ)) (i j : ℕ) : List ℕ → List ℕ → Option (Bool × List ℕ)
  | [], a => some (false, a)
  | v :: vs, a => do
    if ← ok N R C a i j v then
      let (found, a) ← solve (a.set (i * N + j) v)
      if found then return (true, a) else tryValues solve i j vs (a.set (i * N + j) 0)
    else tryValues solve i j vs a

/-- The two loops over the cells and what follows them. -/
def tryCells (solve : List ℕ → Option (Bool × List ℕ)) : List (ℕ × ℕ) → Bool → List ℕ → Option (Bool × List ℕ)
  | [], rem, a => some (!rem, a)
  | (i, j) :: cells, rem, a => do
    if (← a[i * N + j]?) = 0 then
      let (found, a) ← tryValues N R C solve i j (List.range' 1 N) a
      if found then return (true, a) else tryCells solve cells true a
    else tryCells solve cells rem a

def solve : ℕ → List ℕ → Option (Bool × List ℕ)
  | 0, _ => none
  | fuel + 1, a => tryCells N R C (solve fuel) ((List.range N).product (List.range N)) false a

/-! ### Grids -/

/-- The cell in row `x` and column `y`. -/
def entry (a : List ℕ) (x y : ℕ) : ℕ := a.getD (x * N + y) 0

/-- Two cells in one row, column or box. -/
def SameUnit (x y x' y' : ℕ) : Prop := x = x' ∨ y = y' ∨ x / R = x' / R ∧ y / C = y' / C

def NoRepeats (a : List ℕ) : Prop :=
  ∀ x < N, ∀ y < N, ∀ x' < N, ∀ y' < N, (x, y) ≠ (x', y') → SameUnit R C x y x' y' →
    entry N a x y ≠ 0 → entry N a x y ≠ entry N a x' y'

set_option synthInstance.maxSize 2000 in
instance (a : List ℕ) : Decidable (NoRepeats N R C a) := by
  unfold NoRepeats SameUnit
  infer_instance

structure Completion (a b : List ℕ) : Prop where
  filled : ∀ x < N, ∀ y < N, 1 ≤ entry N b x y ∧ entry N b x y ≤ N
  agrees : ∀ x < N, ∀ y < N, entry N a x y ≠ 0 → entry N b x y = entry N a x y
  noRepeats : NoRepeats N R C b

structure Grid (a : List ℕ) : Prop where
  length_le : N * N ≤ a.length
  le : ∀ x < N, ∀ y < N, entry N a x y ≤ N
  noRepeats : NoRepeats N R C a

end

variable {N R C fuel v x y i j : ℕ} {a c : List ℕ}

theorem index_lt (hx : x < N) (hy : y < N) : x * N + y < N * N := by
  have := mul_le_mul_right N hx
  rw [succ_mul] at this
  omega

section

variable (ha : N * N ≤ a.length)

include ha

theorem entry_set (hi : i < N) (hj : j < N) (hy : y < N) :
    entry N (a.set (i * N + j) v) x y = if x = i ∧ y = j then v else entry N a x y := by
  have hlt := index_lt hi hj
  have hiff : i * N + j = x * N + y ↔ x = i ∧ y = j := by
    constructor
    · intro h
      have hdiv := congrArg (· / N) h
      simp only [mul_comm _ N, mul_add_div (show 0 < N by omega), div_eq_of_lt hj, div_eq_of_lt hy] at hdiv
      obtain rfl : x = i := by omega
      exact ⟨rfl, by omega⟩
    · rintro ⟨rfl, rfl⟩
      rfl
  simp only [entry, getD_eq_getElem?_getD, getElem?_set, hiff]
  split
  · rw [if_pos (by omega), Option.getD_some]
  · rfl

theorem getElem?_entry (hx : x < N) (hy : y < N) :
    a[x * N + y]? = some (entry N a x y) := by
  have hlt := index_lt hx hy
  rw [entry, getD_eq_getElem?_getD, getElem?_eq_getElem (by omega), Option.getD_some]

theorem set_set_zero (hi : i < N) (hj : j < N) (h0 : entry N a i j = 0) :
    (a.set (i * N + j) v).set (i * N + j) 0 = a := by
  have hlt := index_lt hi hj
  rw [set_set]
  ext1 k
  rw [getElem?_set]
  split
  next h => rw [if_pos (by omega), ← h, getElem?_entry ha hi hj, h0]
  next => rfl

theorem count_set_lt (hi : i < N) (hj : j < N) (h0 : entry N a i j = 0)
    (hv : v ≠ 0) : (a.set (i * N + j) v).count 0 < a.count 0 := by
  have hlt : i * N + j < a.length := lt_of_lt_of_le (index_lt hi hj) ha
  have hget := getElem?_entry ha hi hj
  rw [h0, getElem?_eq_getElem hlt, Option.some.injEq] at hget
  have hpos := count_pos_iff.mpr (hget ▸ getElem_mem hlt)
  rw [count_set hlt, hget, if_pos BEq.rfl, if_neg (by simpa using hv)]
  omega

end

theorem SameUnit.symm {x' y' : ℕ} (h : SameUnit R C x y x' y') : SameUnit R C x' y' x y :=
  h.imp Eq.symm (Or.imp Eq.symm (And.imp Eq.symm Eq.symm))

theorem completion_set (ha : N * N ≤ a.length) (hi : i < N) (hj : j < N) (h0 : entry N a i j = 0)
    (hv : v ≠ 0) :
    Completion N R C (a.set (i * N + j) v) c ↔ Completion N R C a c ∧ entry N c i j = v := by
  constructor
  · rintro ⟨hfilled, hagrees, hno⟩
    refine ⟨⟨hfilled, fun x hx y hy h => ?_, hno⟩, ?_⟩
    · have := hagrees x hx y hy
      rw [entry_set ha hi hj hy, if_neg (by rintro ⟨rfl, rfl⟩; exact h h0)] at this
      exact this h
    · have := hagrees i hi j hj
      rw [entry_set ha hi hj hj, if_pos ⟨rfl, rfl⟩] at this
      exact this hv
  · rintro ⟨⟨hfilled, hagrees, hno⟩, hcell⟩
    refine ⟨hfilled, fun x hx y hy => ?_, hno⟩
    rw [entry_set ha hi hj hy]
    split
    next h =>
      obtain ⟨rfl, rfl⟩ := h
      exact fun _ => hcell
    next => exact hagrees x hx y hy

theorem Grid.set (h : Grid N R C a) (hi : i < N) (hj : j < N) (hv : v ≤ N)
    (hne : ∀ x < N, ∀ y < N, SameUnit R C i j x y → entry N a x y ≠ v) :
    Grid N R C (a.set (i * N + j) v) where
  length_le := by
    rw [length_set]
    exact h.length_le
  le x hx y hy := by
    rw [entry_set h.length_le hi hj hy]
    split
    exacts [hv, h.le x hx y hy]
  noRepeats x hx y hy x' hx' y' hy' hxy hunit := by
    rw [entry_set h.length_le hi hj hy, entry_set h.length_le hi hj hy']
    split <;> split
    next h1 h2 => exact absurd (by rw [h1.1, h1.2, h2.1, h2.2]) hxy
    next h1 _ =>
      obtain ⟨rfl, rfl⟩ := h1
      exact fun _ => (hne x' hx' y' hy' hunit).symm
    next h2 =>
      obtain ⟨rfl, rfl⟩ := h2
      exact fun _ => hne x hx y hy hunit.symm
    next => exact h.noRepeats x hx y hy x' hx' y' hy' hxy hunit

/-! ### The test of a value -/

theorem absent_spec {cells : List ℕ} (h : ∀ k ∈ cells, k < a.length) (v : ℕ) :
    ∃ r, absent a v cells = some r ∧ (r = true ↔ ∀ k ∈ cells, a.getD k 0 ≠ v) := by
  induction cells with
  | nil => exact ⟨true, rfl, by simp⟩
  | cons k cells ih =>
    have hk := h k mem_cons_self
    obtain ⟨r, hr, hiff⟩ := ih fun k hk => h k (mem_cons_of_mem _ hk)
    rw [absent] at hr
    by_cases hv : a[k] = v
    · exact ⟨false, by simp [absent, List.allM, hk, hv], by simp [hk, hv]⟩
    · refine ⟨r, ?_, by simp [hk, hv, hiff]⟩
      rw [absent, List.allM, hr, getElem?_eq_getElem hk]
      simp [hv]

/-- The three tests look at every cell of the row, the column and the box. -/
theorem forall_sameUnit {P : ℕ → ℕ → Prop} (hN : N = R * C) (hx : x < N) (hy : y < N) :
    (∀ x' < N, ∀ y' < N, SameUnit R C x y x' y' → P x' y') ↔ (∀ j < N, P x j) ∧ (∀ i < N, P i y) ∧
    ∀ i < R, ∀ j < C, P (i + x / R * R) (j + y / C * C) := by
  have hR : 0 < R := pos_of_ne_zero (by rintro rfl; omega)
  have hC : 0 < C := pos_of_ne_zero (by rintro rfl; omega)
  constructor
  · intro h
    refine ⟨fun j hj => h x hx j hj (.inl rfl), fun i hi => h i hi y hy (.inr (.inl rfl)), fun i hi j hj => ?_⟩
    have hx' : i + x / R * R < N := by
      have := Nat.mul_le_mul_right R (Nat.div_lt_of_lt_mul (hN ▸ hx))
      rw [succ_mul, mul_comm C R, ← hN] at this
      omega
    have hy' : j + y / C * C < N := by
      have := Nat.mul_le_mul_right C (Nat.div_lt_of_lt_mul (Nat.mul_comm C R ▸ hN ▸ hy))
      rw [succ_mul, ← hN] at this
      omega
    refine h _ hx' _ hy' (.inr (.inr ⟨?_, ?_⟩))
    · rw [add_mul_div_right _ _ hR, div_eq_of_lt hi, zero_add]
    · rw [add_mul_div_right _ _ hC, div_eq_of_lt hj, zero_add]
  · rintro ⟨hrow, hcol, hbox⟩ x' hx' y' hy' (rfl | rfl | ⟨hxR, hyC⟩)
    · exact hrow y' hy'
    · exact hcol x' hx'
    · have := hbox (x' % R) (mod_lt _ hR) (y' % C) (mod_lt _ hC)
      rwa [hxR, hyC, mod_add_div', mod_add_div'] at this

theorem ok_spec (hN : N = R * C) (ha : N * N ≤ a.length) (hx : x < N) (hy : y < N) :
    ∃ r, ok N R C a x y v = some r ∧
    (r = true ↔ ∀ x' < N, ∀ y' < N, SameUnit R C x y x' y' → entry N a x' y' ≠ v) := by
  obtain ⟨hrow, hcol, hbox⟩ := (forall_sameUnit hN hx hy).mp
    fun x' hx' y' hy' _ => lt_of_lt_of_le (index_lt hx' hy') ha
  obtain ⟨r1, h1, hiff1⟩ := absent_spec (forall_mem_map.mpr fun j hj => hrow j (mem_range.mp hj)) v
  obtain ⟨r2, h2, hiff2⟩ := absent_spec (forall_mem_map.mpr fun i hi => hcol i (mem_range.mp hi)) v
  obtain ⟨r3, h3, hiff3⟩ := absent_spec (forall_mem_flatMap.mpr fun i hi => forall_mem_map.mpr fun j hj =>
    hbox i (mem_range.mp hi) j (mem_range.mp hj)) v
  refine ⟨r1 && (r2 && r3), ?_, ?_⟩
  · rw [ok, okRow, h1, okCol, h2, okBox, h3]
    cases r1 <;> cases r2 <;> rfl
  · rw [Bool.and_eq_true, Bool.and_eq_true, hiff1, hiff2, hiff3,
      forall_sameUnit hN hx hy]
    simp only [forall_mem_map, forall_mem_flatMap, mem_range, entry]

/-! ### The search -/

/-- What `solve` gives: a completion, or the grid as it was if there is none. -/
def Outcome (N R C : ℕ) (a : List ℕ) (r : Bool) (b : List ℕ) : Prop :=
  (r = true → Completion N R C a b) ∧ (r = false → b = a ∧ ∀ c, ¬Completion N R C a c)

variable {call : List ℕ → Option (Bool × List ℕ)}

theorem tryValues_spec (hN : N = R * C) (h : Grid N R C a) (hi : i < N) (hj : j < N)
    (h0 : entry N a i j = 0) (hfuel : a.count 0 ≤ fuel) (hcall : ∀ a, Grid N R C a →
    a.count 0 < fuel → ∃ r b, call a = some (r, b) ∧ Outcome N R C a r b) (vs : List ℕ)
    (hvs : ∀ v ∈ vs, 1 ≤ v ∧ v ≤ N) :
    ∃ r b, tryValues N R C call i j vs a = some (r, b) ∧ (r = true → Completion N R C a b) ∧
    (r = false → b = a ∧ ∀ c, Completion N R C a c → entry N c i j ∉ vs) := by
  induction vs with
  | nil => exact ⟨false, a, rfl, nofun, fun _ => ⟨rfl, fun _ _ => not_mem_nil⟩⟩
  | cons v vs ih =>
    obtain ⟨hv1, hvN⟩ := hvs v mem_cons_self
    obtain ⟨r, b, hvalues, htrue, hfalse⟩ := ih fun v hv => hvs v (mem_cons_of_mem _ hv)
    obtain ⟨okay, hok, hiff⟩ := ok_spec (v := v) hN h.length_le hi hj
    have hset := fun c => completion_set (R := R) (C := C) (c := c) h.length_le hi hj h0 (show v ≠ 0 by omega)
    have hskip (hno : ∀ c, Completion N R C a c → entry N c i j ≠ v) : r = false →
        b = a ∧ ∀ c, Completion N R C a c → entry N c i j ∉ v :: vs := fun hr =>
      ⟨(hfalse hr).1, fun c hc => not_mem_cons_of_ne_of_not_mem (hno c hc) ((hfalse hr).2 c hc)⟩
    cases okay with
    | false =>
      refine ⟨r, b, by simp [tryValues, hok, hvalues], htrue, hskip fun c hc hcv => ?_⟩
      -- another cell of a unit holds the value, in the grid and so in every completion
      have hne : ∀ x < N, ∀ y < N, SameUnit R C i j x y → entry N a x y ≠ v := by
        rintro x hx y hy hunit rfl
        have hxy : (i, j) ≠ (x, y) := by
          rintro ⟨⟩
          omega
        refine hc.noRepeats i hi j hj x hx y hy hxy hunit (by omega) ?_
        rw [hcv, hc.agrees x hx y hy (by omega)]
      exact absurd (hiff.mpr hne) nofun
    | true =>
      obtain ⟨r', b', hsolve, htrue', hfalse'⟩ := hcall _ (h.set hi hj hvN (hiff.mp rfl))
        (lt_of_lt_of_le (count_set_lt h.length_le hi hj h0 (by omega)) hfuel)
      cases r' with
      | true => exact ⟨true,
          b', by simp [tryValues, hok, hsolve], fun _ => ((hset _).mp (htrue' rfl)).1, nofun⟩
      | false =>
        obtain ⟨rfl, hno⟩ := hfalse' rfl
        refine ⟨r, b, ?_, htrue, hskip fun c hc hcv => hno c ((hset c).mpr ⟨hc, hcv⟩)⟩
        simp [tryValues, hok, hsolve, set_set_zero h.length_le hi hj h0, hvalues]

theorem tryCells_spec (hN : N = R * C) (h : Grid N R C a) (hfuel : a.count 0 ≤ fuel)
    (hcall : ∀ a, Grid N R C a → a.count 0 < fuel → ∃ r b, call a = some (r, b) ∧
    Outcome N R C a r b) (cells : List (ℕ × ℕ)) :
    ∀ rem : Bool, (∀ p ∈ cells, p.1 < N ∧ p.2 < N) → (rem = true → ∀ c, ¬Completion N R C a c) →
    (rem = false → ∀ x < N, ∀ y < N, (x, y) ∉ cells → entry N a x y ≠ 0) →
    ∃ r b, tryCells N R C call cells rem a = some (r, b) ∧ Outcome N R C a r b := by
  induction cells with
  | nil =>
    rintro rem _ hsome hnone
    refine ⟨!rem, a, rfl, fun hr => ?_, fun hr => ⟨rfl, hsome (by simpa using hr)⟩⟩
    have hne : ∀ x < N, ∀ y < N, entry N a x y ≠ 0 := fun x hx y hy =>
      hnone (by simpa using hr) x hx y hy not_mem_nil
    exact ⟨fun x hx y hy => ⟨pos_of_ne_zero (hne x hx y hy), h.le x hx y hy⟩, fun _ _ _ _ _ => rfl,
      h.noRepeats⟩
  | cons p cells ih =>
    rintro rem hcells hsome hnone
    obtain ⟨i, j⟩ := p
    obtain ⟨hi, hj⟩ : i < N ∧ j < N := hcells (i, j) mem_cons_self
    have hcells' : ∀ p ∈ cells, p.1 < N ∧ p.2 < N := fun p hp => hcells p (mem_cons_of_mem _ hp)
    have hget := getElem?_entry h.length_le hi hj
    by_cases h0 : entry N a i j = 0
    · rw [h0] at hget
      obtain ⟨r, b, hvalues, htrue, hfalse⟩ := tryValues_spec hN h hi hj h0 hfuel hcall (List.range' 1 N)
        (fun v hv => by rw [mem_range'_1] at hv; omega)
      cases r with
      | true => exact ⟨true, b, by simp [tryCells, hget, hvalues], htrue, nofun⟩
      | false =>
        obtain ⟨rfl, hno⟩ := hfalse rfl
        have hnot : ∀ c, ¬Completion N R C b c := by
          intro c hc
          obtain ⟨hpos, hle⟩ := hc.filled i hi j hj
          exact hno c hc (mem_range'_1.mpr ⟨hpos, by omega⟩)
        obtain ⟨r, b', hrest, hout⟩ := ih true hcells' (fun _ => hnot) nofun
        exact ⟨r, b', by simp [tryCells, hget, hvalues, hrest], hout⟩
    · obtain ⟨r, b, hrest, hout⟩ := ih rem hcells' hsome fun hr x hx y hy hxy => by
        by_cases heq : (x, y) = (i, j)
        · cases heq
          exact h0
        · exact hnone hr x hx y hy (not_mem_cons_of_ne_of_not_mem heq hxy)
      exact ⟨r, b, by simp [tryCells, hget, h0, hrest], hout⟩

theorem solve_spec (hN : N = R * C) (h : Grid N R C a) (hfuel : a.count 0 < fuel) :
    ∃ r b, solve N R C fuel a = some (r, b) ∧ Outcome N R C a r b := by
  induction fuel generalizing a with
  | zero => omega
  | succ fuel ih =>
    refine tryCells_spec hN h (by omega) (fun a ha hlt => ih ha hlt) _ false (fun p hp =>
      ?_) nofun fun _ x hx y hy hxy => ?_
    · obtain ⟨x, y⟩ := p
      simpa using hp
    · exact absurd (by simpa using ⟨hx, hy⟩) hxy

/-- The search ends, with a completion of the grid or with the grid unchanged if it has none. -/
theorem solve_correct (N R C : ℕ) (hN : N = R * C) (hM : N * N ≤ M) (a : List ℕ)
    (hlen : a.length = M) (hle : ∀ x < N, ∀ y < N, entry N a x y ≤ N) (hno : NoRepeats N R C a)
    (fuel : ℕ) (hfuel : M < fuel) : ∃ r b, solve N R C fuel a = some (r, b) ∧
      (r = true → Completion N R C a b) ∧ (r = false → b = a ∧ ∀ c, ¬Completion N R C a c) :=
  solve_spec hN ⟨by omega, hle, hno⟩ (by have := count_le_length (l := a) (a := 0); omega)

theorem solve_correct_example :
    ∃ r b, solve 4 2 2 145 ([1, 0, 0, 0, 0, 0, 3, 0] ++ List.replicate 136 0) = some (r, b) ∧
      (r = true → Completion 4 2 2 ([1, 0, 0, 0, 0, 0, 3, 0] ++ List.replicate 136 0) b) ∧
      (r = false → b = [1, 0, 0, 0, 0, 0, 3, 0] ++ List.replicate 136 0 ∧
      ∀ c, ¬Completion 4 2 2 ([1, 0, 0, 0, 0, 0, 3, 0] ++ List.replicate 136 0) c) :=
  solve_correct 4 2 2 rfl (by decide) _ rfl (by decide) (by decide) 145 (by decide)

end Code365.Algorithms.Sudoku
