import Code365.Lib.Edits

/-! # `edit_distance.py` (`algorithms/python/dynamic_programming`)

The object is passed along: its table, and the two strings of the current call.  An index outside a
list gives `none`, also a negative one (the recursion ends at -1); the fuel bounds the depth of the
recursion, on which Python's own limit is left out. -/

namespace Code365.Algorithms

open List

structure EditDistance where
  dp : List (List ℤ)
  A : List Char
  B : List Char

namespace EditDistance

def prepare (N M : ℕ) (self : EditDistance) : EditDistance :=
  { self with dp := List.replicate N (List.replicate M (-1)) }

def init : EditDistance := prepare 0 0 ⟨[], [], []⟩

/-- `self.dp[x][y]` -/
def cell (dp : List (List ℤ)) (x y : ℕ) : Option ℤ := dp[x]?.bind (·[y]?)

def solveDP : ℕ → ℤ → ℤ → EditDistance → Option (ℤ × EditDistance)
  | 0, _, _, _ => none
  | fuel + 1, x, y, self =>
    if x = -1 then some (y + 1, self)
    else if y = -1 then some (x + 1, self)
    else if x < 0 ∨ y < 0 then none
    else do
      let v ← cell self.dp x.toNat y.toNat
      if v > -1 then return (v, self)
      else
        let (v, self) ←
          if (← self.A[x.toNat]?) = (← self.B[y.toNat]?) then solveDP fuel (x - 1) (y - 1) self
          else do
            let (u, self) ← solveDP fuel x (y - 1) self
            let (v, self) ← solveDP fuel (x - 1) y self
            let (w, self) ← solveDP fuel (x - 1) (y - 1) self
            pure (1 + min u (min v w), self)
        return (v, { self with dp := self.dp.modify x.toNat (·.set y.toNat v) })

def solve (fuel : ℕ) (A B : List Char) (self : EditDistance) : Option (ℤ × EditDistance) :=
  solveDP fuel (A.length - 1) (B.length - 1) (prepare A.length B.length { self with A := A, B := B })

/-! ### The table -/

theorem cell_modify {dp : List (List ℤ)} {x y i j : ℕ} {v w : ℤ} (h : cell dp i j = some w) :
    cell (dp.modify x (·.set y v)) i j = some (if x = i ∧ y = j then v else w) := by
  obtain ⟨row, hrow, hw⟩ := Option.bind_eq_some_iff.mp h
  rw [cell, getElem?_modify, hrow, Option.map_eq_map, Option.map_some, Option.bind_some]
  by_cases hx : x = i
  · subst hx
    rw [if_pos rfl, getElem?_set]
    by_cases hy : y = j
    · subst hy
      rw [if_pos rfl, if_pos (List.getElem?_eq_some_iff.mp hw).1, if_pos ⟨rfl, rfl⟩]
    · rw [if_neg hy, hw, if_neg (fun h => hy h.2)]
  · rw [if_neg hx, hw, if_neg (fun h => hx h.1)]

variable {A B : List Char} {o : EditDistance} {fuel x y : ℕ}

/-- The distance of the first `x` characters of `A` from the first `y` of `B`; the recursion looks
at the last of them first. -/
def prefixDistance (A B : List Char) (x y : ℕ) : ℕ := distance (A.take x).reverse (B.take y).reverse

theorem prefixDistance_add_one {a b : Char} (ha : A[x]? = some a) (hb : B[y]? = some b) :
    prefixDistance A B (x + 1) (y + 1) = if a =
    b then prefixDistance A B x y else 1 + min (prefixDistance A B (x + 1) y)
    (min (prefixDistance A B x (y + 1)) (prefixDistance A B x y)) := by
  simp only [prefixDistance, take_add_one, ha, hb, Option.toList_some, reverse_append, reverse_singleton,
    singleton_append, distance]

/-- Every entry of the table is -1 or final. -/
structure Memo (A B : List Char) (o : EditDistance) : Prop where
  A_eq : o.A = A
  B_eq : o.B = B
  cell_eq : ∀ x < A.length, ∀ y < B.length, ∃ v, cell o.dp x y = some v ∧
    (v > -1 → v = prefixDistance A B (x + 1) (y + 1))

theorem Memo.set (h : Memo A B o) {v : ℤ} (hv : v = prefixDistance A B (x + 1) (y + 1)) :
    Memo A B { o with dp := o.dp.modify x (·.set y v) } where
  A_eq := h.A_eq
  B_eq := h.B_eq
  cell_eq i hi j hj := by
    obtain ⟨w, hw, hfinal⟩ := h.cell_eq i hi j hj
    refine ⟨_, cell_modify hw, ?_⟩
    split
    next heq =>
      obtain ⟨rfl, rfl⟩ := heq
      exact fun _ => hv
    next => exact hfinal

theorem memo_prepare (A B : List Char) (o : EditDistance) :
    Memo A B (prepare A.length B.length { o with A := A, B := B }) where
  A_eq := rfl
  B_eq := rfl
  cell_eq x hx y hy := ⟨-1, by simp [cell, prepare, hx, hy], fun h => absurd h (by decide)⟩

/-! ### The recursion -/

/-- The call `__solveDP(x - 1, y - 1)`. -/
theorem solveDP_spec (hfuel : x + y < fuel) (hx : x ≤ A.length) (hy : y ≤ B.length)
    (h : Memo A B o) : ∃ o', solveDP fuel (x - 1) (y - 1) o =
    some ((prefixDistance A B x y : ℤ), o') ∧ Memo A B o' := by
  induction fuel generalizing x y o with
  | zero => omega
  | succ fuel ih =>
    rcases x with _ | x
    · refine ⟨o, ?_, h⟩
      rw [solveDP, if_pos (by omega)]
      simp [prefixDistance, distance, hy]
    rcases y with _ | y
    · refine ⟨o, ?_, h⟩
      rw [solveDP, if_neg (by omega), if_pos (by omega)]
      simp [prefixDistance, distance_nil, hx]
    obtain ⟨v, hcell, hfinal⟩ := h.cell_eq x hx y hy
    obtain ⟨a, ha⟩ : ∃ a, A[x]? = some a := ⟨_, getElem?_eq_getElem hx⟩
    obtain ⟨b, hb⟩ : ∃ b, B[y]? = some b := ⟨_, getElem?_eq_getElem hy⟩
    have hrec := prefixDistance_add_one ha hb
    rw [solveDP, if_neg (by omega), if_neg (by omega), if_neg (by omega),
      show (((x + 1 : ℕ) : ℤ) - 1) = x by omega, show (((y + 1 : ℕ) : ℤ) -
      1) = y by omega, Int.toNat_natCast, Int.toNat_natCast, hcell, h.A_eq, h.B_eq, ha, hb]
    by_cases hv : v > -1
    · refine ⟨o, ?_, h⟩
      rw [← hfinal hv]
      simp [hv]
    by_cases hab : a = b
    · obtain ⟨o', hdp, h'⟩ := ih (show x + y < fuel by omega) (by omega) (by omega) h
      refine ⟨_, ?_, h'.set (v := prefixDistance A B (x + 1) (y + 1)) rfl⟩
      simp [hv, hab, hdp, hrec]
    have hmin : 1 + min (prefixDistance A B (x + 1) y : ℤ) (min (prefixDistance A B x (y + 1) : ℤ)
        (prefixDistance A B x y)) = prefixDistance A B (x + 1) (y + 1) := by
      rw [hrec, if_neg hab]
      omega
    obtain ⟨o1, hdp1, h1⟩ := ih (show x + 1 + y < fuel by omega) hx (by omega) h
    obtain ⟨o2, hdp2, h2⟩ := ih (show x + (y + 1) < fuel by omega) (by omega) hy h1
    obtain ⟨o3, hdp3, h3⟩ := ih (show x + y < fuel by omega) (by omega) (by omega) h2
    rw [show (((x + 1 : ℕ) : ℤ) - 1) = x by omega] at hdp1
    rw [show (((y + 1 : ℕ) : ℤ) - 1) = y by omega] at hdp2
    refine ⟨_, ?_, h3.set (v := prefixDistance A B (x + 1) (y + 1)) rfl⟩
    simp [hv, hab, hdp1, hdp2, hdp3, hmin]

/-- The result is the least number of edits in either direction, whatever the object was used for
before. -/
theorem solve_isLeast (o : EditDistance) (A B : List Char) (fuel : ℕ)
    (hfuel : A.length + B.length < fuel) : ∃ (n : ℕ) (o' : EditDistance), solve fuel A B o =
      some ((n : ℤ), o') ∧ IsLeast {n | Edits n A B} n ∧ IsLeast {n | Edits n B A} n := by
  obtain ⟨o', hsolve, _⟩ := solveDP_spec hfuel le_rfl le_rfl (memo_prepare A B o)
  refine ⟨_, o', hsolve, ?_⟩
  have hrev : ∀ a b : List Char, {n | Edits n a.reverse b.reverse} = {n | Edits n a b} := fun a b =>
    Set.ext fun n => ⟨fun h => by simpa using h.reverse, Edits.reverse⟩
  rw [prefixDistance, List.take_length, List.take_length, ← hrev A, ← hrev B]
  exact isLeast_distance _ _

theorem solve_isLeast_example :
    ∃ (n : ℕ) (o' : EditDistance), solve 14 "sitting".toList "kitten".toList init =
      some ((n : ℤ), o') ∧ IsLeast {n | Edits n "sitting".toList "kitten".toList} n ∧
      IsLeast {n | Edits n "kitten".toList "sitting".toList} n :=
  solve_isLeast init _ _ 14 (by decide)

end EditDistance

end Code365.Algorithms
