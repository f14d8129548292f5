import Code365.Lib.CInt

/-! # `SkylineProblem.java`: the skyline of a row of buildings

A skyline is a list of coordinates with the height from there on.  `mergeSkyline` walks over two of
them and keeps the current height of each; an entry is left out when `maxH` is the height that the
entry would have.  The merge is right because the height in view is the greater of the two current
heights and `maxH` is never below it (`mergeLoop_spec`), and because a skyline that has been used up
has come down to 0, so that the rest of the other one stands for itself.

The indices are values of type `int`.  From `2 ^ 30 + 2` buildings on a sum `start + end` wraps,
`mid` is negative and the call for the buildings up to `mid` never comes to an end
(`findSkyline_eq_none`). -/

namespace Code365.Algorithms.SkylineProblem

open Option List CInt

structure Skyline where
  coordinates : ℤ
  height : ℤ
deriving DecidableEq, Repr

structure Building where
  left : ℤ
  height : ℤ
  right : ℤ
deriving DecidableEq, Repr

/-! ### The program -/

/-- The entries that the loops of `mergeSkyline` still add. -/
def mergeLoop (currentH1 currentH2 maxH : ℤ) : List Skyline → List Skyline → List Skyline
  | e1 :: sky1, e2 :: sky2 =>
    if e1.coordinates < e2.coordinates then
      if e1.height < currentH2 then
        if maxH ≠ currentH2 then
          ⟨e1.coordinates, currentH2⟩ :: mergeLoop e1.height currentH2 maxH sky1 (e2 :: sky2)
        else mergeLoop e1.height currentH2 maxH sky1 (e2 :: sky2)
      else ⟨e1.coordinates, e1.height⟩ :: mergeLoop e1.height currentH2 e1.height sky1 (e2 :: sky2)
    else
      if e2.height < currentH1 then
        if maxH ≠ currentH1 then
          ⟨e2.coordinates, currentH1⟩ :: mergeLoop currentH1 e2.height maxH (e1 :: sky1) sky2
        else mergeLoop currentH1 e2.height maxH (e1 :: sky1) sky2
      else ⟨e2.coordinates, e2.height⟩ :: mergeLoop currentH1 e2.height e2.height (e1 :: sky1) sky2
  | sky1, sky2 => sky1 ++ sky2
termination_by sky1 sky2 => sky1.length + sky2.length

def mergeSkyline (sky1 sky2 : List Skyline) : List Skyline := mergeLoop 0 0 0 sky1 sky2

/-- `none` is an index out of the array, or calls that are nested deeper than `fuel`. -/
def findSkyline (building : List Building) : ℕ → ℤ → ℤ → Option (List Skyline)
  | 0, _, _ => none
  | fuel + 1, start, stop =>
    if start = stop then do
      let first ← arrayGet building start
      let last ← arrayGet building stop
      some [⟨first.left, first.height⟩, ⟨last.right, 0⟩]
    else do
      -- half of an `int`, so that `mid + 1` does not wrap
      let mid := (wrap (start + stop)).tdiv 2
      let sky1 ← findSkyline building fuel start mid
      let sky2 ← findSkyline building fuel (mid + 1) stop
      some (mergeSkyline sky1 sky2)

/-! ### A list of entries as a step function -/

/-- The height of the last entry whose coordinate is at most `x`, and `h` before the first. -/
def heightFrom (h : ℤ) (l : List Skyline) (x : ℤ) : ℤ :=
  ((l.filter fun e => e.coordinates ≤ x).getLast?.map Skyline.height).getD h

/-- The greatest height of a building over `x`, 0 if there is none. -/
def tallest (l : List Building) (x : ℤ) : ℤ :=
  ((l.filter fun b => b.left ≤ x ∧ x < b.right).map Building.height).max?.getD 0

variable {h h1 h2 m x : ℤ} {e : Skyline} {s s1 s2 out : List Skyline} {b : Building}
  {l : List Building} {start stop : ℕ}

@[simp] theorem heightFrom_nil : heightFrom h [] x = h := rfl

theorem heightFrom_cons_of_le (he : e.coordinates ≤ x) :
    heightFrom h (e :: s) x = heightFrom e.height s x := by
  rw [heightFrom, filter_cons_of_pos (by simpa using he), getLast?_cons, heightFrom]
  cases (s.filter fun e => e.coordinates ≤ x).getLast? <;> rfl

theorem heightFrom_of_lt (hx : ∀ e ∈ s, x < e.coordinates) : heightFrom h s x = h := by
  have hnone : (s.filter fun e => e.coordinates ≤ x) = [] := by
    rw [filter_eq_nil_iff]
    intro e he
    simpa using hx e he
  rw [heightFrom, hnone]
  rfl

/-- What is left of a skyline when the height is `h`. -/
structure Part (h : ℤ) (s : List Skyline) : Prop where
  start : 0 ≤ h
  nonneg : ∀ e ∈ s, 0 ≤ e.height
  sorted : s.Pairwise fun e e' => e.coordinates ≤ e'.coordinates
  falls : ∃ b, ∀ x, b ≤ x → heightFrom h s x = 0

theorem Part.eq_zero (hs : Part h []) : h = 0 := by
  obtain ⟨b, hb⟩ := hs.falls
  exact hb b le_rfl

theorem Part.tail (hs : Part h (e :: s)) : Part e.height s := by
  obtain ⟨b, hb⟩ := hs.falls
  refine ⟨hs.nonneg e mem_cons_self, fun e' he' => hs.nonneg e' (mem_cons_of_mem _ he'),
    (pairwise_cons.mp hs.sorted).2, max b e.coordinates, fun x hx => ?_⟩
  rw [← heightFrom_cons_of_le (le_trans (le_max_right _ _) hx)]
  exact hb x (le_trans (le_max_left _ _) hx)

theorem Part.head_le (hs : Part h (e :: s)) : ∀ e' ∈ e :: s, e.coordinates ≤ e'.coordinates := by
  intro e' he'
  rcases mem_cons.mp he' with rfl | he'
  · exact le_rfl
  · exact (pairwise_cons.mp hs.sorted).1 e' he'

theorem Part.le_of_le_head (hs : Part h (e :: s)) {c : ℤ} (hc : c ≤ e.coordinates) :
    ∀ e' ∈ e :: s, c ≤ e'.coordinates :=
  fun e' he' => hc.trans (hs.head_le e' he')

theorem Part.heightFrom_nonneg (hs : Part h s) (x : ℤ) : 0 ≤ heightFrom h s x := by
  induction s generalizing h with
  | nil => exact hs.start
  | cons e s ih =>
    by_cases he : e.coordinates ≤ x
    · rw [heightFrom_cons_of_le he]
      exact ih hs.tail
    · rw [heightFrom_of_lt fun e' he' => lt_of_lt_of_le (not_le.mp he) (hs.head_le e' he')]
      exact hs.start

/-! ### The merge -/

/-- `out` is what is left of the greater of two skylines. -/
structure Merged (h1 h2 : ℤ) (s1 s2 out : List Skyline) : Prop where
  part : Part (max h1 h2) out
  ge : ∀ c, (∀ e ∈ s1 ++ s2, c ≤ e.coordinates) → ∀ e ∈ out, c ≤ e.coordinates
  value : ∀ x, heightFrom (max h1 h2) out x = max (heightFrom h1 s1 x) (heightFrom h2 s2 x)

theorem Merged.symm (hm : Merged h1 h2 s1 s2 out) : Merged h2 h1 s2 s1 out := by
  refine ⟨max_comm h1 h2 ▸ hm.part, fun c hc => hm.ge c fun e he => hc e ?_, fun x => ?_⟩
  · exact mem_append.mpr (mem_append.mp he).symm
  · rw [max_comm h2, hm.value, max_comm]

theorem merged_nil_right (hs1 : Part h1 s1) (hs2 : Part h2 []) : Merged h1 h2 s1 [] s1 := by
  have hmax : max h1 h2 = h1 := by
    rw [hs2.eq_zero]
    exact max_eq_left hs1.start
  refine ⟨hmax.symm ▸ hs1, fun c hc e he => hc e (mem_append_left _ he), fun x => ?_⟩
  rw [hmax, heightFrom_nil, hs2.eq_zero, max_eq_left (hs1.heightFrom_nonneg x)]

section step

variable (hm : Merged e.height h2 s1 s2 out) (hs1 : Part h1 (e :: s1))
  (hle : ∀ e' ∈ s2, e.coordinates ≤ e'.coordinates)

include hm hs1 hle

theorem Merged.coordinates_le : ∀ e' ∈ out, e.coordinates ≤ e'.coordinates := by
  apply hm.ge _
  intro e' he'
  rcases mem_append.mp he' with he' | he'
  · exact hs1.head_le e' (mem_cons_of_mem _ he')
  · exact hle e' he'

theorem Merged.ge_cons (c : ℤ) (hc : ∀ e' ∈ (e :: s1) ++ s2, c ≤ e'.coordinates) :
    ∀ e' ∈ out, c ≤ e'.coordinates :=
  fun e' he' => le_trans (hc e (by simp)) (hm.coordinates_le hs1 hle e' he')

theorem Merged.value_of_lt (hx : x < e.coordinates) :
    heightFrom (max h1 h2) out x = max (heightFrom h1 (e :: s1) x) (heightFrom h2 s2 x) := by
  rw [heightFrom_of_lt fun e' he' => lt_of_lt_of_le hx (hm.coordinates_le hs1 hle e' he'),
    heightFrom_of_lt fun e' he' => lt_of_lt_of_le hx (hs1.head_le e' he'),
    heightFrom_of_lt fun e' he' => lt_of_lt_of_le hx (hle e' he')]

theorem Merged.emit (hs2 : 0 ≤ h2) :
    Merged h1 h2 (e :: s1) s2 (⟨e.coordinates, max e.height h2⟩ :: out) := by
  have hout := hm.coordinates_le hs1 hle
  have hvalue : ∀ x, heightFrom (max h1 h2) (⟨e.coordinates, max e.height h2⟩ :: out) x =
      max (heightFrom h1 (e :: s1) x) (heightFrom h2 s2 x) := by
    intro x
    by_cases hx : e.coordinates ≤ x
    · rw [heightFrom_cons_of_le (e := ⟨e.coordinates, max e.height h2⟩) hx, heightFrom_cons_of_le hx, hm.value]
    rw [not_le] at hx
    rw [← hm.value_of_lt hs1 hle hx, heightFrom_of_lt fun e' he' => lt_of_lt_of_le hx (hout e' he'),
      heightFrom_of_lt]
    rintro e' he'
    rcases mem_cons.mp he' with rfl | he'
    · exact hx
    · exact lt_of_lt_of_le hx (hout e' he')
  obtain ⟨b, hb⟩ := hm.part.falls
  refine ⟨⟨le_max_of_le_right hs2, ?_, pairwise_cons.mpr ⟨hout, hm.part.sorted⟩,
    max b e.coordinates, ?_⟩, ?_, hvalue⟩
  · rintro e' he'
    rcases mem_cons.mp he' with rfl | he'
    · exact le_max_of_le_right hs2
    · exact hm.part.nonneg e' he'
  · intro x hx
    rw [heightFrom_cons_of_le (e := ⟨e.coordinates, max e.height h2⟩) (le_trans (le_max_right _ _) hx)]
    exact hb x (le_trans (le_max_left _ _) hx)
  · rintro c hc e' he'
    rcases mem_cons.mp he' with rfl | he'
    · exact hc e (by simp)
    · exact hm.ge_cons hs1 hle c hc e' he'

theorem Merged.skip (hmax : max e.height h2 = max h1 h2) : Merged h1 h2 (e :: s1) s2 out := by
  refine ⟨hmax ▸ hm.part, hm.ge_cons hs1 hle, fun x => ?_⟩
  by_cases hx : e.coordinates ≤ x
  · rw [heightFrom_cons_of_le hx, ← hmax, hm.value]
  · exact hm.value_of_lt hs1 hle (not_le.mp hx)

end step

/-- `maxH` may be too large, but then no entry is left out. -/
theorem mergeLoop_spec (hs1 : Part h1 s1) (hs2 : Part h2 s2) (hm : max h1 h2 ≤ m) :
    Merged h1 h2 s1 s2 (mergeLoop h1 h2 m s1 s2) := by
  fun_induction mergeLoop h1 h2 m s1 s2 with
  | case1 h1 h2 m e1 sky1 e2 sky2 hlt hlow hne ih =>
    have hnext := (ih hs1.tail hs2 (by omega)).emit hs1 (hs2.le_of_le_head hlt.le) hs2.start
    rwa [max_eq_right hlow.le] at hnext
  | case2 h1 h2 m e1 sky1 e2 sky2 hlt hlow heq ih =>
    exact (ih hs1.tail hs2 (by omega)).skip hs1 (hs2.le_of_le_head hlt.le) (by omega)
  | case3 h1 h2 m e1 sky1 e2 sky2 hlt hhigh ih =>
    have hnext := (ih hs1.tail hs2 (by omega)).emit hs1 (hs2.le_of_le_head hlt.le) hs2.start
    rwa [max_eq_left (not_lt.mp hhigh)] at hnext
  | case4 h1 h2 m e1 sky1 e2 sky2 hge hlow hne ih =>
    have hnext := ((ih hs1 hs2.tail (by omega)).symm.emit hs2 (hs1.le_of_le_head (not_lt.mp hge))
      hs1.start).symm
    rwa [max_eq_right hlow.le] at hnext
  | case5 h1 h2 m e1 sky1 e2 sky2 hge hlow heq ih =>
    exact ((ih hs1 hs2.tail (by omega)).symm.skip hs2 (hs1.le_of_le_head (not_lt.mp hge)) (by omega)).symm
  | case6 h1 h2 m e1 sky1 e2 sky2 hge hhigh ih =>
    have hnext := ((ih hs1 hs2.tail (by omega)).symm.emit hs2 (hs1.le_of_le_head (not_lt.mp hge))
      hs1.start).symm
    rwa [max_eq_left (not_lt.mp hhigh)] at hnext
  | case7 h1 h2 m sky1 sky2 hempty =>
    cases sky1 with
    | nil => exact (merged_nil_right hs2 hs1).symm
    | cons e1 sky1 =>
      cases sky2 with
      | nil => simpa using merged_nil_right hs1 hs2
      | cons e2 sky2 => exact (hempty e1 sky1 e2 sky2 rfl rfl).elim

theorem mergeSkyline_spec (hs1 : Part 0 s1) (hs2 : Part 0 s2) : Part 0 (mergeSkyline s1 s2) ∧
    ∀ x, heightFrom 0 (mergeSkyline s1 s2) x = max (heightFrom 0 s1 x) (heightFrom 0 s2 x) := by
  have hmerged := mergeLoop_spec hs1 hs2 (le_refl (max 0 0))
  have hpart := hmerged.part
  have hvalue := hmerged.value
  exact ⟨hpart, hvalue⟩

/-! ### The recursion -/

theorem tallest_cons (hb : 0 ≤ b.height) (x : ℤ) : tallest (b :: l) x = if b.left ≤ x ∧
    x < b.right then max b.height (tallest l x) else tallest l x := by
  by_cases hx : b.left ≤ x ∧ x < b.right
  · rw [if_pos hx, tallest, filter_cons_of_pos (by simpa using hx), map_cons, max?_cons, tallest]
    cases ((l.filter fun b => b.left ≤ x ∧ x < b.right).map Building.height).max? with
    | none => exact (max_eq_left hb).symm
    | some m => rfl
  · rw [if_neg hx, tallest, filter_cons_of_neg (by simpa using hx), tallest]

theorem tallest_nonneg (hl : ∀ b ∈ l, 0 ≤ b.height) (x : ℤ) : 0 ≤ tallest l x := by
  induction l with
  | nil => exact le_rfl
  | cons b l ih =>
    have hrest := ih fun b' hb' => hl b' (mem_cons_of_mem _ hb')
    rw [tallest_cons (hl b mem_cons_self)]
    split_ifs
    · exact le_max_of_le_right hrest
    · exact hrest

theorem tallest_append {l' : List Building} (hl : ∀ b ∈ l, 0 ≤ b.height)
    (hl' : ∀ b ∈ l', 0 ≤ b.height) (x : ℤ) :
    tallest (l ++ l') x = max (tallest l x) (tallest l' x) := by
  induction l with
  | nil => exact (max_eq_right (tallest_nonneg hl' x)).symm
  | cons b l ih =>
    have hb := hl b mem_cons_self
    rw [cons_append, tallest_cons hb, tallest_cons hb, ih fun b' hb' => hl b' (mem_cons_of_mem _ hb')]
    split_ifs
    · exact (max_assoc _ _ _).symm
    · rfl

theorem heightFrom_single (hb : b.left < b.right) (hh : 0 ≤ b.height) (x : ℤ) :
    heightFrom 0 [⟨b.left, b.height⟩, ⟨b.right, 0⟩] x = tallest [b] x := by
  have htallest : tallest [b] x = if b.left ≤ x ∧ x < b.right then b.height else 0 := by
    rw [tallest_cons hh]
    exact if_congr Iff.rfl (max_eq_left hh) rfl
  rw [htallest]
  by_cases hright : b.right ≤ x
  · rw [heightFrom_cons_of_le (hb.le.trans hright), heightFrom_cons_of_le hright, heightFrom_nil,
      if_neg fun h => absurd hright (not_le.mpr h.2)]
  · by_cases hleft : b.left ≤ x
    · rw [heightFrom_cons_of_le hleft, heightFrom_of_lt (by simpa using hright),
        if_pos ⟨hleft, not_le.mp hright⟩]
    · rw [heightFrom_of_lt (by simpa using ⟨not_le.mp hleft, not_le.mp hright⟩), if_neg fun h => hleft h.1]

theorem part_single (hb : b.left < b.right) (hh : 0 ≤ b.height) :
    Part 0 [⟨b.left, b.height⟩, ⟨b.right, 0⟩] := by
  refine ⟨le_rfl, by simpa using hh, by simpa using hb.le, b.right, fun x hx => ?_⟩
  rw [heightFrom_cons_of_le (hb.le.trans hx), heightFrom_cons_of_le hx, heightFrom_nil]

/-- The buildings from `start` to `stop`. -/
def between (building : List Building) (start stop : ℕ) : List Building :=
  (building.drop start).take (stop + 1 - start)

theorem between_self {building : List Building} {i : ℕ} (hi : i < building.length) :
    between building i i = [building[i]] := by
  rw [between, show i + 1 - i = 1 by omega, drop_eq_getElem_cons hi, take_succ_cons, take_zero]

theorem between_append {building : List Building} {mid : ℕ} (hmid : start ≤ mid)
    (hstop : mid < stop) : between building start mid ++ between building (mid + 1) stop =
    between building start stop := by
  have hsplit : stop + 1 - start = (mid + 1 - start) + (stop + 1 - (mid + 1)) := by omega
  rw [between, between, between, hsplit, take_add, drop_drop,
    show start + (mid + 1 - start) = mid + 1 by omega]

variable {building : List Building}

theorem mem_of_mem_between (hb : b ∈ between building start stop) : b ∈ building :=
  mem_of_mem_drop (mem_of_mem_take hb)

theorem wrap_add_tdiv (hle : start + stop < 2 ^ 31) :
    (wrap (start + stop)).tdiv 2 = ((start + stop) / 2 : ℕ) := by
  rw [wrap_eq_self (by omega) (by omega), Int.tdiv_eq_ediv_of_nonneg (by omega)]
  omega

theorem findSkyline_spec (hbuilding : ∀ b ∈ building, b.left < b.right ∧ 0 ≤ b.height)
    (hlen : building.length ≤ 2 ^ 30 + 1) :
    ∀ {fuel start stop : ℕ}, start ≤ stop → stop < building.length → stop - start < fuel →
      ∃ l, findSkyline building fuel start stop = some l ∧ Part 0 l ∧
        ∀ x, heightFrom 0 l x = tallest (between building start stop) x
  | fuel + 1, start, stop, hle, hstop, hfuel => by
    by_cases heq : start = stop
    · subst heq
      obtain ⟨hb, hh⟩ := hbuilding building[start] (getElem_mem hstop)
      refine ⟨_, by simp [findSkyline, arrayGet_natCast, hstop], part_single hb hh, fun x => ?_⟩
      rw [between_self hstop, heightFrom_single hb hh]
    obtain ⟨sky1, hsky1, hpart1, hvalue1⟩ := findSkyline_spec hbuilding hlen
      (show start ≤ (start + stop) / 2 by omega) (by omega) (show _ < fuel by omega)
    obtain ⟨sky2, hsky2, hpart2, hvalue2⟩ := findSkyline_spec hbuilding hlen
      (show (start + stop) / 2 + 1 ≤ stop by omega) hstop (show _ < fuel by omega)
    rw [Nat.cast_succ] at hsky2
    obtain ⟨hpart, hvalue⟩ := mergeSkyline_spec hpart1 hpart2
    refine ⟨mergeSkyline sky1 sky2, ?_, hpart, fun x => ?_⟩
    · rw [findSkyline, if_neg (by exact_mod_cast heq), wrap_add_tdiv (by omega)]
      simp only [hsky1, hsky2, bind_eq_bind, bind_some]
    · have hnonneg : ∀ {i j : ℕ}, ∀ b ∈ between building i j, 0 ≤ b.height :=
        fun b hb => (hbuilding b (mem_of_mem_between hb)).2
      rw [hvalue, hvalue1, hvalue2, ← tallest_append hnonneg hnonneg,
        between_append (by omega) (by omega)]

/-! ### The sum that wraps -/

/-- The middle of an upper and a lower bound is below the upper bound, also after a wrap. -/
theorem wrap_add_tdiv_lt {start stop : ℤ} (hpos : 0 < start) (hint : start < 2 ^ 31)
    (hmin : -2 ^ 31 ≤ stop) (hlt : stop < start) :
    -2 ^ 31 ≤ (wrap (start + stop)).tdiv 2 ∧ (wrap (start + stop)).tdiv 2 < start := by
  by_cases hwrap : start + stop < 2 ^ 31
  · rw [wrap_eq_self (by omega) hwrap, tdiv_two]
    split_ifs <;> omega
  · rw [wrap_eq_sub (by omega) (by omega), tdiv_two]
    split_ifs <;> omega

/-- With its bounds in the wrong order the recursion has no end. -/
theorem findSkyline_of_lt {start : ℤ} (hpos : 0 < start) (hint : start < 2 ^ 31) :
    ∀ {fuel : ℕ} {stop : ℤ}, -2 ^ 31 ≤ stop → stop < start →
    findSkyline building fuel start stop = none
  | 0, _, _, _ => rfl
  | fuel + 1, stop, hmin, hlt => by
    obtain ⟨hmin', hlt'⟩ := wrap_add_tdiv_lt hpos hint hmin hlt
    have hleft : findSkyline building fuel start _ = none := findSkyline_of_lt hpos hint hmin' hlt'
    simp only [findSkyline, if_neg hlt.ne', hleft, bind_eq_bind, bind_none]

/-- The last two buildings are never reached: either the sum wraps before, or it does for them. -/
theorem findSkyline_eq_none {stop : ℤ} (hmany : 2 ^ 30 + 1 ≤ stop) (hint : stop < 2 ^ 31) :
    ∀ {fuel : ℕ} {start : ℤ}, 0 ≤ start → start < stop → findSkyline building fuel start stop = none
  | 0, _, _, _ => rfl
  | fuel + 1, start, hstart, hlt => by
    simp only [findSkyline, if_neg hlt.ne, bind_eq_bind]
    by_cases hwrap : start + stop < 2 ^ 31
    · have hmid : 0 ≤ (start + stop).tdiv 2 ∧ (start + stop).tdiv 2 + 1 < stop := by
        rw [Int.tdiv_eq_ediv_of_nonneg (by omega)]
        omega
      have hright : findSkyline building fuel ((start + stop).tdiv 2 + 1) stop = none :=
        findSkyline_eq_none hmany hint (by omega) hmid.2
      simp [wrap_eq_self (show -2 ^ 31 ≤ start + stop by omega) hwrap, hright]
    · have hmid : -2 ^ 31 ≤ (wrap (start + stop)).tdiv 2 ∧ (wrap (start + stop)).tdiv 2 < 0 := by
        rw [wrap_eq_sub (by omega) (by omega), tdiv_two]
        split_ifs <;> omega
      have hleft : findSkyline building fuel start _ = none :=
        findSkyline_of_lt (by omega) (by omega) hmid.1 (hmid.2.trans_le hstart)
      rw [hleft, bind_none]

/-- Up to `2 ^ 30 + 1` buildings, and not beyond, the program returns a skyline that is the
pointwise maximum of the buildings, with its coordinates in order. -/
theorem findSkyline_pointwise_max_iff (building : List Building) (hne : building ≠ [])
    (hint : building.length < 2 ^ 31) (hbuilding : ∀ b ∈ building, b.left < b.right ∧
    0 ≤ b.height) : (∃ fuel l, findSkyline building fuel 0 (building.length - 1) = some l ∧
      (∀ x, heightFrom 0 l x = tallest building x) ∧ (l.map Skyline.coordinates).Pairwise (· ≤ ·)) ↔
      building.length ≤ 2 ^ 30 + 1 := by
  have hpos : 0 < building.length := length_pos_iff.mpr hne
  constructor
  · rintro ⟨fuel, l, hl, _⟩
    by_contra hmany
    rw [findSkyline_eq_none (by omega) (by omega) le_rfl (by omega)] at hl
    cases hl
  · intro hlen
    obtain ⟨l, hl, hpart, hvalue⟩ := findSkyline_spec hbuilding hlen (Nat.zero_le (building.length - 1))
      (by omega) (show building.length - 1 - 0 < building.length by omega)
    rw [Nat.cast_zero, Nat.cast_sub hpos, Nat.cast_one] at hl
    refine ⟨_, l, hl, fun x => ?_, pairwise_map.mpr hpart.sorted⟩
    rw [hvalue, between, drop_zero, take_of_length_le (by omega)]

theorem findSkyline_pointwise_max_pair : [(⟨1, 3, 5⟩ : Building), ⟨2, 7, 4⟩] ≠ [] ∧
    ((∃ fuel l, findSkyline [⟨1, 3, 5⟩, ⟨2, 7, 4⟩] fuel 0 1 = some l ∧
      (∀ x, heightFrom 0 l x = tallest [⟨1, 3, 5⟩, ⟨2, 7, 4⟩] x) ∧
      (l.map Skyline.coordinates).Pairwise (· ≤ ·)) ↔ 2 ≤ 2 ^ 30 + 1) :=
  ⟨by simp, findSkyline_pointwise_max_iff [⟨1, 3, 5⟩, ⟨2, 7, 4⟩] (by simp) (by simp) (by decide)⟩

/-- One building too many. -/
theorem findSkyline_many : (replicate (2 ^ 30 + 2) (⟨0, 1, 1⟩ : Building)).length = 2 ^ 30 + 2 ∧
    ∀ fuel, findSkyline (replicate (2 ^ 30 + 2) ⟨0, 1, 1⟩) fuel 0 (2 ^ 30 + 1) = none :=
  ⟨length_replicate, fun _ => findSkyline_eq_none le_rfl (by decide) le_rfl (by decide)⟩

end Code365.Algorithms.SkylineProblem
