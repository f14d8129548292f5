import Code365.Lib.LazyTree

/-! # `segTree.cpp` (`algorithms/cpp/Range queries`)

Range addition and range sum.  The children of the node at `pos` are at `2 * pos + 1` and
`2 * pos + 2`.  The numbers are integers without bound.  An access outside the arrays gives `none`,
as does a recursion deeper than `fuel`.

The tree stands for the array as `LazyTree` says, with the node at `pos` as the node `pos + 1` there
(`cell`) and the additions in `lazy` as the pending changes (`sumAdd`). -/

namespace Code365.Algorithms.SegTree

open Finset Function LazyTree

/-- `MAX`, the size of the arrays in `main`. -/
def MAX : ℕ := 4000000

structure Arrays where
  segtree : ℕ → ℤ
  lazy : ℕ → ℤ

section Model

variable (size : ℕ)

def consTree (arr : List ℤ) : ℕ → Arrays → ℕ → ℕ → ℕ → Option Arrays
  | 0, _, _, _, _ => none
  | fuel + 1, s, low, high, pos => do
    guard (pos < size)
    if low = high then
      return { s with segtree := Function.update s.segtree pos (← arr[low]?) }
    else
      let mid := (low + high) / 2
      let s ← consTree arr fuel s low mid (2 * pos + 1)
      let s ← consTree arr fuel s (mid + 1) high (2 * pos + 2)
      return { s with
        segtree := Function.update s.segtree pos (s.segtree (2 * pos + 1) + s.segtree (2 * pos + 2)) }

/-- `delta` is added to all elements of the node at `pos`; the children get it as pending. -/
def addAll (s : Arrays) (low high pos : ℕ) (delta : ℤ) : Option Arrays := do
  let s := { s with segtree := Function.update s.segtree pos (s.segtree pos + delta * (high - low + 1)) }
  if low ≠ high then
    guard (2 * pos + 1 < size)
    guard (2 * pos + 2 < size)
    let lazy := Function.update s.lazy (2 * pos + 1) (s.lazy (2 * pos + 1) + delta)
    return { s with lazy := Function.update lazy (2 * pos + 2) (lazy (2 * pos + 2) + delta) }
  else return s

/-- The addition pending at a node is made: the same lines in `query` and in `update`. -/
def pushDown (s : Arrays) (low high pos : ℕ) : Option Arrays := do
  guard (pos < size)
  if s.lazy pos ≠ 0 then
    let s ← addAll size s low high pos (s.lazy pos)
    return { s with lazy := Function.update s.lazy pos 0 }
  else return s

/-- `query`.  The compiler chooses which of the two recursive calls of the sum comes first. -/
def query (rightFirst : Bool) : ℕ → Arrays → ℕ → ℕ → ℕ → ℕ → ℕ → Option (ℤ × Arrays)
  | 0, _, _, _, _, _, _ => none
  | fuel + 1, s, qlow, qhigh, low, high, pos =>
    if low > high then some (0, s)
    else if qlow > high ∨ qhigh < low then some (0, s)
    else do
      let s ← pushDown size s low high pos
      if qlow ≤ low ∧ qhigh ≥ high then return (s.segtree pos, s)
      else
        let mid := (low + high) / 2
        if rightFirst then
          let (right, s) ← query rightFirst fuel s qlow qhigh (mid + 1) high (2 * pos + 2)
          let (left, s) ← query rightFirst fuel s qlow qhigh low mid (2 * pos + 1)
          return (left + right, s)
        else
          let (left, s) ← query rightFirst fuel s qlow qhigh low mid (2 * pos + 1)
          let (right, s) ← query rightFirst fuel s qlow qhigh (mid + 1) high (2 * pos + 2)
          return (left + right, s)

def update : ℕ → Arrays → ℕ → ℕ → ℤ → ℕ → ℕ → ℕ → Option Arrays
  | 0, _, _, _, _, _, _, _ => none
  | fuel + 1, s, start, «end», delta, low, high, pos =>
    if low > high then some s
    else do
      let s ← pushDown size s low high pos
      if start > high ∨ «end» < low then return s
      else if start ≤ low ∧ «end» ≥ high then addAll size s low high pos delta
      else
        let mid := (low + high) / 2
        let s ← update fuel s start «end» delta low mid (2 * pos + 1)
        let s ← update fuel s start «end» delta (mid + 1) high (2 * pos + 2)
        return { s with
          segtree := Function.update s.segtree pos (s.segtree (2 * pos + 1) + s.segtree (2 * pos + 2)) }

end Model

/-! ### The tree and the array -/

/-- Sums, and numbers to be added. -/
def sumAdd : LazyAction ℤ ℤ ℤ where
  total f l r := ∑ j ∈ Finset.Icc l r, f j
  join := (· + ·)
  act t a := a + t
  actAll t n x := x + t * n
  idle := 0
  comp t t' := t' + t
  total_congr h := sum_congr rfl fun j hj => h j (mem_Icc.mp hj).1 (mem_Icc.mp hj).2
  total_split f l m r hlm hmr := by
    rw [Icc_split hlm hmr, sum_union]
    rw [disjoint_left]
    intro j hj hj'
    rw [mem_Icc] at hj hj'
    omega
  total_act t f l r _ := by
    rw [sum_add_distrib, sum_const, Nat.card_Icc, nsmul_eq_mul, mul_comm]
  act_idle := add_zero
  act_comp t t' a := by rw [add_assoc]

/-- The sum and the pending addition of a node. -/
def cell (s : Arrays) : ℕ → ℤ × ℤ
  | 0 => (0, 0)
  | pos + 1 => (s.segtree pos, s.lazy pos)

variable {size fuel low high pos : ℕ} {s : Arrays} {f : ℕ → ℤ}

theorem cell_left (s : Arrays) (pos : ℕ) :
    cell s (2 * (pos + 1)) = (s.segtree (2 * pos + 1), s.lazy (2 * pos + 1)) := rfl

theorem cell_right (s : Arrays) (pos : ℕ) :
    cell s (2 * (pos + 1) + 1) = (s.segtree (2 * pos + 2), s.lazy (2 * pos + 2)) :=
  rfl

theorem cell_of_ne {s' : Arrays} (hsum : ∀ j ≠ pos, s'.segtree j = s.segtree j)
    (hlazy : ∀ j ≠ pos, s'.lazy j = s.lazy j) : ∀ j ≠ pos + 1, cell s' j = cell s j := by
  rintro (_ | j) hj
  · rfl
  · have hne : j ≠ pos := fun h => hj (congrArg (· + 1) h)
    rw [cell, cell, hsum j hne, hlazy j hne]

theorem cell_setSum (s : Arrays) (pos : ℕ) (sum : ℤ) :
    ∀ j ≠ pos + 1, cell { s with segtree := Function.update s.segtree pos sum } j = cell s j :=
  cell_of_ne (fun _ hj => update_of_ne hj ..) fun _ _ => rfl

/-- `segtree[pos] = segtree[2*pos+1] + segtree[2*pos+2]`. -/
def pull (s : Arrays) (pos : ℕ) : Arrays :=
  { s with segtree := Function.update s.segtree pos (s.segtree (2 * pos + 1) + s.segtree (2 * pos + 2)) }

theorem pull_spec (hlt : low < high)
    (hleft : Rep sumAdd (cell s) (2 * (pos + 1)) low ((low + high) / 2) f)
    (hright : Rep sumAdd (cell s) (2 * (pos + 1) + 1) ((low + high) / 2 + 1) high f)
    (hidle : s.lazy (2 * pos + 1) = 0) (hidle' : s.lazy (2 * pos + 2) = 0) :
    Base sumAdd (cell (pull s pos)) (pos + 1) low high f ∧
    Within (pos + 1) (cell s) (cell (pull s pos)) := by
  have hcell : ∀ j ≠ pos + 1, cell (pull s pos) j = cell s j := cell_setSum s pos _
  refine ⟨Base.join pos.succ_pos hlt hleft hright hidle hidle' ?_ hcell, .of_ne fun j hj _ _ => hcell j hj⟩
  rw [cell_left, cell_right]
  simp [pull, cell, sumAdd]

section spec

variable (hfit : Fits (size + 1) (pos + 1) low high)

include hfit

theorem lt_of_fits : pos < size := by
  obtain ⟨hlt, _, _⟩ := hfit
  exact Nat.lt_of_succ_lt_succ hlt

theorem fits_children (hlt : low < high) :
    Fits (size + 1) (2 * pos + 1 + 1) low ((low + high) / 2) ∧
    Fits (size + 1) (2 * pos + 2 + 1) ((low + high) / 2 + 1) high := by
  obtain ⟨_, hl, hr⟩ := hfit
  exact ⟨hl hlt, hr hlt⟩

theorem addAll_spec (h : Base sumAdd (cell s) (pos + 1) low high f) (delta : ℤ) :
    ∃ s', addAll size s low high pos delta = some s' ∧
    Base sumAdd (cell s') (pos + 1) low high (fun j => f j + delta) ∧ s'.lazy pos = s.lazy pos ∧
    Within (pos + 1) (cell s) (cell s') := by
  have hle := h.le
  have hcount : ((high + 1 - low : ℕ) : ℤ) = (high : ℤ) - low + 1 := by omega
  by_cases he : low = high
  · have hcell := cell_setSum s pos (s.segtree pos + delta * (high - low + 1))
    refine ⟨_, if_neg (not_not.mpr he), ?_, rfl, .of_ne fun j hj _ _ => hcell j hj⟩
    refine h.apply pos.succ_pos delta ?_ (fun hlt => absurd he hlt.ne) (fun hlt => absurd he hlt.ne)
      fun j hj _ _ => hcell j hj
    simp [cell, sumAdd, hcount]
  · have hlt : low < high := by omega
    obtain ⟨hfitl, hfitr⟩ := fits_children hfit hlt
    have hl := lt_of_fits hfitl
    have hr := lt_of_fits hfitr
    have hne : pos ≠ 2 * pos + 1 := by omega
    have hne' : pos ≠ 2 * pos + 2 := by omega
    have hcell : ∀ j, j ≠ pos + 1 → j ≠ 2 * (pos + 1) → j ≠ 2 * (pos + 1) + 1 →
        cell ⟨Function.update s.segtree pos (s.segtree pos + delta * (high - low + 1)),
          Function.update (Function.update s.lazy (2 * pos + 1) (s.lazy (2 * pos + 1) + delta)) (2 * pos + 2)
            (s.lazy (2 * pos + 2) + delta)⟩ j = cell s j := by
      rintro (_ | j) hj hj1 hj2
      · rfl
      · have h0 : j ≠ pos := by omega
        have h1 : j ≠ 2 * pos + 1 := by omega
        have h2 : j ≠ 2 * pos + 2 := by omega
        simp only [cell, update_of_ne h0, update_of_ne h1, update_of_ne h2]
    refine ⟨_, ?_, ?_, ?_, .of_ne hcell⟩
    · simp [addAll, he, guard, hl, hr]
    · refine h.apply pos.succ_pos delta ?_ (fun _ => ?_) (fun _ => ?_) hcell
      · simp [cell, sumAdd, hcount]
      · simp [cell_left, sumAdd, hne.symm]
      · simp [cell_right, sumAdd, hne'.symm]
    · simp only [update_of_ne hne, update_of_ne hne']

/-! ### `ConsTree` -/

def element (arr : List ℤ) (j : ℕ) : ℤ := arr.getD j 0

theorem consTree_spec {arr : List ℤ} (hle : low ≤ high) (hhigh : high < arr.length)
    (hlazy : ∀ j, s.lazy j = 0) (hfuel : high < low + fuel) :
    ∃ s', consTree size arr fuel s low high pos = some s' ∧
    Rep sumAdd (cell s') (pos + 1) low high (element arr) ∧ (∀ j, s'.lazy j = 0) ∧
    Within (pos + 1) (cell s) (cell s') := by
  induction fuel generalizing s pos low high with
  | zero => omega
  | succ fuel ih =>
    have hpos := lt_of_fits hfit
    by_cases he : low = high
    · subst he
      have hget : arr[low]? = some (element arr low) := by
        rw [element, List.getD_eq_getElem?_getD, List.getElem?_eq_getElem hhigh]
        rfl
      refine ⟨{ s with segtree := Function.update s.segtree pos (element arr low) }, ?_, ?_, hlazy, .of_ne ?_⟩
      · simp [consTree, guard, hpos, hget]
      · have hbase : Base sumAdd
          (cell { s with segtree := Function.update s.segtree pos (element arr low) }) (pos + 1)
            low low (element arr) :=
          ⟨le_rfl, by simp [cell,
            sumAdd], fun h => absurd h (lt_irrefl low), fun h => absurd h (lt_irrefl low)⟩
        exact hbase.rep_of_idle (hlazy pos)
      · exact fun j hj _ _ => cell_setSum s pos _ j hj
    · have hlt : low < high := by omega
      obtain ⟨hfitl, hfitr⟩ := fits_children hfit hlt
      obtain ⟨s1, hrun1, hrep1, hlazy1, hwithin1⟩ := ih hfitl (by omega) (by omega) hlazy (by omega)
      obtain ⟨s2, hrun2, hrep2, hlazy2, hwithin2⟩ := ih hfitr (by omega) hhigh hlazy1 (by omega)
      obtain ⟨hbase, hwithin⟩ :=
        pull_spec hlt (hrep1.left_of_within pos.succ_pos hwithin2) hrep2 (hlazy2 _) (hlazy2 _)
      refine ⟨pull s2 pos, ?_, hbase.rep_of_idle (hlazy2 pos), hlazy2,
        (hwithin1.of_left.trans hwithin2.of_right).trans hwithin⟩
      simp [consTree, guard, hpos, he, hrun1, hrun2, pull]

/-! ### `update` and `query` -/

variable (hrep : Rep sumAdd (cell s) (pos + 1) low high f)

include hrep

theorem pushDown_spec :
    ∃ s', pushDown size s low high pos = some s' ∧ Base sumAdd (cell s') (pos + 1) low high f ∧
    s'.lazy pos = 0 ∧ Within (pos + 1) (cell s) (cell s') := by
  have hlt := lt_of_fits hfit
  obtain ⟨g, hbase, htag⟩ := hrep.base
  by_cases hlazy : s.lazy pos = 0
  · refine ⟨s, ?_, hrep.base_of_idle hlazy, hlazy, .refl _ _⟩
    simp [pushDown, guard, hlt, hlazy]
  obtain ⟨s', hrun, hbase', _, hwithin⟩ := addAll_spec hfit hbase (s.lazy pos)
  have hcell : ∀ j ≠ pos + 1, cell { s' with lazy := Function.update s'.lazy pos 0 } j = cell s' j :=
    cell_of_ne (fun _ _ => rfl) fun j hj => update_of_ne hj ..
  refine ⟨{ s' with lazy := Function.update s'.lazy pos 0 }, ?_, ?_, update_self .., hwithin.trans ?_⟩
  · simp [pushDown, guard, hlt, hlazy, hrun]
  · exact (hbase'.frame pos.succ_pos (by rfl) hcell).congr htag
  · exact .of_ne fun j hj _ _ => hcell j hj

/-- The array after the addition of `delta` at the positions `a` to `b`. -/
def added (f : ℕ → ℤ) (a b : ℕ) (delta : ℤ) : ℕ → ℤ := fun j => if a ≤ j ∧ j ≤ b then f j + delta else f j

theorem update_spec (a b : ℕ) (delta : ℤ) (hfuel : high < low + fuel) :
    ∃ s', update size fuel s a b delta low high pos = some s' ∧
    Rep sumAdd (cell s') (pos + 1) low high (added f a b delta) ∧ s'.lazy pos = 0 ∧
    Within (pos + 1) (cell s) (cell s') := by
  induction fuel generalizing s pos low high with
  | zero =>
    have := hrep.le
    omega
  | succ fuel ih =>
    obtain ⟨s0, hpush, hbase, hidle, hwithin⟩ := pushDown_spec hfit hrep
    have hle := hbase.le
    simp only [update, if_neg (not_lt.mpr hle : ¬ low > high), hpush, Option.bind_eq_bind, Option.bind_some]
    by_cases hout : a > high ∨ b < low
    · rw [if_pos hout]
      refine ⟨s0, rfl, (hbase.rep_of_idle hidle).congr fun j hl hr => if_neg ?_, hidle, hwithin⟩
      omega
    rw [if_neg hout]
    by_cases hin : a ≤ low ∧ b ≥ high
    · rw [if_pos hin]
      obtain ⟨s', hrun, hbase', hlazy, hwithin'⟩ := addAll_spec hfit hbase delta
      have hidle' : s'.lazy pos = 0 := hlazy.trans hidle
      refine ⟨s', hrun, (hbase'.rep_of_idle hidle').congr fun j hl hr => if_pos ?_, hidle',
        hwithin.trans hwithin'⟩
      omega
    · -- both children, and then the sum of the two
      rw [if_neg hin]
      have hlt : low < high := by omega
      obtain ⟨hfitl, hfitr⟩ := fits_children hfit hlt
      obtain ⟨s1, hrun1, hrep1, hidle1, hwithin1⟩ := ih hfitl (hbase.left hlt) (by omega)
      have hright1 := (hbase.right hlt).right_of_within pos.succ_pos hwithin1
      obtain ⟨s2, hrun2, hrep2, hidle2, hwithin2⟩ := ih hfitr hright1 (by omega)
      have hleft2 : cell s2 (2 * pos + 2) = cell s1 (2 * pos + 2) :=
        hwithin2 _ fun hb => absurd hb.le (by omega)
      have htop : cell s2 (pos + 1) = cell s0 (pos + 1) :=
        hwithin2.top_right.trans (hwithin1.top_left pos.succ_pos)
      obtain ⟨hbase', hwithin'⟩ := pull_spec hlt (hrep1.left_of_within pos.succ_pos hwithin2) hrep2
        ((congrArg Prod.snd hleft2).trans hidle1) hidle2
      have hidle' : (pull s2 pos).lazy pos = 0 := (congrArg Prod.snd htop).trans hidle
      refine ⟨pull s2 pos, ?_, hbase'.rep_of_idle hidle', hidle', ?_⟩
      · rw [hrun1, Option.bind_some, hrun2]
        rfl
      · exact (hwithin.trans (hwithin1.of_left.trans hwithin2.of_right)).trans hwithin'

omit hfit hrep in
theorem sum_asked_split (f : ℕ → ℤ) (a b : ℕ) (hlt : low < high) :
    ∑ j ∈ asked low high a b, f j = ∑ j ∈ asked low ((low + high) / 2) a b,
    f j + ∑ j ∈ asked ((low + high) / 2 + 1) high a b, f j := by
  simp only [asked, sum_filter]
  exact sumAdd.total_split _ (by omega) (by omega)

theorem query_spec (rightFirst : Bool) (a b : ℕ) (hfuel : high < low + fuel) :
    ∃ s', query size rightFirst fuel s a b low high pos = some (∑ j ∈ asked low high a b, f j, s') ∧
    Rep sumAdd (cell s') (pos + 1) low high f ∧ Within (pos + 1) (cell s) (cell s') := by
  induction fuel generalizing s pos low high with
  | zero =>
    have := hrep.le
    omega
  | succ fuel ih =>
    obtain ⟨s0, hpush, hbase, hidle, hwithin⟩ := pushDown_spec hfit hrep
    have hle := hbase.le
    simp only [query, if_neg (not_lt.mpr hle : ¬ low > high), hpush, Option.bind_eq_bind, Option.bind_some]
    by_cases hout : a > high ∨ b < low
    · -- the pending addition stays where it is
      rw [if_pos hout, asked_eq_empty hout]
      exact ⟨s, rfl, hrep, .refl _ _⟩
    rw [if_neg hout]
    by_cases hin : a ≤ low ∧ b ≥ high
    · rw [if_pos hin, asked_eq_Icc hin.1 hin.2]
      have hval : s0.segtree pos = ∑ j ∈ Finset.Icc low high, f j := hbase.val
      rw [hval]
      exact ⟨s0, rfl, hbase.rep_of_idle hidle, hwithin⟩
    rw [if_neg hin]
    have hlt : low < high := by omega
    obtain ⟨hfitl, hfitr⟩ := fits_children hfit hlt
    rw [sum_asked_split f a b hlt]
    cases rightFirst with
    | false =>
      obtain ⟨s1, hrun1, hrep1, hwithin1⟩ := ih hfitl (hbase.left hlt) (by omega)
      have hright1 := (hbase.right hlt).right_of_within pos.succ_pos hwithin1
      obtain ⟨s2, hrun2, hrep2, hwithin2⟩ := ih hfitr hright1 (by omega)
      have htop := hwithin2.top_right.trans (hwithin1.top_left pos.succ_pos)
      refine ⟨s2, ?_, hbase.rep_of_top hidle htop (hrep1.left_of_within pos.succ_pos hwithin2) hrep2, ?_⟩
      · simp [hrun1, hrun2]
      · exact hwithin.trans (hwithin1.of_left.trans hwithin2.of_right)
    | true =>
      obtain ⟨s1, hrun1, hrep1, hwithin1⟩ := ih hfitr (hbase.right hlt) (by omega)
      have hleft1 := (hbase.left hlt).left_of_within pos.succ_pos hwithin1
      obtain ⟨s2, hrun2, hrep2, hwithin2⟩ := ih hfitl hleft1 (by omega)
      have htop := (hwithin2.top_left pos.succ_pos).trans hwithin1.top_right
      refine ⟨s2, ?_, hbase.rep_of_top hidle htop hrep2 (hrep1.right_of_within pos.succ_pos hwithin2), ?_⟩
      · simp [hrun1, hrun2]
      · exact hwithin.trans (hwithin1.of_right.trans hwithin2.of_left)

end spec

/-! ### Sequences of calls -/

inductive Call where
  | update (start «end» : ℕ) (delta : ℤ)
  | query (qlow qhigh : ℕ)
deriving DecidableEq, Repr

/-- The arguments of a call on an array of `n` elements. -/
def Call.InRange (n : ℕ) : Call → Prop
  | .update start «end» _ => start ≤ «end» ∧ «end» < n
  | .query qlow qhigh => qlow ≤ qhigh ∧ qhigh < n

/-- The calls from the root, with the results of the queries. -/
def calls (size : ℕ) (rightFirst : Bool) (n : ℕ) (s : Arrays) : List Call → Option (Arrays × List ℤ)
  | [] => some (s, [])
  | .update start «end» delta :: cs => do
    let s ← update size n s start «end» delta 0 (n - 1) 0
    calls size rightFirst n s cs
  | .query qlow qhigh :: cs => do
    let (q, s) ← query size rightFirst n s qlow qhigh 0 (n - 1) 0
    let (s, qs) ← calls size rightFirst n s cs
    return (s, q :: qs)

/-- What the queries should return for the array `f`. -/
def sums (f : ℕ → ℤ) : List Call → List ℤ
  | [] => []
  | .update start «end» delta :: cs => sums (added f start «end» delta) cs
  | .query qlow qhigh :: cs => (∑ j ∈ Finset.Icc qlow qhigh, f j) :: sums f cs

/-- The nodes of the tree for `n` elements have their places in the arrays. -/
def Fitting (size n : ℕ) : Prop := Fits (size + 1) 1 0 (n - 1)

theorem fitting_of_four_mul_le {n : ℕ} (hn : 0 < n) (hsize : 4 * n ≤ size + 1) :
    Fitting size n := by
  have hfit := fits_of_four_mul_le (l := 0) hn hsize
  rwa [zero_add] at hfit

theorem calls_spec {n : ℕ} (rightFirst : Bool) {cs : List Call} (hn : 0 < n) (hfit : Fitting size n)
    (hrep : Rep sumAdd (cell s) 1 0 (n - 1) f) (hcs : ∀ c ∈ cs, c.InRange n) :
    ∃ s', calls size rightFirst n s cs = some (s', sums f cs) := by
  induction cs generalizing s f with
  | nil => exact ⟨s, rfl⟩
  | cons c cs ih =>
    obtain ⟨hrange, hrest⟩ := List.forall_mem_cons.mp hcs
    have hfuel : n - 1 < 0 + n := by omega
    cases c with
    | update a b delta =>
      obtain ⟨s1, hrun, hrep1, _, _⟩ := update_spec hfit hrep a b delta hfuel
      obtain ⟨s', hcalls⟩ := ih hrep1 hrest
      exact ⟨s', by simp [calls, hrun, hcalls, sums]⟩
    | query a b =>
      obtain ⟨_, hb⟩ := hrange
      obtain ⟨s1, hrun, hrep1, _⟩ := query_spec hfit hrep rightFirst a b hfuel
      obtain ⟨s', hcalls⟩ := ih hrep1 hrest
      rw [asked_of_le a.zero_le (by omega)] at hrun
      exact ⟨s', by simp [calls, hrun, hcalls, sums]⟩

/-- After `ConsTree`, with nothing pending, every query returns the sum over the array as the
earlier additions have left it, and no access is outside the arrays. -/
theorem queries_return_sums (size n : ℕ) (hn : 1 ≤ n) (hfit : Fitting size n) (arr : List ℤ)
    (harr : arr.length = n) (junk : ℕ → ℤ) (rightFirst : Bool) (cs : List Call)
    (hcs : ∀ c ∈ cs, c.InRange n) : ∃ s s', consTree size arr n ⟨junk, fun _ => 0⟩ 0 (n - 1) 0 =
      some s ∧ calls size rightFirst n s cs = some (s', sums (element arr) cs) := by
  have hhigh : n - 1 < arr.length := by omega
  obtain ⟨s, hcons, hrep, _, _⟩ := consTree_spec (s := ⟨junk, fun _ => 0⟩) hfit (Nat.zero_le (n - 1)) hhigh
    (fun _ => rfl) (by omega : n - 1 < 0 + n)
  obtain ⟨s', hcalls⟩ := calls_spec rightFirst hn hfit hrep hcs
  exact ⟨s, s', hcons, hcalls⟩

/-- An addition that is still pending when the next query comes. -/
def threeCalls : List Call := [.update 0 2 5, .query 1 1, .update 1 2 (-2), .query 0 2]

theorem queries_return_sums_three : sums (element [1, 2, 3]) threeCalls = [7, 17] ∧
    ∃ s s', consTree MAX [1, 2, 3] 3 ⟨fun _ => 7, fun _ => 0⟩ 0 2 0 = some s ∧
      calls MAX false 3 s threeCalls = some (s', sums (element [1, 2, 3]) threeCalls) := by
  refine ⟨by decide, queries_return_sums MAX 3 (by decide) (fitting_of_four_mul_le (by decide)
    (by decide)) [1, 2, 3] rfl (fun _ => 7) false threeCalls ?_⟩
  intro c hc
  simp only [threeCalls, List.mem_cons, List.not_mem_nil, or_false] at hc
  rcases hc with rfl | rfl | rfl | rfl <;> simp [Call.InRange]

end Code365.Algorithms.SegTree
