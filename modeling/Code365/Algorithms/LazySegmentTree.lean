import Code365.Lib.LazyTree

/-! # `SegmentTree` (`algorithms/python/data_structures/binary tree/lazy_segment_tree.py`)

Range assignment and range maximum.  The arrays `st`, `lazy` and `flag` have `4 * N` entries; an
access outside them is an `IndexError` and gives `none`, as does a recursion deeper than `fuel`.
`-math.inf` is `⊥`.

The tree stands for the array as `LazyTree` says, with the assignment that `lazy` and `flag` record
as the pending change (`maxAssign`). -/

namespace Code365.Algorithms.LazySegmentTree

open Function LazyTree

structure SegmentTree where
  N : ℕ
  st : ℕ → ℤ
  lazy : ℕ → ℤ
  flag : ℕ → Bool

def SegmentTree.init (N : ℕ) : SegmentTree :=
  { N, st := fun _ => 0, lazy := fun _ => 0, flag := fun _ => false }

def left (idx : ℕ) : ℕ := idx * 2

def right (idx : ℕ) : ℕ := idx * 2 + 1

def build : ℕ → SegmentTree → ℕ → ℕ → ℕ → List ℤ → Option SegmentTree
  | 0, _, _, _, _, _ => none
  | fuel + 1, t, idx, l, r, A => do
    guard (idx < 4 * t.N)
    if l = r then
      return { t with st := Function.update t.st idx (← A[l - 1]?) }
    else
      let mid := (l + r) / 2
      let t ← build fuel t (left idx) l mid A
      let t ← build fuel t (right idx) (mid + 1) r A
      return { t with st := Function.update t.st idx (max (t.st (left idx)) (t.st (right idx))) }

/-- The children get `val` as their pending assignment. -/
def mark (t : SegmentTree) (idx : ℕ) (val : ℤ) : Option SegmentTree := do
  guard (left idx < 4 * t.N)
  guard (right idx < 4 * t.N)
  return { t with
    lazy := Function.update (Function.update t.lazy (left idx) val) (right idx) val
    flag := Function.update (Function.update t.flag (left idx) true) (right idx) true }

/-- The pending assignment of a node is made: the beginning of `update` and of `query`. -/
def pushDown (t : SegmentTree) (idx l r : ℕ) : Option SegmentTree := do
  guard (idx < 4 * t.N)
  if t.flag idx then
    let t := { t with st := Function.update t.st idx (t.lazy idx), flag := Function.update t.flag idx false }
    if l ≠ r then mark t idx (t.lazy idx) else return t
  else return t

def update : ℕ → SegmentTree → ℕ → ℕ → ℕ → ℕ → ℕ → ℤ → Option SegmentTree
  | 0, _, _, _, _, _, _, _ => none
  | fuel + 1, t, idx, l, r, a, b, val => do
    let t ← pushDown t idx l r
    if r < a ∨ l > b then return t
    else if l ≥ a ∧ r ≤ b then
      let t := { t with st := Function.update t.st idx val }
      if l ≠ r then mark t idx val else return t
    else
      let mid := (l + r) / 2
      let t ← update fuel t (left idx) l mid a b val
      let t ← update fuel t (right idx) (mid + 1) r a b val
      return { t with st := Function.update t.st idx (max (t.st (left idx)) (t.st (right idx))) }

def query : ℕ → SegmentTree → ℕ → ℕ → ℕ → ℕ → ℕ → Option (WithBot ℤ × SegmentTree)
  | 0, _, _, _, _, _, _ => none
  | fuel + 1, t, idx, l, r, a, b => do
    let t ← pushDown t idx l r
    if r < a ∨ l > b then return (⊥, t)
    else if l ≥ a ∧ r ≤ b then return ((t.st idx : WithBot ℤ), t)
    else
      let mid := (l + r) / 2
      let (q1, t) ← query fuel t (left idx) l mid a b
      let (q2, t) ← query fuel t (right idx) (mid + 1) r a b
      return (max q1 q2, t)

/-! ### The tree as a tree of pending assignments -/

/-- Maxima of segments, with assignments as the changes. -/
def maxAssign : LazyAction ℤ (WithBot ℤ) (Option ℤ) where
  total f l r := (Finset.Icc l r).sup fun j => (f j : WithBot ℤ)
  join := max
  act t a := t.getD a
  actAll t _ x := (t.map fun v => (v : WithBot ℤ)).getD x
  idle := none
  comp t t' := t.or t'
  total_congr h := Finset.sup_congr rfl fun j hj => by
    obtain ⟨hl, hr⟩ := Finset.mem_Icc.mp hj
    rw [h j hl hr]
  total_split f l m r hlm hmr := by rw [Icc_split hlm hmr, Finset.sup_union]
  total_act t f l r hlr := by
    cases t with
    | none => rfl
    | some v => exact Finset.sup_const (Finset.nonempty_Icc.mpr hlr) (v : WithBot ℤ)
  act_idle _ := rfl
  act_comp t t' a := by cases t <;> rfl

/-- The maximum and the pending assignment of a node. -/
def cell (t : SegmentTree) (i : ℕ) : WithBot ℤ × Option ℤ :=
  (t.st i, if t.flag i then some (t.lazy i) else none)

/-- Only cells of the subtree of `i` have changed. -/
structure Touched (i : ℕ) (t t' : SegmentTree) : Prop where
  size : t'.N = t.N
  cells : Within i (cell t) (cell t')

variable {t t' t'' : SegmentTree} {idx l r fuel : ℕ} {f : ℕ → ℤ}

theorem Touched.trans (h : Touched idx t t') (h' : Touched idx t' t'') : Touched idx t t'' :=
  ⟨h'.size.trans h.size, h.cells.trans h'.cells⟩

theorem Touched.children (h : Touched (2 * idx) t t') (h' : Touched (2 * idx + 1) t' t'') :
    Touched idx t t'' :=
  ⟨h'.size.trans h.size, h.cells.of_left.trans h'.cells.of_right⟩

theorem idle_iff {i : ℕ} : (cell t i).2 = none ↔ t.flag i = false := by
  unfold cell
  cases t.flag i <;> simp

theorem left_eq (idx : ℕ) : left idx = 2 * idx := mul_comm idx 2

theorem right_eq (idx : ℕ) : right idx = 2 * idx + 1 := congrArg (· + 1) (mul_comm idx 2)

theorem children_lt {size : ℕ} (hfit : Fits size idx l r) (hlt : l < r) :
    2 * idx < size ∧ 2 * idx + 1 < size := by
  obtain ⟨_, hl, hr⟩ := hfit
  obtain ⟨hleft, _, _⟩ := hl hlt
  obtain ⟨hright, _, _⟩ := hr hlt
  exact ⟨hleft, hright⟩

/-- The node itself is assigned, nothing is pending at it. -/
def assignTop (t : SegmentTree) (idx : ℕ) (val : ℤ) : SegmentTree :=
  { t with st := Function.update t.st idx val, flag := Function.update t.flag idx false }

theorem cell_assignTop_of_ne (val : ℤ) {j : ℕ} (h : j ≠ idx) :
    cell (assignTop t idx val) j = cell t j := by
  simp [cell, assignTop, h]

theorem assign_spec (hidx : 0 < idx) (hfit : Fits (4 * t.N) idx l r)
    (h : Base maxAssign (cell t) idx l r f) (val : ℤ) :
    ∃ t', (if l ≠ r then mark (assignTop t idx val) idx val else some (assignTop t idx val)) =
    some t' ∧ Base maxAssign (cell t') idx l r (fun _ => val) ∧ (cell t' idx).2 = none ∧
    Touched idx t t' := by
  have hle := h.le
  by_cases he : l = r
  · refine ⟨assignTop t idx val, if_neg (not_not.mpr he), ?_, idle_iff.mpr (update_self ..), rfl,
      .of_ne fun j hj _ _ => cell_assignTop_of_ne val hj⟩
    refine h.apply hidx (some val) ?_ (fun hlt => absurd he hlt.ne) (fun hlt =>
      absurd he hlt.ne) fun j hj _ _ => ?_
    · simp [cell, assignTop, maxAssign]
    · exact cell_assignTop_of_ne val hj
  · have hlt : l < r := by omega
    obtain ⟨hl, hr⟩ := children_lt hfit hlt
    have hne : idx ≠ 2 * idx + 1 := by omega
    refine ⟨{ assignTop t idx val with
        lazy := Function.update (Function.update t.lazy (2 * idx) val) (2 * idx + 1) val
        flag := Function.update (Function.update (Function.update t.flag idx false) (2 * idx) true)
          (2 * idx + 1) true },
      ?_, ?_, ?_, rfl, .of_ne fun j hj hj1 hj2 => ?_⟩
    · simp [he, mark, assignTop, guard, hl, hr, left_eq, right_eq]
    · refine h.apply hidx (some val) ?_ (fun _ => ?_) (fun _ => ?_) fun j hj hj1 hj2 => ?_
      · simp [cell, assignTop, maxAssign]
      · simp [cell, assignTop, maxAssign, hidx.ne']
      · simp only [cell, assignTop, maxAssign, update_self, update_of_ne hne.symm]
        rfl
      · simp [cell, assignTop, hj, hj1, hj2]
    · have hne' : idx ≠ 2 * idx := by omega
      rw [idle_iff]
      simp only [update_of_ne hne, update_of_ne hne', update_self]
    · simp [cell, assignTop, hj, hj1, hj2]

theorem pushDown_spec (hidx : 0 < idx) (hfit : Fits (4 * t.N) idx l r)
    (hrep : Rep maxAssign (cell t) idx l r f) : ∃ t', pushDown t idx l r = some t' ∧
    Base maxAssign (cell t') idx l r f ∧ (cell t' idx).2 = none ∧ Touched idx t t' := by
  have hlt : idx < 4 * t.N := by
    obtain ⟨hlt, _, _⟩ := hfit
    exact hlt
  obtain ⟨g, hbase, htag⟩ := hrep.base
  cases hflag : t.flag idx with
  | false =>
    have hidle : (cell t idx).2 = none := idle_iff.mpr hflag
    refine ⟨t, ?_, hrep.base_of_idle hidle, hidle, rfl, .refl _ _⟩
    simp [pushDown, guard, hlt, hflag]
  | true =>
    obtain ⟨t', hrun, hbase', hidle, hwithin⟩ := assign_spec hidx hfit hbase (t.lazy idx)
    refine ⟨t', ?_, hbase'.congr fun j hl hr => ?_, hidle, hwithin⟩
    · simp only [pushDown, guard, hlt, hflag, if_true]
      exact hrun
    · rw [htag j hl hr]
      simp [cell, hflag, maxAssign]

/-- `self.st[idx] = max(self.st[self.left(idx)], self.st[self.right(idx)])`. -/
def pull (t : SegmentTree) (idx : ℕ) : SegmentTree :=
  { t with st := Function.update t.st idx (max (t.st (left idx)) (t.st (right idx))) }

theorem pull_spec (hidx : 0 < idx) (hlt : l < r)
    (hleft : Rep maxAssign (cell t) (2 * idx) l ((l + r) / 2) f)
    (hright : Rep maxAssign (cell t) (2 * idx + 1) ((l + r) / 2 + 1) r f)
    (hidle : (cell t (2 * idx)).2 = none) (hidle' : (cell t (2 * idx + 1)).2 = none) :
    Base maxAssign (cell (pull t idx)) idx l r f ∧ (cell (pull t idx) idx).2 = (cell t idx).2 ∧
    Touched idx t (pull t idx) := by
  have hcell : ∀ j, j ≠ idx → cell (pull t idx) j = cell t j := fun j hj => by
    simp only [pull, cell, update_of_ne hj]
    rfl
  refine ⟨Base.join hidx hlt hleft hright hidle hidle' ?_ hcell, rfl, rfl, .of_ne fun j hj _ _ => hcell j hj⟩
  simp [pull, cell, maxAssign, left_eq, right_eq]

/-! ### `update` and `query` -/

/-- The array after the assignment of `val` to the positions `a` to `b`. -/
def assigned (f : ℕ → ℤ) (a b : ℕ) (val : ℤ) : ℕ → ℤ := fun j => if a ≤ j ∧ j ≤ b then val else f j

theorem update_spec (a b : ℕ) (val : ℤ) (hidx : 0 < idx) (hfit : Fits (4 * t.N) idx l r)
    (hrep : Rep maxAssign (cell t) idx l r f) (hfuel : r < l + fuel) : ∃ t',
    update fuel t idx l r a b val = some t' ∧ Rep maxAssign (cell t') idx l r (assigned f a b val) ∧
    (cell t' idx).2 = none ∧ Touched idx t t' := by
  induction fuel generalizing t idx l r with
  | zero =>
    have := hrep.le
    omega
  | succ fuel ih =>
    obtain ⟨t0, hpush, hbase, hidle, hwithin⟩ := pushDown_spec hidx hfit hrep
    rw [← hwithin.size] at hfit
    simp only [update, hpush, Option.bind_eq_bind, Option.bind_some]
    by_cases hout : r < a ∨ l > b
    · rw [if_pos hout]
      refine ⟨t0, rfl, (hbase.rep_of_idle hidle).congr fun j hl hr => if_neg ?_, hidle, hwithin⟩
      omega
    rw [if_neg hout]
    by_cases hin : l ≥ a ∧ r ≤ b
    · rw [if_pos hin]
      obtain ⟨t', hrun, hbase', hidle', hwithin'⟩ := assign_spec hidx hfit hbase val
      have htop : { t0 with st := Function.update t0.st idx val } = assignTop t0 idx val := by
        rw [assignTop, ← idle_iff.mp hidle, update_eq_self]
      rw [htop]
      refine ⟨t', hrun, (hbase'.rep_of_idle hidle').congr fun j hl hr => if_pos ?_, hidle',
        hwithin.trans hwithin'⟩
      omega
    · -- both children, and then the maximum of the two
      rw [if_neg hin]
      have hlt : l < r := by omega
      obtain ⟨_, hfitl, hfitr⟩ := hfit
      obtain ⟨t1, hrun1, hrep1, hidle1, hwithin1⟩ := ih (by omega) (hfitl hlt) (hbase.left hlt) (by omega)
      have hfitr := hfitr hlt
      rw [← hwithin1.size] at hfitr
      have hright1 := (hbase.right hlt).right_of_within hidx hwithin1.cells
      obtain ⟨t2, hrun2, hrep2, hidle2, hwithin2⟩ := ih (by omega) hfitr hright1 (by omega)
      have hleft2 : cell t2 (2 * idx) = cell t1 (2 * idx) := hwithin2.cells _ fun hb => absurd hb.le (by omega)
      rw [← hleft2] at hidle1
      obtain ⟨hbase', hidle', hwithin'⟩ :=
        pull_spec hidx hlt (hrep1.left_of_within hidx hwithin2.cells) hrep2 hidle1 hidle2
      have htop : cell t2 idx = cell t0 idx := hwithin2.cells.top_right.trans (hwithin1.cells.top_left hidx)
      rw [htop, hidle] at hidle'
      refine ⟨pull t2 idx, ?_, hbase'.rep_of_idle hidle', hidle', ?_⟩
      · rw [left_eq, right_eq, hrun1, Option.bind_some, hrun2, Option.bind_some]
        simp [pull, left_eq, right_eq]
      · exact (hwithin.trans (hwithin1.children hwithin2)).trans hwithin'

theorem query_spec (a b : ℕ) (hidx : 0 < idx) (hfit : Fits (4 * t.N) idx l r)
    (hrep : Rep maxAssign (cell t) idx l r f) (hfuel : r < l + fuel) :
    ∃ t', query fuel t idx l r a b = some ((asked l r a b).sup fun j => (f j : WithBot ℤ), t') ∧
    Rep maxAssign (cell t') idx l r f ∧ Touched idx t t' := by
  induction fuel generalizing t idx l r with
  | zero =>
    have := hrep.le
    omega
  | succ fuel ih =>
    obtain ⟨t0, hpush, hbase, hidle, hwithin⟩ := pushDown_spec hidx hfit hrep
    rw [← hwithin.size] at hfit
    simp only [query, hpush, Option.bind_eq_bind, Option.bind_some]
    by_cases hout : r < a ∨ l > b
    · rw [if_pos hout, asked_eq_empty hout]
      exact ⟨t0, rfl, hbase.rep_of_idle hidle, hwithin⟩
    rw [if_neg hout]
    by_cases hin : l ≥ a ∧ r ≤ b
    · rw [if_pos hin, asked_eq_Icc hin.1 hin.2]
      refine ⟨t0, ?_, hbase.rep_of_idle hidle, hwithin⟩
      have hval : (t0.st idx : WithBot ℤ) = (Finset.Icc l r).sup fun j => (f j : WithBot ℤ) := hbase.val
      rw [hval]
      rfl
    · rw [if_neg hin]
      have hlt : l < r := by omega
      obtain ⟨_, hfitl, hfitr⟩ := hfit
      obtain ⟨t1, hrun1, hrep1, hwithin1⟩ := ih (by omega) (hfitl hlt) (hbase.left hlt) (by omega)
      have hfitr := hfitr hlt
      rw [← hwithin1.size] at hfitr
      have hright1 := (hbase.right hlt).right_of_within hidx hwithin1.cells
      obtain ⟨t2, hrun2, hrep2, hwithin2⟩ := ih (by omega) hfitr hright1 (by omega)
      have htop : cell t2 idx = cell t0 idx := hwithin2.cells.top_right.trans (hwithin1.cells.top_left hidx)
      refine ⟨t2, ?_, hbase.rep_of_top hidle htop (hrep1.left_of_within hidx hwithin2.cells) hrep2,
        hwithin.trans (hwithin1.children hwithin2)⟩
      rw [left_eq, right_eq, hrun1, Option.bind_some, hrun2, Option.bind_some,
        asked_split (by omega : l ≤ (l + r) / 2) (by omega : _ < r), Finset.sup_union]
      rfl

/-! ### `build` -/

/-- The array in the positions from 1. -/
def element (A : List ℤ) (j : ℕ) : ℤ := A.getD (j - 1) 0

theorem build_spec {A : List ℤ} (hidx : 0 < idx) (hle : l ≤ r) (hl : 0 < l) (hr : r ≤ A.length)
    (hfit : Fits (4 * t.N) idx l r) (hflag : ∀ j, t.flag j = false) (hfuel : r < l + fuel) :
    ∃ t', build fuel t idx l r A = some t' ∧ Rep maxAssign (cell t') idx l r (element A) ∧
    (∀ j, t'.flag j = false) ∧ Touched idx t t' := by
  induction fuel generalizing t idx l r with
  | zero => omega
  | succ fuel ih =>
    obtain ⟨hlt, hfitl, hfitr⟩ := hfit
    by_cases he : l = r
    · subst he
      have hget : A[l - 1]? = some (element A l) := by
        rw [element, List.getD_eq_getElem?_getD, List.getElem?_eq_getElem (by omega)]
        rfl
      refine ⟨{ t with st := Function.update t.st idx (element A l) }, ?_, ?_, hflag, rfl,
        .of_ne fun j hj _ _ => ?_⟩
      · simp [build, guard, hlt, hget]
      · refine .intro (element A) le_rfl ?_ (fun h => absurd h (lt_irrefl l)) (fun h =>
          absurd h (lt_irrefl l)) ?_
        · simp [cell, maxAssign]
        · simp [cell, hflag, maxAssign]
      · simp [cell, hj]
    · have hlt' : l < r := by omega
      obtain ⟨t1, hrun1, hrep1, hflag1, hwithin1⟩ :=
        ih (by omega) (by omega) hl (by omega) (hfitl hlt') hflag (by omega)
      have hfitr := hfitr hlt'
      rw [← hwithin1.size] at hfitr
      obtain ⟨t2, hrun2, hrep2, hflag2, hwithin2⟩ :=
        ih (by omega) (by omega) (by omega) hr hfitr hflag1 (by omega)
      obtain ⟨hbase, hidle, hwithin⟩ := pull_spec hidx hlt'
        (hrep1.left_of_within hidx hwithin2.cells) hrep2 (idle_iff.mpr (hflag2 _))
        (idle_iff.mpr (hflag2 _))
      refine ⟨pull t2 idx, ?_, hbase.rep_of_idle (hidle.trans (idle_iff.mpr (hflag2 _))), hflag2,
        (hwithin1.children hwithin2).trans hwithin⟩
      simp [build, guard, hlt, he, left_eq, right_eq, hrun1, hrun2, pull]

/-! ### Sequences of calls -/

inductive Call where
  | update (a b : ℕ) (v : ℤ)
  | query (a b : ℕ)
deriving DecidableEq, Repr

/-- The arguments of a call on an array of `N` elements. -/
def Call.InRange (N : ℕ) : Call → Prop
  | .update a b _ => 1 ≤ a ∧ a ≤ b ∧ b ≤ N
  | .query a b => 1 ≤ a ∧ a ≤ b ∧ b ≤ N

/-- The calls from the root, with the results of the queries. -/
def calls (t : SegmentTree) : List Call → Option (SegmentTree × List (WithBot ℤ))
  | [] => some (t, [])
  | .update a b v :: cs => do
    let t ← update t.N t 1 1 t.N a b v
    calls t cs
  | .query a b :: cs => do
    let (q, t) ← query t.N t 1 1 t.N a b
    let (t, qs) ← calls t cs
    return (t, q :: qs)

/-- What the queries should return, for the array `f` in the positions from 1. -/
def maxima (f : ℕ → ℤ) : List Call → List (WithBot ℤ)
  | [] => []
  | .update a b v :: cs => maxima (assigned f a b v) cs
  | .query a b :: cs => ((Finset.Icc a b).sup fun j => (f j : WithBot ℤ)) :: maxima f cs

theorem calls_spec {cs : List Call} (hN : 0 < t.N) (hrep : Rep maxAssign (cell t) 1 1 t.N f)
    (hcs : ∀ c ∈ cs, c.InRange t.N) : ∃ t', calls t cs = some (t', maxima f cs) := by
  induction cs generalizing t f with
  | nil => exact ⟨t, rfl⟩
  | cons c cs ih =>
    obtain ⟨hrange, hrest⟩ := List.forall_mem_cons.mp hcs
    have hfit : Fits (4 * t.N) 1 1 t.N := by simpa using fits_of_four_mul_le (l := 1) hN le_rfl
    cases c with
    | update a b v =>
      obtain ⟨t1, hrun, hrep1, _, hwithin⟩ :=
        update_spec a b v Nat.one_pos hfit hrep (by omega : t.N < 1 + t.N)
      rw [← hwithin.size] at hN hrest hrep1
      obtain ⟨t', hcalls⟩ := ih hN hrep1 hrest
      exact ⟨t', by simp [calls, hrun, hcalls, maxima]⟩
    | query a b =>
      obtain ⟨ha, hab, hb⟩ := hrange
      obtain ⟨t1, hrun, hrep1, hwithin⟩ := query_spec a b Nat.one_pos hfit hrep (by omega : t.N < 1 + t.N)
      rw [← hwithin.size] at hN hrest hrep1
      obtain ⟨t', hcalls⟩ := ih hN hrep1 hrest
      rw [asked_of_le ha hb] at hrun
      exact ⟨t', by simp [calls, hrun, hcalls, maxima]⟩

/-- After `build` every query returns the maximum of the array as the earlier updates have left it,
and no index is outside the arrays. -/
theorem queries_return_maxima (N : ℕ) (hN : 1 ≤ N) (A : List ℤ) (hA : A.length = N) (cs : List Call)
    (hcs : ∀ c ∈ cs, c.InRange N) : ∃ t t', build N (.init N) 1 1 N A = some t ∧
      calls t cs = some (t', maxima (element A) cs) := by
  have hfit : Fits (4 * N) 1 1 N := by simpa using fits_of_four_mul_le (l := 1) hN le_rfl
  obtain ⟨t, hbuild, hrep, _, hwithin⟩ := build_spec (t := .init N) Nat.one_pos hN Nat.one_pos hA.ge hfit
    (fun _ => rfl) (by omega : N < 1 + N)
  have hsize : t.N = N := hwithin.size
  subst hsize
  obtain ⟨t', hcalls⟩ := calls_spec hN hrep hcs
  exact ⟨t, t', hbuild, hcalls⟩

theorem queries_return_maxima_two :
    ∃ t t', build 2 (.init 2) 1 1 2 [3, -1] = some t ∧ calls t [.update 2 2 7, .query 1 2] =
      some (t', maxima (element [3, -1]) [.update 2 2 7, .query 1 2]) :=
  queries_return_maxima 2 (by decide) [3, -1] rfl _ (by simp [Call.InRange])

end Code365.Algorithms.LazySegmentTree
