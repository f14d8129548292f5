import Code365.Lib.BinaryHeap

/-! # `genericheap` (`algorithms/java/Compression/src/genericheap.java`)

A binary heap in an `ArrayList`.  `none` is an `IndexOutOfBoundsException`, or that the depth of the
recursion exceeds `fuel`.  If the comparator compares keys, so that a smaller key is a higher
priority, then `add` and `removeHP` return, keep the elements and the heap order
(`BinaryHeap.Ordered`), and `removeHP` returns an element with the least key (`add_spec`,
`removeHP_spec`).  An index past the end counts as a key that is greater than all others. -/

namespace Code365.Algorithms.GenericHeap

open List BinaryHeap

variable {α : Type} (ctor : α → α → ℤ)

def isLarger (data : List α) (i j : ℕ) : Option Bool := do
  let ith ← data[i]?
  let jth ← data[j]?
  return decide (0 < ctor ith jth)

def swap (data : List α) (ci pi : ℕ) : Option (List α) := do
  let ith ← data[ci]?
  let jth ← data[pi]?
  return (data.set ci jth).set pi ith

def upheapify : ℕ → List α → ℕ → Option (List α)
  | 0, _, _ => none
  | fuel + 1, data, ci =>
    if ci = 0 then some data
    else do
      let pi := (ci - 1) / 2
      if ← isLarger ctor data ci pi then upheapify fuel (← swap data ci pi) pi else return data

def add (data : List α) (x : α) : Option (List α) :=
  upheapify ctor (data.length + 1) (data ++ [x]) data.length

/-- The child `ci`, if there is one and it is larger than the element at `max`; else `max`. -/
def larger (data : List α) (ci max : ℕ) : Option ℕ :=
  if ci < data.length then (isLarger ctor data ci max).map fun b => if b then ci else max else some max

def downheapify : ℕ → List α → ℕ → Option (List α)
  | 0, _, _ => none
  | fuel + 1, data, pi => do
    let max ← larger ctor data (2 * pi + 1) pi
    let max ← larger ctor data (2 * pi + 2) max
    if max ≠ pi then downheapify fuel (← swap data pi max) max else return data

def removeHP (data : List α) : Option (α × List α) := do
  let data ← swap data 0 (data.length - 1)
  let rv ← data[data.length - 1]?
  let data ← downheapify ctor data.length (data.eraseIdx (data.length - 1)) 0
  return (rv, data)

/-! ### The keys of the elements -/

variable {K : Type*} (key : α → K)

def keys (data : List α) (i : ℕ) : WithTop K := (data[i]?).elim ⊤ fun x => (key x : WithTop K)

variable {ctor} {key} {data data' : List α} {i j fuel : ℕ}

theorem keys_of_lt (hi : i < data.length) : keys key data i = (key data[i] : WithTop K) := by
  rw [keys, getElem?_eq_getElem hi]
  rfl

theorem keys_of_ge (hi : data.length ≤ i) : keys key data i = ⊤ := by
  rw [keys, getElem?_eq_none hi]
  rfl

theorem swap_perm (hi : i < data.length) (hj : j < data.length) :
    ∃ data', swap data i j = some data' ∧ data'.Perm data := by
  refine ⟨(data.set i data[j]).set j data[i], ?_, set_set_perm hi hj⟩
  simp [swap, getElem?_eq_getElem hi, getElem?_eq_getElem hj]

theorem keys_swap (hi : i < data.length) (hj : j < data.length) (h : swap data i j = some data') :
    keys key data' = keys key data ∘ Equiv.swap i j := by
  obtain rfl : (data.set i data[j]).set j data[i] = data' := by
    simpa [swap, getElem?_eq_getElem hi, getElem?_eq_getElem hj] using h
  funext l
  simp only [keys, Function.comp_apply, getElem?_set]
  by_cases hlj : l = j
  · subst hlj
    rw [Equiv.swap_apply_right, if_pos rfl, length_set, if_pos hj, getElem?_eq_getElem hi]
  · by_cases hli : l = i
    · subst hli
      rw [Equiv.swap_apply_left, if_neg (Ne.symm hlj), if_pos rfl, if_pos hi, getElem?_eq_getElem hj]
    · rw [Equiv.swap_apply_of_ne_of_ne hli hlj, if_neg (Ne.symm hlj), if_neg (Ne.symm hli)]

variable [LinearOrder K]

/-- The comparator compares keys; the element with the smaller key comes first. -/
def Compares (ctor : α → α → ℤ) (key : α → K) : Prop := ∀ a b, 0 < ctor a b ↔ key a < key b

theorem downheapify_nil (ctor : α → α → ℤ) (h : 0 < fuel) :
    downheapify ctor fuel [] 0 = some [] := by
  obtain ⟨fuel, rfl⟩ : ∃ m, fuel = m + 1 := ⟨fuel - 1, by omega⟩
  rfl

theorem ordered_nil : Ordered (keys key ([] : List α)) := by
  intro j _
  exact le_top

/-- With a new element at the end only its order to its parent may be broken. -/
theorem up_append (hdata : Ordered (keys key data)) (x : α) :
    Up (keys key (data ++ [x])) data.length := by
  refine ⟨fun j hj hne => ?_, fun _ j _ hjl => ?_⟩
  · rcases lt_or_ge j data.length with hlt | hge
    · have hold : ∀ l < data.length, keys key (data ++ [x]) l = keys key data l := by
        intro l hl
        rw [keys, getElem?_append_left hl, keys]
      rw [hold j hlt, hold _ (by omega)]
      exact hdata j hj
    · rw [keys_of_ge (i := j) (by simp; omega)]
      exact le_top
  · rw [keys_of_ge (i := j) (by simp; omega)]
    exact le_top

/-- Without the last element, and with the first one replaced by it, only the order below the root
may be broken. -/
theorem down_dropLast {data1 : List α} (hdata : Ordered (keys key data))
    (hkeys : keys key data1 = keys key data ∘ Equiv.swap 0 (data.length - 1))
    (hlen : data1.length = data.length) : Down (keys key (data1.eraseIdx (data.length - 1))) 0 := by
  refine ⟨fun j hj hpar => ?_, fun h => absurd h (lt_irrefl 0)⟩
  rcases lt_or_ge j (data.length - 1) with hlt | hge
  · have hold : ∀ l, 0 < l → l < data.length - 1 →
        keys key (data1.eraseIdx (data.length - 1)) l = keys key data l := by
      intro l hl0 hl
      have hl' : keys key data1 l = keys key data l := by
        rw [hkeys, Function.comp_apply, Equiv.swap_apply_of_ne_of_ne hl0.ne' hl.ne]
      rw [← hl', keys, getElem?_eraseIdx_of_lt hl, keys]
    rw [hold j hj hlt, hold _ (Nat.pos_of_ne_zero hpar) (by omega)]
    exact hdata j hj
  · have hlen' : (data1.eraseIdx (data.length - 1)).length ≤ j := by
      rw [length_eraseIdx]
      split_ifs <;> omega
    rw [keys_of_ge hlen']
    exact le_top

/-! ### The operations keep the order -/

section order

variable (hctor : Compares ctor key)

include hctor

theorem isLarger_eq (hi : i < data.length) (hj : j < data.length) :
    isLarger ctor data i j = some (decide (keys key data i < keys key data j)) := by
  have hlt : 0 < ctor data[i] data[j] ↔ keys key data i < keys key data j := by
    rw [keys_of_lt hi, keys_of_lt hj, WithTop.coe_lt_coe]
    exact hctor _ _
  simp [isLarger, getElem?_eq_getElem hi, getElem?_eq_getElem hj, hlt]

theorem larger_spec (ci : ℕ) {max : ℕ} (hmax : max < data.length) : ∃ m, larger ctor data ci max =
    some m ∧ m < data.length ∧ (m = max ∨ m = ci ∧ keys key data m < keys key data max) ∧
    keys key data m ≤ keys key data max ∧ keys key data m ≤ keys key data ci := by
  unfold larger
  by_cases hci : ci < data.length
  · rw [if_pos hci, isLarger_eq hctor hci hmax]
    by_cases hlt : keys key data ci < keys key data max
    · exact ⟨ci, by simp [hlt], hci, .inr ⟨rfl, hlt⟩, hlt.le, le_rfl⟩
    · exact ⟨max, by simp [hlt], hmax, .inl rfl, le_rfl, not_lt.mp hlt⟩
  · have htop : keys key data ci = ⊤ := keys_of_ge (not_lt.mp hci)
    exact ⟨max, if_neg hci, hmax, .inl rfl, le_rfl, htop ▸ le_top⟩

theorem upheapify_spec (hi : i < data.length) (hfuel : i < fuel) (hup : Up (keys key data) i) :
    ∃ data', upheapify ctor fuel data i = some data' ∧ data'.Perm data ∧
    Ordered (keys key data') := by
  induction fuel generalizing data i with
  | zero => omega
  | succ fuel ih =>
    unfold upheapify
    by_cases h0 : i = 0
    · exact ⟨data, if_pos h0, .refl _, hup.ordered fun hi => absurd h0 hi.ne'⟩
    rw [if_neg h0]
    have hpi : (i - 1) / 2 < data.length := by omega
    by_cases hlt : keys key data i < keys key data ((i - 1) / 2)
    · obtain ⟨data1, hswap, hperm1⟩ := swap_perm hi hpi
      have hup1 : Up (keys key data1) ((i - 1) / 2) := by
        rw [keys_swap hi hpi hswap]
        exact hup.swap (Nat.pos_of_ne_zero h0) hlt
      obtain ⟨data', hrun, hperm, hord⟩ := ih (by rwa [hperm1.length_eq]) (by omega) hup1
      exact ⟨data', by simp [isLarger_eq hctor hi hpi, hlt, hswap, hrun], hperm.trans hperm1, hord⟩
    · exact ⟨data, by simp [isLarger_eq hctor hi hpi, hlt], .refl _, hup.ordered fun _ => not_lt.mp hlt⟩

theorem add_spec (hdata : Ordered (keys key data)) (x : α) :
    ∃ data', add ctor data x = some data' ∧ data'.Perm (x :: data) ∧ Ordered (keys key data') := by
  have hlast : data.length < (data ++ [x]).length := by simp
  obtain ⟨data', hrun, hperm, hord⟩ := upheapify_spec hctor hlast (Nat.lt_succ_self _) (up_append hdata x)
  exact ⟨data', hrun, hperm.trans (perm_append_singleton x data), hord⟩

theorem max_eq (hi : i < data.length) : ∃ m max, larger ctor data (2 * i + 1) i = some m ∧
    larger ctor data (2 * i + 2) m = some max ∧ max < data.length ∧
    (max = i ∨ (max = 2 * i + 1 ∨ max = 2 * i + 2) ∧ keys key data max < keys key data i) ∧
    ∀ j, 0 < j → (j - 1) / 2 = i → keys key data max ≤ keys key data j := by
  obtain ⟨m, hm, hmlen, hmi, hmle, hleft⟩ := larger_spec hctor (2 * i + 1) hi
  obtain ⟨max, hmax, hlen, hmaxm, hle, hright⟩ := larger_spec hctor (2 * i + 2) hmlen
  refine ⟨m, max, hm, hmax, hlen, ?_, fun j hj hji => ?_⟩
  · rcases hmaxm with rfl | ⟨rfl, hlt⟩
    · exact hmi.imp_right (And.imp_left .inl)
    · exact .inr ⟨.inr rfl, lt_of_lt_of_le hlt hmle⟩
  · obtain rfl | rfl : j = 2 * i + 1 ∨ j = 2 * i + 2 := by omega
    · exact hle.trans hleft
    · exact hright

theorem downheapify_spec (hi : i < data.length) (hfuel : data.length ≤ fuel + i)
    (hdown : Down (keys key data) i) : ∃ data', downheapify ctor fuel data i = some data' ∧
    data'.Perm data ∧ Ordered (keys key data') := by
  induction fuel generalizing data i with
  | zero => omega
  | succ fuel ih =>
    obtain ⟨m, max, hm, hmax, hlen, hchoice, hmin⟩ := max_eq hctor hi
    by_cases he : max = i
    · exact ⟨data, by simp [downheapify, hm, hmax, he], .refl _, hdown.ordered (he ▸ hmin)⟩
    obtain ⟨hchild, hlt⟩ := hchoice.resolve_left he
    obtain ⟨data1, hswap, hperm1⟩ := swap_perm hi hlen
    have hdown1 : Down (keys key data1) max := by
      rw [keys_swap hi hlen hswap]
      exact hdown.swap (by omega) (by omega) hlt hmin
    rw [← hperm1.length_eq] at hlen hfuel
    obtain ⟨data', hrun, hperm, hord⟩ := ih hlen (by omega) hdown1
    exact ⟨data', by simp [downheapify, hm, hmax, he, hswap, hrun], hperm.trans hperm1, hord⟩

/-- The heap stays in order, and the element that is removed has the least key. -/
theorem removeHP_spec (hdata : Ordered (keys key data)) (hne : data ≠ []) :
    ∃ x data', removeHP ctor data = some (x, data') ∧ (x :: data').Perm data ∧
    Ordered (keys key data') ∧ ∀ y ∈ data, key x ≤ key y := by
  have hpos : 0 < data.length := length_pos_of_ne_nil hne
  obtain ⟨data1, hswap, hperm1⟩ := swap_perm hpos (show data.length - 1 < data.length by omega)
  have hkeys : keys key data1 = keys key data ∘ Equiv.swap 0 (data.length - 1) :=
    keys_swap hpos (by omega) hswap
  have hdown := down_dropLast hdata hkeys hperm1.length_eq
  rw [← hperm1.length_eq] at hpos hdown hkeys
  have hlast : data1.length - 1 < data1.length := by omega
  have hrun : ∃ data', downheapify ctor data1.length (data1.eraseIdx (data1.length - 1)) 0 = some data' ∧
      data'.Perm (data1.eraseIdx (data1.length - 1)) ∧ Ordered (keys key data') := by
    by_cases hnil : data1.eraseIdx (data1.length - 1) = []
    · rw [hnil]
      exact ⟨[], downheapify_nil ctor hpos, .refl _, ordered_nil⟩
    · have hlen := length_eraseIdx_of_lt hlast
      exact downheapify_spec hctor (length_pos_of_ne_nil hnil) (by omega) hdown
  obtain ⟨data', hrun, hperm, hord⟩ := hrun
  refine ⟨data1[data1.length - 1], data', ?_, ?_, hord, fun y hy => ?_⟩
  · simp [removeHP, hswap, getElem?_eq_getElem hlast, hrun, -eraseIdx_length_sub_one]
  · exact ((hperm.cons _).trans (getElem_cons_eraseIdx_perm hlast)).trans hperm1
  · -- the element removed was at the root
    have hroot : (key data1[data1.length - 1] : WithTop K) = keys key data 0 := by
      rw [← keys_of_lt hlast, hkeys, Function.comp_apply, Equiv.swap_apply_right]
    obtain ⟨l, hl, rfl⟩ := getElem_of_mem hy
    rw [← WithTop.coe_le_coe, hroot, ← keys_of_lt hl]
    exact hdata.root_le l

end order

end Code365.Algorithms.GenericHeap
