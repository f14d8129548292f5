import Code365.Lib.Slots
import Code365.Lib.While

/-! # `HashTable` (`algorithms/python/data_structures/hashing/hash_table.py`)

A table of integers with linear probing.  The list `values` always has `size_table` entries, so it
is a function on the slots here, and a slot is never out of range.  Loops and recursions have a
bound `fuel`, and `none` is a loop that goes on longer.

`rehashing` ends with `map(self.insert_data, survivor_values)`; the iterator that `map` returns is
not used, so nothing is inserted.  The condition of the probing loop compares the value in the slot
with the slot `key` of the new data, not with the data.  `Clean` says which calls nevertheless leave
the right values. -/

namespace Code365.Algorithms

/-! ### `prime_numbers.py` -/

/-- `check_prime`; `False` is `0` and `True` is `1`. -/
def checkPrime (number : ℕ) : ℕ :=
  if number = 0 ∨ number = 1 then 2
  else if number = 2 then 3
  else if (List.range' 2 (number - 2)).all fun i => number % i ≠ 0 then 1
  else 0

/-- The loop of `next_prime`. -/
def seekPrime : ℕ → ℕ → Option ℕ
  | 0, _ => none
  | fuel + 1, value => if checkPrime value = 0 then seekPrime fuel (value + 1) else some value

/-- `next_prime`, upwards. -/
def nextPrime : ℕ → ℕ → ℕ → Option ℕ
  | 0, _, _ => none
  | fuel + 1, value, factor => do
    let firstValueVal := factor * value
    let value ← seekPrime fuel firstValueVal
    if value = firstValueVal then nextPrime fuel (value + 1) 1 else return value

theorem seekPrime_some :
    ∀ {fuel value p : ℕ}, seekPrime fuel value = some p → value ≤ p ∧ checkPrime p ≠ 0
  | fuel + 1, value, p, h => by
    rw [seekPrime] at h
    split_ifs at h with hc
    · obtain ⟨hle, hp⟩ := seekPrime_some h
      exact ⟨by omega, hp⟩
    · cases h
      exact ⟨le_rfl, hc⟩

theorem le_nextPrime :
    ∀ {fuel value factor p : ℕ}, nextPrime fuel value factor = some p → factor * value ≤ p
  | fuel + 1, value, factor, p, h => by
    obtain ⟨q, hq, hrest⟩ := Option.bind_eq_some_iff.mp h
    obtain ⟨hle, _⟩ := seekPrime_some hq
    split_ifs at hrest with he
    · have := le_nextPrime hrest
      omega
    · obtain rfl : q = p := Option.some.inj hrest
      exact hle

theorem checkPrime_ne_zero {p : ℕ} (hp : p.Prime) : checkPrime p ≠ 0 := by
  have hall : ((List.range' 2 (p - 2)).all fun i => p % i ≠ 0) = true := by
    rw [List.all_eq_true]
    intro i hi
    obtain ⟨hi1, hi2⟩ := List.mem_range'_1.mp hi
    simp only [ne_eq, decide_eq_true_eq]
    intro hmod
    rcases (Nat.dvd_prime hp).mp (Nat.dvd_of_mod_eq_zero hmod) with h | h
    · omega
    · omega
  unfold checkPrime
  split_ifs <;> decide

theorem seekPrime_spec {p : ℕ} (hp : p.Prime) : ∀ {fuel value : ℕ}, value ≤ p → p < value + fuel →
    ∃ q, seekPrime fuel value = some q
  | 0, _, hle, hlt => absurd hlt (by omega)
  | fuel + 1, value, hle, hlt => by
    rw [seekPrime]
    split_ifs with hc
    · have hne : value ≠ p := by
        rintro rfl
        exact checkPrime_ne_zero hp hc
      exact seekPrime_spec hp (by omega) (by omega)
    · exact ⟨value, rfl⟩

theorem checkPrime_double {n : ℕ} (hn : 2 ≤ n) : checkPrime (2 * n) = 0 := by
  have hall : ¬ ((List.range' 2 (2 * n - 2)).all fun i => 2 * n % i ≠ 0) = true := by
    rw [List.all_eq_true]
    intro hall
    have := hall 2 (List.mem_range'_1.mpr ⟨le_rfl, by omega⟩)
    simp at this
  rw [checkPrime, if_neg (by omega), if_neg (by omega), if_neg hall]

theorem nextPrime_spec {n : ℕ} (hn : 0 < n) : ∃ p, nextPrime (4 * n + 8) n 2 = some p := by
  rcases lt_or_ge n 2 with h | h
  · obtain rfl : n = 1 := by omega
    exact ⟨5, by decide⟩
  obtain ⟨p, hp, hlt, hle⟩ := Nat.exists_prime_lt_and_le_two_mul (2 * n) (by omega)
  obtain ⟨q, hq⟩ := seekPrime_spec hp hlt.le (by omega : p < 2 * n + (4 * n + 7))
  have hne : q ≠ 2 * n := by
    rintro rfl
    exact (seekPrime_some hq).2 (checkPrime_double h)
  rw [nextPrime, hq]
  simp [hne]

/-! ### The table -/

structure HashTable where
  sizeTable : ℕ
  pos : 0 < sizeTable
  values : Fin sizeTable → Option ℕ

namespace HashTable

open Option Slots

def init (sizeTable : ℕ) (pos : 0 < sizeTable) : HashTable := { sizeTable, pos, values := fun _ => none }

def hashFunction (t : HashTable) (key : ℕ) : Fin t.sizeTable := ⟨key % t.sizeTable, Nat.mod_lt _ t.pos⟩

def setValue (t : HashTable) (key : Fin t.sizeTable) (data : ℕ) : HashTable :=
  { t with values := Function.update t.values key (some data) }

/-- The loop of `_colision_resolution`. -/
def probe (t : HashTable) (key : Fin t.sizeTable) : ℕ → Fin t.sizeTable → Option (Option (Fin t.sizeTable))
  | 0, _ => none
  | fuel + 1, newKey =>
    if t.values newKey ≠ none ∧ t.values newKey ≠ some key.val then
      if ∃ slot, t.values slot = none then probe t key fuel (t.hashFunction (newKey + 1))
      else some none
    else some (some newKey)

def colisionResolution (t : HashTable) (key : Fin t.sizeTable) : Option (Option (Fin t.sizeTable)) :=
  probe t key (t.sizeTable + 1) (t.hashFunction (key + 1))

def rehashing (t : HashTable) : Option HashTable :=
  match h : nextPrime (4 * t.sizeTable + 8) t.sizeTable 2 with
  | none => none
  | some p => some (init p (lt_of_lt_of_le (Nat.mul_pos Nat.two_pos t.pos) (le_nextPrime h)))

def insertData : ℕ → HashTable → ℕ → Option HashTable
  | 0, _, _ => none
  | fuel + 1, t, data =>
    let key := t.hashFunction data
    if t.values key = none then some (t.setValue key data)
    else if t.values key = some data then some t
    else do
      match ← t.colisionResolution key with
      | some newKey => return t.setValue newKey data
      | none => insertData fuel (← t.rehashing) data

/-- A call of `insert_data`; after `rehashing` it calls itself once more. -/
def insert (t : HashTable) (data : ℕ) : Option HashTable := insertData 2 t data

/-! ### Probing -/

variable {t t' : HashTable} {data : ℕ}

theorem probe_spec {key : Fin t.sizeTable} : ∀ {fuel m : ℕ} {newKey empty : Fin t.sizeTable},
    t.values empty = none → (newKey + m) % t.sizeTable = empty → m < fuel →
      ∃ slot, probe t key fuel newKey = some (some slot)
  | fuel + 1, m, newKey, empty, hempty, hm, hlt => by
    rw [probe]
    split_ifs with hstop hex
    · obtain _ | m := m
      · rw [add_zero, Nat.mod_eq_of_lt newKey.isLt] at hm
        obtain rfl := Fin.ext hm
        exact absurd hempty hstop.1
      · refine probe_spec hempty (m := m) ?_ (by omega)
        rw [← hm, hashFunction, Nat.mod_add_mod]
        congr 1
        omega
    · exact absurd ⟨empty, hempty⟩ hex
    · exact ⟨newKey, rfl⟩

theorem colisionResolution_of_empty {empty : Fin t.sizeTable} (hempty : t.values empty = none)
    (key : Fin t.sizeTable) : ∃ slot, t.colisionResolution key = some (some slot) := by
  have hpos := t.pos
  have hlt := empty.isLt
  apply probe_spec hempty
  · rw [Nat.add_mod_mod, (by omega : (t.hashFunction (key + 1) : ℕ) + (empty + t.sizeTable -
      t.hashFunction (key + 1)) = empty + t.sizeTable), Nat.add_mod_right, Nat.mod_eq_of_lt hlt]
  · exact (Nat.mod_lt _ hpos).trans (Nat.lt_succ_self _)

theorem colisionResolution_of_full (hfull : ¬ ∃ slot, t.values slot = none)
    (key : Fin t.sizeTable) : ∃ o, t.colisionResolution key = some o := by
  rw [colisionResolution, probe]
  split_ifs
  · exact ⟨none, rfl⟩
  · exact ⟨_, rfl⟩

/-! ### What a call does -/

theorem setValue_eq_self {key : Fin t.sizeTable} (h : t.values key = some data) :
    t.setValue key data = t := by
  rw [setValue, ← h, Function.update_eq_self]

/-- The slot for the data: its own if that is free or has the data already, or else where the
probing ends. -/
def slotFor (t : HashTable) (data : ℕ) : Option (Option (Fin t.sizeTable)) :=
  if t.values (t.hashFunction data) = none ∨ t.values (t.hashFunction data) = some data then
    some (some (t.hashFunction data))
  else t.colisionResolution (t.hashFunction data)

theorem slotFor_isSome (t : HashTable) (data : ℕ) : ∃ o, t.slotFor data = some o := by
  unfold slotFor
  split_ifs
  · exact ⟨_, rfl⟩
  · by_cases hex : ∃ slot, t.values slot = none
    · obtain ⟨empty, hempty⟩ := hex
      obtain ⟨slot, hslot⟩ := colisionResolution_of_empty hempty (t.hashFunction data)
      exact ⟨some slot, hslot⟩
    · exact colisionResolution_of_full hex _

theorem insertData_of_slot (fuel : ℕ) {slot : Fin t.sizeTable}
    (h : t.slotFor data = some (some slot)) :
    insertData (fuel + 1) t data = some (t.setValue slot data) := by
  rw [insertData]
  unfold slotFor at h
  by_cases hnone : t.values (t.hashFunction data) = none
  · rw [if_pos (.inl hnone)] at h
    obtain rfl := some.inj (some.inj h)
    exact if_pos hnone
  by_cases hsame : t.values (t.hashFunction data) = some data
  · rw [if_pos (.inr hsame)] at h
    obtain rfl := some.inj (some.inj h)
    rw [if_neg hnone, if_pos hsame, setValue_eq_self hsame]
  · rw [if_neg (not_or.mpr ⟨hnone, hsame⟩)] at h
    rw [if_neg hnone, if_neg hsame, h]
    rfl

theorem home_of_full (h : t.slotFor data = some none) : ∃ y, t.values (t.hashFunction data) =
    some y ∧ y ≠ data ∧ t.colisionResolution (t.hashFunction data) = some none := by
  unfold slotFor at h
  split_ifs at h with hhome
  · cases h
  obtain ⟨hnone, hsame⟩ := not_or.mp hhome
  obtain ⟨y, hy⟩ := ne_none_iff_exists'.mp hnone
  exact ⟨y, hy, fun he => hsame (he ▸ hy), h⟩

/-- A table that is full is given up: only the new data is in the next one. -/
theorem insert_of_full (h : t.slotFor data = some none) :
    ∃ t' : HashTable, t.insert data = some t' ∧ ∀ slot x, t'.values slot = some x → x = data := by
  obtain ⟨y, hy, hne, hcol⟩ := home_of_full h
  obtain ⟨p, hp⟩ := nextPrime_spec t.pos
  have hpos : 0 < p := lt_of_lt_of_le (Nat.mul_pos Nat.two_pos t.pos) (le_nextPrime hp)
  have hrehash : t.rehashing = some (init p hpos) := by
    unfold rehashing
    split
    · next hnone' => rw [hp] at hnone'; cases hnone'
    · next q hq =>
      rw [hp] at hq
      cases hq
      rfl
  refine ⟨(init p hpos).setValue ((init p hpos).hashFunction data) data, ?_, fun slot x hx => ?_⟩
  · rw [insert, insertData]
    rw [hy, if_neg nofun, if_neg (by simpa using hne), hcol, hrehash]
    have hslot : slotFor (init p hpos) data = some (some ((init p hpos).hashFunction data)) :=
      if_pos (.inl rfl)
    exact insertData_of_slot 0 hslot
  · exact eq_of_update_none hx

/-- The slot for the data has it already, or is free and the data is in no slot. -/
def Clean (t : HashTable) (data : ℕ) : Prop :=
  ∃ slot, t.slotFor data = some (some slot) ∧
    (t.values slot = some data ∨ t.values slot = none ∧ ∀ slot', t.values slot' ≠ some data)

theorem insert_isSome (t : HashTable) (data : ℕ) : ∃ t', t.insert data = some t' := by
  obtain ⟨o, ho⟩ := slotFor_isSome t data
  cases o with
  | none =>
    obtain ⟨t', ht', _⟩ := insert_of_full ho
    exact ⟨t', ht'⟩
  | some slot => exact ⟨_, insertData_of_slot 1 ho⟩

theorem stores_insert_iff {D : Set ℕ} (h : Stores t.values D) (hins : t.insert data = some t') :
    Stores t'.values (Insert.insert data D) ↔ t.Clean data := by
  obtain ⟨o, ho⟩ := slotFor_isSome t data
  cases o with
  | some slot =>
    obtain rfl := some.inj ((insertData_of_slot 1 ho).symm.trans hins)
    refine (stores_update_iff h).trans ⟨?_, ?_⟩
    · exact fun hslot => ⟨slot, ho, hslot⟩
    · rintro ⟨slot', ho', hslot'⟩
      obtain rfl := some.inj (some.inj (ho.symm.trans ho'))
      exact hslot'
  | none =>
    obtain ⟨t1, ht1, honly⟩ := insert_of_full ho
    obtain rfl := some.inj (ht1.symm.trans hins)
    refine iff_of_false (fun h' => ?_) ?_
    · -- the value at the home slot is lost
      obtain ⟨y, hy, hne, _⟩ := home_of_full ho
      obtain ⟨slot', hs'⟩ := (h'.mem y).mp (.inr ((h.mem y).mpr ⟨_, hy⟩))
      exact hne (honly slot' y hs')
    · rintro ⟨slot, ho', _⟩
      rw [ho] at ho'
      cases ho'

/-! ### Sequences of calls -/

theorem inserts_isSome : ∀ (ds : List ℕ) (t : HashTable), ∃ t', ds.foldlM insert t = some t'
  | [], t => ⟨t, rfl⟩
  | d :: ds, t => by
    obtain ⟨t1, ht1⟩ := insert_isSome t d
    obtain ⟨t', ht'⟩ := inserts_isSome ds t1
    exact ⟨t', by rw [List.foldlM_cons, ht1]; exact ht'⟩

/-- Every call returns.  The table has the right values after every call exactly when every call is
clean. -/
theorem stores_iff_clean (sizeTable : ℕ) (pos : 0 < sizeTable) (ds : List ℕ) :
    (∃ t, ds.foldlM insert (init sizeTable pos) = some t) ∧
      ((∀ done t, done <+: ds → done.foldlM insert (init sizeTable pos) = some t →
      Stores t.values {x | x ∈ done}) ↔ ∀ done d t, done ++ [d] <+: ds →
      done.foldlM insert (init sizeTable pos) = some t → t.Clean d) := by
  have hset : ∀ (done : List ℕ) (d : ℕ), {x | x ∈ done ++ [d]} = Insert.insert d {x | x ∈ done} := by
    intro done d
    ext x
    simp [or_comm]
  refine ⟨inserts_isSome ds _, fun hall done d t hdone hrun => ?_, fun hclean done t hdone hrun => ?_⟩
  · obtain ⟨t', hins⟩ := insert_isSome t d
    have hold := hall done t ((List.prefix_append _ _).trans hdone) hrun
    have hnew := hall (done ++ [d]) t' hdone (by rw [foldlM_concat, hrun]; exact hins)
    rw [hset] at hnew
    exact (stores_insert_iff hold hins).mp hnew
  · induction done using List.reverseRecOn generalizing t with
    | nil =>
      cases hrun
      have hnil : {x : ℕ | x ∈ ([] : List ℕ)} = ∅ := by
        simp
      rw [hnil]
      exact stores_nil
    | append_singleton done d ih =>
      rw [foldlM_concat] at hrun
      obtain ⟨t1, hrun1, hins⟩ := Option.bind_eq_some_iff.mp hrun
      rw [hset]
      exact (stores_insert_iff (ih t1 ((List.prefix_append _ _).trans hdone) hrun1) hins).mpr
        (hclean done d t1 hdone hrun1)

theorem stores_iff_clean_three : (∃ t, [3, 7, 7].foldlM insert (init 5 (by decide)) = some t) ∧
      ((∀ done t, done <+: [3, 7, 7] → done.foldlM insert (init 5 (by decide)) = some t →
      Stores t.values {x | x ∈ done}) ↔ ∀ done d t, done ++ [d] <+: [3, 7, 7] →
      done.foldlM insert (init 5 (by decide)) = some t → t.Clean d) :=
  stores_iff_clean 5 (by decide) [3, 7, 7]

/-- A table with one slot: the 1 is lost when the 2 comes. -/
theorem rehashing_loses_one : ∃ t, [1, 2].foldlM insert (init 1 (by decide)) = some t ∧
      t.sizeTable = 5 ∧ (∀ slot, t.values slot ≠ some 1) ∧ ¬ Stores t.values {x | x ∈ [1, 2]} := by
  have hlost : ∀ slot, ((init 5 (by decide)).setValue ⟨2, by decide⟩ 2).values slot ≠ some 1 := by decide
  refine ⟨(init 5 (by decide)).setValue ⟨2, by decide⟩ 2, rfl, rfl, hlost, fun h => ?_⟩
  obtain ⟨slot, hslot⟩ := (h.mem 1).mp (by simp)
  exact hlost slot hslot

end HashTable

end Code365.Algorithms
