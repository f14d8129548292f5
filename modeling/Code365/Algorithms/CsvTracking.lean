import Code365.Lib.While
import Code365.Algorithms.CsvFile

/-! # The tracked rows of a `CSVFile`

`addRow`, both variants of `removeRow` and `commit`, with the exceptions of a call.  Beside the
object goes what it is for: the rows with a mark on those that were added since the last `commit`,
and the file (`Ideal`).  A removal does not renumber the tracked indices, and `trackList.remove(i)`
removes by position, so `trackList` has the indices of the marked rows as long as every removal is
harmless: no row is marked, or the one row that goes is marked and its index is the last position of
`trackList` (`tracks_of_harmless`). -/

namespace Code365.Algorithms.Csv

open List Function

/-! ### The calls -/

/-- `if (trackList.indexOf(i) != -1) trackList.remove(i)`; `none` for an
`IndexOutOfBoundsException`. -/
def untrack (trackList : List ℕ) (i : ℕ) : Option (List ℕ) :=
  if i ∈ trackList then
    if i < trackList.length then some (trackList.eraseIdx i) else none
  else some trackList

/-- `removeRow(column)`. -/
def removeRowAt (csv : CsvFile) (column : ℕ) : Option CsvFile :=
  if column < csv.table.length then
    (untrack csv.trackList column).map fun trackList =>
      { csv with table := csv.table.eraseIdx column, trackList := trackList }
  else none

/-- The loop of `removeRow(key)` over the items of row `i`. -/
def untrackItems (key : List Char) (trackList : List ℕ) (row : List (List Char) × ℕ) : Option (List ℕ) :=
  row.1.foldlM (fun trackList item => if item = key then untrack trackList row.2 else some trackList) trackList

local instance lawfulBEqText : LawfulBEq (List Char) := inferInstance

/-- `removeRow(key)`: the rows with the key become `null`, and then the `null`s are removed. -/
def removeRowKey (csv : CsvFile) (key : List Char) : Option CsvFile :=
  (csv.table.zipIdx.foldlM (untrackItems key) csv.trackList).map fun trackList =>
    { csv with
      table := (csv.table.map fun columns => if key ∈ columns then none else some columns).reduceOption
      trackList := trackList }

def commit (csv : CsvFile) : Option CsvFile :=
  if (trackedText csv.table csv.trackList).2 then
    some { csv with file := csv.file ++ (trackedText csv.table csv.trackList).1, trackList := [] }
  else none

inductive Change where
  | addRow (row : List Char)
  | removeRow (column : ℕ)
  | removeKey (key : List Char)
  | commit
deriving DecidableEq, Repr

/-- A call; `none` when it throws. -/
def change (J : CharTests) (csv : CsvFile) : Change → Option CsvFile
  | .addRow row => if (compile J row csv.seperator).isSome then some (addRow J csv row) else none
  | .removeRow column => removeRowAt csv column
  | .removeKey key => removeRowKey csv key
  | .commit => commit csv

/-! ### What is tracked -/

/-- The rows, those added since the last `commit` marked, and the file. -/
structure Ideal where
  rows : List (List (List Char) × Bool)
  file : List Char
deriving DecidableEq, Repr

def Ideal.start (csv : CsvFile) : Ideal := { rows := csv.table.map (·, false), file := csv.file }

def Ideal.added (s : Ideal) : List (List (List Char)) := (s.rows.filter Prod.snd).map Prod.fst

def Ideal.next (J : CharTests) (seperator : Char) (s : Ideal) : Change → Ideal
  | .addRow row =>
    match compile J row seperator with
    | none => s
    | some columns => { s with rows := s.rows ++ [(columns, true)] }
  | .removeRow column => { s with rows := s.rows.eraseIdx column }
  | .removeKey key => { s with rows := s.rows.filter (key ∉ ·.1) }
  | .commit => { rows := s.rows.map fun row => (row.1, false), file := s.file ++ tableText s.added }

/-- The object has the rows, the file, and the indices of the marked rows in their order. -/
structure Tracks (csv : CsvFile) (s : Ideal) : Prop where
  table : csv.table = s.rows.map Prod.fst
  trackList : csv.trackList = s.rows.findIdxs Prod.snd
  file : csv.file = s.file

/-- A row that `compile` accepts, the index of a row. -/
def InRange (J : CharTests) (seperator : Char) (s : Ideal) : Change → Prop
  | .addRow row => (compile J row seperator).isSome
  | .removeRow column => column < s.rows.length
  | .removeKey _ => True
  | .commit => True

/-- The row with this index is marked, and the index is the last position of the tracked indices. -/
def Ideal.Last (s : Ideal) (column : ℕ) : Prop :=
  s.rows.countP (fun row => !row.2) ≤ column ∧ column + 1 = s.rows.countP Prod.snd

/-- Removals happen when no row is marked; or the one row that goes is `Last`, and a key names it by
one item only unless all rows are marked. -/
def Harmless (s : Ideal) : Change → Prop
  | .addRow _ => True
  | .removeRow column => s.added = [] ∨ s.Last column
  | .removeKey key => s.added = [] ∨ (∀ row ∈ s.rows, key ∉ row.1) ∨
      ∃ column, s.Last column ∧ (∀ i row, s.rows[i]? = some row → (key ∈ row.1 ↔ i = column)) ∧
        ((∀ row ∈ s.rows, row.2) ∨ ∀ row ∈ s.rows, row.1.count key ≤ 1)
  | .commit => True

/-- Every call of the sequence is in range and harmless when it is made. -/
def Admitted (J : CharTests) (seperator : Char) : Ideal → List Change → Prop
  | _, [] => True
  | s, c :: cs => InRange J seperator s c ∧ Harmless s c ∧ Admitted J seperator (s.next J seperator c) cs

/-! ### The marked rows come last -/

/-- The rows that are not marked, and then the marked ones. -/
def Ideal.Split (s : Ideal) (before added : List (List (List Char))) : Prop :=
  s.rows = before.map (·, false) ++ added.map (·, true)

variable {J : CharTests} {seperator : Char} {csv : CsvFile} {s : Ideal}
  {before added : List (List (List Char))}
  {column : ℕ} {key : List Char} {trackList : List ℕ}

theorem split_start (csv : CsvFile) : (Ideal.start csv).Split csv.table [] := by
  unfold Ideal.Split Ideal.start
  simp

theorem Ideal.Split.added_eq (hs : s.Split before added) : s.added = added := by
  unfold Ideal.added
  rw [hs]
  simp [filter_map, comp_def]

theorem Ideal.Split.last_iff (hs : s.Split before added) :
    s.Last column ↔ before.length ≤ column ∧ column + 1 = added.length := by
  unfold Ideal.Last
  rw [hs]
  simp [countP_map, comp_def]

theorem findIdxs_map_mark (rows : List (List (List Char))) (n : ℕ) :
    (rows.map (·, false)).findIdxs Prod.snd n = [] ∧
    (rows.map (·, true)).findIdxs Prod.snd n = range' n rows.length := by
  induction rows generalizing n with
  | nil => exact ⟨rfl, rfl⟩
  | cons row rows ih => simp [ih, range'_succ]

theorem Ideal.Split.tracks_iff (hs : s.Split before added) : Tracks csv s ↔ csv.table = before ++
    added ∧ csv.trackList = range' before.length added.length ∧ csv.file = s.file := by
  have htable : s.rows.map Prod.fst = before ++ added := by
    rw [hs]
    simp [comp_def]
  have htrack : s.rows.findIdxs Prod.snd = range' before.length added.length := by
    rw [hs, findIdxs_append, (findIdxs_map_mark before 0).1, (findIdxs_map_mark added _).2]
    simp
  constructor
  · rintro ⟨h1, h2, h3⟩
    exact ⟨h1.trans htable, h2.trans htrack, h3⟩
  · rintro ⟨h1, h2, h3⟩
    exact ⟨h1.trans htable.symm, h2.trans htrack.symm, h3⟩

/-! ### What the calls do to the lists -/

theorem untrack_nil (i : ℕ) : untrack [] i = some [] := rfl

theorem untrack_last {m k : ℕ} (hm : m ≤ column) (hk : column + 1 = k) :
    untrack (range' m k) column = some (range' m (k - 1)) := by
  have hmem : column ∈ range' m k := mem_range'_1.mpr ⟨hm, by omega⟩
  have hlast : column + 1 = (range' m k).length := hk.trans length_range'.symm
  subst hk
  rw [untrack, if_pos hmem, if_pos (by omega), eraseIdx_eq_dropLast hlast, range'_concat, dropLast_concat,
    Nat.add_sub_cancel]

theorem reduceOption_rows (key : List Char) (table : List (List (List Char))) :
    (table.map fun columns => if key ∈ columns then none else some columns).reduceOption =
    table.filter (key ∉ ·) := by
  induction table with
  | nil => rfl
  | cons columns table ih =>
    by_cases h : key ∈ columns
    · simp [h, ih]
    · simp [h, ih]

theorem untrackItems_of_notMem (row : List (List Char) × ℕ) (h : key ∉ row.1) :
    untrackItems key trackList row = some trackList := by
  refine foldlM_fixed fun item hitem => if_neg ?_
  rintro rfl
  exact h hitem

/-- After the first item with the key the others change nothing, or there are none. -/
theorem untrackItems_of_mem {trackList' : List ℕ} (row : List (List Char) × ℕ) (h : key ∈ row.1)
    (hfirst : untrack trackList row.2 = some trackList')
    (hagain : untrack trackList' row.2 = some trackList' ∨ row.1.count key ≤ 1) :
    untrackItems key trackList row = some trackList' := by
  obtain ⟨items, i⟩ := row
  obtain ⟨l1, l2, rfl, hnot⟩ := eq_append_cons_of_mem h
  have hbefore : ∀ item ∈ l1, (if item = key then untrack trackList i else some trackList) = some trackList :=
    fun item hitem => if_neg (ne_of_mem_of_not_mem hitem hnot)
  have hafter : ∀ item ∈ l2, (if item = key then untrack trackList' i else some trackList') =
      some trackList' := by
    intro item hitem
    split_ifs with he
    · refine hagain.resolve_right fun hcount => ?_
      have hpos : 0 < l2.count key := count_pos_iff.mpr (he ▸ hitem)
      simp only [count_append, count_cons_self] at hcount
      omega
    · rfl
  rw [untrackItems, foldlM_append, foldlM_fixed hbefore, Option.bind_eq_bind, Option.bind_some,
    foldlM_cons, if_pos rfl, hfirst]
  exact foldlM_fixed hafter

theorem foldlM_untrackItems_nil (rows : List (List (List Char) × ℕ)) :
    rows.foldlM (untrackItems key) [] = some [] :=
  foldlM_fixed fun row _ => foldlM_fixed fun item _ => by rw [untrack_nil, ite_self]

theorem foldlM_untrackItems_one {trackList' : List ℕ} {table : List (List (List Char))}
    (hcol : column < table.length) (h : ∀ i columns, table[i]? = some columns →
    (key ∈ columns ↔ i = column)) (hfirst : untrack trackList column = some trackList')
    (hagain : untrack trackList' column = some trackList' ∨ ∀ columns ∈ table, columns.count key ≤
    1) : table.zipIdx.foldlM (untrackItems key) trackList = some trackList' := by
  have hget := getElem?_eq_getElem hcol
  obtain ⟨l1, l2, hsplit⟩ := append_of_mem (mk_mem_zipIdx_iff_getElem?.mpr hget)
  have hperm : table.zipIdx.Perm (_ :: (l1 ++ l2)) := hsplit ▸ perm_middle
  have hnodup : (table.zipIdx.map Prod.snd).Nodup := by
    rw [zipIdx_map_snd]
    exact nodup_range'
  rw [(hperm.map _).nodup_iff] at hnodup
  rw [hsplit, foldlM_one]
  · exact untrackItems_of_mem _ ((h _ _ hget).mpr rfl) hfirst (hagain.imp_right fun hall =>
      hall _ (getElem_mem hcol))
  intro row hrow s
  have hne : row.2 ≠ column := ne_of_mem_of_not_mem (mem_map_of_mem hrow) (nodup_cons.mp hnodup).1
  have hmem : row ∈ table.zipIdx := hperm.symm.subset (mem_cons_of_mem _ hrow)
  exact untrackItems_of_notMem row fun hkey => hne ((h row.2 row.1 (mem_zipIdx_iff_getElem?.mp hmem)).mp hkey)

theorem filter_eq_eraseIdx {α : Type*} {p : α → Bool} : ∀ {l : List α} {n : ℕ},
    (∀ i x, l[i]? = some x → (p x = false ↔ i = n)) → l.filter p = l.eraseIdx n
  | [], _, _ => rfl
  | x :: l, n, h => by
    have hhead := h 0 x rfl
    cases n with
    | zero =>
      have hall : ∀ y ∈ l, p y = true := by
        intro y hy
        obtain ⟨i, hi⟩ := mem_iff_getElem?.mp hy
        have hp := h (i + 1) y (by rw [getElem?_cons_succ, hi])
        simpa using hp
      rw [filter_cons_of_neg (by simp [hhead.mpr rfl]), filter_eq_self.mpr hall]
      rfl
    | succ n =>
      have hx : p x = true := by simpa using hhead
      rw [filter_cons_of_pos hx, eraseIdx_cons_succ, filter_eq_eraseIdx fun i y hi => ?_]
      rw [h (i + 1) y (by rw [getElem?_cons_succ, hi]), Nat.add_right_cancel_iff]

theorem Ideal.Split.next_removeKey (hs : s.Split before added) : (s.next J seperator
    (.removeKey key)).Split (before.filter (key ∉ ·)) (added.filter (key ∉ ·)) := by
  unfold Ideal.Split Ideal.next at *
  simp only [hs]
  rw [filter_append, filter_map, filter_map]
  rfl

theorem trackedText_range' (before added : List (List (List Char))) : trackedText (before ++
    added) (range' before.length added.length) = (tableText added, true) := by
  induction added generalizing before with
  | nil => rfl
  | cons columns added ih =>
    have hget : (before ++ columns :: added)[before.length]? = some columns := by simp
    have hrest := ih (before ++ [columns])
    rw [append_assoc, length_append] at hrest
    rw [length_cons, range'_succ, trackedText, hget]
    simp only [length_singleton, singleton_append] at hrest
    simp only [hrest, tableText, flatMap_cons]

/-! ### One call -/

/-- The call returns, and the object has what it should have. -/
def Returns (J : CharTests) (csv : CsvFile) (s : Ideal) (c : Change) : Prop :=
  ∃ csv' before added, change J csv c = some csv' ∧ csv'.seperator = csv.seperator ∧
    (s.next J csv.seperator c).Split before added ∧ Tracks csv' (s.next J csv.seperator c)

section returns

variable (hs : s.Split before added) (ht : Tracks csv s)

include hs ht

theorem returns_addRow {row : List Char} (hin : InRange J csv.seperator s (.addRow row)) :
    Returns J csv s (.addRow row) := by
  obtain ⟨htable, htrack, hfile⟩ := hs.tracks_iff.mp ht
  obtain ⟨columns, hcolumns⟩ := Option.isSome_iff_exists.mp hin
  have hnext : s.next J csv.seperator (.addRow row) = { s with rows := s.rows ++ [(columns, true)] } := by
    simp only [Ideal.next, hcolumns]
  have hs' : (s.next J csv.seperator (.addRow row)).Split before (added ++ [columns]) := by
    rw [hnext]
    unfold Ideal.Split at hs ⊢
    rw [hs, map_append, append_assoc]
    rfl
  refine ⟨addRow J csv row, before, added ++ [columns], if_pos hin, ?_, hs', hs'.tracks_iff.mpr ⟨?_, ?_, ?_⟩⟩
  · simp [addRow, hcolumns]
  · simp [addRow, hcolumns, htable]
  · simp [addRow, hcolumns, htable, htrack, range'_concat]
  · simp [addRow, hcolumns, hfile, hnext]

theorem returns_removeRow (hin : InRange J csv.seperator s (.removeRow column))
    (hh : Harmless s (.removeRow column)) : Returns J csv s (.removeRow column) := by
  obtain ⟨htable, htrack, hfile⟩ := hs.tracks_iff.mp ht
  have hlen : column < csv.table.length := by
    rw [ht.table, length_map]
    exact hin
  rcases hh with hnone | hlast
  · -- only rows that are not marked
    obtain rfl : added = [] := hs.added_eq.symm.trans hnone
    have hs' : (s.next J csv.seperator (.removeRow column)).Split (before.eraseIdx column) [] := by
      unfold Ideal.Split Ideal.next at *
      simp only [hs, map_nil, append_nil, eraseIdx_map]
    refine ⟨{ csv with table := csv.table.eraseIdx column }, _, _, ?_, rfl, hs',
      hs'.tracks_iff.mpr ⟨?_, htrack, hfile⟩⟩
    · simp [change, removeRowAt, hlen, htrack, untrack_nil]
    · simp [htable]
  · obtain ⟨hm, hk⟩ := hs.last_iff.mp hlast
    have hs' : (s.next J csv.seperator (.removeRow column)).Split before
      (added.eraseIdx (column - before.length)) := by
      unfold Ideal.Split Ideal.next at *
      simp only [hs]
      rw [eraseIdx_append_of_length_le (by simpa using hm), eraseIdx_map, length_map]
    have herase : (added.eraseIdx (column - before.length)).length = added.length - 1 := by
      rw [length_eraseIdx_of_lt (by omega)]
    refine ⟨{ csv with table := csv.table.eraseIdx column, trackList := range' before.length (added.length - 1) },
      _, _, ?_, rfl, hs', hs'.tracks_iff.mpr ⟨?_, ?_, hfile⟩⟩
    · simp [change, removeRowAt, hlen, htrack, untrack_last hm hk]
    · simp only [htable, eraseIdx_append_of_length_le hm]
    · rw [herase]

theorem returns_removeKey_untracked (hnone : s.added = []) : Returns J csv s (.removeKey key) := by
  obtain ⟨htable, htrack, hfile⟩ := hs.tracks_iff.mp ht
  have hs' : (s.next J csv.seperator (.removeKey key)).Split _ _ := hs.next_removeKey
  obtain rfl : added = [] := hs.added_eq.symm.trans hnone
  have hfold : csv.table.zipIdx.foldlM (untrackItems key) [] = some [] := foldlM_untrackItems_nil _
  refine ⟨{ csv with table := csv.table.filter (key ∉ ·) }, _, _, ?_, rfl, hs',
    hs'.tracks_iff.mpr ⟨?_, htrack, hfile⟩⟩
  · simp only [change, removeRowKey, htrack, length_nil, range'_zero, hfold, reduceOption_rows]
    rfl
  · simp [htable]

theorem returns_removeKey_missing (hmiss : ∀ row ∈ s.rows, key ∉ row.1) :
    Returns J csv s (.removeKey key) := by
  obtain ⟨htable, htrack, hfile⟩ := hs.tracks_iff.mp ht
  have hs' : (s.next J csv.seperator (.removeKey key)).Split _ _ := hs.next_removeKey
  have hbefore : before.filter (key ∉ ·) = before := by
    refine filter_eq_self.mpr fun columns hm => ?_
    simpa using hmiss (columns, false) (by rw [hs]; simp [hm])
  have hadded : added.filter (key ∉ ·) = added := by
    refine filter_eq_self.mpr fun columns hm => ?_
    simpa using hmiss (columns, true) (by rw [hs]; simp [hm])
  have hfold : csv.table.zipIdx.foldlM (untrackItems key) csv.trackList = some csv.trackList := by
    refine foldlM_fixed fun row hrow => untrackItems_of_notMem row ?_
    have hm : row.1 ∈ s.rows.map Prod.fst := ht.table ▸ fst_mem_of_mem_zipIdx hrow
    obtain ⟨row', hm', he⟩ := mem_map.mp hm
    rw [← he]
    exact hmiss row' hm'
  have hfilter : csv.table.filter (key ∉ ·) = csv.table := by rw [htable, filter_append, hbefore, hadded]
  refine ⟨csv, _, _, ?_, rfl, hs', hs'.tracks_iff.mpr ⟨?_, ?_, hfile⟩⟩
  · rw [change, removeRowKey, hfold, reduceOption_rows, hfilter]
    rfl
  · rw [hbefore, hadded, htable]
  · rw [hbefore, hadded, htrack]

/-- One row has the key: it goes as it would by its index. -/
theorem returns_removeKey_one (hlast : s.Last column)
    (hkey : ∀ i row, s.rows[i]? = some row → (key ∈ row.1 ↔ i = column))
    (honce : (∀ row ∈ s.rows, row.2) ∨ ∀ row ∈ s.rows, row.1.count key ≤ 1) :
    Returns J csv s (.removeKey key) := by
  obtain ⟨hm, hk⟩ := hs.last_iff.mp hlast
  have hcol : column < s.rows.length := by
    rw [hs, length_append, length_map, length_map]
    omega
  have hrow : ∀ i row, s.rows[i]? = some row → (decide (key ∉ row.1) = false ↔ i = column) := by
    intro i row hi
    rw [decide_eq_false_iff_not, not_not]
    exact hkey i row hi
  have hnext : s.next J csv.seperator (.removeKey key) = s.next J csv.seperator (.removeRow column) := by
    simp only [Ideal.next, filter_eq_eraseIdx hrow]
  have huntrack := untrack_last hm hk
  rw [← (hs.tracks_iff.mp ht).2.1] at huntrack
  have hagain : untrack (range' before.length (added.length - 1)) column =
      some (range' before.length (added.length - 1)) ∨ ∀ columns ∈ csv.table, columns.count key ≤ 1 := by
    refine honce.imp (fun hmarked => if_neg ?_) fun hall columns hm => ?_
    · -- all rows are marked, so that the index itself has gone
      have hnil : before = [] := by
        by_contra hne
        obtain ⟨row, hrow⟩ := exists_mem_of_ne_nil before hne
        exact absurd (hmarked (row, false) (by rw [hs]; simp [hrow])) (by simp)
      rw [hnil, mem_range'_1, length_nil]
      omega
    · rw [ht.table] at hm
      obtain ⟨row, hrow, rfl⟩ := mem_map.mp hm
      exact hall row hrow
  have hchange : change J csv (.removeKey key) = change J csv (.removeRow column) := by
    have hget : ∀ i columns, csv.table[i]? = some columns → (key ∈ columns ↔ i = column) := by
      intro i columns hi
      rw [ht.table, getElem?_map] at hi
      obtain ⟨row, hrow, rfl⟩ := Option.map_eq_some_iff.mp hi
      exact hkey i row hrow
    have hlen : column < csv.table.length := by rwa [ht.table, length_map]
    have hfilter : csv.table.filter (key ∉ ·) = csv.table.eraseIdx column := by
      rw [ht.table, filter_map, eraseIdx_map]
      exact congrArg (map Prod.fst) (filter_eq_eraseIdx hrow)
    rw [change, change, removeRowKey, removeRowAt, if_pos hlen, reduceOption_rows, hfilter, huntrack,
      foldlM_untrackItems_one hlen hget huntrack hagain]
  have hreturns : Returns J csv s (.removeRow column) := returns_removeRow hs ht hcol (.inr hlast)
  unfold Returns at hreturns ⊢
  rw [hnext, hchange]
  exact hreturns

theorem returns_removeKey (hh : Harmless s (.removeKey key)) :
    Returns J csv s (.removeKey key) := by
  rcases hh with hnone | hmiss | ⟨column, hlast, hkey, honce⟩
  · exact returns_removeKey_untracked hs ht hnone
  · exact returns_removeKey_missing hs ht hmiss
  · exact returns_removeKey_one hs ht hlast hkey honce

theorem returns_commit : Returns J csv s .commit := by
  obtain ⟨htable, htrack, hfile⟩ := hs.tracks_iff.mp ht
  have hs' : (s.next J csv.seperator .commit).Split (before ++ added) [] := by
    unfold Ideal.Split Ideal.next at *
    simp [hs, comp_def]
  have htext : trackedText csv.table csv.trackList = (tableText added, true) := by
    rw [htable, htrack, trackedText_range']
  refine ⟨{ csv with file := csv.file ++ tableText added, trackList := [] }, _, _, ?_, rfl, hs',
    hs'.tracks_iff.mpr ⟨?_, rfl, ?_⟩⟩
  · simp [change, commit, htext]
  · simp [htable]
  · simp [Ideal.next, hfile, hs.added_eq]

theorem returns_of_harmless {c : Change} (hin : InRange J csv.seperator s c) (hh : Harmless s c) :
    Returns J csv s c := by
  cases c with
  | addRow row => exact returns_addRow hs ht hin
  | removeRow column => exact returns_removeRow hs ht hin hh
  | removeKey key => exact returns_removeKey hs ht hh
  | commit => exact returns_commit hs ht

end returns

/-! ### Whole sequences -/

theorem tracks_foldlM {changes : List Change} (hs : s.Split before added) (ht : Tracks csv s)
    (hadm : Admitted J csv.seperator s changes) : ∃ csv', changes.foldlM (change J) csv =
    some csv' ∧ Tracks csv' (changes.foldl (Ideal.next J csv.seperator) s) := by
  induction changes generalizing csv s before added with
  | nil => exact ⟨csv, rfl, ht⟩
  | cons c cs ih =>
    obtain ⟨hin, hh, hrest⟩ := hadm
    obtain ⟨csv1, before1, added1, hcall, hsep, hs1, ht1⟩ := returns_of_harmless hs ht hin hh
    rw [← hsep] at hrest hs1 ht1
    obtain ⟨csv', hrun, ht'⟩ := ih hs1 ht1 hrest
    refine ⟨csv', ?_, ?_⟩
    · rw [foldlM_cons, hcall]
      exact hrun
    · rw [foldl_cons, ← hsep]
      exact ht'

theorem admitted_of_append {calls rest : List Change}
    (hadm : Admitted J seperator s (calls ++ rest)) : Admitted J seperator s calls := by
  induction calls generalizing s with
  | nil => trivial
  | cons c calls ih => exact ⟨hadm.1, hadm.2.1, ih hadm.2.2⟩

theorem tracks_start (hnew : csv.trackList = []) : Tracks csv (.start csv) := by
  rw [(split_start csv).tracks_iff, hnew]
  simp [Ideal.start]

/-- From an object with nothing tracked, an opened file among them, no call of the sequence throws,
and after every call the tracked indices are those of the rows added since the last `commit`; each
`commit` has appended just these rows to the file. -/
theorem tracks_of_harmless (J : CharTests) (csv : CsvFile) (hnew : csv.trackList = [])
    (changes calls : List Change) (hadm : Admitted J csv.seperator (.start csv) changes)
    (hcalls : calls <+: changes) : ∃ csv', calls.foldlM (change J) csv = some csv' ∧
      Tracks csv' (calls.foldl (Ideal.next J csv.seperator) (.start csv)) := by
  obtain ⟨rest, rfl⟩ := hcalls
  exact tracks_foldlM (split_start csv) (tracks_start hnew) (admitted_of_append hadm)

/-- A row is added and written, and then the first row goes. -/
def addAndRemove : List Change := [.addRow ['c', ',', 'd'], .commit, .removeRow 0]

theorem addAndRemove_tracks : ∃ csv', addAndRemove.foldlM (change ascii) oneRowCsv = some csv' ∧
    Tracks csv' (addAndRemove.foldl (Ideal.next ascii ',') (.start oneRowCsv)) := by
  refine tracks_of_harmless ascii oneRowCsv rfl addAndRemove addAndRemove ⟨?_, trivial, trivial,
    trivial, ?_, ?_, trivial⟩
    (prefix_refl _)
  · exact (by decide +kernel : (compile ascii ['c', ',', 'd'] ',').isSome)
  · exact (by decide +kernel : 0 < (((Ideal.start oneRowCsv).next ascii ','
      (.addRow ['c', ',', 'd'])).next ascii ',' .commit).rows.length)
  · exact .inl (by decide +kernel)

/-- A row is added, and the first row goes. -/
def removeBeforeCommit : List Change := [.addRow ['c', ',', 'd'], .removeRow 0]

/-- The added row has index 0 and is tracked as 1, and `commit` throws. -/
theorem removeBeforeCommit_not_tracks :
    (∃ csv', removeBeforeCommit.foldlM (change ascii) oneRowCsv = some csv' ∧ csv'.trackList = [1] ∧
      ¬ Tracks csv' (removeBeforeCommit.foldl (Ideal.next ascii ',') (.start oneRowCsv))) ∧
    (removeBeforeCommit ++ [Change.commit]).foldlM (change ascii) oneRowCsv = none := by
  have hend : (removeBeforeCommit.foldlM (change ascii) oneRowCsv).map (·.trackList) = some [1] ∧
      (removeBeforeCommit.foldl (Ideal.next ascii ',') (.start oneRowCsv)).rows.findIdxs Prod.snd = [0] ∧
      (removeBeforeCommit ++ [Change.commit]).foldlM (change ascii) oneRowCsv = none := by decide +kernel
  obtain ⟨htrack, hindices, hthrow⟩ := hend
  obtain ⟨csv', hrun, htrack⟩ := Option.map_eq_some_iff.mp htrack
  refine ⟨⟨csv', hrun, htrack, fun ht => ?_⟩, hthrow⟩
  have hlist := ht.trackList
  rw [htrack, hindices] at hlist
  cases hlist

end Code365.Algorithms.Csv
