import Code365.Lib.CString

/-! # The records of the stress test (`tools/net_test/base.c`)

`write_stress_record` writes some records of a ring, from an index on, each as a line of seven
numbers, and `read_stress_record` reads the lines into an array.  The array is the memory from
`record` on: neither function checks its size, so the reader puts a record in it for every line of
the file. -/

namespace Code365.NetTest

open List Function CString Text

def STRESS_RECORD_NUM : ℕ := 10

structure TimeInfo where
  day : Int32
  hour : Int32
  minute : Int32
  second : Int32
deriving DecidableEq

structure StressRecord where
  result : Int32
  encode : Int32
  decode : Int32
  date : TimeInfo
deriving DecidableEq

/-- The arguments of `sprintf` and `sscanf`, in their order. -/
def StressRecord.fields (r : StressRecord) : List Int32 :=
  [r.date.day, r.date.hour, r.date.minute, r.date.second, r.encode, r.decode, r.result]

/-- A record that is cleared before these values are stored in it, in the same order. -/
def StressRecord.ofFields (vs : List Int32) : StressRecord where
  date := { day := vs.getD 0 0, hour := vs.getD 1 0, minute := vs.getD 2 0, second := vs.getD 3 0 }
  encode := vs.getD 4 0
  decode := vs.getD 5 0
  result := vs.getD 6 0

/-- What `sprintf` writes, without the newline. -/
def recordText (r : StressRecord) : List Char := List.intercalate [' '] (r.fields.map fun v => decimal v.toInt)

/-- The content of the file, when it can be opened. -/
def writeStressRecord (record : ℕ → StressRecord) : ℕ → ℕ → List Char
  | _, 0 => []
  | index, num + 1 =>
    recordText (record index) ++ ['\n'] ++ writeStressRecord record ((index + 1) % STRESS_RECORD_NUM) num

/-- The array and `i` in the loop of `read_stress_record`. -/
structure Reading where
  record : ℕ → StressRecord
  i : ℕ

def readLine (s : Reading) (line : List Char) : Reading where
  record := update s.record s.i (StressRecord.ofFields (scanInts 7 (cstr line)))
  i := s.i + 1

/-- The array after `read_stress_record`, and `*num`. -/
def readStressRecord (file : Option (List Char)) (record : ℕ → StressRecord) : Reading :=
  match file with
  | none => ⟨record, 0⟩
  | some text => (readPieces 8192 (8192 - 1) text).foldl readLine ⟨record, 0⟩

/-! ### Lines -/

@[simp] theorem StressRecord.ofFields_fields (r : StressRecord) :
    StressRecord.ofFields r.fields = r := rfl

theorem mem_recordText {r : StressRecord} {c : Char} (h : c ∈ recordText r) :
    c = ' ' ∨ c = '-' ∨ c.isDigit := by
  obtain ⟨l, hl, hc⟩ | hc := of_mem_intercalate h
  · obtain ⟨v, _, rfl⟩ := mem_map.mp hl
    exact .inr (mem_decimal hc)
  · exact .inl (mem_singleton.mp hc)

theorem recordText_avoids {r : StressRecord} {c : Char} (hc : c.toNat < 32) : c ∉ recordText r := by
  intro h
  obtain rfl | rfl | hd := mem_recordText h
  · exact absurd hc (by decide)
  · exact absurd hc (by decide)
  · have := isDigit_iff.mp hd
    omega

/-- Seven numbers with their signs, and the blanks between them. -/
theorem length_recordText_le (r : StressRecord) : (recordText r).length ≤ 83 := by
  have hday := length_decimal_le r.date.day
  have hhour := length_decimal_le r.date.hour
  have hminute := length_decimal_le r.date.minute
  have hsecond := length_decimal_le r.date.second
  have hencode := length_decimal_le r.encode
  have hdecode := length_decimal_le r.decode
  have hresult := length_decimal_le r.result
  simp only [recordText, StressRecord.fields, map_cons, map_nil, intercalate_cons_cons,
    intercalate_singleton, length_append, length_singleton]
  omega

theorem readLine_recordText (s : Reading) (r : StressRecord) :
    readLine s (recordText r ++ ['\n']) = ⟨update s.record s.i r, s.i + 1⟩ := by
  have hcstr : cstr (recordText r ++ ['\n']) = recordText r ++ ['\n'] := by
    apply takeWhile_ne_self
    rw [mem_append, mem_singleton]
    exact not_or.mpr ⟨recordText_avoids (by decide), by decide⟩
  have hscan : scanInts 7 (recordText r ++ ['\n']) = r.fields := scanInts_intercalate r.fields
  unfold readLine
  rw [hcstr, hscan, StressRecord.ofFields_fields]

/-! ### The ring and the array -/

theorem writeStressRecord_eq (record : ℕ → StressRecord) {index : ℕ}
    (hindex : index < STRESS_RECORD_NUM) (num : ℕ) :
    writeStressRecord record index num = ((List.range num).map fun i =>
    recordText (record ((index + i) % STRESS_RECORD_NUM))).flatMap fun l => l ++ ['\n'] := by
  induction num generalizing index with
  | zero => rfl
  | succ num ih =>
    have hnext : (index + 1) % STRESS_RECORD_NUM < STRESS_RECORD_NUM := Nat.mod_lt _ (by decide)
    rw [writeStressRecord, ih hnext, range_succ_eq_map, map_cons, flatMap_cons, map_map]
    rw [add_zero index, Nat.mod_eq_of_lt hindex]
    congr 2
    refine map_congr_left fun i _ => ?_
    rw [comp_apply, Nat.mod_add_mod, Nat.succ_eq_add_one, add_right_comm, add_assoc]

theorem foldl_readLine (rs : List StressRecord) (s : Reading) :
    rs.foldl (fun s r => readLine s (recordText r ++ ['\n'])) s =
    ⟨fun j => if s.i ≤ j then rs.getD (j - s.i) (s.record j) else s.record j, s.i + rs.length⟩ := by
  induction rs generalizing s with
  | nil => simp
  | cons r rs ih =>
    rw [foldl_cons, readLine_recordText, ih]
    refine congrArg₂ Reading.mk (funext fun j => ?_) (by rw [length_cons]; dsimp only; omega)
    dsimp only
    obtain hlt | rfl | hgt := lt_trichotomy j s.i
    · rw [if_neg (by omega), if_neg (by omega), update_of_ne (by omega)]
    · rw [if_neg (by omega), if_pos (le_refl _), update_self, Nat.sub_self, getD_cons_zero]
    · obtain ⟨k, rfl⟩ : ∃ k, j = s.i + 1 + k := ⟨j - (s.i + 1), by omega⟩
      rw [if_pos (by omega), if_pos (by omega), update_of_ne (by omega), Nat.add_sub_cancel_left,
        show s.i + 1 + k - s.i = k + 1 by omega, getD_cons_succ]

/-- The records of the ring from the index on are in the array, in their order. -/
theorem readStressRecord_write (record old : ℕ → StressRecord) {index : ℕ}
    (hindex : index < STRESS_RECORD_NUM) (num : ℕ) :
    readStressRecord (some (writeStressRecord record index num)) old =
    ⟨fun i => if i < num then record ((index + i) % STRESS_RECORD_NUM) else old i, num⟩ := by
  have hnewline : ∀ l ∈ (List.range num).map fun i =>
    recordText (record ((index + i) % STRESS_RECORD_NUM)), '\n' ∉ l := by
    intro l hl
    obtain ⟨i, _, rfl⟩ := mem_map.mp hl
    exact recordText_avoids (by decide)
  have hlength : ∀ l ∈ (List.range num).map fun i => recordText (record ((index + i) % STRESS_RECORD_NUM)),
      l.length < 8192 - 1 := by
    intro l hl
    obtain ⟨i, _, rfl⟩ := mem_map.mp hl
    exact lt_of_le_of_lt (length_recordText_le _) (by decide)
  have hfold :=
    foldl_readLine ((List.range num).map fun i => record ((index + i) % STRESS_RECORD_NUM)) ⟨old, 0⟩
  rw [foldl_map, length_map, length_range, zero_add] at hfold
  rw [readStressRecord, writeStressRecord_eq record hindex num, readPieces_flatMap hnewline hlength, map_map,
    foldl_map]
  refine hfold.trans (congrArg₂ Reading.mk (funext fun i => ?_) rfl)
  rw [if_pos (Nat.zero_le i), Nat.sub_zero, getD_eq_getElem?_getD, getElem?_map]
  by_cases hi : i < num
  · rw [if_pos hi, getElem?_range hi]
    rfl
  · rw [if_neg hi, getElem?_eq_none (by rw [length_range]; omega)]
    rfl

/-- Saving some records of the ring and restoring them gives their number and the records, from the
index on. -/
theorem stress_record_restored (record old : ℕ → StressRecord) (index num : ℕ)
    (hindex : index < STRESS_RECORD_NUM) :
    (readStressRecord (some (writeStressRecord record index num)) old).i = num ∧
      ∀ i < num, (readStressRecord (some (writeStressRecord record index num)) old).record i =
      record ((index + i) % STRESS_RECORD_NUM) := by
  rw [readStressRecord_write record old hindex num]
  exact ⟨rfl, fun i hi => if_pos hi⟩

/-- Three records from the last place of a ring on, with numbers below zero. -/
theorem stress_record_restored_wrap : 9 < STRESS_RECORD_NUM ∧ (readStressRecord
      (some (writeStressRecord (fun i => .ofFields [-2147483648, Int32.ofNat i, -1]) 9 3)) fun _ =>
      .ofFields []).i = 3 ∧ ∀ i < 3, (readStressRecord (some (writeStressRecord (fun i =>
      .ofFields [-2147483648, Int32.ofNat i, -1]) 9 3)) fun _ => .ofFields []).record i =
      .ofFields [-2147483648, Int32.ofNat ((9 + i) % STRESS_RECORD_NUM), -1] :=
  ⟨by decide, stress_record_restored (fun i => .ofFields [-2147483648, Int32.ofNat i, -1]) (fun _ =>
    .ofFields []) 9 3 (by decide)⟩

end Code365.NetTest
