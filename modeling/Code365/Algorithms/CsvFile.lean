import Mathlib

/-! # `CSVFile` (`java/DataStructures/CSVFile/src/CSVFile.java`)

The object keeps the rows of the file in `table`, and in `trackList` the indices of the rows that
were added since the file was read or last written.  `updateFile` writes the whole table and then
the tracked rows once more, so the file is the table exactly when no row is tracked and no item
breaks the line (`written_iff`).

A call that throws leaves the object as it is at the throw.  The file can be opened and written.
`Character.isLetter` and its kin are parameters.  A `char` is a `Char` here, not a UTF-16 unit:
characters are only compared and tested, one after another. -/

namespace Code365.Algorithms.Csv

open List

/-- The character classes of `java.lang.Character`. -/
structure CharTests where
  isLetter : Char → Bool
  isDigit : Char → Bool
  isWhitespace : Char → Bool

/-- `\p{Punct}`. -/
def isPunctuation (ch : Char) : Bool :=
  ch.toNat ∈ List.range' 0x21 15 ++ List.range' 0x3A 7 ++ List.range' 0x5B 6 ++ List.range' 0x7B 4

/-! ### `compile` -/

/-- The variable `state` of `compile`. -/
inductive Scan where
  | between
  | plain
  | quoted
  | closed
deriving DecidableEq, Repr

structure Compiler where
  state : Scan
  column : List Char
  columns : List (List Char)
deriving DecidableEq, Repr

def trim (s : List Char) : List Char := ((s.dropWhile (· ≤ ' ')).reverse.dropWhile (· ≤ ' ')).reverse

section compile
variable (J : CharTests)

/-- A character that a column may contain. -/
def CharTests.text (ch : Char) : Bool := J.isLetter ch || J.isDigit ch || isPunctuation ch || J.isWhitespace ch

def Compiler.finish (c : Compiler) : Compiler :=
  { state := .between, column := [], columns := c.columns ++ [trim c.column] }

/-- One character; `none` for a `RuntimeException`. -/
def compileChar (sep : Char) (c : Compiler) (ch : Char) : Option Compiler :=
  match c.state with
  | .between =>
    if J.isLetter ch || J.isDigit ch then some { c with state := .plain, column := c.column ++ [ch] }
    else if ch = '"' then some { c with state := .quoted, column := c.column ++ [ch] }
    else some c
  | .plain =>
    if J.text ch ∧ ch ≠ sep then some { c with column := c.column ++ [ch] }
    else if ch = sep ∨ ch = '\n' then some c.finish
    else none
  | .quoted =>
    if J.text ch ∧ ch ≠ '"' then some { c with column := c.column ++ [ch] }
    else if ch = '"' then some { c with state := .closed, column := c.column ++ [ch] }
    else none
  | .closed =>
    if J.text ch ∧ ch ≠ '"' ∧ ch ≠ sep then some { c with state := .quoted, column := c.column ++ [ch] }
    else if ch = ',' then some c.finish
    else none

def compile (row : List Char) (sep : Char) : Option (List (List Char)) :=
  (row.foldlM (compileChar J sep) { state := .between, column := [], columns := [] }).map
    fun c => c.columns ++ [c.column]

end compile

/-! ### Lines -/

/-- The characters that end a line. -/
def isBreak (c : Char) : Bool := c = '\n' || c = '\r'

/-- `BufferedReader.lines`: `cur` is the line so far, and after a `\r` a `\n` is skipped. -/
def linesFrom : Bool → List Char → List Char → List (List Char)
  | _, cur, [] => if cur = [] then [] else [cur]
  | skipLF, cur, c :: rest =>
    if c = '\n' then (if skipLF then linesFrom false cur rest else cur :: linesFrom false [] rest)
    else if c = '\r' then cur :: linesFrom true [] rest
    else linesFrom false (cur ++ [c]) rest

def lines (content : List Char) : List (List Char) := linesFrom false [] content

theorem linesFrom_line : ∀ {l : List Char} (cur rest : List Char) {skipLF : Bool},
    (∀ c ∈ l, isBreak c = false) → (skipLF = true → l ≠ []) →
    linesFrom skipLF cur (l ++ '\n' :: rest) = (cur ++ l) :: linesFrom false [] rest
  | [], cur, rest, skipLF, _, hs => by
    cases skipLF with
    | false => simp [linesFrom]
    | true => exact absurd rfl (hs rfl)
  | c :: l, cur, rest, skipLF, h, _ => by
    have hc : c ≠ '\n' ∧ c ≠ '\r' := by simpa [isBreak] using h c (by simp)
    rw [cons_append, linesFrom, if_neg hc.1, if_neg hc.2,
      linesFrom_line _ _ (fun d hd => h d (by simp [hd])) (by simp)]
    simp

theorem lines_line {l : List Char} (rest : List Char) (h : ∀ c ∈ l, isBreak c = false) :
    lines (l ++ '\n' :: rest) = l :: lines rest := by
  unfold lines
  rw [linesFrom_line [] rest h (by simp), nil_append]

theorem isBreak_of_mem_linesFrom : ∀ {content cur : List Char} {skipLF : Bool} {l : List Char},
    (∀ c ∈ cur, isBreak c = false) → l ∈ linesFrom skipLF cur content → ∀ c ∈ l, isBreak c = false
  | [], cur, skipLF, l, hcur, hl => by
    unfold linesFrom at hl
    split at hl
    · cases hl
    · obtain rfl := mem_singleton.mp hl
      exact hcur
  | c :: rest, cur, skipLF, l, hcur, hl => by
    unfold linesFrom at hl
    split at hl
    · split at hl
      · exact isBreak_of_mem_linesFrom hcur hl
      · obtain rfl | hl := mem_cons.mp hl
        · exact hcur
        · exact isBreak_of_mem_linesFrom (by simp) hl
    next hn =>
      split at hl
      · obtain rfl | hl := mem_cons.mp hl
        · exact hcur
        · exact isBreak_of_mem_linesFrom (by simp) hl
      next hr =>
        refine isBreak_of_mem_linesFrom (fun d hd => ?_) hl
        obtain hd | hd := mem_append.mp hd
        · exact hcur d hd
        · obtain rfl := mem_singleton.mp hd
          simp [isBreak, hn, hr]

theorem lines_eq_nil {content : List Char} (h : lines content = []) : content = [] := by
  have hcur : ∀ {content cur : List Char} {skipLF : Bool}, cur ≠ [] → linesFrom skipLF cur content ≠ [] := by
    intro content
    induction content with
    | nil =>
      intro cur skipLF hc
      simp [linesFrom, hc]
    | cons c rest ih =>
      intro cur skipLF hc
      unfold linesFrom
      split
      · split
        · exact ih hc
        · simp
      · split
        · simp
        · exact ih (by simp)
  cases content with
  | nil => rfl
  | cons c rest =>
    unfold lines linesFrom at h
    split at h
    · cases h
    · split at h
      · cases h
      · exact absurd h (hcur (by simp))

/-! ### The object -/

structure CsvFile where
  table : List (List (List Char))
  trackList : List ℕ
  seperator : Char
  /-- What the file `pathCSVFile` holds. -/
  file : List Char
deriving DecidableEq, Repr

section calls
variable (J : CharTests)

/-- `CSVFile(file, seperator)`; `none` when a line does not compile. -/
def openFile (file : List Char) (seperator : Char) : Option CsvFile :=
  ((lines file).mapM (compile J · seperator)).map fun table =>
    { table := table, trackList := [], seperator := seperator, file := file }

def addRow (csv : CsvFile) (row : List Char) : CsvFile :=
  match compile J row csv.seperator with
  | none => csv
  | some columns =>
    { csv with table := csv.table ++ [columns], trackList := csv.trackList ++ [(csv.table ++ [columns]).length - 1] }

/-- `set(row, column, item)`; out of range it throws. -/
def setItem (csv : CsvFile) (row column : ℕ) (item : List Char) : CsvFile :=
  { csv with table := csv.table.modify row (fun columns => columns.set column item) }

/-- `removeRow(column)`: the row with this index goes, and then `trackList.remove(column)`, which
removes by position, unless the index is not tracked; the position may be out of range. -/
def removeRow (csv : CsvFile) (column : ℕ) : CsvFile :=
  if column < csv.table.length then
    if column ∈ csv.trackList then
      { csv with table := csv.table.eraseIdx column, trackList := csv.trackList.eraseIdx column }
    else { csv with table := csv.table.eraseIdx column }
  else csv

inductive Call where
  | addRow (row : List Char)
  | set (row column : ℕ) (item : List Char)
  | removeRow (column : ℕ)
deriving DecidableEq, Repr

def call (csv : CsvFile) : Call → CsvFile
  | .addRow row => addRow J csv row
  | .set row column item => setItem csv row column item
  | .removeRow column => removeRow csv column

end calls

/-! ### `updateFile` -/

/-- The columns of a row with commas between them. -/
def rowText : List (List Char) → List Char
  | [] => []
  | item :: items => item ++ items.flatMap (fun item => ',' :: item)

/-- The rows of the table, each with its line break. -/
def tableText (table : List (List (List Char))) : List Char :=
  table.flatMap fun columns => rowText columns ++ ['\n']

/-- The second loop: the text that it writes, and whether it ends without an
`IndexOutOfBoundsException`. -/
def trackedText (table : List (List (List Char))) : List ℕ → List Char × Bool
  | [] => ([], true)
  | index :: indices =>
    match table[index]? with
    | none => ([], false)
    | some columns =>
        (rowText columns ++ ['\n'] ++ (trackedText table indices).1, (trackedText table indices).2)

/-- `updateFile`: the object afterwards, and whether the call returned.  What was written is flushed
in any case; the list is cleared only if nothing was thrown. -/
def updateFile (csv : CsvFile) : CsvFile × Bool :=
  ({ csv with
      file := tableText csv.table ++ (trackedText csv.table csv.trackList).1
      trackList := if (trackedText csv.table csv.trackList).2 then [] else csv.trackList },
    (trackedText csv.table csv.trackList).2)

/-- The file has one line for each row, its columns joined by commas. -/
def Written (csv : CsvFile) : Prop :=
  (updateFile csv).2 = true ∧ lines (updateFile csv).1.file = csv.table.map (List.intercalate [','])

def Unbroken (csv : CsvFile) : Prop := ∀ columns ∈ csv.table, ∀ item ∈ columns, ∀ c ∈ item, isBreak c = false

theorem rowText_eq_intercalate :
    ∀ columns : List (List Char), rowText columns = List.intercalate [','] columns
  | [] => rfl
  | [item] => by simp [rowText]
  | item :: item' :: items => by
    have ih := rowText_eq_intercalate (item' :: items)
    simp only [rowText, flatMap_cons] at ih ⊢
    rw [intercalate_cons_cons, ← ih]
    simp

theorem mem_rowText_iff {columns : List (List Char)} {c : Char} (hc : c ≠ ',') :
    c ∈ rowText columns ↔ ∃ item ∈ columns, c ∈ item := by
  cases columns with
  | nil => simp [rowText]
  | cons item items => simp [rowText, hc]

theorem unbroken_iff {columns : List (List Char)} : (∀ c ∈ rowText columns, isBreak c = false) ↔
    ∀ item ∈ columns, ∀ c ∈ item, isBreak c = false := by
  constructor
  · intro h item hi c hc
    by_cases he : c = ','
    · subst he
      rfl
    · exact h c ((mem_rowText_iff he).mpr ⟨item, hi, hc⟩)
  · intro h c hc
    by_cases he : c = ','
    · subst he
      rfl
    · obtain ⟨item, hi, hm⟩ := (mem_rowText_iff he).mp hc
      exact h item hi c hm

theorem lines_tableText : ∀ {table : List (List (List Char))} (rest : List Char),
    (∀ columns ∈ table, ∀ c ∈ rowText columns, isBreak c = false) →
    lines (tableText table ++ rest) = table.map rowText ++ lines rest
  | [], rest, _ => rfl
  | columns :: table, rest, h => by
    have htable : ∀ columns ∈ table, ∀ c ∈ rowText columns, isBreak c = false :=
      fun columns hm => h columns (by simp [hm])
    have htext : tableText (columns :: table) ++ rest = rowText columns ++
        '\n' :: (tableText table ++ rest) := by
      simp [tableText]
    rw [htext, lines_line _ (h columns (by simp)), lines_tableText rest htable]
    rfl

theorem trackedText_eq_nil {table : List (List (List Char))} {trackList : List ℕ}
    (hok : (trackedText table trackList).2 = true) (hnil : (trackedText table trackList).1 = []) :
    trackList = [] := by
  cases trackList with
  | nil => rfl
  | cons index indices =>
    unfold trackedText at hok hnil
    split at hok
    · cases hok
    next columns hcol =>
      rw [hcol] at hnil
      simp at hnil

/-- After any calls on any object, an opened file among them, `updateFile` writes the table exactly
when no row is tracked then and no item breaks the line. -/
theorem written_iff (J : CharTests) (csv : CsvFile) (calls : List Call) :
    Written (calls.foldl (call J) csv) ↔
      (calls.foldl (call J) csv).trackList = [] ∧ Unbroken (calls.foldl (call J) csv) := by
  generalize calls.foldl (call J) csv = csv
  have hjoin : csv.table.map (List.intercalate [',']) = csv.table.map rowText :=
    map_congr_left fun columns _ => (rowText_eq_intercalate columns).symm
  unfold Written updateFile
  rw [hjoin]
  constructor
  · rintro ⟨hok, hlines⟩
    have hrows : ∀ columns ∈ csv.table, ∀ c ∈ rowText columns, isBreak c = false := by
      intro columns hm
      have hl : rowText columns ∈ lines (tableText csv.table ++ (trackedText csv.table csv.trackList).1) := by
        rw [hlines]
        exact mem_map_of_mem hm
      exact isBreak_of_mem_linesFrom (by simp) hl
    rw [lines_tableText _ hrows, append_right_eq_self] at hlines
    exact ⟨trackedText_eq_nil hok (lines_eq_nil hlines), fun columns hm => unbroken_iff.mp (hrows columns hm)⟩
  · rintro ⟨htrack, hitems⟩
    have hrows : ∀ columns ∈ csv.table, ∀ c ∈ rowText columns, isBreak c = false :=
      fun columns hm => unbroken_iff.mpr (hitems columns hm)
    rw [htrack]
    rw [lines_tableText _ hrows]
    simp [trackedText, lines, linesFrom]

def ascii : CharTests :=
  { isLetter := Char.isAlpha, isDigit := Char.isDigit, isWhitespace := Char.isWhitespace }

/-- A file with one row of two columns. -/
def oneRow : List Char := ['a', ',', 'b', '\n']

def oneRowCsv : CsvFile := { table := [[['a'], ['b']]], trackList := [], seperator := ',', file := oneRow }

/-- The added row is written twice. -/
theorem not_written_after_addRow : openFile ascii oneRow ',' = some oneRowCsv ∧
    ¬ Written ([Call.addRow ['c', ',', 'd']].foldl (call ascii) oneRowCsv) := by
  refine ⟨by decide +kernel, ?_⟩
  rintro ⟨-, hlines⟩
  exact absurd hlines (by decide +kernel)

end Code365.Algorithms.Csv
