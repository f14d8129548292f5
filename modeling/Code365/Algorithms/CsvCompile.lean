import Code365.Lib.While
import Code365.Algorithms.CsvFile

/-! # The columns that `CSVFile.compile` finds in a row

In state 0 `compile` passes over every character that does not open a column, commas too.  So a
column loses what stands before its first letter, digit or quote, and if nothing is left of it the
column itself is lost, unless it is the last one (`compile_intercalate`).  A row is read back
exactly when that changes nothing (`compile_intercalate_iff`). As in `CsvFile`, a Java `char` is a
`Char`. -/

namespace Code365.Algorithms.Csv

open List

/-- Letters and digits come after the blank, and they are not punctuation. -/
def CharTests.Usual (J : CharTests) : Prop :=
  ∀ c, J.isLetter c || J.isDigit c → ' ' < c ∧ isPunctuation c = false

/-- A text without commas, quotes and outer blanks, or a text between quotes. -/
def IsColumn (J : CharTests) (col : List Char) : Prop :=
  ((∀ c ∈ col, J.text c ∧ c ≠ ',' ∧ c ≠ '"') ∧ (∀ c ∈ col.head?, ¬J.isWhitespace c) ∧
    ∀ c ∈ col.getLast?, ¬J.isWhitespace c) ∨ ∃ body, col = '"' :: (body ++ ['"']) ∧
    ∀ c ∈ body, J.text c ∧ c ≠ '"'

/-- The characters that end state 0. -/
def CharTests.opens (J : CharTests) (c : Char) : Bool := J.isLetter c || J.isDigit c || c = '"'

/-- What `compile` keeps of a column. -/
def kept (J : CharTests) (col : List Char) : List Char := col.dropWhile fun c => !J.opens c

variable {J : CharTests} {col : List Char} {c : Char}

theorem opens_of_mem_head? (hc : c ∈ (kept J col).head?) : J.opens c := by
  have h := head?_dropWhile_not (fun c => !J.opens c) col
  rw [show (col.dropWhile fun c => !J.opens c).head? = some c from hc] at h
  simpa using h

theorem kept_eq_self_iff : kept J col = col ↔ ∀ c ∈ col.head?, J.opens c := by
  refine ⟨fun h c hc => opens_of_mem_head? (h ▸ hc), fun h => ?_⟩
  cases col with
  | nil => rfl
  | cons c col => exact dropWhile_cons_of_neg (by simpa using h c rfl)

/-! ### Trimming -/

theorem blank_lt_of_isPunctuation (h : isPunctuation c) : ' ' < c := by
  have hc : 33 ≤ c.toNat := by
    simp only [isPunctuation, mem_append, mem_range'_1, decide_eq_true_eq] at h
    omega
  exact hc

theorem trim_eq_self {s : List Char} (hhead : ∀ c ∈ s.head?, ' ' < c)
    (hlast : ∀ c ∈ s.getLast?, ' ' < c) : trim s = s := by
  have hdrop : ∀ {s : List Char}, (∀ c ∈ s.head?, ' ' < c) → s.dropWhile (· ≤ ' ') = s := by
    intro s hs
    cases s with
    | nil => rfl
    | cons c s => exact dropWhile_cons_of_neg (by simpa using hs c rfl)
  rw [trim, hdrop hhead, hdrop (by rwa [head?_reverse]), reverse_reverse]

section usual

variable (hJ : J.Usual)

include hJ

theorem trim_kept (h : IsColumn J col) : trim (kept J col) = kept J col := by
  refine trim_eq_self (fun c hc => ?_) fun c hc => ?_
  · rcases Bool.or_eq_true_iff.mp (opens_of_mem_head? hc) with hc | hc
    · exact (hJ c hc).1
    · rw [of_decide_eq_true hc]
      decide
  · have hlast : col.getLast? = some c := by
      rw [← takeWhile_append_dropWhile (l := col), getLast?_append,
        show (col.dropWhile fun c => !J.opens c).getLast? = some c from hc]
      rfl
    obtain ⟨htext, _, hblank⟩ | ⟨body, rfl, _⟩ := h
    · have hc := (htext c (mem_of_getLast? hlast)).1
      rw [CharTests.text, eq_false_of_ne_true (hblank c hlast), Bool.or_false, Bool.or_eq_true] at hc
      rcases hc with hc | hc
      · exact (hJ c hc).1
      · exact blank_lt_of_isPunctuation hc
    · rw [← cons_append, getLast?_concat] at hlast
      cases hlast
      decide

theorem not_alnum (hc : isPunctuation c) : (J.isLetter c || J.isDigit c) = false := by
  refine eq_false_of_ne_true fun h => ?_
  rw [(hJ c h).2] at hc
  cases hc

/-! ### One column -/

omit hJ in
theorem foldlM_column {s : Scan} {columns : List (List Char)} {w : List Char}
    (h : ∀ ch ∈ w, ∀ column, compileChar J ',' ⟨s, column, columns⟩ ch =
    some ⟨s, column ++ [ch], columns⟩) (column : List Char) :
    w.foldlM (compileChar J ',') ⟨s, column, columns⟩ = some ⟨s, column ++ w, columns⟩ := by
  induction w generalizing column with
  | nil => rw [append_nil]; rfl
  | cons ch w ih =>
    have hrest := ih (fun ch hch => h ch (mem_cons_of_mem _ hch)) (column ++ [ch])
    rw [append_assoc] at hrest
    rw [foldlM_cons, h ch mem_cons_self]
    exact hrest

/-- A column is read into state 1 or 3, or nothing is left of it. -/
theorem foldlM_kept (h : IsColumn J col) (columns : List (List Char)) :
    ∃ s, col.foldlM (compileChar J ',') ⟨.between, [], columns⟩ = some ⟨s, kept J col, columns⟩ ∧
    s ≠ .quoted ∧ (s = .between ↔ kept J col = []) := by
  obtain ⟨htext, -⟩ | ⟨body, rfl, hbody⟩ := h
  · induction col with
    | nil => exact ⟨.between, rfl, nofun, by simp [kept]⟩
    | cons c col ih =>
      rw [forall_mem_cons] at htext
      by_cases hc : J.isLetter c || J.isDigit c
      · have hkept : kept J (c :: col) = c :: col := dropWhile_cons_of_neg (by rw [CharTests.opens, hc]; simp)
        refine ⟨.plain, ?_, nofun, by simp [hkept]⟩
        rw [hkept, foldlM_cons, compileChar, if_pos hc]
        exact foldlM_column (fun ch hch column => by simp [compileChar, htext.2 ch hch]) [c]
      · have hkept : kept J (c :: col) = kept J col :=
          dropWhile_cons_of_pos (by simp [CharTests.opens, hc, htext.1.2.2])
        rw [hkept, foldlM_cons, compileChar, if_neg hc, if_neg htext.1.2.2]
        exact ih htext.2
  · have hkept : kept J ('"' :: (body ++ ['"'])) = '"' :: (body ++ ['"']) :=
      kept_eq_self_iff.mpr (by simp [CharTests.opens])
    rw [hkept]
    have hbody : body.foldlM (compileChar J ',') ⟨.quoted, ['"'], columns⟩ =
      some ⟨.quoted, '"' :: body, columns⟩ :=
      foldlM_column (fun ch hch column => by simp [compileChar, hbody ch hch]) ['"']
    rw [foldlM_cons, compileChar, if_neg (by simp [not_alnum hJ (c := '"') (by decide)])]
    simp [foldlM_append, hbody, compileChar]

theorem foldlM_comma (h : IsColumn J col) (columns : List (List Char)) (rest : List Char) :
    (col ++ ',' :: rest).foldlM (compileChar J ',') ⟨.between, [], columns⟩ =
    rest.foldlM (compileChar J ',') ⟨.between, [], columns ++ [kept J col].filter (· ≠ [])⟩ := by
  obtain ⟨s, hrun, hs, hiff⟩ := foldlM_kept hJ h columns
  have hcomma : compileChar J ',' ⟨s, kept J col, columns⟩ ',' =
      some ⟨.between, [], columns ++ [kept J col].filter (· ≠ [])⟩ := by
    cases s with
    | between => simp [compileChar, hiff.mp rfl, not_alnum hJ (c := ',') (by decide)]
    | quoted => exact absurd rfl hs
    | plain | closed =>
      have hne : kept J col ≠ [] := mt hiff.mpr nofun
      simp [compileChar, Compiler.finish, trim_kept hJ h, hne]
  rw [List.foldlM_append, hrun, Option.bind_eq_bind, Option.bind_some, foldlM_cons, hcomma]
  rfl

/-! ### The row -/

theorem compile_intercalate {columns : List (List Char)} (h : ∀ col ∈ columns, IsColumn J col)
    (hlast : IsColumn J col) : compile J (List.intercalate [','] (columns ++ [col])) ',' =
    some ((columns.map (kept J)).filter (· ≠ []) ++ [kept J col]) := by
  have hrow : ∀ done, (List.intercalate [','] (columns ++ [col])).foldlM (compileChar J ',')
    ⟨.between, [], done⟩ = col.foldlM (compileChar J ',') ⟨.between, [],
    done ++ (columns.map (kept J)).filter (· ≠ [])⟩ := by
    induction columns with
    | nil => simp
    | cons c columns ih =>
      intro done
      rw [forall_mem_cons] at h
      rw [cons_append, intercalate_cons_of_ne_nil (by simp), append_assoc, singleton_append,
        foldlM_comma hJ h.1, ih h.2, append_assoc, ← filter_append]
      rfl
  obtain ⟨s, hrun, _⟩ := foldlM_kept hJ hlast ((columns.map (kept J)).filter (· ≠ []))
  rw [compile, hrow, nil_append, hrun]
  rfl

end usual

/-- The columns are read back exactly when all but the last are not empty and none of them starts
with punctuation. -/
theorem compile_intercalate_iff (J : CharTests) (hJ : J.Usual) (columns : List (List Char))
    (hne : columns ≠ []) (h : ∀ col ∈ columns, IsColumn J col) :
    compile J (List.intercalate [','] columns) ',' = some columns ↔ (∀ col ∈ columns.dropLast, col ≠
      []) ∧ ∀ col ∈ columns, ∀ c ∈ col.head?, J.isLetter c ∨ J.isDigit c ∨ c = '"' := by
  have hkept : ∀ col, kept J col = col ↔ ∀ c ∈ col.head?, J.isLetter c ∨ J.isDigit c ∨ c = '"' := by
    simp [kept_eq_self_iff, CharTests.opens, or_assoc]
  obtain ⟨init, last, rfl⟩ :
    ∃ init last, columns = init ++ [last] := ⟨_, _, (dropLast_append_getLast hne).symm⟩
  rw [compile_intercalate hJ (fun col hcol => h col (mem_append_left _ hcol)) (h last (by simp)),
    Option.some_inj, dropLast_concat]
  simp only [← hkept]
  constructor
  · intro heq
    obtain ⟨hinit, hlast⟩ := append_inj' heq rfl
    have hall := length_filter_eq_length_iff.mp ((congrArg length hinit).trans (length_map (kept J)).symm)
    rw [filter_eq_self.mpr hall] at hinit
    have hfix : ∀ col ∈ init, kept J col = col := map_inj_left.mp (hinit.trans (map_id init).symm)
    refine ⟨fun col hcol => ?_, fun col hcol => ?_⟩
    · rw [← hfix col hcol]
      exact of_decide_eq_true (hall _ (mem_map_of_mem hcol))
    · rcases mem_append.mp hcol with hcol | hcol
      · exact hfix col hcol
      · rw [mem_singleton.mp hcol]
        exact head_eq_of_cons_eq hlast
  · rintro ⟨hne, hfix⟩
    have hinit : init.map (kept J) = init :=
      (map_congr_left fun col hcol => hfix col (mem_append_left _ hcol)).trans (map_id init)
    rw [hinit, hfix last (by simp), filter_eq_self.mpr fun col hcol => decide_eq_true (hne col hcol)]

theorem usual_ascii : ascii.Usual := by
  intro c hc
  simp only [ascii, Char.isAlpha, Char.isUpper, Char.isLower, Char.isDigit, Bool.or_eq_true,
    Bool.and_eq_true, decide_eq_true_eq, ge_iff_le, UInt32.le_iff_toNat_le] at hc
  change (65 ≤ c.toNat ∧ c.toNat ≤ 90 ∨ 97 ≤ c.toNat ∧ c.toNat ≤ 122) ∨ 48 ≤ c.toNat ∧ c.toNat ≤ 57 at hc
  have hlt : 32 < c.toNat := by omega
  refine ⟨hlt, ?_⟩
  simp only [isPunctuation, mem_append, mem_range'_1, decide_eq_false_iff_not]
  omega

theorem compile_quoted :
    compile ascii "a-b c,\"b,\"".toList ',' = some (["a-b c", "\"b,\""].map String.toList) := by
  refine (compile_intercalate_iff ascii usual_ascii (["a-b c", "\"b,\""].map String.toList) (by decide) ?_).mpr
    (by simp [ascii])
  simp only [map_cons, map_nil, forall_mem_cons]
  exact ⟨.inl (by simp [ascii, CharTests.text, isPunctuation]),
    .inr ⟨['b', ','], rfl, by simp [ascii, CharTests.text, isPunctuation]⟩, forall_mem_nil _⟩

/-- The second column is empty, and it is lost. -/
theorem compile_empty_column : (∀ col ∈ [['a'], [], ['b']], IsColumn ascii col) ∧
    compile ascii (List.intercalate [','] [['a'], [], ['b']]) ',' = some [['a'], ['b']] := by
  refine ⟨fun col hcol => .inl ?_, by decide⟩
  revert col
  simp [ascii, CharTests.text, isPunctuation]

end Code365.Algorithms.Csv
