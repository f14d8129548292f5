import Code365.Lib.CInt

/-! # C strings and `std::string` searches

Text is a list of characters, one for each `char` of the buffer.  `cstr` is what a function
that takes a `const char *` sees of a buffer: everything before the first NUL.  `find?` is
the position of the first occurrence of a word (`std::string::find`), `strstr` the test
`strstr(buf, word) != NULL`. -/

namespace Code365.Text

open List

/-- The part of a buffer before its first NUL. -/
def cstr (buf : List Char) : List Char := buf.takeWhile (· ≠ '\x00')

/-- Position of the first occurrence of `w` in a text. -/
def find? (w : List Char) : List Char → Option ℕ
  | [] => if w.isEmpty then some 0 else none
  | c :: s => if w.isPrefixOf (c :: s) then some 0 else (find? w s).map (· + 1)

/-- `strstr(buf, w) != NULL`. -/
def strstr (buf w : List Char) : Bool := (find? w (cstr buf)).isSome

def npos : ℕ := 2 ^ 64 - 1

/-- `s.find(w)`. -/
def find (w s : List Char) : ℕ := (find? w s).getD npos

/-- `s.find(w, pos)`. -/
def findFrom (w s : List Char) (pos : ℕ) : ℕ := ((find? w (s.drop pos)).map (· + pos)).getD npos

/-- The value of a `size_t` in an `int`. -/
def toInt (n : ℕ) : ℤ := CInt.wrap n

/-- No occurrence of `w` starts inside `u`, whatever comes after `u`: every end of `u` differs from
`w` where both have a character. -/
def apart (w : List Char) : List Char → Bool
  | [] => true
  | c :: u => (w.zip (c :: u)).any (fun p => p.1 != p.2) && apart w u

variable {buf w : List Char}

theorem cstr_eq_self (h : '\x00' ∉ buf) : cstr buf = buf := by
  unfold cstr
  rw [takeWhile_eq_self_iff]
  intro c hc
  simp only [decide_not, Bool.not_eq_eq_eq_not, Bool.not_true, decide_eq_false_iff_not]
  rintro rfl
  exact h hc

theorem find?_isSome_iff (w : List Char) : ∀ s : List Char, (find? w s).isSome ↔ w <:+: s
  | [] => by
    unfold find?
    cases w <;> simp
  | c :: s => by
    unfold find?
    by_cases h : w.isPrefixOf (c :: s)
    · rw [if_pos h]
      simpa using ( isPrefixOf_iff_prefix.mp h).isInfix
    · rw [if_neg h, Option.isSome_map, find?_isSome_iff w s, infix_cons_iff]
      rw [ isPrefixOf_iff_prefix] at h
      simp [h]

theorem find?_add_length_le :
    ∀ {s : List Char} {i : ℕ}, find? w s = some i → i + w.length ≤ s.length
  | [], i, h => by
    unfold find? at h
    split_ifs at h with hw
    cases h
    rw [List.isEmpty_iff.mp hw]
    exact le_refl 0
  | c :: s, i, h => by
    unfold find? at h
    split at h
    next hw =>
      cases h
      have hle := ( isPrefixOf_iff_prefix.mp hw).length_le
      omega
    · obtain ⟨j, hj, rfl⟩ := Option.map_eq_some_iff.mp h
      have hle := find?_add_length_le hj
      rw [length_cons]
      omega

theorem strstr_iff (h : '\x00' ∉ buf) : strstr buf w ↔ w <:+: buf := by
  unfold strstr
  rw [cstr_eq_self h, find?_isSome_iff]

theorem nul_notMem_cstr (buf : List Char) : '\x00' ∉ cstr buf := by
  intro h
  simpa using mem_takeWhile_imp h

/-- NULs after a text are not seen by the comparison with a word. -/
theorem isPrefixOf_append_nul (n : ℕ) : ∀ {w u : List Char}, '\x00' ∉ w →
    w.isPrefixOf (u ++ List.replicate n '\x00') = w.isPrefixOf u
  | [], _, _ => by simp
  | a :: w, [], h => by
    have ha : a ≠ '\x00' := fun he => h (by simp [he])
    cases n with
    | zero => rfl
    | succ n => simp [replicate_succ, isPrefixOf_cons_cons, ha]
  | a :: w, b :: u, h => by
    have hw : '\x00' ∉ w := fun hw => h (by simp [hw])
    rw [cons_append, isPrefixOf_cons_cons, isPrefixOf_cons_cons, isPrefixOf_append_nul n hw]

theorem cstr_append {u : List Char} (h : '\x00' ∉ u) (s : List Char) :
    cstr (u ++ s) = u ++ cstr s := by
  apply takeWhile_append_of_pos
  intro c hc
  have hne : c ≠ '\x00' := fun he => h (he ▸ hc)
  simpa using hne

theorem find_eq_zero_iff (w s : List Char) : find w s = 0 ↔ w.isPrefixOf s = true := by
  unfold find
  cases s with
  | nil => cases w <;> simp [find?, npos]
  | cons c s =>
    unfold find?
    by_cases h : w.isPrefixOf (c :: s)
    · simp [h]
    · cases find? w s <;> simp [h, npos]

theorem find?_append_self (w s : List Char) : find? w (w ++ s) = some 0 := by
  cases h : w ++ s with
  | nil => simp_all [find?]
  | cons c l => rw [find?, if_pos (by rw [← h, isPrefixOf_iff_prefix]; exact prefix_append w s)]

theorem not_isPrefixOf_append : ∀ {w u : List Char} (s : List Char),
    (w.zip u).any (fun p => p.1 != p.2) → w.isPrefixOf (u ++ s) = false
  | [], _, _, h => by simp at h
  | _ :: _, [], _, h => by simp at h
  | a :: w, c :: u, s, h => by
    simp only [zip_cons_cons, any_cons, Bool.or_eq_true, bne_iff_ne] at h
    rw [cons_append, isPrefixOf_cons_cons, Bool.and_eq_false_iff]
    rcases h with h | h
    · exact .inl (by simpa using h)
    · exact .inr (not_isPrefixOf_append s h)

theorem find?_append_of_apart : ∀ {u : List Char} (s : List Char),
    apart w u → find? w (u ++ s) = (find? w s).map (· + u.length)
  | [], s, _ => by simp
  | c :: u, s, h => by
    simp only [apart, Bool.and_eq_true] at h
    have hp : w.isPrefixOf (c :: (u ++ s)) = false := not_isPrefixOf_append s h.1
    rw [cons_append, find?, hp, find?_append_of_apart s h.2]
    simp [Function.comp_def, add_assoc]

theorem find?_singleton_append {c : Char} : ∀ {u : List Char} (v : List Char), c ∉ u →
    find? [c] (u ++ c :: v) = some u.length
  | [], v, _ => by simp [find?]
  | x :: u, v, h => by
    have hx : c ≠ x := fun he => h (by simp [he])
    have hu : c ∉ u := fun hu => h (by simp [hu])
    rw [cons_append, find?, if_neg (by simpa using hx), find?_singleton_append v hu]
    rfl

theorem find?_singleton_eq_none {c : Char} {s : List Char} (h : c ∉ s) : find? [c] s = none := by
  rw [← Option.not_isSome_iff_eq_none, find?_isSome_iff]
  exact fun hi => h (hi.subset (mem_singleton_self c))

theorem toInt_of_lt {n : ℕ} (h : n < 2 ^ 31) :
    toInt n = n := CInt.wrap_eq_self (by omega) (by omega)

theorem toInt_npos : toInt npos = -1 := by decide

theorem toInt_bounds (n : ℕ) : -2 ^ 31 ≤ toInt n ∧ toInt n < 2 ^ 31 := CInt.wrap_bounds n

end Code365.Text
