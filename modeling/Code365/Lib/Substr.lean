import Code365.Lib.Text

/-! # Cutting a `std::string` at positions that may be missing

A position is an `Option ℕ`, with `none` for `npos`.  The arithmetic of `size_t` on such a
position is kept where it shows: `npos + 1` is 0 (`next`), and a count `e - b` below zero
reaches beyond the end of any string (`between`). -/

namespace Code365.Text

open List

/-- `s.find(w, pos)`. -/
def findFrom? (w s : List Char) (pos : ℕ) : Option ℕ := (find? w (s.drop pos)).map (· + pos)

/-- The last occurrence of a character. -/
def rfind? (c : Char) : List Char → Option ℕ
  | [] => none
  | x :: s => ((rfind? c s).map (· + 1)).or (if x = c then some 0 else none)

/-- `s.rfind(c, pos)`: the last occurrence that starts at `pos` or before. -/
def rfindTo? (c : Char) (s : List Char) (pos : ℕ) : Option ℕ := rfind? c (s.take (pos + 1))

def next (pos : Option ℕ) : ℕ := pos.elim 0 (· + 1)

/-- `s.substr(b, e - b)`. -/
def between (s : List Char) (b : ℕ) : Option ℕ → List Char
  | some e => if b ≤ e then (s.drop b).take (e - b) else s.drop b
  | none => s.drop b

/-! ### Searches -/

theorem findFrom?_append (w u s : List Char) :
    findFrom? w (u ++ s) u.length = (find? w s).map (· + u.length) := by
  unfold findFrom?
  rw [drop_left]

variable {a c x : Char} {w s u r : List Char}

theorem apart_of_head_notMem : ∀ {u : List Char}, a ∉ u → apart (a :: w) u
  | [], _ => rfl
  | c :: u, h => by
    have hc : a ≠ c := fun he => h (by simp [he])
    have hu : a ∉ u := fun hu => h (by simp [hu])
    simp [apart, hc, apart_of_head_notMem hu]

/-- A word with its first character nowhere else does not reach into a text that starts with that
character. -/
theorem find?_append_cons (ha : a ∉ w) (s : List Char) : ∀ {u : List Char}, ¬ (a :: w) <:+: u →
    find? (a :: w) (u ++ a :: s) = (find? (a :: w) (a :: s)).map (· + u.length)
  | [], _ => by simp
  | c :: u, hu => by
    have hnot : (a :: w).isPrefixOf (c :: (u ++ a :: s)) = false := by
      rw [Bool.eq_false_iff, ne_eq, isPrefixOf_iff_prefix]
      intro h
      obtain ⟨rfl, hw⟩ := cons_prefix_cons.mp h
      refine hu (IsPrefix.isInfix (cons_prefix_cons.mpr ⟨rfl, ?_⟩))
      rcases prefix_or_prefix_of_prefix hw (prefix_append u (a :: s)) with hu | ⟨t, rfl⟩
      · exact hu
      · rw [prefix_append_right_inj, prefix_cons_iff] at hw
        rcases hw with rfl | ⟨t, rfl, _⟩
        · simp
        · simp at ha
    rw [cons_append, find?, hnot, find?_append_cons ha s fun h => hu (infix_cons h)]
    simp [Function.comp_def, add_assoc]

theorem find?_eq_none_iff : find? w s = none ↔ ¬ w <:+: s := by
  rw [← find?_isSome_iff, Option.not_isSome_iff_eq_none]

variable {i : ℕ}

theorem infix_of_find? (h : find? w s = some i) : w <:+: s := by
  rw [← find?_isSome_iff, h]
  rfl

/-- `w` stands in `s` between `u` and `r`, and nowhere before. -/
structure FirstAt (w s u r : List Char) : Prop where
  eq : s = u ++ (w ++ r)
  first : ∀ u' r', s = u' ++ (w ++ r') → u.length ≤ u'.length

theorem exists_firstAt : ∀ {s : List Char} {i : ℕ}, find? w s = some i →
    ∃ u r, FirstAt w s u r ∧ u.length = i
  | [], i, h => by
    unfold find? at h
    split_ifs at h with hw
    cases h
    rw [List.isEmpty_iff.mp hw]
    exact ⟨[], [], ⟨rfl, fun _ _ _ => Nat.zero_le _⟩, rfl⟩
  | c :: s, i, h => by
    unfold find? at h
    split at h
    next hw =>
      cases h
      obtain ⟨r, hr⟩ := isPrefixOf_iff_prefix.mp hw
      exact ⟨[], r, ⟨hr.symm, fun _ _ _ => Nat.zero_le _⟩, rfl⟩
    next hw =>
      obtain ⟨j, hj, rfl⟩ := Option.map_eq_some_iff.mp h
      obtain ⟨u, r, ⟨hs, hfirst⟩, rfl⟩ := exists_firstAt hj
      refine ⟨c :: u, r, ⟨by rw [cons_append, ← hs], ?_⟩, rfl⟩
      rintro (_ | ⟨c', u'⟩) r' hs'
      · exact absurd ( isPrefixOf_iff_prefix.mpr ⟨r', hs'.symm⟩) hw
      · exact Nat.succ_le_succ (hfirst u' r' (List.cons.inj hs').2)

theorem FirstAt.find? (h : FirstAt w s u r) : Text.find? w s = some u.length := by
  have hpart : w <:+: s := ⟨u, r, by rw [h.eq, append_assoc]⟩
  obtain ⟨i, hi⟩ := Option.isSome_iff_exists.mp ((find?_isSome_iff w s).mpr hpart)
  obtain ⟨u', r', h', rfl⟩ := exists_firstAt hi
  rw [hi, le_antisymm (h'.first u r h.eq) (h.first u' r' h'.eq)]

theorem FirstAt.drop_eq (h : FirstAt w s u r) (hi : Text.find? w s = some i) :
    s.drop (i + w.length) = r := by
  obtain rfl : u.length = i := Option.some.inj (h.find?.symm.trans hi)
  rw [h.eq, ← append_assoc, ← length_append, drop_left]

theorem not_firstAt (hnone : Text.find? w s = none) : ¬ FirstAt w s u r := by
  intro h
  rw [h.find?] at hnone
  cases hnone

theorem rfind?_eq_none : ∀ {s : List Char}, c ∉ s → rfind? c s = none
  | [], _ => rfl
  | x :: s, h => by
    have hx : x ≠ c := fun he => h (by simp [he])
    have hs : c ∉ s := fun hs => h (by simp [hs])
    simp [rfind?, rfind?_eq_none hs, hx]

theorem rfind?_append_of_notMem (h : c ∉ u) :
    ∀ s : List Char, rfind? c (s ++ u) = rfind? c s
  | [] => rfind?_eq_none h
  | x :: s => by
    rw [cons_append, rfind?, rfind?, rfind?_append_of_notMem h s]

theorem rfind?_concat (c : Char) : ∀ s : List Char, rfind? c (s ++ [c]) = some s.length
  | [] => by simp [rfind?]
  | x :: s => by
    rw [cons_append, rfind?, rfind?_concat c s]
    rfl

theorem lt_of_rfind? : ∀ {s : List Char} {i : ℕ}, rfind? c s = some i → i < s.length
  | x :: s, i, h => by
    rw [rfind?, Option.or_eq_some_iff] at h
    rw [length_cons]
    rcases h with h | ⟨_, h⟩
    · obtain ⟨j, hj, rfl⟩ := Option.map_eq_some_iff.mp h
      have := lt_of_rfind? hj
      omega
    · split_ifs at h
      cases h
      omega

theorem lt_of_rfindTo? {pos : ℕ} (h : rfindTo? c s pos = some i) : i < pos + 1 := by
  have := lt_of_rfind? h
  rw [length_take] at this
  omega

/-- Nothing, or a text whose last character is `c`. -/
def EndsWith (c : Char) (s : List Char) : Prop := s = [] ∨ ∃ p, s = p ++ [c]

theorem endsWith_replicate (c : Char) : ∀ n : ℕ, EndsWith c (List.replicate n c)
  | 0 => .inl rfl
  | n + 1 => .inr ⟨List.replicate n c, replicate_succ'⟩

theorem EndsWith.append_left (h : ∃ p, s = p ++ [c]) (u : List Char) : EndsWith c (u ++ s) := by
  obtain ⟨p, rfl⟩ := h
  exact .inr ⟨u ++ p, (append_assoc u p [c]).symm⟩

/-- The word that ends before position `pos` starts after the last blank. -/
theorem next_rfindTo? (hs : EndsWith c s) (hu : c ∉ u) (hx : c ≠ x)
    (v : List Char) : next (rfindTo? c (s ++ (u ++ x :: v)) (s.length + u.length)) = s.length := by
  have htake : (s ++ (u ++ x :: v)).take (s.length + u.length + 1) = s ++ (u ++ [x]) := by
    have hsplit : s ++ (u ++ x :: v) = (s ++ (u ++ [x])) ++ v := by simp
    rw [hsplit, take_left' (by simp; omega)]
  have hux : c ∉ u ++ [x] := by simp [hu, hx]
  unfold rfindTo?
  rw [htake, rfind?_append_of_notMem hux]
  rcases hs with rfl | ⟨p, rfl⟩
  · rfl
  · rw [rfind?_concat]
    simp [next]

/-! ### Cuts -/

theorem between_append (u s v : List Char) :
    between (u ++ (s ++ v)) u.length (some (u.length + s.length)) = s := by
  unfold between
  simp

theorem between_of_lt {b : ℕ} {e : Option ℕ} (h : ∀ i ∈ e, i < b) : between s b e = s.drop b := by
  cases e with
  | none => rfl
  | some i =>
    have hi := h i rfl
    simp only [between]
    rw [if_neg (by omega)]

/-! ### Words of two characters -/

/-- A two character word of a text lies on one side of any seam that it does not lie across. -/
theorem pair_infix_append {b : Char} {v : List Char} : ∀ {u : List Char}, ¬ (u.getLast? = some a ∧
    v.head? = some b) → ([a, b] <:+: u ++ v ↔ [a, b] <:+: u ∨ [a, b] <:+: v)
  | [], _ => by simp
  | [x], h => by
    have hx : ¬ [a, b] <:+: [x] := fun hi => absurd hi.length_le (by simp)
    cases v with
    | nil => simp
    | cons y v =>
      have hxy : ¬ (a = x ∧ b = y) := fun he => h (by simp [he])
      rw [cons_append, infix_cons_iff]
      simp [cons_prefix_cons, hx, hxy]
  | x :: y :: u, h => by
    have hu : ¬ ((y :: u).getLast? = some a ∧ v.head? = some b) := by simpa [getLast?_cons_cons] using h
    rw [cons_append, infix_cons_iff, pair_infix_append hu, ← or_assoc,
      infix_cons_iff (a := x)]
    simp [cons_prefix_cons]

/-! ### Pieces -/

theorem of_mem_splitOn {s l : List Char} (h : l ∈ s.splitOn x) : x ∉ l ∧ l <:+: s := by
  by_cases hx : x ∈ s
  · obtain ⟨u, v, rfl, hu⟩ := eq_append_cons_of_mem hx
    rw [splitOn_append_cons_self, splitOn_eq_singleton hu, singleton_append, mem_cons] at h
    obtain rfl | h := h
    · exact ⟨hu, (prefix_append _ _).isInfix⟩
    · obtain ⟨hl, hv⟩ := of_mem_splitOn h
      exact ⟨hl, hv.trans ⟨u ++ [x], [], by simp⟩⟩
  · rw [splitOn_eq_singleton hx, mem_singleton] at h
    rw [h]
    exact ⟨hx, infix_rfl⟩
termination_by s.length

theorem take_takeWhile_eq_iff {p : Char → Bool} :
    ∀ {n : ℕ} {v r : List Char}, (r.takeWhile p).take n = v.take n ↔ (∀ c ∈ v.take n, p c) ∧
    v.take n <+: r ∧ (v.length < n → ∀ c ∈ (r.drop v.length).head?, p c = false)
  | 0, v, r => by simp
  | n + 1, [], r => by
    cases r with
    | nil => simp
    | cons c r =>
      by_cases hc : p c
      · simp [hc]
      · simp [hc]
  | n + 1, a :: v, [] => by simp
  | n + 1, a :: v, c :: r => by
    have ih := take_takeWhile_eq_iff (p := p) (n := n) (v := v) (r := r)
    rw [take_succ_cons, length_cons, drop_succ_cons, cons_prefix_cons, Nat.add_lt_add_iff_right,
      forall_mem_cons]
    by_cases hc : p c
    · rw [takeWhile_cons_of_pos hc, take_succ_cons, List.cons.injEq, ih]
      constructor
      · rintro ⟨rfl, hall, hprefix, hend⟩
        exact ⟨⟨hc, hall⟩, ⟨rfl, hprefix⟩, hend⟩
      · rintro ⟨⟨_, hall⟩, ⟨rfl, hprefix⟩, hend⟩
        exact ⟨rfl, hall, hprefix, hend⟩
    · rw [takeWhile_cons_of_neg hc, take_nil]
      constructor
      · intro h
        cases h
      · rintro ⟨⟨ha, _⟩, ⟨rfl, _⟩, _⟩
        exact absurd ha hc

end Code365.Text
