import Code365.Lib.Borders

/-! # `KMP.java` (`algorithms/java/Others`)

The search of Knuth, Morris and Pratt.  The symbols are those of any type; `charAt` and the accesses
to `pi` are checked, and give `none` outside the string or the array.

Both functions keep in `q` the length of the longest prefix of the needle at the end of what has
been read (`Longest`), and `advance` are the lines in which they agree. -/

namespace Code365.Algorithms.Kmp

open List

variable {α : Type} [DecidableEq α]

/-- The loop `while (q > 0 && c != P.charAt(q))`, with at most `fuel` rounds. -/
def fallBack (P : List α) (pi : List ℕ) (c : α) : ℕ → ℕ → Option ℕ
  | 0, _ => none
  | fuel + 1, q =>
    if q > 0 then do
      if c ≠ (← P[q]?) then fallBack P pi c fuel (← pi[q - 1]?)
      else return q
    else some q

/-- The new value of `q` when the symbol `c` is read. -/
def advance (P : List α) (pi : List ℕ) (c : α) (q : ℕ) : Option ℕ := do
  let q ← fallBack P pi c (q + 1) q
  if c = (← P[q]?) then return q + 1
  else return q

/-- The body of the loop of `computePrefixFunction`. -/
def prefixStep (P : List α) (s : List ℕ × ℕ) (i : ℕ) : Option (List ℕ × ℕ) := do
  let q ← advance P s.1 (← P[i]?) s.2
  return (s.1.set i q, q)

def computePrefixFunction (P : List α) : Option (List ℕ) := do
  let n := P.length
  guard (0 < n)
  let (pi, _) ← (List.range' 1 (n - 1)).foldlM (prefixStep P) (List.replicate n 0, 0)
  return pi

/-- The line that is printed for a position. -/
def line (position : ℕ) : String := "Pattern starts: " ++ toString position

/-- The loop of `KMPmatcher` over the rest of the haystack, from index `i`: the lines that are
printed. -/
def matchLoop (needle : List α) (pi : List ℕ) : ℕ → ℕ → List α → Option (List String)
  | _, _, [] => some []
  | i, q, c :: rest => do
    let q ← advance needle pi c q
    if q = needle.length then
      let lines ← matchLoop needle pi (i + 1) (← pi[q - 1]?) rest
      return line (i + 1 - needle.length) :: lines
    else matchLoop needle pi (i + 1) q rest

def kmpMatcher (haystack needle : List α) : Option (List String) := do
  let pi ← computePrefixFunction needle
  matchLoop needle pi 0 0 haystack

/-! ### The prefix function -/

variable {P s : List α} {pi : List ℕ} {b q i : ℕ} {c : α}

theorem fallBack_spec (hb : b < P.length) (hpi : IsFailure P b pi) :
    ∀ {fuel q : ℕ}, q < fuel → Candidate P s b c q → ∃ q', fallBack P pi c fuel q = some q' ∧
    Candidate P s b c q' ∧ (q' = 0 ∨ P[q']? = some c)
  | 0, _, hfuel, _ => absurd hfuel (Nat.not_lt_zero _)
  | fuel + 1, 0, _, h => ⟨0, rfl, h, .inl rfl⟩
  | fuel + 1, q + 1, hfuel, h => by
    have hle := h.le
    have hq : q + 1 < P.length := by omega
    obtain ⟨f, hf, hlongest⟩ := hpi q (by omega)
    rw [fallBack, if_pos (Nat.succ_pos q), getElem?_eq_getElem hq, Option.bind_eq_bind, Option.bind_some]
    split_ifs with hc
    · have hne : P[q + 1]? ≠ some c := by
        rw [getElem?_eq_getElem hq]
        exact fun h => hc (Option.some.inj h).symm
      have hfq := hlongest.le
      rw [Nat.add_sub_cancel, hf, Option.bind_eq_bind, Option.bind_some]
      exact fallBack_spec hb hpi (by omega) (h.fall hne hlongest)
    · refine ⟨q + 1, rfl, h, .inr ?_⟩
      rw [getElem?_eq_getElem hq, not_not.mp hc]

theorem advance_spec (hb : b < P.length) (hpi : IsFailure P b pi) (h : Longest P s b q) (c : α) :
    ∃ q', advance P pi c q = some q' ∧ Longest P (s ++ [c]) (b + 1) q' := by
  obtain ⟨q', hfall, hcand, hend⟩ := fallBack_spec hb hpi (Nat.lt_succ_self q) (h.candidate c)
  have hle := hcand.le
  have hq' : q' < P.length := by omega
  simp only [advance, hfall, Option.bind_eq_bind, Option.bind_some, getElem?_eq_getElem hq']
  split_ifs with hc
  · refine ⟨q' + 1, rfl, hcand.longest_of_eq hb ?_⟩
    rw [getElem?_eq_getElem hq', hc]
  · have hne : P[q']? ≠ some c := by
      rw [getElem?_eq_getElem hq']
      exact fun h => hc (Option.some.inj h).symm
    obtain rfl : q' = 0 := hend.resolve_right hne
    exact ⟨0, rfl, hcand.longest_of_ne hb hne⟩

theorem prefixLoop_spec : ∀ (k : ℕ) {i q : ℕ} {pi : List ℕ}, i + 1 + k = P.length →
    pi.length = P.length → IsFailure P (i + 1) pi → Longest P (P.take (i + 1)) i q → ∃ pi' q',
    (range' (i + 1) k).foldlM (prefixStep P) (pi, q) = some (pi', q') ∧ IsFailure P P.length pi'
  | 0, i, q, pi, hk, _, hpi, _ => ⟨pi, q, rfl, by rwa [← hk]⟩
  | k + 1, i, q, pi, hk, hlen, hpi, hq => by
    have hi : i + 1 < P.length := by omega
    obtain ⟨q', hadvance, hq'⟩ := advance_spec (by omega) (fun j hj => hpi j (by omega)) hq P[i + 1]
    rw [take_append_getElem hi] at hq'
    obtain ⟨pi', q'', hrun, hpi'⟩ := prefixLoop_spec k (by omega) (by rw [length_set, hlen])
      (hpi.set (by omega) hq') hq'
    refine ⟨pi', q'', ?_, hpi'⟩
    rw [range'_succ, foldlM_cons, prefixStep, getElem?_eq_getElem hi]
    simp only [Option.bind_eq_bind, Option.bind_some, hadvance]
    exact hrun

/-- The table holds, for each prefix of the needle, the longest proper one at its end. -/
theorem computePrefixFunction_spec (hP : P ≠ []) :
    ∃ pi, computePrefixFunction P = some pi ∧ IsFailure P P.length pi := by
  have hpos := length_pos_of_ne_nil hP
  have hzero : Longest P (P.take 1) 0 0 := ⟨le_rfl, by simp, fun k hk _ => hk⟩
  have hstart : IsFailure P 1 (replicate P.length 0) := by
    intro j hj
    obtain rfl : j = 0 := by omega
    exact ⟨0, getElem?_replicate_of_lt hpos, hzero⟩
  obtain ⟨pi, q, hrun, hpi⟩ := prefixLoop_spec (P.length - 1) (by omega) length_replicate hstart hzero
  refine ⟨pi, ?_, hpi⟩
  simp [computePrefixFunction, guard, hpos, hrun]

/-! ### The search -/

variable {haystack needle : List α}

/-- The positions at which the needle stands in the haystack. -/
def occurrences (haystack needle : List α) : List ℕ :=
  (List.range haystack.length).filter fun i => needle <+: haystack.drop i

/-- A line is printed after each symbol at which the needle ends. -/
theorem matchLoop_spec (hpi : IsFailure needle needle.length pi) (hb : needle.length = b + 1) :
    ∀ {rest : List α} {i q : ℕ}, haystack.drop i = rest → Longest needle (haystack.take i) b q →
    matchLoop needle pi i q rest = some (((range' i rest.length).filter fun j =>
    needle <:+ haystack.take (j + 1)).map fun j => line (j + 1 - needle.length))
  | [], i, q, _, _ => rfl
  | c :: rest, i, q, hrest, hq => by
    have hi : i < haystack.length := by
      by_contra hi
      rw [drop_eq_nil_of_le (by omega)] at hrest
      cases hrest
    obtain ⟨rfl, rfl⟩ := cons.inj ((drop_eq_getElem_cons hi).symm.trans hrest)
    obtain ⟨q', hadvance, hq'⟩ := advance_spec (by omega) (fun j hj => hpi j (by omega)) hq haystack[i]
    rw [take_append_getElem hi] at hq'
    rw [matchLoop, hadvance, Option.bind_eq_bind, Option.bind_some, length_cons, range'_succ]
    by_cases hmatch : needle <:+ haystack.take (i + 1)
    · obtain rfl : q' = b + 1 := le_antisymm hq'.le (hq'.max _ le_rfl (by rwa [← hb, take_length]))
      obtain ⟨f, hf, hlongest⟩ := hpi b (by omega)
      have hnext := matchLoop_spec hpi hb rfl (hq'.after_match hlongest)
      rw [if_pos hb.symm, Nat.add_sub_cancel, hf, Option.bind_some, hnext,
        filter_cons_of_pos (by simpa using hmatch)]
      rfl
    · have hne : q' ≠ b + 1 := by
        rintro rfl
        have hsuffix := hq'.suffix
        rw [← hb, take_length] at hsuffix
        exact hmatch hsuffix
      rw [if_neg (by rwa [hb]), filter_cons_of_neg (by simpa using hmatch)]
      exact matchLoop_spec hpi hb rfl (hq'.of_lt hne)

omit [DecidableEq α] in
theorem suffix_take_iff {j : ℕ} (hj : j < haystack.length) : needle <:+ haystack.take (j + 1) ↔
    needle.length ≤ j + 1 ∧ needle <+: haystack.drop (j + 1 - needle.length) := by
  have hlen : (haystack.take (j + 1)).length = j + 1 := by rw [length_take]; omega
  rw [suffix_iff_eq_drop, prefix_iff_eq_take, hlen, drop_take]
  by_cases hle : needle.length ≤ j + 1
  · rw [Nat.sub_sub_self hle]
    exact (and_iff_right hle).symm
  · simp only [hle, false_and, iff_false]
    intro h
    have hl := congrArg length h
    rw [length_take, length_drop] at hl
    omega

theorem map_ends (hneedle : needle ≠ []) :
    ((range haystack.length).filter fun j => needle <:+ haystack.take (j + 1)).map (fun j =>
    j + 1 - needle.length) = occurrences haystack needle := by
  have hpos := length_pos_of_ne_nil hneedle
  refine List.Pairwise.eq_of_mem_iff ?_ (pairwise_lt_range.filter _) fun i => ?_
  · rw [pairwise_map]
    apply (pairwise_lt_range.filter _).imp_of_mem
    intro j k hj _ hjk
    rw [mem_filter, mem_range, decide_eq_true_eq] at hj
    have := ((suffix_take_iff hj.1).mp hj.2).1
    omega
  · simp only [occurrences, mem_map, mem_filter, mem_range, decide_eq_true_eq]
    constructor
    · rintro ⟨j, ⟨hj, hs⟩, rfl⟩
      obtain ⟨_, hdrop⟩ := (suffix_take_iff hj).mp hs
      exact ⟨by omega, hdrop⟩
    · rintro ⟨hi, hdrop⟩
      have hlen := hdrop.length_le
      rw [length_drop] at hlen
      refine ⟨i + needle.length - 1, ⟨by omega, (suffix_take_iff (by omega)).mpr ?_⟩, by omega⟩
      rw [Nat.sub_add_cancel (by omega), Nat.add_sub_cancel]
      exact ⟨by omega, hdrop⟩

/-- For every needle that is not empty, the positions printed are those at which it stands in the
haystack, each once and in increasing order, and no access is outside the strings or the table. -/
theorem kmpMatcher_prints (haystack needle : List α) (hneedle : needle ≠ []) :
    kmpMatcher haystack needle = some ((occurrences haystack needle).map line) := by
  obtain ⟨pi, hpi, hfailure⟩ := computePrefixFunction_spec hneedle
  obtain ⟨b, hb⟩ : ∃ b, needle.length = b + 1 := Nat.exists_eq_add_one.mpr (length_pos_of_ne_nil hneedle)
  have hstart : Longest needle (haystack.take 0) b 0 :=
    ⟨Nat.zero_le _, by simp, fun k hk hs => by
      have := hs.length_le
      simp only [length_take, take_zero, length_nil] at this
      omega⟩
  rw [kmpMatcher, hpi, Option.bind_eq_bind, Option.bind_some, matchLoop_spec hfailure hb drop_zero hstart,
    ← map_ends hneedle, map_map, ← range_eq_range']
  rfl

theorem kmpMatcher_prints_example : "aa".toList ≠ [] ∧ kmpMatcher "aaabaa".toList "aa".toList =
      some ["Pattern starts: 0", "Pattern starts: 1", "Pattern starts: 4"] :=
  ⟨by decide, kmpMatcher_prints _ _ (by decide)⟩

end Code365.Algorithms.Kmp
