import Mathlib

/-! # `LongestValidParentheses.java` (`algorithms/java/Dynamic Programming`)

The entry `res[i]` is the length of the longest well-formed part that ends with the character at
`i`.  With the depth after `k` characters, the part from `j` to `e` is well-formed if the depth is
the same at both ends and not less in between (`Closed`); the proof is about the first such `j` for
each `e` (`First`).  An access outside the string gives `none`. -/

namespace Code365.Algorithms.Parentheses

open List Option Function

/-- `res[i]`, from the entries before it. -/
def entry (chars : List Char) (res : ℕ → ℕ) (i : ℕ) : Option ℕ := do
  if (← chars[i]?) = ')' then
    if (← chars[i - 1]?) = '(' then return res (i - 2) + 2
    else
      let index : ℤ := i - res (i - 1) - 1
      if index ≥ 0 then
        if (← chars[index.toNat]?) = '(' then
          return res (i - 1) + 2 + (if index - 1 ≥ 0 then res (index - 1).toNat else 0)
        else return 0
      else return 0
  else return 0

/-- The body of the loop, on `res` and `max`. -/
def step (chars : List Char) (p : (ℕ → ℕ) × ℕ) (i : ℕ) : Option ((ℕ → ℕ) × ℕ) := do
  let r ← entry chars p.1 i
  return (update p.1 i r, max p.2 r)

def getLongestValidParentheses (s : List Char) : Option ℕ :=
  if s.length < 2 then some 0
  else do
    let r := if (← s[1]?) = ')' ∧ (← s[0]?) = '(' then 2 else 0
    let p ← (List.range' 2 (s.length - 2)).foldlM (step s) (update (fun _ => 0) 1 r, r)
    return p.2

/-- As many closing as opening parentheses, and in no prefix more. -/
def WellFormed (w : List Char) : Prop :=
  w.count '(' = w.count ')' ∧ ∀ k, (w.take k).count ')' ≤ (w.take k).count '('

/-! ### Depths -/

structure Closed (d : ℕ → ℤ) (j e : ℕ) : Prop where
  le : j ≤ e
  eq : d j = d e
  ge : ∀ k, j ≤ k → k ≤ e → d e ≤ d k

structure First (d : ℕ → ℤ) (j e : ℕ) : Prop where
  closed : Closed d j e
  first : ∀ i, Closed d i e → j ≤ i

variable {d : ℕ → ℤ} {i j e : ℕ}

theorem first_of_forall (h : ∀ m ≤ e, ¬Closed d m (e + 1)) : First d (e + 1) (e + 1) where
  closed := ⟨le_rfl, rfl, fun k hk hk' => by rw [le_antisymm hk' hk]⟩
  first m hm := by
    by_contra hlt
    exact h m (by omega) hm

theorem first_up (h : d (e + 1) = d e + 1) : First d (e + 1) (e + 1) := by
  apply first_of_forall
  intro m hm hclosed
  have := hclosed.ge e hm (by omega)
  omega

/-- A closing parenthesis whose partner is before the part that ends at `e`. -/
theorem first_open (hf : First d (i + 1) e) (he : d (e + 1) = d e - 1) (hi : d (i + 1) = d i + 1)
    (hj : First d j i) : First d j (e + 1) := by
  obtain ⟨⟨hie, hieq, hige⟩, _⟩ := hf
  obtain ⟨⟨hji, hjeq, hjge⟩, hfirst⟩ := hj
  refine ⟨⟨by omega, by omega, fun k hk hk' => ?_⟩, fun m hm => ?_⟩
  · rcases lt_or_ge i k with hik | hik
    · rcases lt_or_ge e k with hek | hek
      · rw [le_antisymm hk' hek]
      · have := hige k hik hek
        omega
    · have := hjge k hk hik
      omega
  · rcases lt_or_ge i m with him | him
    · omega
    · refine hfirst m ⟨him, by have := hm.eq; omega, fun k hk hk' => ?_⟩
      have := hm.ge k hk (by omega)
      omega

theorem first_none (hf : First d j e) (he : d (e + 1) = d e - 1) (hj : j = 0 ∨ ∃ i, j = i + 1 ∧
    d (i + 1) = d i - 1) (hd : ∀ k < j, d (k + 1) ≤ d k + 1) : First d (e + 1) (e + 1) := by
  obtain ⟨⟨hje, hjeq, hjge⟩, hfirst⟩ := hf
  apply first_of_forall
  intro m hm hclosed
  have heq := hclosed.eq
  have hmj : m < j := by
    by_contra hmj
    have := hjge m (by omega) hm
    omega
  obtain ⟨i, rfl, hi⟩ := hj.resolve_left (by omega)
  -- the last place before the part whose depth is not above that at `e` would begin a longer part
  let k := Nat.findGreatest (fun k => d k ≤ d e) i
  have hk : d k ≤ d e := Nat.findGreatest_spec (P := fun k => d k ≤ d e) (show m ≤ i by omega) (by omega)
  have hki : k ≤ i := Nat.findGreatest_le i
  have hlast : ∀ k', k < k' → k' ≤ i →
    d e < d k' := fun k' h h' => not_le.mp (Nat.findGreatest_is_greatest h h')
  have hne : k ≠ i := by
    intro h
    rw [h] at hk
    omega
  have hnext := hlast (k + 1) (by omega) (by omega)
  have hup := hd k (by omega)
  have hkj := hfirst k ⟨by omega, by omega, fun k' h h' => ?_⟩
  · omega
  · rcases lt_or_ge i k' with hik | hik
    · exact hjge k' hik h'
    · rcases lt_or_eq_of_le h with hlt | rfl
      · exact (hlast k' hlt hik).le
      · omega

/-! ### Strings -/

variable {s : List Char} {res : ℕ → ℕ}

/-- The depth after `k` characters. -/
def depth (s : List Char) (k : ℕ) : ℤ := (s.take k).count '(' - (s.take k).count ')'

theorem count_drop (c : Char) (hje : j ≤ e) :
    ((s.take e).drop j).count c + (s.take j).count c = (s.take e).count c := by
  have h := congrArg (List.count c) (take_append_drop j (s.take e))
  rw [count_append, take_take, min_eq_left hje] at h
  omega

theorem wellFormed_iff (hje : j ≤ e) : WellFormed ((s.take e).drop j) ↔ Closed (depth s) j e := by
  have hdepth : ∀ m, j ≤ m →
      (((s.take m).drop j).count ')' ≤ ((s.take m).drop j).count '(' ↔ depth s j ≤ depth s m) := by
    intro m hm
    have h1 := count_drop (s := s) '(' hm
    have h2 := count_drop (s := s) ')' hm
    rw [depth, depth]
    omega
  have heq : ((s.take e).drop j).count '(' = ((s.take e).drop j).count ')' ↔ depth s j = depth s e := by
    have h1 := count_drop (s := s) '(' hje
    have h2 := count_drop (s := s) ')' hje
    rw [depth, depth]
    omega
  rw [WellFormed, heq]
  constructor
  · rintro ⟨hjeq, hle⟩
    refine ⟨hje, hjeq, fun k hk hk' => ?_⟩
    have h := hle (k - j)
    rw [take_drop, take_take, min_eq_left (by omega), Nat.add_sub_cancel' hk, hdepth k hk] at h
    omega
  · rintro ⟨_, hjeq, hge⟩
    refine ⟨hjeq, fun k => ?_⟩
    rw [take_drop, take_take, hdepth _ (by omega), hjeq]
    exact hge _ (by omega) (by omega)

/-- The length of the longest part that ends before `e`. -/
def len (res : ℕ → ℕ) (e : ℕ) : ℕ := if e = 0 then 0 else res (e - 1)

theorem len_update (he : e ≤ i) (r : ℕ) : len (update res i r) e = len res e := by
  rcases e with _ | e
  · rfl
  · exact update_of_ne (by omega) _ _

/-- The length `r` is right for the end `e`. -/
def Right (s : List Char) (e r : ℕ) : Prop := ∃ j, First (depth s) j e ∧ j + r = e

theorem right_zero : Right s 0 0 :=
  ⟨0, ⟨⟨le_rfl, rfl, fun k _ hk => by rw [Nat.le_zero.mp hk]⟩, fun _ _ => Nat.zero_le _⟩, rfl⟩

theorem entry_close {index : ℤ} (hindex : ((i + 2 : ℕ) : ℤ) - res (i + 1) - 1 = index)
    (hc : s[i + 2]? = some ')') (hc' : s[i + 1]? = some ')') : entry s res (i + 2) = if index ≥
    0 then s[index.toNat]?.bind fun c => if c = '(' then some (res (i + 1) + 2 + if index - 1 ≥
    0 then res (index - 1).toNat else 0) else some 0 else some 0 := by
  subst hindex
  simp only [entry, hc, bind_eq_bind, bind_some, if_true, Nat.add_sub_cancel, hc', Nat.add_succ_sub_one]
  rfl

variable (hs : ∀ c ∈ s, c = '(' ∨ c = ')')

include hs

theorem depth_add_one (h : i < s.length) : s[i]? = some '(' ∧ depth s (i + 1) = depth s i + 1 ∨
    s[i]? = some ')' ∧ depth s (i + 1) = depth s i - 1 := by
  rw [depth, depth, take_add_one, getElem?_eq_getElem h, toList_some, count_append, count_append]
  rcases hs _ (getElem_mem h) with hc | hc
  · left
    rw [hc]
    simp
    omega
  · right
    rw [hc]
    simp
    omega

theorem right_add_one (hi : i < s.length) {r : ℕ} (h : Right s i r) :
    (s[i]? = some '(' → Right s (i + 1) 0) ∧ (s[i]? = some ')' →
    (∀ k, k + 1 + r = i → s[k]? = some '(' → ∀ r', Right s k r' → Right s (i + 1) (r + 2 + r')) ∧
    ((∀ k, k + 1 + r = i → s[k]? = some ')') → Right s (i + 1) 0)) := by
  obtain ⟨j, hj, hjr⟩ := h
  rcases depth_add_one hs hi with ⟨hc, hd⟩ | ⟨hc, hd⟩
  · exact ⟨fun _ => ⟨i + 1, first_up hd, rfl⟩, fun h => absurd (hc.symm.trans h) (by decide)⟩
  refine ⟨fun h => absurd (hc.symm.trans h) (by decide), fun _ =>
    ⟨fun k hk hopen r' ⟨j', hj', hjr'⟩ => ?_, fun hclose => ?_⟩⟩
  · obtain rfl : j = k + 1 := by omega
    rcases depth_add_one hs (show k < s.length by omega) with ⟨_, hd'⟩ | ⟨hc', _⟩
    · exact ⟨j', first_open hj hd hd' hj', by omega⟩
    · exact absurd (hc'.symm.trans hopen) (by decide)
  · refine ⟨i + 1, first_none hj hd ?_ fun k hk => ?_, rfl⟩
    · cases j with
      | zero => exact .inl rfl
      | succ k =>
        rcases depth_add_one hs (show k < s.length by omega) with ⟨hc', _⟩ | ⟨_, hd'⟩
        · exact absurd (hc'.symm.trans (hclose k hjr)) (by decide)
        · exact .inr ⟨k, rfl, hd'⟩
    · rcases depth_add_one hs (show k < s.length by omega) with ⟨_, hd'⟩ | ⟨_, hd'⟩ <;> omega

theorem entry_spec (hi : 2 ≤ i) (hlt : i < s.length) (h : ∀ e ≤ i, Right s e (len res e)) :
    ∃ r, entry s res i = some r ∧ Right s (i + 1) r := by
  obtain ⟨i, rfl⟩ : ∃ k, i = k + 2 := ⟨i - 2, by omega⟩
  rcases depth_add_one hs hlt with ⟨hc, _⟩ | ⟨hc, _⟩
  · exact ⟨0, by simp [entry, hc], (right_add_one hs hlt (h _ le_rfl)).1 hc⟩
  rcases depth_add_one hs (show i + 1 < s.length by omega) with ⟨hc', _⟩ | ⟨hc', _⟩
  · have h0 := (right_add_one hs (by omega) (h (i + 1) (by omega))).1 hc'
    have hr := ((right_add_one hs hlt h0).2 hc).1 (i + 1) rfl hc' _ (h (i + 1) (by omega))
    refine ⟨res i + 2, by simp [entry, hc, hc'], ?_⟩
    rwa [show len res (i + 1) = res i from rfl, show 0 + 2 + res i = res i + 2 by omega] at hr
  obtain ⟨hopen, hclose⟩ := (right_add_one hs hlt (h _ le_rfl)).2 hc
  rw [show len res (i + 2) = res (i + 1) from rfl] at hopen hclose
  by_cases hk : ∃ k, k + 1 + res (i + 1) = i + 2
  · obtain ⟨k, hk⟩ := hk
    have hindex : ((i + 2 : ℕ) : ℤ) - res (i + 1) - 1 = k := by omega
    rcases depth_add_one hs (show k < s.length by omega) with ⟨hck, _⟩ | ⟨hck, _⟩
    · refine ⟨_, ?_, hopen k hk hck _ (h k (by omega))⟩
      rw [entry_close hindex hc hc', if_pos (Int.natCast_nonneg k)]
      cases k <;> simp [hck, len]
    · refine ⟨0, by simp [entry_close hindex hc hc', hck], hclose fun k' hk' => ?_⟩
      rwa [show k' = k by omega]
  · refine ⟨0, ?_, hclose fun k hk' => absurd ⟨k, hk'⟩ hk⟩
    have hneg : ¬((i + 2 : ℕ) : ℤ) - res (i + 1) - 1 ≥ 0 := fun h => hk ⟨i + 1 - res (i + 1), by omega⟩
    rw [entry_close rfl hc hc', if_neg hneg]

/-! ### The loop -/

/-- Before the iteration `n`: the entries are right, and `max` is the greatest of them. -/
structure Inv (s : List Char) (n : ℕ) (p : (ℕ → ℕ) × ℕ) : Prop where
  right : ∀ e ≤ n, Right s e (len p.1 e)
  le : ∀ e ≤ n, len p.1 e ≤ p.2
  eq : ∃ e ≤ n, len p.1 e = p.2

theorem step_inv (hi : 2 ≤ i) (hlt : i < s.length) {p : (ℕ → ℕ) × ℕ} (h : Inv s i p) :
    ∃ q, step s p i = some q ∧ Inv s (i + 1) q := by
  obtain ⟨r, hr, hright⟩ := entry_spec hs hi hlt h.right
  have hnew : len (update p.1 i r) (i + 1) = r := update_self _ _ _
  refine ⟨(update p.1 i r, max p.2 r), by simp only [step, hr, bind_eq_bind, bind_some]; rfl, ?_, ?_, ?_⟩
  · intro e he
    rcases lt_or_eq_of_le he with he | rfl
    · rw [len_update (by omega)]
      exact h.right e (by omega)
    · rwa [hnew]
  · intro e he
    rcases lt_or_eq_of_le he with he | rfl
    · rw [len_update (by omega)]
      exact (h.le e (by omega)).trans (le_max_left _ _)
    · rw [hnew]
      exact le_max_right _ _
  · rcases le_total r p.2 with hle | hle
    · obtain ⟨e, he, heq⟩ := h.eq
      exact ⟨e, by omega, by rw [len_update he, heq, max_eq_left hle]⟩
    · exact ⟨i + 1, le_rfl, by rw [hnew, max_eq_right hle]⟩

theorem foldlM_step (k : ℕ) : ∀ {i : ℕ} {p : (ℕ → ℕ) × ℕ}, 2 ≤ i → i + k = s.length →
    Inv s i p → ∃ q, (List.range' i k).foldlM (step s) p = some q ∧ Inv s s.length q := by
  induction k with
  | zero =>
    rintro i p _ hk h
    exact ⟨p, rfl, hk ▸ h⟩
  | succ k ih =>
    rintro i p hi hk h
    obtain ⟨p', hp', h'⟩ := step_inv hs hi (by omega) h
    obtain ⟨q, hq, h''⟩ := ih (by omega) (by omega) h'
    exact ⟨q, by rw [range'_succ, foldlM_cons, hp', bind_eq_bind, bind_some, hq], h''⟩

theorem right_one (h : 0 < s.length) : Right s 1 0 := by
  obtain ⟨hup, hdown⟩ := right_add_one hs h right_zero
  rcases depth_add_one hs h with ⟨hc, _⟩ | ⟨hc, _⟩
  · exact hup hc
  · exact (hdown hc).2 fun k hk => absurd hk (by omega)

theorem inv_two (h : 2 ≤ s.length) {r : ℕ} (hr : r = if s[1]? = some ')' ∧
    s[0]? = some '(' then 2 else 0) : Inv s 2 (update (fun _ => 0) 1 r, r) := by
  have hright : Right s 2 r := by
    obtain ⟨hup, hdown⟩ := right_add_one hs h (right_one hs (by omega))
    rcases depth_add_one hs h with ⟨hc, _⟩ | ⟨hc, _⟩
    · rw [hr, if_neg (by simp [hc])]
      exact hup hc
    · rcases depth_add_one hs (show 0 < s.length by omega) with ⟨hc', _⟩ | ⟨hc', _⟩
      · rw [hr, if_pos ⟨hc, hc'⟩]
        exact (hdown hc).1 0 rfl hc' 0 right_zero
      · rw [hr, if_neg (by simp [hc'])]
        exact (hdown hc).2 fun k hk => by rwa [show k = 0 by omega]
  refine ⟨fun e he => ?_, fun e he => ?_, 2, le_rfl, rfl⟩
  · obtain rfl | rfl | rfl : e = 0 ∨ e = 1 ∨ e = 2 := by omega
    exacts [right_zero, right_one hs (by omega), hright]
  · obtain rfl | rfl | rfl : e = 0 ∨ e = 1 ∨ e = 2 := by omega
    exacts [Nat.zero_le _, Nat.zero_le _, le_rfl]

theorem getLongestValidParentheses_inv :
    ∃ p, getLongestValidParentheses s = some p.2 ∧ Inv s s.length p := by
  rw [getLongestValidParentheses]
  split
  next hlt =>
    refine ⟨(fun _ => 0, 0), rfl, fun e he => ?_, fun e _ => ?_, 0, Nat.zero_le _, rfl⟩
    · obtain rfl | rfl : e = 0 ∨ e = 1 := by omega
      exacts [right_zero, right_one hs (by omega)]
    · rw [len, ite_self]
  next hlt =>
    obtain ⟨q, hq, hinv⟩ := foldlM_step hs (s.length - 2) le_rfl (by omega) (inv_two hs (by omega) rfl)
    refine ⟨q, ?_, hinv⟩
    rw [getElem?_eq_getElem (by omega), getElem?_eq_getElem (by omega)] at hq ⊢
    simp only [Option.some.injEq] at hq
    simp only [bind_eq_bind, bind_some, hq]
    rfl

omit hs

/-- The value returned is the length of a longest well-formed contiguous part. -/
theorem getLongestValidParentheses_longest (s : List Char) (hs : ∀ c ∈ s, c = '(' ∨ c = ')') :
    ∃ n, getLongestValidParentheses s = some n ∧ (∃ w, w <:+: s ∧ WellFormed w ∧ w.length = n) ∧
      ∀ w, w <:+: s → WellFormed w → w.length ≤ n := by
  obtain ⟨p, hp, hright, hle, e, he, heq⟩ := getLongestValidParentheses_inv hs
  refine ⟨p.2, hp, ?_, ?_⟩
  · obtain ⟨j, hj, hje⟩ := hright e he
    refine ⟨(s.take e).drop j, (drop_suffix _ _).isInfix.trans ( take_prefix _ _).isInfix,
      (wellFormed_iff hj.closed.le).mpr hj.closed, ?_⟩
    rw [length_drop, length_take]
    omega
  · rintro w ⟨a, b, rfl⟩ hw
    have he' : (a ++ w).length ≤ (a ++ w ++ b).length := by simp
    obtain ⟨j, hj, hje⟩ := hright _ he'
    have hpart : ((a ++ w ++ b).take (a ++ w).length).drop a.length = w := by
      rw [take_left, drop_left]
    rw [← hpart, wellFormed_iff (by simp)] at hw
    have hlej := hj.first _ hw
    have hlen := hle _ he'
    rw [length_append] at hje hlen
    omega

theorem getLongestValidParentheses_longest_example :
    ∃ n, getLongestValidParentheses ")()(())(".toList = some n ∧ (∃ w, w <:+: ")()(())(".toList ∧
      WellFormed w ∧ w.length = n) ∧ ∀ w, w <:+: ")()(())(".toList → WellFormed w → w.length ≤ n :=
  getLongestValidParentheses_longest _ (by simp)

end Code365.Algorithms.Parentheses
