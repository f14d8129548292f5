import Code365.Lib.While
import Code365.Algorithms.QuineMcCluskey

/-! # `quine_mc_cluskey.py`: the result of `check` is the set of prime implicants

An implicant is a pattern all of whose words are among the strings that `check` starts with.  The
strings of round `t` are the implicants with `t` wild cards (`IsRound`): a pattern that is joined
from two implicants is one, and every implicant with a wild card is joined from its two halves.  A
string of a round is left unmarked just when it is prime (`IsRound.prime_iff`). -/

namespace Code365.Algorithms.QuineMcCluskey

open Option List Function Pattern

variable {n t t' : ℕ} {x y k p1 p2 : List Char} {B binary : List (List Char)} {c : Char}

/-! ### Implicants -/

/-- The words of a pattern. -/
def Instances (x : List Char) : Set (List Char) := {a | Digits a ∧ Matches '_' x a}

def Implicant (B : List (List Char)) (x : List Char) : Prop := ∀ a ∈ Instances x, a ∈ B

/-- A pattern over `0`, `1`, `_` that is an implicant and is covered by no larger one. -/
structure Prime (n : ℕ) (B : List (List Char)) (x : List Char) : Prop where
  shape : ∃ t, Shape n t x
  implicant : Implicant B x
  largest : ¬ ∃ y, (∃ t, Shape n t y) ∧ Implicant B y ∧ Instances x ⊂ Instances y

theorem instances_subset_iff (hx : Shape n t x) : Instances x ⊆ Instances y ↔ Matches '_' y x := by
  constructor
  · intro h
    exact matches_of_covers (by decide) hx.chars fun a ha hmatch => (h ⟨ha, hmatch⟩).2
  · exact fun h a ha => ⟨ha.1, h.trans ha.2⟩

theorem instances_ssubset_iff (hx : Shape n t x) (hy : Shape n t' y) :
    Instances x ⊂ Instances y ↔ Matches '_' y x ∧ y ≠ x := by
  rw [ssubset_iff_subset_not_subset, instances_subset_iff hx, instances_subset_iff hy]
  refine and_congr_right fun hyx => not_congr ⟨fun hxy => hyx.antisymm hxy, ?_⟩
  rintro rfl
  exact matches_refl _ _

theorem Joined.implicant_iff (h : Joined '_' x y k) (hx : Shape n t x) (hy : Shape n t y) :
    Implicant B k ↔ Implicant B x ∧ Implicant B y := by
  constructor
  · intro hk
    exact ⟨fun a ha => hk a ⟨ha.1, h.matches_of_left ha.2⟩, fun a ha =>
      hk a ⟨ha.1, h.symm.matches_of_left ha.2⟩⟩
  · rintro ⟨hx', hy'⟩ a ⟨ha, hmatch⟩
    rcases h.matches_or hx.chars hy.chars ha hmatch with hmatch | hmatch
    · exact hx' a ⟨ha, hmatch⟩
    · exact hy' a ⟨ha, hmatch⟩

theorem Shape.middle {d : Char} (h : Shape n t (p1 ++ c :: p2)) (hd : d = '0' ∨ d = '1' ∨ d = '_')
    (ht : t + [d].count '_' = t' + [c].count '_') : Shape n t' (p1 ++ d :: p2) := by
  refine ⟨by simpa using h.length, fun b hb => ?_, ?_⟩
  · rcases mem_append.mp hb with hb | hb
    · exact h.chars b (mem_append_left _ hb)
    · rcases mem_cons.mp hb with rfl | hb
      · exact hd
      · exact h.chars b (mem_append_right _ (mem_cons_of_mem _ hb))
  · have hwild := h.wild
    rw [append_cons, count_append, count_append] at hwild
    rw [append_cons, count_append, count_append]
    omega

theorem Shape.replace (h : Shape n (t + 1) (p1 ++ '_' :: p2)) (hc : c = '0' ∨ c = '1') :
    Shape n t (p1 ++ c :: p2) := by
  apply h.middle (hc.imp_right .inl)
  rcases hc with rfl | rfl <;> rfl

theorem Shape.widen (h : Shape n t (p1 ++ c :: p2)) (hc : c ≠ '_') :
    Shape n (t + 1) (p1 ++ '_' :: p2) := by
  apply h.middle (.inr (.inr rfl))
  rw [count_singleton_self, List.count_eq_zero.mpr fun h => hc (mem_singleton.mp h).symm]

theorem Joined.shape (h : Joined '_' x y k) (hx : Shape n t x) (hy : Shape n t y) :
    Shape n (t + 1) k := by
  refine ⟨h.length_eq.trans hx.length, fun c hc => ?_, ?_⟩
  · rcases h.mem hc with rfl | hc
    · exact .inr (.inr rfl)
    · exact hx.chars c hc
  · rw [h.count_eq (hx.wild.trans hy.wild.symm), hx.wild]

theorem exists_halves (hk : Shape n (t + 1) k) :
    ∃ x y, Joined '_' x y k ∧ Shape n t x ∧ Shape n t y := by
  have hmem : '_' ∈ k := count_pos_iff.mp (by rw [hk.wild]; omega)
  obtain ⟨p1, p2, rfl⟩ := append_of_mem hmem
  exact ⟨p1 ++ '0' :: p2, p1 ++ '1' :: p2, .intro p1 p2 (by decide), hk.replace (.inl rfl),
    hk.replace (.inr rfl)⟩

theorem exists_implicant_of_le (hle : t ≤ t') (hx : Shape n t' x) (himp : Implicant B x) :
    ∃ y, Shape n t y ∧ Implicant B y := by
  induction hle generalizing x with
  | refl => exact ⟨x, hx, himp⟩
  | step _ ih =>
    obtain ⟨y, z, hjoin, hy, hz⟩ := exists_halves hx
    exact ih hy ((Joined.implicant_iff hjoin hy hz).mp himp).1

/-- A pattern that is not prime is joined with another one to an implicant. -/
theorem prime_iff_not_joined (hx : Shape n t x) (himp : Implicant B x) :
    Prime n B x ↔ ¬ ∃ y k, Shape n t y ∧ Implicant B y ∧ Joined '_' x y k := by
  constructor
  · rintro hprime ⟨y, k, hy, hyimp, hjoin⟩
    have hk : Shape n (t + 1) k := Joined.shape hjoin hx hy
    have hne : k ≠ x := by
      rintro rfl
      have := hk.wild.symm.trans hx.wild
      omega
    have hmatch : Matches '_' k x := hjoin.matches_of_left (matches_refl _ _)
    exact hprime.largest ⟨k, ⟨t + 1, hk⟩, (Joined.implicant_iff hjoin hx hy).mpr ⟨himp, hyimp⟩,
      (instances_ssubset_iff hx hk).mpr ⟨hmatch, hne⟩⟩
  · intro hnone
    refine ⟨⟨t, hx⟩, himp, ?_⟩
    rintro ⟨y, ⟨t', hy⟩, hyimp, hlt⟩
    obtain ⟨hmatch, hne⟩ := (instances_ssubset_iff hx hy).mp hlt
    obtain ⟨p1, c, p2, rfl, hc, hwide⟩ := hmatch.exists_wild hne
    have hk := hx.widen hc
    -- the other half of the wider pattern
    obtain ⟨d, hd, hcd⟩ : ∃ d, (d = '0' ∨ d = '1') ∧ c ≠ d := by
      by_cases hc0 : c = '0'
      · exact ⟨'1', .inr rfl, by rw [hc0]; decide⟩
      · exact ⟨'0', .inl rfl, hc0⟩
    have hjoin : Joined '_' (p1 ++ c :: p2) (p1 ++ d :: p2) (p1 ++ '_' :: p2) := .intro p1 p2 hcd
    have hkimp : Implicant B (p1 ++ '_' :: p2) := fun a ha => hyimp a ⟨ha.1, hwide.trans ha.2⟩
    exact hnone ⟨_, _, hk.replace hd, ((Joined.implicant_iff hjoin hx (hk.replace hd)).mp hkimp).2, hjoin⟩

/-- Every implicant is below a prime one: one that is not prime is joined to an implicant with a
wild card more. -/
theorem exists_prime (hx : Shape n t x) (himp : Implicant B x) :
    ∃ y, Prime n B y ∧ Matches '_' y x := by
  induction hm : n - t generalizing t x with
  | zero =>
    refine ⟨x, (prime_iff_not_joined hx himp).mpr ?_, matches_refl _ _⟩
    rintro ⟨y, k, hy, _, hjoin⟩
    have hle := (Joined.shape hjoin hx hy).le
    omega
  | succ m ih =>
    by_cases hprime : Prime n B x
    · exact ⟨x, hprime, matches_refl _ _⟩
    · rw [prime_iff_not_joined hx himp, not_not] at hprime
      obtain ⟨y, k, hy, hyimp, hjoin⟩ := hprime
      obtain ⟨z, hz, hmatch⟩ := ih (Joined.shape hjoin hx hy)
        ((Joined.implicant_iff hjoin hx hy).mpr ⟨himp, hyimp⟩) (by omega)
      exact ⟨z, hz, hmatch.trans (hjoin.matches_of_left (matches_refl _ _))⟩

/-! ### What a round finds -/

theorem compareLoop_self : ∀ p : List Char, compareLoop p p = some (0, p)
  | [] => rfl
  | c :: p => by simp [compareLoop, compareLoop_self p]

theorem compareString_of_joined (h : Joined '_' x y k) : compareString x y = some (some k) := by
  obtain ⟨p1, p2, hcd⟩ := h
  have hloop : ∀ p1 : List Char, ∀ {c d : Char}, c ≠ d →
      compareLoop (p1 ++ c :: p2) (p1 ++ d :: p2) = some (1, p1 ++ '_' :: p2) := by
    intro p1 c d hcd
    induction p1 with
    | nil => simp [compareLoop, compareLoop_self, hcd]
    | cons b p1 ih => simp [compareLoop, ih]
  simp [compareString, hloop p1 hcd]

/-- What the marks and `temp` are after some comparisons. -/
structure Compared (binary : List (List Char)) (l : List (Fin binary.length × Fin binary.length))
    (s : Marks binary) : Prop where
  temp : ∀ k, k ∈ s.2 ↔ ∃ ij ∈ l, Joined '_' (binary.get ij.1) (binary.get ij.2) k
  marked : ∀ i, s.1 i ≠ '$' ↔ ∃ ij ∈ l, (i = ij.1 ∨ i = ij.2) ∧
    ∃ k, Joined '_' (binary.get ij.1) (binary.get ij.2) k

variable {l : List (Fin binary.length × Fin binary.length)} {s : Marks binary}

theorem Compared.step (h : Compared binary l s) (hshape : ∀ x ∈ binary, Shape n t x)
    {ij : Fin binary.length × Fin binary.length} (hij : binary.get ij.1 ≠ binary.get ij.2) :
    ∃ s', compareStep binary s ij = some s' ∧ Compared binary (l ++ [ij]) s' := by
  have hlen := (hshape _ (get_mem binary ij.1)).length.trans (hshape _ (get_mem binary ij.2)).length.symm
  rcases compareString_spec hlen hij with hrun | ⟨k, hrun, hjoin⟩
  · have hnone : ∀ k, ¬ Joined '_' (binary.get ij.1) (binary.get ij.2) k := by
      intro k hk
      rw [compareString_of_joined hk] at hrun
      cases hrun
    refine ⟨s, by rw [compareStep, hrun]; rfl, fun k => ?_, fun i => ?_⟩
    · simp only [h.temp, mem_append, mem_singleton, or_and_right, exists_or, exists_eq_left, hnone, or_false]
    · simp only [h.marked, mem_append, mem_singleton, or_and_right, exists_or, exists_eq_left,
        hnone, exists_false, and_false, or_false]
  · have hk : ∀ k', Joined '_' (binary.get ij.1) (binary.get ij.2) k' ↔ k' = k := by
      intro k'
      constructor
      · intro hk'
        rw [compareString_of_joined hk'] at hrun
        exact some.inj (some.inj hrun)
      · rintro rfl
        exact hjoin
    refine ⟨(update (update s.1 ij.1 '*') ij.2 '*', s.2 ++ [k]), by rw [compareStep, hrun]; rfl,
      fun k' => ?_, fun i => ?_⟩
    · simp only [mem_append, mem_singleton, or_and_right, exists_or, exists_eq_left, hk, h.temp]
    · have hupdate : update (update s.1 ij.1 '*') ij.2 '*' i ≠ '$' ↔
          s.1 i ≠ '$' ∨ i = ij.1 ∨ i = ij.2 := by
        simp only [update_apply]
        by_cases h2 : i = ij.2
        · simp [h2]
        · by_cases h1 : i = ij.1 <;> simp [h1, h2]
      simp only [hupdate, mem_append, mem_singleton, or_and_right, exists_or, exists_eq_left, hk,
        exists_eq, and_true, h.marked]

theorem Compared.foldlM (h : Compared binary [] s) (hshape : ∀ x ∈ binary, Shape n t x)
    (hl : ∀ ij ∈ l, binary.get ij.1 ≠ binary.get ij.2) :
    ∃ s', l.foldlM (compareStep binary) s = some s' ∧ Compared binary l s' :=
  foldlM_induct h fun _ ij _ hij h => h.step hshape (hl ij hij)

theorem mem_pairs_iff {m : ℕ} {ij : Fin m × Fin m} : ij ∈ pairs m ↔ ij.1 < ij.2 := by
  obtain ⟨i, j⟩ := ij
  simp [pairs]

theorem exists_compared (hnodup : binary.Nodup) (hshape : ∀ x ∈ binary, Shape n t x) :
    ∃ s, (pairs binary.length).foldlM (compareStep binary) (fun _ => '$', []) = some s ∧
    (∀ k, k ∈ s.2 ↔ ∃ x ∈ binary, ∃ y ∈ binary, Joined '_' x y k) ∧ ∀ i, s.1 i ≠ '$' ↔
    ∃ y ∈ binary, ∃ k, Joined '_' (binary.get i) y k := by
  have hstart : Compared binary [] (fun _ => '$', []) := ⟨by simp, by simp⟩
  obtain ⟨s, hrun, h⟩ := hstart.foldlM hshape fun ij hij => ne_of_mem_pairs hnodup hij
  have hpair : ∀ i j k, Joined '_' (binary.get i) (binary.get j) k → i < j ∨ j < i := by
    intro i j k hjoin
    apply lt_or_gt_of_ne
    rintro rfl
    have hself : compareString (binary.get i) (binary.get i) = some (some (binary.get i)) := by
      simp [compareString, compareLoop_self]
    rw [compareString_of_joined hjoin, some.injEq, some.injEq] at hself
    have := hjoin.count_eq rfl
    rw [hself] at this
    omega
  refine ⟨s, hrun, fun k => ?_, fun i => ?_⟩
  · rw [h.temp]
    constructor
    · rintro ⟨ij, _, hjoin⟩
      exact ⟨_, get_mem binary ij.1, _, get_mem binary ij.2, hjoin⟩
    · rintro ⟨x, hx, y, hy, hjoin⟩
      obtain ⟨i, rfl⟩ := get_of_mem hx
      obtain ⟨j, rfl⟩ := get_of_mem hy
      rcases hpair i j k hjoin with hij | hij
      · exact ⟨(i, j), mem_pairs_iff.mpr hij, hjoin⟩
      · exact ⟨(j, i), mem_pairs_iff.mpr hij, hjoin.symm⟩
  · rw [h.marked]
    constructor
    · rintro ⟨ij, _, rfl | rfl, k, hjoin⟩
      · exact ⟨_, get_mem binary ij.2, k, hjoin⟩
      · exact ⟨_, get_mem binary ij.1, k, hjoin.symm⟩
    · rintro ⟨y, hy, k, hjoin⟩
      obtain ⟨j, rfl⟩ := get_of_mem hy
      rcases hpair i j k hjoin with hij | hij
      · exact ⟨(i, j), mem_pairs_iff.mpr hij, .inl rfl, k, hjoin⟩
      · exact ⟨(j, i), mem_pairs_iff.mpr hij, .inr rfl, k, hjoin.symm⟩

/-! ### The rounds -/

/-- The strings of round `t`: the implicants with `t` wild cards, each once. -/
structure IsRound (n : ℕ) (B : List (List Char)) (t : ℕ) (binary : List (List Char)) : Prop where
  nodup : binary.Nodup
  mem_iff : ∀ x, x ∈ binary ↔ Shape n t x ∧ Implicant B x

theorem isRound_zero (hnodup : B.Nodup) (hshape : ∀ x ∈ B, Shape n 0 x) : IsRound n B 0 B := by
  refine ⟨hnodup, fun x => ⟨fun hx => ⟨hshape x hx, fun a ha => ?_⟩, fun hx => ?_⟩⟩
  · have hwild : '_' ∉ x := List.count_eq_zero.mp (hshape x hx).wild
    rwa [← (matches_iff_eq hwild).mp ha.2]
  · have hwild : '_' ∉ x := List.count_eq_zero.mp hx.1.wild
    refine hx.2 x ⟨fun c hc => ?_, matches_refl _ _⟩
    rcases hx.1.chars c hc with hc' | hc' | rfl
    · exact .inl hc'
    · exact .inr hc'
    · exact absurd hc hwild

namespace IsRound

variable (h : IsRound n B t binary)

include h

theorem shape : ∀ x ∈ binary, Shape n t x := fun x hx => ((h.mem_iff x).mp hx).1

/-- What is joined in a round are the implicants with one wild card more. -/
theorem joined_iff :
    (∃ x ∈ binary, ∃ y ∈ binary, Joined '_' x y k) ↔ Shape n (t + 1) k ∧ Implicant B k := by
  constructor
  · rintro ⟨x, hx, y, hy, hjoin⟩
    rw [h.mem_iff] at hx hy
    exact ⟨Joined.shape hjoin hx.1 hy.1, (Joined.implicant_iff hjoin hx.1 hy.1).mpr ⟨hx.2, hy.2⟩⟩
  · rintro ⟨hk, himp⟩
    obtain ⟨x, y, hjoin, hx, hy⟩ := exists_halves hk
    obtain ⟨hximp, hyimp⟩ := (Joined.implicant_iff hjoin hx hy).mp himp
    exact ⟨x, (h.mem_iff x).mpr ⟨hx, hximp⟩, y, (h.mem_iff y).mpr ⟨hy, hyimp⟩, hjoin⟩

theorem prime_iff (hx : x ∈ binary) : Prime n B x ↔ ¬ ∃ y ∈ binary, ∃ k, Joined '_' x y k := by
  obtain ⟨hshape, himp⟩ := (h.mem_iff x).mp hx
  rw [prime_iff_not_joined hshape himp]
  refine not_congr ⟨?_, ?_⟩
  · rintro ⟨y, k, hy, hyimp, hjoin⟩
    exact ⟨y, (h.mem_iff y).mpr ⟨hy, hyimp⟩, k, hjoin⟩
  · rintro ⟨y, hy, k, hjoin⟩
    obtain ⟨hy, hyimp⟩ := (h.mem_iff y).mp hy
    exact ⟨y, k, hy, hyimp, hjoin⟩

/-- The strings without a mark at the end of a round are the prime implicants with `t` wild
cards. -/
theorem mem_unmarked_iff {check1 : Fin binary.length → Char}
    (hmarked : ∀ i, check1 i ≠ '$' ↔ ∃ y ∈ binary, ∃ k, Joined '_' (binary.get i) y k)
    (x : List Char) : x ∈ unmarked binary check1 ↔ Prime n B x ∧ x.count '_' = t := by
  constructor
  · intro hx
    obtain ⟨i, hi, rfl⟩ := mem_map.mp hx
    have hi : check1 i = '$' := by simpa using hi
    refine ⟨(h.prime_iff (get_mem binary i)).mpr fun hjoin => (hmarked i).mpr hjoin hi, ?_⟩
    exact (h.shape _ (get_mem binary i)).wild
  · rintro ⟨hprime, hcount⟩
    obtain ⟨t', hshape⟩ := hprime.shape
    obtain rfl : t' = t := hshape.wild.symm.trans hcount
    have hx : x ∈ binary := (h.mem_iff x).mpr ⟨hshape, hprime.implicant⟩
    obtain ⟨i, rfl⟩ := get_of_mem hx
    refine mem_map_of_mem (mem_filter.mpr ⟨mem_finRange i, ?_⟩)
    rw [decide_eq_true_iff]
    by_contra hi
    exact (h.prime_iff hx).mp hprime ((hmarked i).mp hi)

/-- When nothing is joined in round `t`, no implicant has more wild cards. -/
theorem count_le_of_last (hlast : ∀ k, ¬ ∃ x ∈ binary, ∃ y ∈ binary, Joined '_' x y k)
    (hprime : Prime n B x) : x.count '_' ≤ t := by
  by_contra hlt
  obtain ⟨t', hshape⟩ := hprime.shape
  have hle : t + 1 ≤ t' := by
    have := hshape.wild
    omega
  obtain ⟨y, hy, himp⟩ := exists_implicant_of_le hle hshape hprime.implicant
  exact hlast y (h.joined_iff.mpr ⟨hy, himp⟩)

end IsRound

/-- From round `t` on the loop adds the prime implicants with at least `t` wild cards. -/
theorem checkLoop_primes {order : List (List Char) → List (List Char)} (horder : ListsSets order) :
    ∀ {fuel t : ℕ} (pi : List (List Char)) {binary : List (List Char)}, IsRound n B t binary →
    0 < fuel → n < t + fuel → ∃ p, checkLoop order fuel pi binary = some (pi ++ p) ∧ p.Nodup ∧
    ∀ x, x ∈ p ↔ Prime n B x ∧ t ≤ x.count '_'
  | fuel + 1, t, pi, binary, h, _, hfuel => by
    obtain ⟨s, hrun, htemp, hmarked⟩ := exists_compared h.nodup h.shape
    have hcheck : checkLoop order (fuel + 1) pi binary =
        if s.2.length = 0 then some (pi ++ unmarked binary s.1)
        else checkLoop order fuel (pi ++ unmarked binary s.1) (order s.2) := by
      simp only [checkLoop, hrun, bind_eq_bind, bind_some]
      rfl
    have hunmarked := h.mem_unmarked_iff hmarked
    have hnodup : (unmarked binary s.1).Nodup :=
      ((nodup_finRange _).filter _).map (nodup_iff_injective_get.mp h.nodup)
    rw [hcheck]
    by_cases hdone : s.2.length = 0
    · rw [if_pos hdone]
      have hlast : ∀ k, ¬ ∃ x ∈ binary, ∃ y ∈ binary, Joined '_' x y k := by
        intro k hk
        rw [← htemp, length_eq_zero_iff.mp hdone] at hk
        cases hk
      refine ⟨_, rfl, hnodup, fun x => ?_⟩
      rw [hunmarked]
      apply and_congr_right
      intro hprime
      have hle := h.count_le_of_last hlast hprime
      omega
    · rw [if_neg hdone]
      obtain ⟨hnodup', hmem⟩ := horder s.2
      have hnext : IsRound n B (t + 1) (order s.2) := by
        refine ⟨hnodup', fun x => ?_⟩
        rw [hmem, htemp, h.joined_iff]
      obtain ⟨k, hk⟩ := exists_mem_of_length_pos (Nat.pos_of_ne_zero hdone)
      have hle := (h.joined_iff.mp ((htemp k).mp hk)).1.le
      obtain ⟨p, hp, hpnodup, hpmem⟩ := checkLoop_primes horder (pi ++ unmarked binary s.1) hnext
        (show 0 < fuel by omega) (by omega)
      refine ⟨unmarked binary s.1 ++ p, by rw [hp, append_assoc], ?_, fun x => ?_⟩
      · apply hnodup.append hpnodup
        intro x hx hx'
        have h1 := ((hunmarked x).mp hx).2
        have h2 := ((hpmem x).mp hx').2
        omega
      · rw [mem_append, hunmarked, hpmem, ← and_or_left]
        apply and_congr_right
        omega

theorem check_primes {order : List (List Char) → List (List Char)} (horder : ListsSets order)
    (hnodup : B.Nodup) (hshape : ∀ x ∈ B, Shape n 0 x) :
    ∃ p, check order (n + 1) B = some p ∧ p.Nodup ∧ ∀ x, x ∈ p ↔ Prime n B x := by
  obtain ⟨p, hp, hpnodup, hmem⟩ := checkLoop_primes horder [] (isRound_zero hnodup hshape)
    (show 0 < n + 1 by omega) (by omega)
  refine ⟨p, hp, hpnodup, fun x => ?_⟩
  rw [hmem]
  exact and_iff_left (Nat.zero_le _)

theorem covers_primes_iff {p : List (List Char)} (hmem : ∀ x, x ∈ p ↔ Prime n B x)
    (hnodup : B.Nodup) (hshape : ∀ x ∈ B, Shape n 0 x) {a : List Char} (ha : Digits a) :
    Covers p a ↔ a ∈ B := by
  constructor
  · rintro ⟨x, hx, hmatch⟩
    exact ((hmem x).mp hx).implicant a ⟨ha, hmatch⟩
  · intro h
    obtain ⟨hsh, himp⟩ := ((isRound_zero hnodup hshape).mem_iff a).mp h
    obtain ⟨x, hx, hmatch⟩ := exists_prime hsh himp
    exact ⟨x, (hmem x).mpr hx, hmatch⟩

/-- `check` returns the prime implicants of the strings, each once. -/
theorem check_prime_implicants {order : List (List Char) → List (List Char)}
    (horder : ListsSets order) (n : ℕ) (binary : List (List Char)) (hnodup : binary.Nodup)
    (hbits : ∀ x ∈ binary, x.length = n ∧ Digits x) :
    ∃ p, check order (n + 1) binary = some p ∧ p.Nodup ∧ ∀ x, x ∈ p ↔ Prime n binary x := by
  apply check_primes horder hnodup
  intro x hx
  obtain ⟨hlen, hdigits⟩ := hbits x hx
  refine ⟨hlen, fun c hc => (hdigits c hc).imp_right .inl, List.count_eq_zero.mpr fun hc => ?_⟩
  rcases hdigits '_' hc with h | h <;> exact absurd h (by decide)

theorem check_prime_implicants_pair : [['0', '0'], ['0', '1']].Nodup ∧
    ∃ p, check List.dedup 3 [['0', '0'], ['0', '1']] = some p ∧ p.Nodup ∧
      ∀ x, x ∈ p ↔ Prime 2 [['0', '0'], ['0', '1']] x :=
  ⟨by decide, check_prime_implicants (fun l => ⟨nodup_dedup l, fun _ => mem_dedup⟩) 2 _ (by decide) (by
    simp [Digits])⟩

end Code365.Algorithms.QuineMcCluskey
