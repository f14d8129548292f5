import Mathlib

/-! # Optimal word lengths

Word lengths of a code without prefixes satisfy the inequality of Kraft (`kraft_le_one`).  For
weights that are not negative, merging two least weights again and again costs no more than any
lengths that satisfy it (`Merging.le_cost`): two least weights may be given two greatest lengths
without a higher cost, and then the longer of the two may be made as short as the other. -/

namespace Code365.Huffman

open List

variable {α β : Type*} {L : List (ℤ × ℕ)} {ls : List ℕ}

/-! ### The inequality of Kraft -/

noncomputable def kraft (ls : List ℕ) : ℝ := (ls.map fun l => (1 / 2 : ℝ) ^ l).sum

@[simp] theorem kraft_nil : kraft [] = 0 := rfl

@[simp] theorem kraft_cons (l : ℕ) (ls : List ℕ) :
    kraft (l :: ls) = (1 / 2 : ℝ) ^ l + kraft ls := by simp [kraft]

theorem kraft_perm {ls' : List ℕ} (h : ls.Perm ls') : kraft ls = kraft ls' := (h.map _).sum_eq

theorem uniquelyDecodable_of_prefixFree {S : Set (List β)} (hnil : [] ∉ S)
    (hfree : ∀ v ∈ S, ∀ w ∈ S, v <+: w → v = w) : InformationTheory.UniquelyDecodable S := by
  intro L1
  induction L1 with
  | nil =>
    intro L2 _ h2 heq
    cases L2 with
    | nil => rfl
    | cons w L2 =>
      have hw : w = [] := (append_eq_nil_iff.mp heq.symm).1
      exact absurd (hw ▸ h2 w mem_cons_self) hnil
  | cons v L1 ih =>
    intro L2 h1 h2 heq
    have hv := h1 v mem_cons_self
    cases L2 with
    | nil =>
      have hw : v = [] := (append_eq_nil_iff.mp heq).1
      exact absurd (hw ▸ hv) hnil
    | cons w L2 =>
      have hw := h2 w mem_cons_self
      -- one of the two first words begins the other
      have hvw : v = w := by
        rcases prefix_or_prefix_of_prefix (prefix_append v L1.flatten) ⟨L2.flatten, heq.symm⟩ with h | h
        · exact hfree v hv w hw h
        · exact (hfree w hw v hv h).symm
      subst hvw
      rw [ih L2 (fun u hu => h1 u (mem_cons_of_mem _ hu)) (fun u hu => h2 u (mem_cons_of_mem _ hu))
        (append_cancel_left heq)]

/-- The words of a code for at least two symbols, in which no word begins with another. -/
theorem kraft_le_one {k : List α} (hk : k.Nodup) {code : α → List Bool}
    (hnil : ∀ a ∈ k, code a ≠ []) (hfree : ∀ a ∈ k, ∀ b ∈ k, code a <+: code b → a = b) :
    kraft (k.map fun a => (code a).length) ≤ 1 := by
  have hdecodable : InformationTheory.UniquelyDecodable
    (((k.map code).toFinset : Finset (List Bool)) : Set (List Bool)) := by
    refine uniquelyDecodable_of_prefixFree ?_ ?_
    · simpa using hnil
    · intro v hv w hw hvw
      obtain ⟨a, ha, rfl⟩ : ∃ a ∈ k, code a = v := by simpa using hv
      obtain ⟨b, hb, rfl⟩ : ∃ b ∈ k, code b = w := by simpa using hw
      rw [hfree a ha b hb hvw]
  have hwords : (k.map code).Nodup := by
    rw [nodup_map_iff_inj_on hk]
    exact fun a ha b hb he => hfree a ha b hb (he ▸ prefix_refl _)
  have hsum := InformationTheory.kraft_mcmillan_inequality hdecodable
  rw [sum_toFinset _ hwords, Fintype.card_bool, map_map] at hsum
  rw [kraft, map_map]
  exact_mod_cast hsum

/-! ### Longest words -/

theorem exists_kraft_eq_div {m : ℕ} :
    ∀ {ls : List ℕ}, (∀ l ∈ ls, l ≤ m) → ∃ n : ℕ, kraft ls = n / 2 ^ m
  | [], _ => ⟨0, by simp⟩
  | l :: ls, h => by
    obtain ⟨n, hn⟩ := exists_kraft_eq_div fun l' hl' => h l' (mem_cons_of_mem _ hl')
    refine ⟨2 ^ (m - l) + n, ?_⟩
    have hpow : (2 : ℝ) ^ m = 2 ^ (m - l) * 2 ^ l := by rw [← pow_add, Nat.sub_add_cancel (h l mem_cons_self)]
    rw [kraft_cons, hn, Nat.cast_add, Nat.cast_pow, Nat.cast_ofNat, add_div, hpow]
    rw [one_div_pow]
    field_simp

/-- The two longest words can be replaced by one word that is shorter than both. -/
theorem kraft_merge {M m : ℕ} (hle : ∀ l ∈ ls, l ≤ m) (h : kraft (M :: m :: ls) ≤ 1) :
    1 ≤ m ∧ kraft ((m - 1) :: ls) ≤ 1 := by
  obtain ⟨n, hn⟩ := exists_kraft_eq_div hle
  rw [kraft_cons, kraft_cons, hn] at h
  have hM : 0 < (1 / 2 : ℝ) ^ M := by positivity
  have hpos : (0 : ℝ) < 2 ^ m := by positivity
  -- the lengths but the first add up to a multiple of the last place
  have hlt : n + 1 < 2 ^ m := by
    have hlt : ((1 : ℝ) + n) / 2 ^ m < 1 := by
      rw [add_div, show (1 : ℝ) / 2 ^ m = (1 / 2) ^ m by rw [one_div_pow]]
      linarith
    rw [div_lt_one hpos] at hlt
    have : n + 1 < 2 ^ m := by exact_mod_cast (by linarith : (n : ℝ) + 1 < 2 ^ m)
    exact this
  have hm : 1 ≤ m := by
    rcases Nat.eq_zero_or_pos m with rfl | hm
    · omega
    · exact hm
  refine ⟨hm, ?_⟩
  have hsum : ((n : ℝ) + 2) / 2 ^ m ≤ 1 := by
    rw [div_le_one hpos]
    exact_mod_cast (by omega)
  obtain ⟨m, rfl⟩ : ∃ m', m = m' + 1 := ⟨m - 1, by omega⟩
  rw [kraft_cons, hn, Nat.add_sub_cancel]
  calc
    (1 / 2 : ℝ) ^ m + n / 2 ^ (m + 1) = (n + 2) / 2 ^ (m + 1) := by
      rw [one_div_pow, pow_succ]; field_simp; ring
    _ ≤ 1 := hsum

/-! ### Merging the least weights -/

/-- Weights with lengths. -/
def cost (L : List (ℤ × ℕ)) : ℤ := (L.map fun p => p.1 * (p.2 : ℤ)).sum

theorem cost_cons (p : ℤ × ℕ) (L : List (ℤ × ℕ)) :
    cost (p :: L) = p.1 * p.2 + cost L := by simp [cost]

theorem cost_perm {L' : List (ℤ × ℕ)} (h : L.Perm L') : cost L = cost L' := (h.map _).sum_eq

/-- Two least weights are replaced by their sum until there is one weight; the cost is that of all
the sums. -/
inductive Merging : List ℤ → ℤ → Prop
  | single (w : ℤ) : Merging [w] 0
  | step {ws ws' rest : List ℤ} {x y c : ℤ} (hperm : ws.Perm (x :: y :: rest)) (hx : ∀ w ∈ y :: rest, x ≤ w)
      (hy : ∀ w ∈ rest, y ≤ w) (hperm' : ws'.Perm ((x + y) :: rest)) (h : Merging ws' c) :
        Merging ws (x + y + c)

/-- A least weight may be given a greatest length. -/
theorem exists_swap {x : ℤ} {M : ℕ} (hx : x ∈ L.map Prod.fst) (hle : ∀ w ∈ L.map Prod.fst, x ≤ w)
    (hM : M ∈ L.map Prod.snd) (hge : ∀ l ∈ L.map Prod.snd, l ≤ M) :
    ∃ R : List (ℤ × ℕ), (L.map Prod.fst).Perm (x :: R.map Prod.fst) ∧
    (L.map Prod.snd).Perm (M :: R.map Prod.snd) ∧ x * M + cost R ≤ cost L := by
  obtain ⟨⟨x, l⟩, hmem, rfl⟩ := mem_map.mp hx
  obtain ⟨L1, hL1⟩ : ∃ L1, L.Perm ((x, l) :: L1) := ⟨_, perm_cons_erase hmem⟩
  have hfst : (L.map Prod.fst).Perm (x :: L1.map Prod.fst) := hL1.map Prod.fst
  have hsnd : (L.map Prod.snd).Perm (l :: L1.map Prod.snd) := hL1.map Prod.snd
  have hcost := cost_perm hL1
  rw [cost_cons] at hcost
  rcases mem_cons.mp (hsnd.subset hM) with rfl | hM1
  · exact ⟨L1, hfst, hsnd, hcost.ge⟩
  obtain ⟨⟨a, M⟩, hmem1, rfl⟩ := mem_map.mp hM1
  obtain ⟨L2, hL2⟩ : ∃ L2, L1.Perm ((a, M) :: L2) := ⟨_, perm_cons_erase hmem1⟩
  refine ⟨(a, l) :: L2, hfst.trans ((hL2.map Prod.fst).cons x),
    (hsnd.trans ((hL2.map Prod.snd).cons l)).trans (.swap ..), ?_⟩
  have hcost1 := cost_perm hL2
  rw [cost_cons] at hcost1
  have hxa : x ≤ a := hle a (hfst.symm.subset (mem_cons_of_mem _ (mem_map_of_mem hmem1)))
  have hlM : (l : ℤ) ≤ M := by exact_mod_cast hge l (hsnd.symm.subset mem_cons_self)
  rw [hcost, hcost1, cost_cons]
  nlinarith [mul_nonneg (sub_nonneg.mpr hxa) (sub_nonneg.mpr hlM)]

theorem exists_max (h : ls ≠ []) : ∃ M ∈ ls, ∀ l ∈ ls, l ≤ M := by
  obtain ⟨M, hM⟩ := Option.ne_none_iff_exists'.mp (fun hnone => h (max?_eq_none_iff.mp hnone))
  exact ⟨M, (max?_eq_some_iff.mp hM).1, (max?_eq_some_iff.mp hM).2⟩

/-- Lengths for weights give lengths for the weights after a merge. -/
theorem exists_merge {x y : ℤ} {rest : List ℤ} (hperm : (L.map Prod.fst).Perm (x :: y :: rest))
    (hnonneg : 0 ≤ x) (hx : ∀ w ∈ y :: rest, x ≤ w) (hy : ∀ w ∈ rest, y ≤ w)
    (hkraft : kraft (L.map Prod.snd) ≤ 1) :
    ∃ L' : List (ℤ × ℕ), (L'.map Prod.fst).Perm ((x + y) :: rest) ∧ kraft (L'.map Prod.snd) ≤ 1 ∧
    x + y + cost L' ≤ cost L := by
  have hx' : ∀ w ∈ L.map Prod.fst, x ≤ w := by
    intro w hw
    rcases mem_cons.mp (hperm.subset hw) with rfl | hw
    · exact le_rfl
    · exact hx w hw
  have hxmem : x ∈ L.map Prod.fst := hperm.symm.subset mem_cons_self
  have hne : L ≠ [] := by
    rintro rfl
    cases hxmem
  obtain ⟨M, hM, hMge⟩ := exists_max (map_eq_nil_iff.not.mpr hne)
  obtain ⟨R, hR, hlen, hcost⟩ := exists_swap hxmem hx' hM hMge
  have hR' : (R.map Prod.fst).Perm (y :: rest) := (hR.symm.trans hperm).cons_inv
  have hy' : ∀ w ∈ R.map Prod.fst, y ≤ w := by
    intro w hw
    rcases mem_cons.mp (hR'.subset hw) with rfl | hw
    · exact le_rfl
    · exact hy w hw
  have hymem : y ∈ R.map Prod.fst := hR'.symm.subset mem_cons_self
  have hneR : R ≠ [] := by
    rintro rfl
    cases hymem
  obtain ⟨m, hm, hmge⟩ := exists_max (map_eq_nil_iff.not.mpr hneR)
  obtain ⟨R2, hR2, hlen2, hcost2⟩ := exists_swap hymem hy' hm hmge
  rw [kraft_perm (hlen.trans (hlen2.cons M))] at hkraft
  obtain ⟨hm1, hkraft'⟩ := kraft_merge (fun l hl => hmge l (hlen2.symm.subset (mem_cons_of_mem _ hl))) hkraft
  refine ⟨(x + y, m - 1) :: R2, (hR2.symm.trans hR').cons_inv.cons (x + y), hkraft', ?_⟩
  have hmM : (m : ℤ) ≤ M := by exact_mod_cast hMge m (hlen.symm.subset (mem_cons_of_mem _ hm))
  rw [cost_cons]
  push_cast [hm1]
  nlinarith [mul_nonneg hnonneg (sub_nonneg.mpr hmM)]

theorem Merging.le_cost {ws : List ℤ} {c : ℤ} (h : Merging ws c) (hnonneg : ∀ w ∈ ws, 0 ≤ w)
    (hL : (L.map Prod.fst).Perm ws) (hkraft : kraft (L.map Prod.snd) ≤ 1) : c ≤ cost L := by
  induction h generalizing L with
  | single w =>
    obtain ⟨p, rfl⟩ : ∃ p, L = [p] := by
      rw [← length_eq_one_iff, ← length_map, hL.length_eq, length_singleton]
    have hw : 0 ≤ p.1 := hnonneg p.1 (hL.subset mem_cons_self)
    rw [cost_cons, cost, map_nil, sum_nil, add_zero]
    exact mul_nonneg hw (Int.natCast_nonneg _)
  | @step ws ws' rest x y c hperm hx hy hperm' h ih =>
    have hmem : ∀ w ∈ x :: y :: rest, 0 ≤ w := fun w hw => hnonneg w (hperm.symm.subset hw)
    have hx0 : 0 ≤ x := hmem x mem_cons_self
    have hy0 : 0 ≤ y := hmem y (mem_cons_of_mem _ mem_cons_self)
    obtain ⟨L', hL', hkraft', hcost⟩ := exists_merge (hL.trans hperm) hx0 hx hy hkraft
    have hnonneg' : ∀ w ∈ ws', 0 ≤ w := by
      intro w hw
      rcases mem_cons.mp (hperm'.subset hw) with rfl | hw
      · exact add_nonneg hx0 hy0
      · exact hmem w (mem_cons_of_mem _ (mem_cons_of_mem _ hw))
    have := ih hnonneg' (hL'.trans hperm'.symm) hkraft'
    omega

end Code365.Huffman
