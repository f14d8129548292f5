import Code365.Lib.While

/-! # `integer_partition.py` (`algorithms/python/dynamic_programming`)

The lists `memo` are a function here; for `m ≥ 1` no index that is used lies outside them. -/

namespace Code365.Algorithms.IntegerPartition

open Finset Nat.Partition

/-- The body of the loop over `k`. -/
def addParts (n k : ℕ) (memo : ℕ → ℕ → ℕ) : ℕ → ℕ → ℕ :=
  let memo := setCell memo n k (memo n k + memo n (k - 1))
  if n - k > 0 then setCell memo n k (memo n k + memo (n - k - 1) k) else memo

def partition (m : ℕ) : ℕ :=
  let memo : ℕ → ℕ → ℕ := fun _ _ => 0
  let memo := forLoop 0 (m + 1) (fun i memo => setCell memo i 0 1) memo
  let memo := forLoop 0 (m + 1) (fun n => forLoop 1 m (addParts n)) memo
  memo m (m - 1)

/-! ### Partitions with bounded parts -/

/-- The number of partitions of `n` whose parts are at most `k`. -/
def bounded (n k : ℕ) : ℕ := #(restricted n (· ≤ k))

theorem mem_bounded {n k : ℕ} {p : n.Partition} :
    p ∈ restricted n (· ≤ k) ↔ ∀ i ∈ p.parts, i ≤ k := by simp [restricted]

theorem bounded_succ (n k : ℕ) :
    bounded n (k + 1) = bounded n k + if n - k > 0 then bounded (n - k - 1) (k + 1) else 0 := by
  have hwithout : {p ∈ restricted n (· ≤ k + 1) | k + 1 ∉ p.parts} = restricted n (· ≤ k) := by
    ext p
    rw [mem_filter, mem_bounded, mem_bounded]
    constructor
    · rintro ⟨hle, hnot⟩ i hi
      exact Nat.le_of_lt_succ ((hle i hi).lt_of_ne fun he => hnot (he ▸ hi))
    · exact fun hle => ⟨fun i hi => (hle i hi).trans k.le_succ, fun hi =>
        absurd (hle _ hi) (Nat.not_succ_le_self k)⟩
  have hwith : #{p ∈ restricted n (· ≤ k + 1) | k + 1 ∈ p.parts} = if n - k >
      0 then bounded (n - k - 1) (k + 1) else 0 := by
    split_ifs with hn
    · have hkn : k + 1 ≤ n := by omega
      rw [Nat.sub_sub, bounded, eq_comm]
      refine card_bij (fun q _ => ((partitionWithPartEquiv (Nat.succ_pos k) hkn).symm q).1) ?_ ?_ ?_
      · intro q hq
        simpa [mem_bounded] using hq
      · intro q _ q' _ he
        exact (partitionWithPartEquiv _ hkn).symm.injective (Subtype.ext he)
      · intro p hp
        obtain ⟨hle, hmem⟩ := mem_filter.mp hp
        refine ⟨partitionWithPartEquiv (Nat.succ_pos k) hkn ⟨p, hmem⟩, mem_bounded.mpr fun i hi => ?_, by simp⟩
        exact mem_bounded.mp hle i (Multiset.mem_of_mem_erase (by simpa using hi))
    · rw [card_eq_zero, filter_eq_empty_iff]
      exact fun p _ hmem => hn (by have := le_of_mem_parts hmem; omega)
  rw [← hwith, bounded, bounded, ← hwithout,
    ← card_filter_add_card_filter_not (fun p => k + 1 ∈ p.parts), add_comm]

theorem bounded_zero (n : ℕ) : bounded n 0 = if n = 0 then 1 else 0 := by
  split_ifs with hn
  · subst hn
    refine card_eq_one.mpr ⟨default, eq_singleton_iff_unique_mem.mpr ⟨?_, fun p _ => Subsingleton.elim ..⟩⟩
    exact mem_bounded.mpr fun i hi => le_of_mem_parts hi
  · rw [bounded, card_eq_zero, eq_empty_iff_forall_notMem]
    intro p hp
    obtain ⟨i, hi⟩ := Multiset.exists_mem_of_ne_zero fun h0 :
      p.parts = 0 => hn (by rw [← p.parts_sum, h0, Multiset.sum_zero])
    have := mem_bounded.mp hp i hi
    have := p.parts_pos hi
    omega

theorem bounded_one (n : ℕ) : bounded n 1 = 1 := by
  induction n with
  | zero => simp [bounded_succ 0 0, bounded_zero]
  | succ n ih => simp [bounded_succ (n + 1) 0, bounded_zero, ih]

/-! ### The table -/

/-- The cells of `S` are final, and the others 0. -/
structure Filled (S : ℕ → ℕ → Prop) (memo : ℕ → ℕ → ℕ) : Prop where
  final : ∀ n k, S n k → memo n k = bounded n (k + 1)
  zero : ∀ n k, ¬S n k → memo n k = 0

variable {S T : ℕ → ℕ → Prop} {memo : ℕ → ℕ → ℕ} {m n k : ℕ}

theorem Filled.setCell (h : Filled S memo) (hS : ∀ i j, T i j ↔ S i j ∨ i = n ∧ j = k) :
    Filled T (setCell memo n k (bounded n (k + 1))) := by
  constructor
  · intro i j hij
    by_cases he : i = n ∧ j = k
    · obtain ⟨rfl, rfl⟩ := he
      exact setCell_self ..
    · rw [setCell_of_ne _ _ he]
      exact h.final i j (((hS i j).mp hij).resolve_right he)
  · intro i j hij
    rw [setCell_of_ne _ _ fun he => hij ((hS i j).mpr (.inr he))]
    exact h.zero i j fun hin => hij ((hS i j).mpr (.inl hin))

/-- The cells of the column 0, of the rows before `n`, and of the row `n` before `k`. -/
def Before (m n k i j : ℕ) : Prop := i ≤ m ∧ j < m ∧ (j = 0 ∨ i < n ∨ i = n ∧ j < k)

theorem Filled.addParts (h : Filled (Before m n k) memo) (hn : n ≤ m) (hk : 1 ≤ k) (hm : k < m) :
    Filled (Before m n (k + 1)) (addParts n k memo) := by
  have hcell : IntegerPartition.addParts n k memo = Code365.setCell memo n k (bounded n (k + 1)) := by
    have hzero := h.zero n k (by unfold Before; omega)
    have hleft := h.final n (k - 1) (by unfold Before; omega)
    have hrec := bounded_succ n k
    rw [Nat.sub_add_cancel hk] at hleft
    unfold IntegerPartition.addParts
    dsimp only
    split_ifs with hnk
    · have habove := h.final (n - k - 1) k (by unfold Before; omega)
      rw [setCell_setCell, setCell_self, setCell_of_ne _ _ (by omega), hzero, hleft, habove, hrec,
        if_pos hnk, zero_add]
    · rw [hzero, hleft, hrec, if_neg hnk, zero_add, add_zero]
  rw [hcell]
  exact h.setCell (by unfold Before; omega)

theorem partition_eq_card (m : ℕ) (hm : 1 ≤ m) : partition m = Fintype.card m.Partition := by
  have hcolumn := forLoop_induct (I := fun n => Filled fun i j => i < n ∧ j = 0)
    (s := fun _ _ => 0) (Nat.zero_le (m + 1)) ⟨by omega, by simp⟩ (by
      intro n memo _ _ h
      have hset := h.setCell (T := fun i j => i < n + 1 ∧ j = 0) (n := n) (k := 0) (by omega)
      rwa [bounded_one] at hset)
  have hall := forLoop_induct (I := fun n => Filled (Before m n 0))
    (Nat.zero_le (m + 1)) ⟨fun n k h => hcolumn.final n k (by unfold Before at h; omega),
      fun n k h => hcolumn.zero n k (by unfold Before at h; omega)⟩ (by
      intro n memo _ hn h
      have hrow := forLoop_induct (I := fun k => Filled (Before m n k)) hm
        ⟨fun i j hij => h.final i j (by unfold Before at hij ⊢; omega),
          fun i j hij => h.zero i j (by unfold Before at hij ⊢; omega)⟩
        fun k memo hk hkm h => h.addParts (by omega) hk hkm
      exact ⟨fun i j hij => hrow.final i j (by unfold Before at hij ⊢; omega),
        fun i j hij => hrow.zero i j (by unfold Before at hij ⊢; omega)⟩)
  have hlast : partition m = bounded m (m - 1 + 1) := hall.final m (m - 1) (by unfold Before; omega)
  rw [hlast, Nat.sub_add_cancel hm, bounded, ← card_univ]
  congr 1
  ext p
  simpa [mem_bounded] using fun i hi => le_of_mem_parts hi

theorem partition_eq_card_example :
    partition 5 = Fintype.card (Nat.Partition 5) := partition_eq_card 5 (by decide)

end Code365.Algorithms.IntegerPartition
