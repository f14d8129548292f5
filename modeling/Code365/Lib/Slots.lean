import Mathlib

/-! # Tables of slots

A table with finitely many slots.  `tally` counts the slots whose value has a property, and
`tally_update` says what writing one slot does to the count.  Where the slots that hold the value
`z` are free, `live` counts the others, and `Distinct` says that no two of them hold the same value;
the lemmas say what filling a free slot and freeing a filled one do to the two.  `Stores` is the set
of the values in use. -/

namespace Code365.Slots

open Finset Function

variable {ι α : Type*}

/-- The number of slots with a property. -/
def tally [Fintype ι] (p : α → Prop) [DecidablePred p] (f : ι → α) : ℕ :=
  (Finset.univ.filter (fun i => p (f i))).card

/-- The number of slots in use. -/
def live [Fintype ι] [DecidableEq α] (z : α) (f : ι → α) : ℕ := (Finset.univ.filter (fun i => f i ≠ z)).card

def Distinct (z : α) (f : ι → α) : Prop := ∀ i j, f i ≠ z → f i = f j → i = j

variable {z a : α} {f : ι → α} {k : ι}

section count
variable [Fintype ι]

theorem tally_update [DecidableEq ι] (p : α → Prop) [DecidablePred p] (f : ι → α) (k : ι) (a : α) :
    tally p (update f k a) + (if p (f k) then 1 else 0) = tally p f + (if p a then 1 else 0) := by
  have hu : ∀ i, (if p (update f k a i) then 1 else 0) =
      update (fun i => if p (f i) then 1 else 0) k (if p a then 1 else 0) i := by
    intro i
    by_cases hi : i = k
    · subst hi
      rw [update_self, update_self]
    · rw [update_of_ne hi, update_of_ne hi]
  unfold tally
  rw [card_filter, card_filter, sum_congr rfl fun i _ => hu i,
    sum_update_of_mem (mem_univ k), ← add_sum_erase _ _ (mem_univ k),
    sdiff_singleton_eq_erase]
  omega

theorem tally_pos {p : α → Prop} [DecidablePred p] (h : p (f k)) : 0 < tally p f :=
  card_pos.mpr ⟨k, mem_filter.mpr ⟨mem_univ k, h⟩⟩

theorem tally_eq_zero {p : α → Prop} [DecidablePred p] (h : ∀ i, ¬p (f i)) : tally p f = 0 :=
  card_eq_zero.mpr (filter_eq_empty_iff.mpr fun i _ => h i)

variable [DecidableEq α]

theorem live_fill [DecidableEq ι] (hk : f k = z) (ha : a ≠ z) :
    live z (update f k a) = live z f + 1 := by
  have h := tally_update (· ≠ z) f k a
  rwa [if_neg (not_not.mpr hk), if_pos ha, add_zero] at h

theorem live_free [DecidableEq ι] (hk : f k ≠ z) : live z (update f k z) + 1 = live z f := by
  have h := tally_update (· ≠ z) f k z
  rwa [if_pos hk, if_neg (not_not.mpr rfl), add_zero] at h

end count

/-- The values in use are the elements of `D`, each in one slot. -/
structure Stores (f : ι → Option α) (D : Set α) : Prop where
  mem : ∀ x, x ∈ D ↔ ∃ i, f i = some x
  distinct : Distinct none f

theorem Stores.eq_of_some {f : ι → Option α} {D : Set α} {x : α} (h : Stores f D) {i j : ι}
    (hi : f i = some x) (hj : f j = some x) : i = j :=
  h.distinct i j (by rw [hi]; exact Option.some_ne_none x) (hi.trans hj.symm)

theorem stores_nil : Stores (fun _ : ι => (none : Option α)) ∅ := by
  refine ⟨fun x => ⟨fun hx => hx.elim, ?_⟩, fun i j hi => absurd rfl hi⟩
  rintro ⟨_, hx⟩
  cases hx

variable [DecidableEq ι]

theorem Distinct.fill (h : Distinct z f) (ha : ∀ i, f i ≠ a) : Distinct z (update f k a) := by
  intro i j hi hij
  by_cases hik : i = k <;> by_cases hjk : j = k
  · rw [hik, hjk]
  · subst hik
    rw [update_self, update_of_ne hjk] at hij
    exact absurd hij.symm (ha j)
  · subst hjk
    rw [update_self, update_of_ne hik] at hij
    exact absurd hij (ha i)
  · rw [update_of_ne hik] at hi hij
    rw [update_of_ne hjk] at hij
    exact h i j hi hij

theorem Distinct.free (h : Distinct z f) : Distinct z (update f k z) := by
  intro i j hi hij
  by_cases hik : i = k
  · subst hik
    rw [update_self] at hi
    exact absurd rfl hi
  rw [update_of_ne hik] at hi hij
  by_cases hjk : j = k
  · subst hjk
    rw [update_self] at hij
    exact absurd hij hi
  · rw [update_of_ne hjk] at hij
    exact h i j hi hij

theorem eq_of_update_none {i : ι} {x y : α}
    (h : update (fun _ => none) k (some x) i = some y) : y = x := by
  rw [update_apply] at h
  split_ifs at h
  exact (Option.some.inj h).symm

/-- A value is added in the right way exactly if its slot had it already, or was free and no other
slot had it. -/
theorem stores_update_iff {f : ι → Option α} {D : Set α} {x : α} (h : Stores f D) :
    Stores (update f k (some x)) (insert x D) ↔ f k = some x ∨ f k = none ∧ ∀ i, f i ≠ some x := by
  have hself : update f k (some x) k = some x := update_self ..
  constructor
  · intro h'
    cases hv : f k with
    | none =>
      refine .inr ⟨rfl, fun i hi => ?_⟩
      have hne : i ≠ k := by
        rintro rfl
        rw [hv] at hi
        cases hi
      exact hne (h'.eq_of_some ((update_of_ne hne ..).trans hi) hself)
    | some y =>
      -- the value that was in the slot is still to be in one
      left
      by_contra hne
      obtain ⟨i, hi⟩ := (h'.mem y).mp (.inr ((h.mem y).mpr ⟨k, hv⟩))
      by_cases he : i = k
      · subst he
        exact hne (hi.symm.trans hself)
      · rw [update_of_ne he] at hi
        exact he (h.eq_of_some hi hv)
  · rintro (hv | ⟨hv, hnew⟩)
    · rw [← hv, update_eq_self, Set.insert_eq_of_mem ((h.mem x).mpr ⟨k, hv⟩)]
      exact h
    · refine ⟨fun y => ⟨?_, ?_⟩, h.distinct.fill hnew⟩
      · rintro (rfl | hy)
        · exact ⟨k, hself⟩
        · obtain ⟨i, hi⟩ := (h.mem y).mp hy
          refine ⟨i, ?_⟩
          rwa [update_of_ne]
          rintro rfl
          rw [hv] at hi
          cases hi
      · rintro ⟨i, hi⟩
        by_cases he : i = k
        · subst he
          exact .inl (Option.some.inj (hself.symm.trans hi)).symm
        · rw [update_of_ne he] at hi
          exact .inr ((h.mem y).mpr ⟨i, hi⟩)

end Code365.Slots
