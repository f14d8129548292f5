import Mathlib

/-! # A window of a log in a cyclic store

`Window store size log lo`: the entries of `log` from position `lo` on are in the store, entry `j`
in cell `j % size`.  A window of fewer than `size` entries takes one more without loss
(`Window.push`), and an entry that is not needed any more leaves it (`Window.pop`). -/

namespace Code365

open List

variable {α : Type*} {store : ℕ → α} {size lo : ℕ} {log : List α} {a : α}

structure Window (store : ℕ → α) (size : ℕ) (log : List α) (lo : ℕ) : Prop where
  le : lo ≤ log.length
  le_add : log.length ≤ lo + size
  getElem? : ∀ j, lo ≤ j → j < log.length → log[j]? = some (store (j % size))

namespace Window

theorem nil (store : ℕ → α) (size : ℕ) : Window store size [] 0 :=
  ⟨le_refl 0, Nat.zero_le _, fun _ _ hj => absurd hj (Nat.not_lt_zero _)⟩

/-- The next cell holds no entry of the window. -/
theorem write (h : Window store size log lo) (hlt : log.length < lo + size) (a : α) :
    Window (Function.update store (log.length % size) a) size log lo := by
  refine ⟨h.le, h.le_add, fun j hlo hj => ?_⟩
  have hne : j % size ≠ log.length % size := by
    intro he
    have hdvd : size ∣ log.length - j := (Nat.modEq_iff_dvd' hj.le).mp he
    have hle := Nat.le_of_dvd (by omega) hdvd
    omega
  rw [Function.update_of_ne hne]
  exact h.getElem? j hlo hj

theorem push (h : Window store size log lo) (hlt : log.length < lo + size)
    (ha : store (log.length % size) = a) : Window store size (log ++ [a]) lo := by
  refine ⟨?_, ?_, fun j hlo hj => ?_⟩
  · rw [length_append]
    exact h.le.trans (Nat.le_add_right _ _)
  · rw [length_append, length_singleton]
    omega
  · rw [length_append, length_singleton] at hj
    rcases Nat.lt_succ_iff_lt_or_eq.mp hj with hj | rfl
    · rw [getElem?_append_left hj]
      exact h.getElem? j hlo hj
    · rw [getElem?_append_right (le_refl _), Nat.sub_self, ha]
      rfl

theorem pop (h : Window store size log lo) (hlt : lo < log.length) :
    Window store size log (lo + 1) :=
  ⟨hlt, h.le_add.trans (by omega), fun j hlo hj => h.getElem? j (by omega) hj⟩

end Window

end Code365
