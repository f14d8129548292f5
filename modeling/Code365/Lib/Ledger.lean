import Mathlib

/-! # Descriptors obtained, used and closed

A `Ledger` follows the descriptor numbers that a component gets from the kernel: those it holds,
those it has closed and not obtained again, and whether it ever used a number of the second kind, by
closing it once more or by trying to send on it.  A number never is of both kinds, which the
structure carries as a field. -/

namespace Code365

structure Ledger where
  held : Finset ℤ
  dead : Finset ℤ
  misused : Bool
  apart : ∀ n ∈ held, n ∉ dead

namespace Ledger

def empty : Ledger := ⟨∅, ∅, false, by simp⟩

/-- The kernel hands out `n`. -/
def obtain (l : Ledger) (n : ℤ) : Ledger where
  held := insert n l.held
  dead := l.dead.erase n
  misused := l.misused
  apart := by
    intro m hm hd
    rw [Finset.mem_erase] at hd
    rcases Finset.mem_insert.mp hm with h | h
    · exact hd.1 h
    · exact l.apart m h hd.2

def close (l : Ledger) (n : ℤ) : Ledger where
  held := l.held.erase n
  dead := insert n l.dead
  misused := l.misused || decide (n ∈ l.dead)
  apart := by
    intro m hm hd
    rw [Finset.mem_erase] at hm
    rcases Finset.mem_insert.mp hd with h | h
    · exact hm.1 h
    · exact l.apart m hm.2 h

/-- A write to `n`, which counts as a use whether or not bytes are sent. -/
def send (l : Ledger) (n : ℤ) : Ledger :=
  { l with misused := l.misused || decide (n ∈ l.dead) }

variable (l : Ledger) (n m : ℤ)

@[simp] theorem mem_held_obtain : m ∈ (l.obtain n).held ↔ m = n ∨ m ∈ l.held := Finset.mem_insert

@[simp] theorem mem_dead_obtain : m ∈ (l.obtain n).dead ↔ m ≠ n ∧ m ∈ l.dead := Finset.mem_erase

@[simp] theorem misused_obtain : (l.obtain n).misused = l.misused := rfl

@[simp] theorem mem_held_close : m ∈ (l.close n).held ↔ m ≠ n ∧ m ∈ l.held := Finset.mem_erase

@[simp] theorem mem_dead_close : m ∈ (l.close n).dead ↔ m = n ∨ m ∈ l.dead := Finset.mem_insert

@[simp] theorem misused_close : (l.close n).misused = true ↔ l.misused = true ∨ n ∈ l.dead := by
  simp [close]

@[simp] theorem held_send : (l.send n).held = l.held := rfl

@[simp] theorem dead_send : (l.send n).dead = l.dead := rfl

@[simp] theorem misused_send : (l.send n).misused = true ↔ l.misused = true ∨ n ∈ l.dead := by
  simp [send]

theorem send_send : (l.send n).send n = l.send n := by
  by_cases h : n ∈ l.dead <;> simp [send, h]

end Ledger

end Code365
