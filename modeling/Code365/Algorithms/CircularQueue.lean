import Code365.Lib.Ring

/-! # The circular queue
(`algorithms/cpp/Operations on Datastructures/Circular Queue Using Array.cpp`)

`Enque` refuses a value when `count` is ten, `Deque` reports underflow when `front` and `rear` are
the same cell.  The ring and the log of the calls agree after any calls (`holds_after`), but `front`
and `rear` are the same cell in a full ring too: `boundedFifo_iff`. -/

namespace Code365.Algorithms.CircularQueue

open List

/-- The globals; `queue` has ten cells. -/
structure State where
  queue : ℕ → ℤ
  front : ℕ
  rear : ℕ
  count : ℕ

inductive Output where
  | nothing
  | overflow
  | underflow
  | deleted (x : ℤ)
deriving DecidableEq, Repr

def init : State := { queue := fun _ => 0, front := 0, rear := 0, count := 0 }

def enque (s : State) (x : ℤ) : Output × State :=
  if s.count = 10 then (.overflow, s)
  else (.nothing, { s with
    queue := Function.update s.queue s.rear x
    rear := (s.rear + 1) % 10
    count := s.count + 1 })

def deque (s : State) : Output × State :=
  if s.front = s.rear then (.underflow, s)
  else (.deleted (s.queue s.front), { s with front := (s.front + 1) % 10, count := s.count - 1 })

/-- The values that `show` prints. -/
def «show» (s : State) : List ℤ := (List.range s.count).map fun i => s.queue ((i + s.front) % 10)

inductive Call where
  | enque (x : ℤ)
  | deque
deriving DecidableEq, Repr

/-- The state after some calls, with the values that were accepted and those that were deleted. -/
structure Log where
  state : State
  accepted : List ℤ
  deleted : List ℤ

def Log.call (l : Log) : Call → Log
  | .enque x =>
    { l with
      state := (enque l.state x).2
      accepted := if (enque l.state x).1 = .overflow then l.accepted else l.accepted ++ [x] }
  | .deque =>
    { l with
      state := (deque l.state).2
      deleted := match (deque l.state).1 with
        | .deleted x => l.deleted ++ [x]
        | _ => l.deleted }

def after (calls : List Call) : Log := calls.foldl Log.call ⟨init, [], []⟩

def Log.stored (l : Log) : ℕ := l.accepted.length - l.deleted.length

/-- The calls find a queue for ten values: `Enque` is refused exactly when ten are stored, `Deque`
reports underflow exactly when none is, values are deleted in the order in which they were accepted,
and `show` prints the others. -/
structure BoundedFifo (calls : List Call) : Prop where
  full : ∀ p x q, calls = p ++ .enque x :: q →
    ((enque (after p).state x).1 = .overflow ↔ (after p).stored = 10)
  empty : ∀ p q, calls = p ++ .deque :: q → ((deque (after p).state).1 = .underflow ↔ (after p).stored = 0)
  order : (after calls).deleted <+: (after calls).accepted
  rest : «show» (after calls).state = (after calls).accepted.drop (after calls).deleted.length

/-! ### The ring and the log -/

/-- The ring holds the accepted values that were not deleted. -/
structure Holds (l : Log) : Prop where
  window : Window l.state.queue 10 l.accepted l.deleted.length
  order : l.deleted <+: l.accepted
  front : l.state.front = l.deleted.length % 10
  rear : l.state.rear = l.accepted.length % 10
  count : l.state.count = l.stored

variable {l : Log} {calls : List Call} {x : ℤ}

theorem Holds.length_eq (h : Holds l) : l.accepted.length = l.deleted.length + l.state.count := by
  have hle := h.window.le
  rw [h.count, Log.stored]
  omega

theorem Holds.count_le (h : Holds l) : l.state.count ≤ 10 := by
  have hle := h.window.le_add
  rw [h.length_eq] at hle
  omega

/-- `front` and `rear` are the same cell in an empty ring and in a full one. -/
theorem Holds.front_eq_rear_iff (h : Holds l) :
    l.state.front = l.state.rear ↔ l.state.count = 0 ∨ l.state.count = 10 := by
  have hle := h.count_le
  rw [h.front, h.rear, h.length_eq]
  omega

theorem holds_start : Holds ⟨init, [], []⟩ := ⟨Window.nil _ _, prefix_refl _, rfl, rfl, rfl⟩

theorem Holds.enque (h : Holds l) (x : ℤ) : Holds (l.call (.enque x)) := by
  have hlen := h.length_eq
  by_cases hfull : l.state.count = 10
  · simpa only [Log.call, CircularQueue.enque, if_pos hfull, if_true] using h
  have hle := h.count_le
  have hlt : l.accepted.length < l.deleted.length + 10 := by omega
  have hwindow := (h.window.write hlt x).push hlt (Function.update_self ..)
  simp only [Log.call, CircularQueue.enque, if_neg hfull, reduceCtorEq, if_false]
  refine ⟨?_, h.order.trans (prefix_append _ _), h.front, ?_, ?_⟩
  · rw [h.rear]
    exact hwindow
  · rw [h.rear, length_append, length_singleton, Nat.mod_add_mod]
  · simp only [Log.stored, length_append, length_singleton]
    omega

theorem Holds.next (h : Holds l) (hpos : l.state.count ≠ 0) :
    l.accepted[l.deleted.length]? = some (l.state.queue l.state.front) := by
  rw [h.front]
  apply h.window.getElem? _ (le_refl _)
  have hlen := h.length_eq
  omega

theorem Holds.deque (h : Holds l) : Holds (l.call .deque) := by
  have hlen := h.length_eq
  by_cases hsame : l.state.front = l.state.rear
  · simpa only [Log.call, CircularQueue.deque, if_pos hsame] using h
  have hcount := mt h.front_eq_rear_iff.mpr hsame
  have hpos : l.state.count ≠ 0 := fun h0 => hcount (.inl h0)
  simp only [Log.call, CircularQueue.deque, if_neg hsame]
  refine ⟨?_, ?_, ?_, h.rear, ?_⟩
  · rw [length_append, length_singleton]
    exact h.window.pop (by omega)
  · obtain ⟨t, ht⟩ := h.order
    have hnext := h.next hpos
    rw [← ht, getElem?_append_right (le_refl _), Nat.sub_self] at hnext
    cases t with
    | nil => cases hnext
    | cons a t =>
      obtain rfl : a = _ := Option.some.inj hnext
      exact ⟨t, by rw [← ht, append_assoc]; rfl⟩
  · rw [h.front, length_append, length_singleton, Nat.mod_add_mod]
  · simp only [Log.stored, length_append, length_singleton]
    omega

theorem Holds.call (h : Holds l) (c : Call) : Holds (l.call c) := by
  cases c with
  | enque x => exact h.enque x
  | deque => exact h.deque

theorem holds_after (calls : List Call) : Holds (after calls) := by
  induction calls using List.reverseRecOn with
  | nil => exact holds_start
  | append_singleton calls c ih =>
    rw [after, foldl_append]
    exact ih.call c

/-! ### What the calls return -/

theorem Holds.enque_iff (h : Holds l) :
    (CircularQueue.enque l.state x).1 = .overflow ↔ l.stored = 10 := by
  rw [← h.count, CircularQueue.enque]
  split_ifs with hfull
  · simp [hfull]
  · simp [hfull]

theorem Holds.deque_iff (h : Holds l) :
    (CircularQueue.deque l.state).1 = .underflow ↔ l.stored = 0 ∨ l.stored = 10 := by
  rw [← h.count, ← h.front_eq_rear_iff, CircularQueue.deque]
  split_ifs with hsame
  · simp [hsame]
  · simp [hsame]

theorem Holds.show_eq (h : Holds l) : «show» l.state = l.accepted.drop l.deleted.length := by
  have hlen := h.length_eq
  apply ext_getElem?
  intro i
  rw [getElem?_drop, «show», getElem?_map]
  by_cases hi : i < l.state.count
  · rw [getElem?_range hi, h.window.getElem? (l.deleted.length + i) (by omega) (by omega),
      h.front, Option.map_some, Nat.add_mod_mod, add_comm i]
  · rw [getElem?_eq_none (by rw [length_range]; omega), getElem?_eq_none (by omega)]
    rfl

/-- The calls find a queue for ten values exactly when `Deque` is never called on a full ring. -/
theorem boundedFifo_iff (calls : List Call) :
    BoundedFifo calls ↔ ∀ p q, calls = p ++ .deque :: q → (after p).state.count ≠ 10 := by
  constructor
  · intro h p q hp hfull
    have hholds := holds_after p
    rw [hholds.count] at hfull
    have hzero := (h.empty p q hp).mp (hholds.deque_iff.mpr (.inr hfull))
    omega
  · intro h
    refine ⟨fun p x q _ => (holds_after p).enque_iff, fun p q hp => ?_, (holds_after calls).order,
      (holds_after calls).show_eq⟩
    have hholds := holds_after p
    have hne := h p q hp
    rw [hholds.count] at hne
    rw [hholds.deque_iff]
    exact ⟨fun hor => hor.resolve_right hne, .inl⟩

/-- Ten values and a `Deque`. -/
def tenAndOne : List Call := List.replicate 10 (.enque 7) ++ [.deque]

theorem tenAndOne_not_boundedFifo : ¬ BoundedFifo tenAndOne := by
  intro h
  have hempty := (h.empty (List.replicate 10 (.enque 7)) [] rfl).mp (by decide)
  exact absurd hempty (by decide)

end Code365.Algorithms.CircularQueue
