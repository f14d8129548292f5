import Code365.OsLesson.Exp2.Threads

/-! # The bound on the queue

The producer tests `numitems == 50` once, after it has added an item, and goes on after whatever
ends its wait.  So the queue stays within 50 items when the wait ends only with room in the queue
(`numitems_le_of_timely_run`), and not otherwise: a customer that dequeued before the producer began
to wait signals afterwards, and the producer, woken at 50 items, adds the next one and never waits
again. -/

namespace Code365.OsLesson.Exp2

variable {ι : Type*}

/-- When the producer comes back from `pthread_cond_wait`, the queue is not full. -/
def Timely (s : State ι) (e : Event ι) : Prop :=
  ∀ rand alloc, e = .producer rand alloc → s.producer = .woken → s.que.numitems < 50

/-- The producer adds an item before it tests `numitems` again. -/
def Producer.willAdd : Producer → Bool
  | .draw | .counted _ | .leaving | .sleeping => true
  | _ => false

structure Bounded (s : State ι) : Prop where
  le : s.que.numitems ≤ 50
  room : s.producer.willAdd = true → s.que.numitems < 50

theorem numitems_takeLast_le (queue : Queue) : queue.takeLast.2.numitems ≤ queue.numitems := by
  unfold Queue.takeLast
  split
  · exact le_refl _
  · exact Nat.sub_le _ _

theorem Producer.willAdd_signalled (p : Producer) : p.signalled.willAdd = p.willAdd := by
  cases p with
  | _ => rfl

variable [DecidableEq ι] {s t : State ι} {e : Event ι}

theorem Bounded.next (h : Bounded s) (hg : Timely s e) (hn : Next s e t) : Bounded t := by
  have hle := h.le
  cases moves_of_next hn with
  | count hp => exact ⟨hle, fun _ => h.room (by rw [hp]; rfl)⟩
  | link hp =>
    have hroom := h.room (by rw [hp]; rfl)
    exact ⟨hroom, fun hw => by cases hw⟩
  | drop | unlockRead | full => exact ⟨hle, fun hw => by cases hw⟩
  | notFull _ hq => exact ⟨hle, fun _ => lt_of_le_of_ne hle hq⟩
  | relock hp => exact ⟨hle, fun _ => hg _ _ rfl hp⟩
  | unlock hp | round hp => exact ⟨hle, fun _ => h.room (by rw [hp]; rfl)⟩
  | take =>
    have htake := numitems_takeLast_le s.que
    exact ⟨htake.trans hle, fun hw => htake.trans_lt (h.room hw)⟩
  | consume =>
    refine ⟨hle, fun hw => h.room ?_⟩
    rw [← Producer.willAdd_signalled]
    exact hw
  | wakeup => exact ⟨hle, fun hw => by cases hw⟩
  | _ => exact ⟨hle, h.room⟩

/-- The queue never has more than 50 items in a run in which the producer comes back from every wait
to a queue with room. -/
theorem numitems_le_of_timely_run {es : List (Event ι)}
    (h : Run (Guarded Timely Next) (start ι) es s) : s.que.numitems ≤ 50 :=
  (h.invariant (I := Bounded) ⟨Nat.zero_le _, fun _ => Nat.succ_pos 49⟩ fun _ _ _ hb hg =>
    hb.next hg.1 hg.2).le

def fillRound : List (Event (Fin 1)) := List.replicate 6 (.producer 0 true)

theorem numitems_le_after_fillRound :
    ∃ s, Run (Guarded Timely Next) (start (Fin 1)) fillRound s ∧ s.que.numitems ≤ 50 := by
  -- the steps that are timely, by evaluation
  have hend : (fillRound.foldlM (fun (s : State (Fin 1)) e => if s.producer = .woken then none else step s e)
      (start (Fin 1))).isSome := by decide +kernel
  obtain ⟨s, hs⟩ := Option.isSome_iff_exists.mp hend
  have hr : Run (Guarded Timely Next) (start (Fin 1)) fillRound s := by
    refine Run.of_foldlM (fun e _ s t hst => ?_) hs
    split_ifs at hst with hw
    exact ⟨fun _ _ _ hp => absurd hp hw, hst⟩
  exact ⟨s, hr, numitems_le_of_timely_run hr⟩

/-- The customer takes the first item.  When the producer has filled the queue and waits, it counts
the item and signals. -/
def lateSignal : List (Event (Fin 1)) :=
  fillRound ++ List.replicate 3 (.customer 0) ++ (List.replicate 49 fillRound).flatten ++
    List.replicate 4 (.producer 0 true) ++ [.customer 0] ++ List.replicate 5 (.producer 0 true)

theorem lateSignal_exceeds :
    ∃ s, Run Next (start (Fin 1)) lateSignal s ∧ ¬ s.que.numitems ≤ 50 := by
  have hend : (lateSignal.foldlM step (start (Fin 1))).map (fun s => s.que.numitems) = some 51 := by
    decide +kernel
  obtain ⟨s, hs, hn⟩ := Option.map_eq_some_iff.mp hend
  exact ⟨s, Run.of_foldlM (fun _ _ _ _ hst => hst) hs, by omega⟩

end Code365.OsLesson.Exp2
