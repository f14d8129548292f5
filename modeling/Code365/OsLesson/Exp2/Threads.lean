import Code365.Lib.CInt
import Code365.Lib.Run
import Code365.OsLesson.Hash

/-! # The threads of `exp_2` (`exe.c`, `queue.c`)

One `thread_producer_fun` and one `thread_customer_fun` for every element of `ι` share the queue and
the hash table of `parameter`.  A step of the system is a step of one thread: the hash update under
`parameter->mutex`, a section under `modify_mutex`, a lock or an unlock of `read_mutex`, or a read
of `numitems` without a lock.  The producer holds `parameter->mutex` from the hash update to the end
of its round except while it waits for `cond_full`; a customer holds it for its one hash update.

`read_mutex` is used as a gate: `lock` closes it, and `unlock`, by whichever thread, opens it.  A
round that would count beyond `INT_MAX` has no meaning and no successor.  As many items as
`numitems` can count do not fit the memory, so it is a natural number. -/

namespace Code365.OsLesson.Exp2

open List Function CInt

structure WorkRecord where
  tag : ℕ
  pCount : ℕ
  cCount : ℕ
deriving DecidableEq, Repr

/-! ### `itochar` -/

/-- The loop of `itochar`; `sastr` has the digits so far, the last one written first. -/
def itocharLoop : ℕ → ℕ → List Char → List Char
  | 0, _, sastr => sastr
  | k + 1, val1, sastr =>
    if val1 / 10 < 10 then Char.ofNat (val1 / 10 + 48) :: Char.ofNat (val1 % 10 + 48) :: sastr
    else itocharLoop k (val1 / 10) (Char.ofNat (val1 % 10 + 48) :: sastr)

def itochar (num : ℕ) : List Char := itocharLoop 100 num []

/-- The number that a row of digits continues. -/
def readDigits (n : ℕ) (digits : List Char) : ℕ := digits.foldl (fun n c => 10 * n + (c.toNat - 48)) n

theorem toNat_digit {d : ℕ} (h : d < 10) : (Char.ofNat (d + 48)).toNat = d + 48 := by
  have hv : (d + 48).isValidChar := .inl (by omega)
  rw [Char.ofNat, dif_pos hv]
  rfl

theorem readDigits_itocharLoop : ∀ {k val1 : ℕ} (sastr : List Char), val1 < 10 ^ (k + 1) → 0 < k →
    readDigits 0 (itocharLoop k val1 sastr) = readDigits val1 sastr
  | 0, _, _, _, hk => by omega
  | k + 1, val1, sastr, h, _ => by
    have hmod : val1 % 10 < 10 := Nat.mod_lt _ (by omega)
    unfold itocharLoop
    split
    next hd =>
      unfold readDigits
      rw [foldl_cons, foldl_cons, toNat_digit hd, toNat_digit hmod]
      congr 1
      omega
    next hd =>
      have hdiv : val1 / 10 < 10 ^ (k + 1) := by
        exact Nat.div_lt_of_lt_mul (by omega)
      have hk : 0 < k := by
        by_contra hk
        obtain rfl : k = 0 := by omega
        omega
      rw [readDigits_itocharLoop _ hdiv hk]
      unfold readDigits
      rw [foldl_cons, toNat_digit hmod]
      congr 1
      omega

theorem readDigits_itochar {num : ℕ} (h : num < 10 ^ 101) : readDigits 0 (itochar num) = num :=
  readDigits_itocharLoop [] h (by omega)

theorem itochar_injective {a b : ℕ} (ha : a < 10 ^ 101) (hb : b < 10 ^ 101)
    (h : itochar a = itochar b) : a = b := by
  rw [← readDigits_itochar ha, h, readDigits_itochar hb]

/-! ### The queue -/

structure QueueItem where
  action : List Char
  data : ℕ
  sz : ℕ
deriving DecidableEq, Repr

/-- `QUEUE`; `items` is the list from its head, the newest item. -/
structure Queue where
  numitems : ℕ
  items : List QueueItem
  /-- `read_mutex` is unlocked. -/
  gate : Bool
deriving DecidableEq, Repr

def initializeQueue : Queue := { numitems := 0, items := [], gate := false }

namespace Queue

/-- The result is 0 for an empty queue. -/
def isQueueEmpty (queue : Queue) : ℕ := if queue.numitems = 0 then 0 else 1

/-- The section of `Add_Queue_Item` under `modify_mutex`. -/
def link (queue : Queue) (qi : QueueItem) : Queue :=
  { queue with items := qi :: queue.items, numitems := queue.numitems + 1 }

def unlockRead (queue : Queue) : Queue := { queue with gate := true }

def lockRead (queue : Queue) : Queue := { queue with gate := false }

/-- `pqi->next = NULL`: `pqi` is the item before the last one, or the only item itself. -/
def unlinkLast (items : List QueueItem) : List QueueItem := if items.length = 1 then items else items.dropLast

/-- The section of `Get_Queue_Item` under `modify_mutex`: the item, `none` for a null result, and
the queue it leaves. -/
def takeLast (queue : Queue) : Option QueueItem × Queue :=
  match queue.items.getLast? with
  | none => (none, queue)
  | some qi =>
    (some qi,
      { numitems := queue.numitems - 1
        items := if queue.numitems = 1 then [] else unlinkLast queue.items
        gate := queue.gate || decide (0 < queue.numitems - 1) })

end Queue

namespace Queue

/-- `numitems` is the length of the list. -/
def Counted (queue : Queue) : Prop := queue.numitems = queue.items.length

variable {queue : Queue}

theorem takeLast_nil (h : queue.items = []) : queue.takeLast = (none, queue) := by
  simp [takeLast, h]

theorem takeLast_concat {items : List QueueItem} {qi : QueueItem} (hc : queue.Counted)
    (h : queue.items = items ++ [qi]) :
    queue.takeLast = (some qi,
      { numitems := items.length, items := items, gate := queue.gate || decide (0 < items.length) }) := by
  have hn : queue.numitems = items.length + 1 := by
    rw [hc, h, length_append, length_singleton]
  have hrest : (if queue.numitems = 1 then [] else unlinkLast queue.items) = items := by
    split
    next h1 =>
      exact (eq_nil_of_length_eq_zero (by omega)).symm
    next h1 =>
      unfold unlinkLast
      rw [if_neg (by rw [← hc]; exact h1), h, dropLast_concat]
  rw [hn] at hrest
  unfold takeLast
  rw [h, getLast?_concat]
  simp only [← h, hrest, hn, Nat.add_sub_cancel]

theorem Counted.link (h : queue.Counted) (qi : QueueItem) : (queue.link qi).Counted := by
  unfold Counted Queue.link at *
  rw [length_cons, h]

end Queue

/-! ### The threads -/

/-- Where the producer stands. -/
inductive Producer where
  /-- At the head of the loop. -/
  | draw
  /-- Holds the mutex, has counted the tag and not yet linked the item. -/
  | counted (tag : ℕ)
  /-- Has linked the item and not yet opened the gate. -/
  | linked
  /-- `Add_Queue_Item` has returned. -/
  | added
  /-- In `pthread_cond_wait`. -/
  | waiting
  /-- Woken up, the mutex not yet locked again. -/
  | woken
  /-- Before the unlock of the mutex. -/
  | leaving
  /-- In `mySleep`. -/
  | sleeping
  | exited
deriving DecidableEq, Repr

/-- The producer has locked `parameter->mutex`. -/
def Producer.holdsMutex : Producer → Bool
  | .counted _ | .linked | .added | .leaving => true
  | _ => false

/-- `pthread_cond_signal(&parameter->cond_full)`. -/
def Producer.signalled : Producer → Producer
  | .waiting => .woken
  | p => p

/-- Where a customer stands. -/
inductive Customer where
  /-- In the loop around `is_Queue_empty`. -/
  | spin
  /-- Before the lock of `read_mutex`. -/
  | atGate
  /-- Has closed the gate and waits for `modify_mutex`. -/
  | inside
  /-- Has an item and not yet counted it. -/
  | holding (item : QueueItem)
  /-- `Get_Queue_Item` returned null; the next step reads `item->action`. -/
  | null
deriving DecidableEq, Repr

structure State (ι : Type*) where
  hashTable : Hash WorkRecord
  que : Queue
  producer : Producer
  customers : ι → Customer
  threadKillFlag : Bool

inductive Event (ι : Type*) where
  /-- A step of the producer; `rand` is what `rand()` returns and `alloc` whether `calloc` succeeds,
  where the step calls them. -/
  | producer (rand : ℕ) (alloc : Bool)
  | customer (i : ι)
  /-- `pthread_cond_wait` returns without a signal. -/
  | wakeup
  /-- `SIGINT`. -/
  | sigHandle
deriving DecidableEq, Repr

variable {ι : Type*}

/-- What `thread_control_fun` sets up. -/
def start (ι : Type*) : State ι :=
  { hashTable := hashNew, que := initializeQueue, producer := .draw, customers := fun _ => .spin,
    threadKillFlag := false }

/-- The hash update of the producer. -/
def countProduced (h : Hash WorkRecord) (tag : ℕ) : Option (Hash WorkRecord) :=
  match hashGet h (itochar tag) with
  | none => some (hashSet h (itochar tag) { tag := tag, pCount := 1, cCount := 0 })
  | some workrecord =>
    if (workrecord.pCount : ℤ) = INT_MAX then none
    else some (hashSet h (itochar tag) { workrecord with pCount := workrecord.pCount + 1 })

/-- The hash update of a customer. -/
def countConsumed (h : Hash WorkRecord) (action : List Char) : Option (Hash WorkRecord) :=
  match hashGet h action with
  | none => some h
  | some workrecord =>
    if (workrecord.cCount : ℤ) = INT_MAX then none
    else some (hashSet h action { workrecord with cCount := workrecord.cCount + 1 })

/-- `rand() % 100 + 1`. -/
def drawTag (rand : ℕ) : ℕ := rand % 100 + 1

def threadProducerFun (s : State ι) (rand : ℕ) (alloc : Bool) : Option (State ι) :=
  match s.producer with
  | .draw => (countProduced s.hashTable (drawTag rand)).map fun h =>
    { s with hashTable := h, producer := .counted (drawTag rand) }
  | .counted tag =>
    if alloc then
      some { s with que := s.que.link { action := itochar tag, data := tag, sz := 4 }, producer := .linked }
    else some { s with producer := .added }
  | .linked => some { s with que := s.que.unlockRead, producer := .added }
  | .added => some { s with producer := if s.que.numitems = 50 then .waiting else .leaving }
  | .waiting => none
  | .woken => some { s with producer := .leaving }
  | .leaving => some { s with producer := .sleeping }
  | .sleeping => some { s with producer := if s.threadKillFlag then .exited else .draw }
  | .exited => none

variable [DecidableEq ι]

/-- What a customer has after `Get_Queue_Item`. -/
def received : Option QueueItem → Customer
  | none => .null
  | some qi => .holding qi

def threadCustomerFun (s : State ι) (i : ι) : Option (State ι) :=
  match s.customers i with
  | .spin => if s.que.isQueueEmpty = 0 then some s
    else some { s with customers := update s.customers i .atGate }
  | .atGate =>
    if s.que.gate then some { s with customers := update s.customers i .inside, que := s.que.lockRead }
    else none
  | .inside =>
    some { s with customers := update s.customers i (received s.que.takeLast.1), que := s.que.takeLast.2 }
  | .holding item =>
    if s.producer.holdsMutex then none
    else (countConsumed s.hashTable item.action).map fun h =>
      { s with customers := update s.customers i .spin, hashTable := h, producer := s.producer.signalled }
  | .null => none

/-- One step of the system, `none` where the thread cannot go on. -/
def step (s : State ι) : Event ι → Option (State ι)
  | .producer rand alloc => threadProducerFun s rand alloc
  | .customer i => threadCustomerFun s i
  | .wakeup => if s.producer = .waiting then some { s with producer := .woken } else none
  | .sigHandle => some { s with threadKillFlag := true }

def Next (s : State ι) (e : Event ι) (t : State ι) : Prop := step s e = some t

/-! ### What a step can do -/

/-- The steps, one constructor for each statement group of a thread. -/
inductive Moves (s : State ι) : Event ι → State ι → Prop
  | count {rand alloc h} : s.producer = .draw → countProduced s.hashTable (drawTag rand) = some h →
      Moves s (.producer rand alloc) { s with hashTable := h, producer := .counted (drawTag rand) }
  | link {rand tag} : s.producer = .counted tag →
      Moves s (.producer rand true)
        { s with que := s.que.link { action := itochar tag, data := tag, sz := 4 }, producer := .linked }
  | drop {rand tag} : s.producer = .counted tag →
      Moves s (.producer rand false) { s with producer := .added }
  | unlockRead {rand alloc} : s.producer = .linked →
      Moves s (.producer rand alloc) { s with que := s.que.unlockRead, producer := .added }
  | full {rand alloc} : s.producer = .added → s.que.numitems = 50 →
      Moves s (.producer rand alloc) { s with producer := .waiting }
  | notFull {rand alloc} : s.producer = .added → s.que.numitems ≠ 50 →
      Moves s (.producer rand alloc) { s with producer := .leaving }
  | relock {rand alloc} : s.producer = .woken → Moves s (.producer rand alloc) { s with producer := .leaving }
  | unlock {rand alloc} :
      s.producer = .leaving → Moves s (.producer rand alloc) { s with producer := .sleeping }
  | round {rand alloc} : s.producer = .sleeping →
      Moves s (.producer rand alloc) { s with producer := if s.threadKillFlag then .exited else .draw }
  | idle {i} : s.customers i = .spin → s.que.numitems = 0 → Moves s (.customer i) s
  | arrive {i} : s.customers i = .spin → s.que.numitems ≠ 0 →
      Moves s (.customer i) { s with customers := update s.customers i .atGate }
  | lockRead {i} : s.customers i = .atGate → s.que.gate = true →
      Moves s (.customer i) { s with customers := update s.customers i .inside, que := s.que.lockRead }
  | take {i} : s.customers i = .inside →
      Moves s (.customer i)
        { s with customers := update s.customers i (received s.que.takeLast.1), que := s.que.takeLast.2 }
  | consume {i item h} : s.customers i = .holding item → s.producer.holdsMutex = false →
      countConsumed s.hashTable item.action = some h →
      Moves s (.customer i)
        { s with customers := update s.customers i .spin, hashTable := h, producer := s.producer.signalled }
  | wakeup : s.producer = .waiting → Moves s .wakeup { s with producer := .woken }
  | sigHandle : Moves s .sigHandle { s with threadKillFlag := true }

variable {s t : State ι}

theorem moves_of_producer {rand : ℕ} {alloc : Bool} (h : threadProducerFun s rand alloc = some t) :
    Moves s (.producer rand alloc) t := by
  unfold threadProducerFun at h
  split at h
  next hp =>
    obtain ⟨h', hc, rfl⟩ := Option.map_eq_some_iff.mp h
    exact .count hp hc
  next tag hp =>
    cases alloc with
    | false => cases h; exact .drop hp
    | true => cases h; exact .link hp
  next hp => cases h; exact .unlockRead hp
  next hp =>
    cases h
    split
    next hn => exact .full hp hn
    next hn => exact .notFull hp hn
  next => cases h
  next hp => cases h; exact .relock hp
  next hp => cases h; exact .unlock hp
  next hp => cases h; exact .round hp
  next => cases h

theorem moves_of_customer {i : ι} (h : threadCustomerFun s i = some t) :
    Moves s (.customer i) t := by
  unfold threadCustomerFun at h
  split at h
  next hc =>
    unfold Queue.isQueueEmpty at h
    by_cases hn : s.que.numitems = 0
    · rw [if_pos hn, if_pos rfl] at h
      cases h
      exact .idle hc hn
    · rw [if_neg hn, if_neg one_ne_zero] at h
      cases h
      exact .arrive hc hn
  next hc =>
    split at h
    next hg => cases h; exact .lockRead hc hg
    next => cases h
  next hc => cases h; exact .take hc
  next item hc =>
    split at h
    next => cases h
    next hm =>
      obtain ⟨h', hk, rfl⟩ := Option.map_eq_some_iff.mp h
      exact .consume hc (by simpa using hm) hk
  next => cases h

variable {e : Event ι}

theorem moves_of_next (h : Next s e t) : Moves s e t := by
  unfold Next at h
  cases e with
  | producer rand alloc => exact moves_of_producer h
  | customer i => exact moves_of_customer h
  | wakeup =>
    by_cases hp : s.producer = .waiting
    · rw [step, if_pos hp] at h
      cases h
      exact .wakeup hp
    · rw [step, if_neg hp] at h
      cases h
  | sigHandle => cases h; exact .sigHandle

end Code365.OsLesson.Exp2
