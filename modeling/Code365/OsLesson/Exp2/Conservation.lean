import Code365.Lib.Slots
import Code365.OsLesson.Exp2.Threads

/-! # Items are neither lost nor invented

For every tag the items produced are those consumed, queued, held by a customer or about to be
linked by the producer, and those for which `calloc` failed in `Add_Queue_Item`, which returns
without a word after the item has been counted (`Books`).  So the balance of the program holds in
every run in which `calloc` does not fail there (`conserved_of_allocating_run`). -/

namespace Code365.OsLesson.Exp2

open Function Slots

/-- The tags that the producer can draw. -/
def Drawable (t : ℕ) : Prop := ∃ rand, drawTag rand = t

theorem Drawable.lt {t : ℕ} (h : Drawable t) : t < 10 ^ 101 := by
  obtain ⟨rand, rfl⟩ := h
  have h100 : drawTag rand < 101 := by
    unfold drawTag
    omega
  exact h100.trans (by norm_num)

theorem itochar_eq_iff {a b : ℕ} (ha : Drawable a) (hb : Drawable b) :
    itochar a = itochar b ↔ a = b :=
  ⟨itochar_injective ha.lt hb.lt, fun h => h ▸ rfl⟩

/-! ### The counts of a tag -/

def pCount (h : Hash WorkRecord) (t : ℕ) : ℕ := (hashGet h (itochar t)).elim 0 WorkRecord.pCount

def cCount (h : Hash WorkRecord) (t : ℕ) : ℕ := (hashGet h (itochar t)).elim 0 WorkRecord.cCount

variable {h h' : Hash WorkRecord} {tag : ℕ}

theorem counts_of_countProduced {t : ℕ} (htag : Drawable tag) (ht : Drawable t)
    (hc : countProduced h tag = some h') :
    pCount h' t = pCount h t + (if tag = t then 1 else 0) ∧ cCount h' t = cCount h t := by
  unfold countProduced at hc
  unfold pCount cCount
  split at hc
  next hg =>
    cases hc
    by_cases he : tag = t
    · subst he
      simp [hg]
    · simp [itochar_eq_iff ht htag, Ne.symm he, he]
  next r hg =>
    split_ifs at hc
    cases hc
    by_cases he : tag = t
    · subst he
      simp [hg]
    · simp [itochar_eq_iff ht htag, Ne.symm he, he]

theorem counts_of_countConsumed {t : ℕ} (htag : Drawable tag) (ht : Drawable t)
    (hp : 0 < pCount h tag) (hc : countConsumed h (itochar tag) = some h') :
    pCount h' t = pCount h t ∧ cCount h' t = cCount h t + (if tag = t then 1 else 0) := by
  unfold countConsumed at hc
  unfold pCount at hp
  split at hc
  next hg =>
    -- an unknown tag has no items
    rw [hg] at hp
    exact absurd hp (lt_irrefl 0)
  next r hg =>
    unfold pCount cCount
    split_ifs at hc
    cases hc
    by_cases he : tag = t
    · subst he
      simp [hg]
    · simp [itochar_eq_iff ht htag, Ne.symm he, he]

/-! ### Where the items of a tag are -/

/-- The customer has an item of the tag and has not counted it. -/
def Customer.carries (t : ℕ) : Customer → Bool
  | .holding item => item.action == itochar t
  | _ => false

variable {ι : Type*}

def queued (s : State ι) (t : ℕ) : ℕ := s.que.items.countP (fun item => item.action == itochar t)

/-- The producer has counted the tag and not yet linked the item. -/
def pending (s : State ι) (t : ℕ) : ℕ := if s.producer = .counted t then 1 else 0

variable {i : ι}

theorem inHand_update [DecidableEq ι] {s : State ι} {P : QueueItem → Prop} {c : Customer}
    (h : ∀ i item, s.customers i = .holding item → P item) (hc : ∀ item, c = .holding item →
    P item) : ∀ j item, update s.customers i c j = .holding item → P item := by
  intro j item hj
  by_cases hi : j = i
  · subst hi
    rw [update_self] at hj
    exact hc item hj
  · rw [update_of_ne hi] at hj
    exact h j item hj

variable [Fintype ι]

def held (customers : ι → Customer) (t : ℕ) : ℕ := tally (fun c => Customer.carries t c = true) customers

/-- `p_count = c_count` + queued + dequeued and not counted + counted and not linked. -/
def Conserved (s : State ι) : Prop :=
  ∀ t, Drawable t → pCount s.hashTable t = cCount s.hashTable t + queued s t + held s.customers t + pending s t

/-- The balance with the items lost, and what it rests on. -/
structure Books (lost : ℕ → ℕ) (s : State ι) : Prop where
  counted : s.que.Counted
  drawn : ∀ tag, s.producer = .counted tag → Drawable tag
  inQueue : ∀ item ∈ s.que.items, ∃ t, Drawable t ∧ item.action = itochar t
  inHand : ∀ i item, s.customers i = .holding item → ∃ t, Drawable t ∧ item.action = itochar t
  balance : ∀ t, Drawable t →
    pCount s.hashTable t = cCount s.hashTable t + queued s t + held s.customers t + pending s t + lost t

theorem books_start : Books (fun _ => 0) (start ι) where
  counted := rfl
  drawn _ h := by cases h
  inQueue _ h := by cases h
  inHand _ _ h := by cases h
  balance t _ := by simp [start, pCount, cCount, queued, held, pending, tally, Customer.carries,
    initializeQueue]

variable {lost : ℕ → ℕ} {s t : State ι} {e : Event ι}

/-- A step that moves the producer where it has nothing to link. -/
theorem Books.producer (h : Books lost s) {p : Producer} (hs : ∀ tag, s.producer ≠ .counted tag)
    (hp : ∀ tag, p ≠ .counted tag) : Books lost { s with producer := p } where
  counted := h.counted
  drawn tag he := absurd he (hp tag)
  inQueue := h.inQueue
  inHand := h.inHand
  balance t ht := by
    have hb := h.balance t ht
    simp only [pending, if_neg (hs t)] at hb
    simp only [pending, if_neg (hp t)]
    exact hb

theorem Books.count (h : Books lost s) {rand : ℕ} (hp : s.producer = .draw)
    (hc : countProduced s.hashTable (drawTag rand) = some h') :
    Books lost { s with hashTable := h', producer := .counted (drawTag rand) } where
  counted := h.counted
  drawn tag he := ⟨rand, Producer.counted.inj he⟩
  inQueue := h.inQueue
  inHand := h.inHand
  balance t ht := by
    obtain ⟨hpc, hcc⟩ := counts_of_countProduced ⟨rand, rfl⟩ ht hc
    have hb := h.balance t ht
    simp only [queued, pending, hp, Producer.counted.injEq, reduceCtorEq, if_false] at hb ⊢
    omega

theorem Books.link (h : Books lost s) (hp : s.producer = .counted tag) :
    Books lost { s with
      que := s.que.link { action := itochar tag, data := tag, sz := 4 }, producer := .linked } where
  counted := h.counted.link _
  drawn _ he := by cases he
  inQueue item hi := by
    obtain rfl | hi := List.mem_cons.mp hi
    · exact ⟨tag, h.drawn tag hp, rfl⟩
    · exact h.inQueue item hi
  inHand := h.inHand
  balance t ht := by
    have hb := h.balance t ht
    simp only [queued, pending, Queue.link, List.countP_cons, hp, Producer.counted.injEq, beq_iff_eq,
      itochar_eq_iff (h.drawn tag hp) ht, reduceCtorEq, if_false] at hb ⊢
    omega

theorem Books.drop (h : Books lost s) (hp : s.producer = .counted tag) :
    Books (fun t => lost t + if tag = t then 1 else 0) { s with producer := .added } where
  counted := h.counted
  drawn _ he := by cases he
  inQueue := h.inQueue
  inHand := h.inHand
  balance t ht := by
    have hb := h.balance t ht
    simp only [queued, pending, hp, Producer.counted.injEq, reduceCtorEq, if_false] at hb ⊢
    omega

variable [DecidableEq ι]

theorem held_update (customers : ι → Customer) (i : ι) (c : Customer) (t : ℕ) :
    held (update customers i c) t + (if (customers i).carries t then 1 else 0) =
    held customers t + (if c.carries t then 1 else 0) :=
  tally_update _ customers i c

theorem Books.customer (h : Books lost s) {c : Customer}
    (hs : ∀ item, s.customers i ≠ .holding item) (hc : ∀ item, c ≠ .holding item) :
    Books lost { s with customers := update s.customers i c } where
  counted := h.counted
  drawn := h.drawn
  inQueue := h.inQueue
  inHand := inHand_update h.inHand fun item he => absurd he (hc item)
  balance t ht := by
    have hempty : ∀ {c : Customer}, (∀ item, c ≠ .holding item) → c.carries t = false := by
      intro c hc
      unfold Customer.carries
      split
      next item => exact absurd rfl (hc item)
      · rfl
    have hu := held_update s.customers i c t
    simp only [hempty hs, hempty hc, Bool.false_eq_true, if_false] at hu
    have hb := h.balance t ht
    simp only [queued, pending] at hb ⊢
    omega

theorem Books.take (h : Books lost s) (hi : s.customers i = .inside) :
    Books lost { s with customers := update s.customers i (received s.que.takeLast.1)
                        que := s.que.takeLast.2 } := by
  obtain hnil | ⟨items, qi, hitems⟩ := List.eq_nil_or_concat' s.que.items
  · rw [Queue.takeLast_nil hnil]
    exact h.customer (by simp [hi]) (by simp [received])
  have hqi : ∃ t, Drawable t ∧ qi.action = itochar t := h.inQueue qi (by simp [hitems])
  rw [Queue.takeLast_concat h.counted hitems]
  constructor
  case counted => rfl
  case drawn => exact h.drawn
  case inQueue => exact fun item hm => h.inQueue item (by simp [hitems, hm])
  case inHand =>
    refine inHand_update h.inHand fun item he => ?_
    obtain rfl : qi = item := Customer.holding.inj he
    exact hqi
  case balance =>
    intro t ht
    have hb := h.balance t ht
    have hu := held_update s.customers i (.holding qi) t
    have hin : Customer.inside.carries t = false := rfl
    have hout : (Customer.holding qi).carries t = (qi.action == itochar t) := rfl
    rw [hi, hin, hout, if_neg Bool.false_ne_true] at hu
    simp only [queued, pending, hitems, List.countP_append, List.countP_singleton, received] at hb ⊢
    omega

theorem Books.consume (h : Books lost s) {item : QueueItem} (hi : s.customers i = .holding item)
    (hm : s.producer.holdsMutex = false) (hc : countConsumed s.hashTable item.action = some h') :
    Books lost { s with customers := update s.customers i .spin, hashTable := h'
                        producer := s.producer.signalled } := by
  have hproducer : ∀ tag, s.producer ≠ .counted tag := by
    intro tag he
    rw [he] at hm
    cases hm
  have hsignalled : ∀ tag, s.producer.signalled ≠ .counted tag := by
    intro tag he
    unfold Producer.signalled at he
    split at he
    · cases he
    · exact hproducer tag he
  obtain ⟨tag, htag, haction⟩ := h.inHand i item hi
  have hcarries : ∀ t, (s.customers i).carries t = (itochar tag == itochar t) := by
    intro t
    rw [hi, Customer.carries, haction]
  have hpos : 0 < pCount s.hashTable tag := by
    have hb := h.balance tag htag
    have hheld : 0 < held s.customers tag := tally_pos (by rw [hcarries, beq_self_eq_true])
    omega
  rw [haction] at hc
  constructor
  case counted => exact h.counted
  case drawn => exact fun tag he => absurd he (hsignalled tag)
  case inQueue => exact h.inQueue
  case inHand => exact inHand_update h.inHand fun _ he => by cases he
  case balance =>
    intro t ht
    obtain ⟨hpc, hcc⟩ := counts_of_countConsumed htag ht hpos hc
    have hb := h.balance t ht
    have hu := held_update s.customers i .spin t
    rw [hcarries] at hu
    simp only [Customer.carries, beq_iff_eq, itochar_eq_iff htag ht, Bool.false_eq_true, if_false] at hu
    simp only [pending, if_neg (hproducer t)] at hb
    simp only [pending, if_neg (hsignalled t), queued] at hb ⊢
    omega

/-- One step keeps the books; it loses an item only when `calloc` fails. -/
theorem Books.next (h : Books lost s) (hn : Next s e t) :
    Books lost t ∨ ∃ tag rand, s.producer = .counted tag ∧ e = .producer rand false ∧
    Books (fun t => lost t + if tag = t then 1 else 0) t := by
  cases moves_of_next hn with
  | count hp hc => exact .inl (h.count hp hc)
  | link hp => exact .inl (h.link hp)
  | drop hp => exact .inr ⟨_, _, hp, rfl, h.drop hp⟩
  | unlockRead hp =>
    have hb := h.producer (p := .added) (by simp [hp]) (by simp)
    exact .inl ⟨hb.counted, hb.drawn, hb.inQueue, hb.inHand, hb.balance⟩
  | full hp | notFull hp | relock hp | unlock hp => exact .inl (h.producer (by simp [hp]) (by simp))
  | round hp =>
    refine .inl (h.producer (by simp [hp]) fun tag => ?_)
    split
    · simp
    · simp
  | idle => exact .inl h
  | arrive hi => exact .inl (h.customer (by simp [hi]) (by simp))
  | @lockRead i hi =>
    have hb := h.customer (i := i) (c := .inside) (by simp [hi]) (by simp)
    exact .inl ⟨hb.counted, hb.drawn, hb.inQueue, hb.inHand, hb.balance⟩
  | take hi => exact .inl (h.take hi)
  | consume hi hm hc => exact .inl (h.consume hi hm hc)
  | wakeup hp => exact .inl (h.producer (by simp [hp]) (by simp))
  | sigHandle => exact .inl ⟨h.counted, h.drawn, h.inQueue, h.inHand, h.balance⟩

/-! ### Runs -/

/-- `calloc` does not fail in `Add_Queue_Item`. -/
def Allocates (s : State ι) (e : Event ι) : Prop :=
  ∀ tag rand alloc, s.producer = .counted tag → e = .producer rand alloc → alloc = true

theorem books_of_run {es : List (Event ι)} (h : Run Next (start ι) es s) :
    ∃ lost, Books lost s := by
  refine h.invariant (I := fun s => ∃ lost, Books lost s) ⟨_, books_start⟩ ?_
  rintro s e t ⟨lost, hb⟩ hn
  obtain hb | ⟨_, _, -, -, hb⟩ := hb.next hn
  · exact ⟨_, hb⟩
  · exact ⟨_, hb⟩

theorem books_of_allocating_run {es : List (Event ι)}
    (h : Run (Guarded Allocates Next) (start ι) es s) : Books (fun _ => 0) s := by
  apply h.invariant books_start
  rintro s e t hb ⟨hg, hn⟩
  obtain hb | ⟨tag, rand, hp, rfl, -⟩ := hb.next hn
  · exact hb
  · cases hg tag rand false hp rfl

/-- In every state of a run in which `Add_Queue_Item` gets its memory the balance holds, and in
every state of every run no more items of a tag are counted as consumed than as produced. -/
theorem conserved_of_allocating_run (es : List (Event ι)) (s : State ι) :
    (Run (Guarded Allocates Next) (start ι) es s → Conserved s) ∧ (Run Next (start ι) es s →
      ∀ t, Drawable t → cCount s.hashTable t ≤ pCount s.hashTable t) := by
  constructor
  · intro h t ht
    exact (books_of_allocating_run h).balance t ht
  · intro h t ht
    obtain ⟨lost, hb⟩ := books_of_run h
    have hbal := hb.balance t ht
    omega

/-- The producer makes an item of tag 5 and one customer takes it. -/
def oneItem : List (Event (Fin 1)) :=
  [.producer 4 true, .producer 0 true, .producer 0 true, .customer (Fin.last 0), .customer (Fin.last 0),
    .customer (Fin.last 0)]

theorem oneItem_conserved :
    ∃ s, Run (Guarded Allocates Next) (start (Fin 1)) oneItem s ∧ Conserved s := by
  obtain ⟨s, hs⟩ : ∃ s, oneItem.foldlM step (start (Fin 1)) = some s :=
    Option.isSome_iff_exists.mp (by decide +kernel)
  have hr : Run (Guarded Allocates Next) (start (Fin 1)) oneItem s := by
    refine Run.of_foldlM (fun e he s t hst => ⟨?_, hst⟩) hs
    rintro tag rand alloc - rfl
    have hall : ∀ e ∈ oneItem, ∀ rand, e ≠ .producer rand false := by
      simp [oneItem]
    cases alloc with
    | false => exact absurd rfl (hall _ he rand)
    | true => rfl
  exact ⟨s, hr, (conserved_of_allocating_run oneItem s).1 hr⟩

/-- `calloc` fails twice for an item of tag 5. -/
def twoFailures : List (Event (Fin 1)) :=
  [.producer 4 true, .producer 0 false, .producer 0 true, .producer 0 true, .producer 0 true,
    .producer 4 true, .producer 0 false]

theorem twoFailures_not_conserved :
    ∃ s, Run Next (start (Fin 1)) twoFailures s ∧ ¬ Conserved s := by
  have hcounts : (twoFailures.foldlM step (start (Fin 1))).map (fun s =>
      (pCount s.hashTable 5, cCount s.hashTable 5, queued s 5, held s.customers 5, pending s 5)) =
        some (2, 0, 0, 0, 0) := by decide +kernel
  obtain ⟨s, hs, heq⟩ := Option.map_eq_some_iff.mp hcounts
  refine ⟨s, Run.of_foldlM (fun _ _ _ _ hst => hst) hs, fun hc => ?_⟩
  have hb := hc 5 ⟨4, rfl⟩
  simp only [Prod.mk.injEq] at heq
  omega

end Code365.OsLesson.Exp2
