import Code365.Lib.Slots
import Code365.OsLesson.Exp2.Threads

/-! # The gate before the queue

`Add_Queue_Item` opens the gate for its item, and `Get_Queue_Item` opens it again when items are
left. Neither knows how many customers have passed the gate and not yet taken an item, so the gate
can be open for more customers than there are items.  No customer finds the queue empty as long as
whoever passes the gate leaves an item for everybody inside (`Spare`); with one customer this always
holds, with two it does not (`nullFree_iff`). -/

namespace Code365.OsLesson.Exp2

open Function Slots

variable {ι : Type*}

/-- `Get_Queue_Item` has returned null to nobody. -/
def NullFree (s : State ι) : Prop := ∀ i, s.customers i ≠ .null

/-- The customers that have closed the gate and not yet entered the section under `modify_mutex`. -/
def inside [Fintype ι] (customers : ι → Customer) : ℕ := tally (· = .inside) customers

/-- A customer that passes the gate finds an item besides those for the customers inside. -/
def Spare [Fintype ι] (s : State ι) (e : Event ι) : Prop :=
  ∀ i, e = .customer i → s.customers i = .atGate → inside s.customers < s.que.numitems

/-- There are items for all customers inside. -/
structure Provided [Fintype ι] (s : State ι) : Prop where
  counted : s.que.Counted
  room : inside s.customers ≤ s.que.numitems
  nullFree : NullFree s

theorem NullFree.update [DecidableEq ι] {s : State ι} {i : ι} {c : Customer} (h : NullFree s)
    (hc : c ≠ .null) : ∀ j, update s.customers i c j ≠ .null :=
  (forall_update_iff s.customers fun _ c => c ≠ .null).mpr ⟨hc, fun j _ => h j⟩

theorem provided_start [Fintype ι] : Provided (start ι) where
  counted := rfl
  room := by simp [inside, tally, start]
  nullFree _ h := by cases h

section count
variable [Fintype ι] [DecidableEq ι]

theorem inside_update (customers : ι → Customer) (i : ι) (c : Customer) :
    inside (update customers i c) + (if customers i = .inside then 1 else 0) =
    inside customers + (if c = .inside then 1 else 0) :=
  tally_update _ customers i c

variable {s t : State ι} {e : Event ι}

theorem Provided.take (h : Provided s) {i : ι} (hi : s.customers i = .inside) :
    Provided { s with customers := update s.customers i (received s.que.takeLast.1)
                      que := s.que.takeLast.2 } := by
  have hpos : 0 < inside s.customers := tally_pos hi
  have hroom := h.room
  obtain hnil | ⟨items, qi, hitems⟩ := List.eq_nil_or_concat' s.que.items
  · -- somebody is inside, so the queue is not empty
    have hn := h.counted
    unfold Queue.Counted at hn
    rw [hnil, List.length_nil] at hn
    omega
  · have hn := h.counted
    unfold Queue.Counted at hn
    rw [hitems, List.length_append, List.length_singleton] at hn
    have hu := inside_update s.customers i (.holding qi)
    rw [if_pos hi, if_neg (by simp)] at hu
    rw [Queue.takeLast_concat h.counted hitems]
    refine ⟨rfl, ?_, h.nullFree.update (by simp [received])⟩
    change inside (update s.customers i (.holding qi)) ≤ items.length
    omega

theorem Provided.move (h : Provided s) {i : ι} {c : Customer} (hs : s.customers i ≠ .inside)
    (hc : c ≠ .null) (hroom : c = .inside → inside s.customers < s.que.numitems) :
    Provided { s with customers := update s.customers i c } := by
  refine ⟨h.counted, ?_, h.nullFree.update hc⟩
  have hu := inside_update s.customers i c
  rw [if_neg hs, add_zero] at hu
  have hr := h.room
  change inside (update s.customers i c) ≤ s.que.numitems
  split at hu
  next hin =>
    have := hroom hin
    omega
  · omega

theorem Provided.next (h : Provided s) (hg : Spare s e) (hn : Next s e t) : Provided t := by
  cases moves_of_next hn with
  | link => exact ⟨h.counted.link _, Nat.le_succ_of_le h.room, h.nullFree⟩
  | arrive hi => exact h.move (by simp [hi]) (by simp) (by simp)
  | @lockRead i hi =>
    have hm := h.move (i := i) (c := .inside) (by simp [hi]) (by simp) fun _ => hg i rfl hi
    exact ⟨hm.counted, hm.room, hm.nullFree⟩
  | take hi => exact h.take hi
  | @consume i _ _ hi =>
    have hm := h.move (i := i) (c := .spin) (by simp [hi]) (by simp) (by simp)
    exact ⟨hm.counted, hm.room, hm.nullFree⟩
  | _ => exact ⟨h.counted, h.room, h.nullFree⟩

end count

/-! ### One customer -/

/-- A customer before the gate has seen an item, and nobody else takes it. -/
def Ready (s : State ι) : Prop := ∀ i, s.customers i = .atGate → 0 < s.que.numitems

theorem spare_of_ready [Fintype ι] [Subsingleton ι] {s : State ι} {e : Event ι} (h : Ready s) :
    Spare s e := by
  rintro i rfl hi
  have hnone : inside s.customers = 0 := by
    unfold inside tally
    rw [Finset.card_eq_zero, Finset.filter_eq_empty_iff]
    intro j _ hj
    rw [Subsingleton.elim j i, hi] at hj
    cases hj
  rw [hnone]
  exact h i hi

theorem Ready.next [DecidableEq ι] [Subsingleton ι] {s t : State ι} {e : Event ι} (h : Ready s)
    (hn : Next s e t) : Ready t := by
  have hone : ∀ {i : ι} {c : Customer}, c ≠ .atGate → ∀ j, update s.customers i c j ≠ .atGate := by
    intro i c hc j
    rw [Subsingleton.elim j i, update_self]
    exact hc
  cases moves_of_next hn with
  | link => exact fun _ _ => Nat.succ_pos _
  | arrive _ hne => exact fun _ _ => Nat.pos_of_ne_zero hne
  | lockRead => exact fun j hj => absurd hj (hone (by simp) j)
  | take =>
    refine fun j hj => absurd hj (hone ?_ j)
    unfold received
    split
    · simp
    · simp
  | consume => exact fun j hj => absurd hj (hone (by simp) j)
  | _ => exact h

theorem nullFree_of_subsingleton [Fintype ι] [DecidableEq ι] [Subsingleton ι] {s : State ι}
    {es : List (Event ι)} (h : Run Next (start ι) es s) : NullFree s := by
  have hinv : Provided s ∧ Ready s := by
    refine h.invariant (I := fun s => Provided s ∧ Ready s) ⟨provided_start, fun _ hi => by cases hi⟩ ?_
    rintro s e t ⟨hp, hr⟩ hn
    exact ⟨hp.next (spare_of_ready hr) hn, hr.next hn⟩
  exact hinv.1.nullFree

/-! ### Two customers -/

section embed
variable {κ : Type*} [DecidableEq ι] [DecidableEq κ]

def Event.map (f : κ → ι) : Event κ → Event ι
  | .producer rand alloc => .producer rand alloc
  | .customer k => .customer (f k)
  | .wakeup => .wakeup
  | .sigHandle => .sigHandle

/-- The same state with more customers. -/
structure Embeds (f : κ → ι) (s : State κ) (s' : State ι) : Prop where
  hashTable : s'.hashTable = s.hashTable
  que : s'.que = s.que
  producer : s'.producer = s.producer
  customers : ∀ k, s'.customers (f k) = s.customers k
  threadKillFlag : s'.threadKillFlag = s.threadKillFlag

/-- What some of the customers do they can do in a larger company. -/
theorem Embeds.next {f : κ → ι} (hf : Injective f) {s t : State κ} {s' : State ι} {e : Event κ}
    (h : Embeds f s s') (hn : Next s e t) : ∃ t', Next s' (e.map f) t' ∧ Embeds f t t' := by
  obtain ⟨table, que, producer, customers, flag⟩ := s'
  obtain ⟨table, que, producer, c, flag⟩ := s
  obtain ⟨rfl, rfl, rfl, hc, rfl⟩ := h
  obtain rfl : customers ∘ f = c := funext hc
  -- the customers are only read and updated at the one that moves
  have hstep : step ⟨table, que, producer, customers ∘ f, flag⟩ e =
    (step ⟨table, que, producer, customers, flag⟩ (e.map f)).map fun t' =>
    { t' with customers := t'.customers ∘ f } := by
    cases e with
    | producer rand alloc =>
      cases producer <;> simp [step, Event.map, threadProducerFun, apply_ite, comp_def]
    | customer k =>
      have hupdate := update_comp_eq_of_injective customers hf k
      simp only [step, Event.map, threadCustomerFun, comp_apply, ← hupdate]
      cases customers (f k) with
      | spin | atGate => dsimp only; split <;> rfl
      | inside | null => rfl
      | holding item =>
        dsimp only
        split
        · rfl
        · rw [Option.map_map]
          rfl
    | wakeup => simp [step, Event.map, apply_ite]
    | sigHandle => rfl
  obtain ⟨t', ht', rfl⟩ := Option.map_eq_some_iff.mp (hstep.symm.trans hn)
  exact ⟨t', ht', rfl, rfl, rfl, fun _ => rfl, rfl⟩

theorem Embeds.run {f : κ → ι} (hf : Injective f) {s t : State κ} {s' : State ι}
    {es : List (Event κ)} (h : Embeds f s s') (hr : Run Next s es t) :
    ∃ t', Run Next s' (es.map (Event.map f)) t' ∧ Embeds f t t' := by
  induction hr generalizing s' with
  | nil s => exact ⟨s', .nil s', h⟩
  | cons hn _ ih =>
    obtain ⟨u', hn', hu⟩ := h.next hf hn
    obtain ⟨t', hr', ht⟩ := ih hu
    exact ⟨t', .cons hn' hr', ht⟩

end embed

def produceRound : List (Event (Fin 2)) := List.replicate 6 (.producer 0 true)

/-- Both customers see the first item; customer 0 passes the gate, the second item lets customer 1
in, and customer 0 opens the gate for itself. -/
def twoCustomers : List (Event (Fin 2)) :=
  produceRound ++ [.customer 0, .customer 1, .customer 0] ++ produceRound ++
    [.customer 1, .customer 0, .customer 0, .customer 0, .customer 0, .customer 1, .customer 0]

theorem twoCustomers_null : ∃ s, Run Next (start (Fin 2)) twoCustomers s ∧ ¬ NullFree s := by
  have hend : (twoCustomers.foldlM step (start (Fin 2))).map (fun s => s.customers 0) = some .null := by
    decide +kernel
  obtain ⟨s, hs, hnull⟩ := Option.map_eq_some_iff.mp hend
  exact ⟨s, Run.of_foldlM (fun _ _ _ _ hst => hst) hs, fun h => h 0 hnull⟩

theorem exists_run_null [DecidableEq ι] {a b : ι} (hab : a ≠ b) :
    ∃ es s, Run Next (start ι) es s ∧ ¬ NullFree s := by
  have hf : Injective fun k : Fin 2 => if k = 0 then a else b := by
    rw [Injective, Fin.forall_fin_two, Fin.forall_fin_two, Fin.forall_fin_two]
    simp [hab, Ne.symm hab]
  obtain ⟨t, hr, hnull⟩ := twoCustomers_null
  have hstart : Embeds (fun k : Fin 2 => if k = 0 then a else b) (start (Fin 2)) (start ι) :=
    ⟨rfl, rfl, rfl, fun _ => rfl, rfl⟩
  obtain ⟨t', hr', ht⟩ := hstart.run hf hr
  refine ⟨_, t', hr', fun h => hnull fun k => ?_⟩
  rw [← ht.customers]
  exact h _

/-- No customer finds the queue empty in a run in which every customer that passes the gate leaves
an item for everybody inside, and this is so in every run exactly when there is at most one
customer. -/
theorem nullFree_iff (ι : Type*) [Fintype ι] [DecidableEq ι] :
    (∀ es s, Run (Guarded Spare Next) (start ι) es s → NullFree s) ∧
      ((∀ es s, Run Next (start ι) es s → NullFree s) ↔ Fintype.card ι ≤ 1) := by
  constructor
  · intro es s h
    exact (h.invariant provided_start fun _ _ _ hp hg => hp.next hg.1 hg.2).nullFree
  · constructor
    · intro h
      rw [Fintype.card_le_one_iff]
      intro a b
      by_contra hab
      obtain ⟨es, s, hr, hnull⟩ := exists_run_null hab
      exact hnull (h es s hr)
    · intro hcard es s hr
      have hsub : Subsingleton ι := Fintype.card_le_one_iff_subsingleton.mp hcard
      exact nullFree_of_subsingleton hr

/-- Customer 0 finds the queue empty at the end of `twoCustomers`. -/
theorem twoCustomers_not_nullFree : ¬ ∀ es s, Run Next (start (Fin 2)) es s → NullFree s := by
  intro h
  obtain ⟨s, hr, hnull⟩ := twoCustomers_null
  exact hnull (h _ s hr)

/-! ### Items in the queue -/

/-- Items can be taken: the gate is open, or the producer or a customer inside is about to open
it. -/
structure HandedOver (s : State ι) : Prop where
  counted : s.que.Counted
  opens : s.que.gate = true ∨ s.que.numitems = 0 ∨ s.producer = .linked ∨ ∃ i, s.customers i = .inside

theorem HandedOver.next [DecidableEq ι] {s t : State ι} {e : Event ι} (h : HandedOver s)
    (hn : Next s e t) : HandedOver t := by
  obtain ⟨hc, ho⟩ := h
  have hstay : ∀ {i c}, s.customers i ≠ .inside → (∃ j, s.customers j = .inside) →
      ∃ j, update s.customers i c j = .inside := by
    rintro i c hi ⟨j, hj⟩
    exact ⟨j, by rwa [update_of_ne (by rintro rfl; exact hi hj)]⟩
  cases moves_of_next hn with
  | link => exact ⟨hc.link _, .inr (.inr (.inl rfl))⟩
  | unlockRead => exact ⟨hc, .inl rfl⟩
  | arrive hi => exact ⟨hc, ho.imp_right (.imp_right (.imp_right (hstay (by simp [hi]))))⟩
  | @lockRead i => exact ⟨hc, .inr (.inr (.inr ⟨i, update_self ..⟩))⟩
  | take =>
    obtain hnil | ⟨items, qi, hitems⟩ := List.eq_nil_or_concat' s.que.items
    · rw [Queue.takeLast_nil hnil]
      exact ⟨hc, .inr (.inl (by rw [hc, hnil]; rfl))⟩
    · rw [Queue.takeLast_concat hc hitems]
      refine ⟨rfl, ?_⟩
      cases items with
      | nil => exact .inr (.inl rfl)
      | cons => exact .inl (by simp)
  | consume hi => exact ⟨hc,
      ho.imp_right (.imp_right (.imp (fun hl => by rw [hl]; rfl) (hstay (by simp [hi]))))⟩
  | idle | sigHandle => exact ⟨hc, ho⟩
  | count hp | drop hp | full hp | notFull hp | relock hp | unlock hp | round hp | wakeup hp =>
    exact ⟨hc, ho.imp_right (.imp_right (.imp_left fun hl => by cases hp.symm.trans hl))⟩

/-- No wake-up is lost, with any number of customers. -/
theorem handedOver_of_run [DecidableEq ι] {s : State ι} {es : List (Event ι)}
    (h : Run Next (start ι) es s) : HandedOver s :=
  h.invariant ⟨rfl, .inr (.inl rfl)⟩ fun _ _ _ hI => hI.next

theorem twoCustomers_handedOver : ∃ s, Run Next (start (Fin 2)) twoCustomers s ∧ HandedOver s := by
  obtain ⟨s, hr, -⟩ := twoCustomers_null
  exact ⟨s, hr, handedOver_of_run hr⟩

end Code365.OsLesson.Exp2
