import Code365.Lib.LinkedLists
import Code365.Lib.Run
import Code365.OsLesson.Hash

/-! # The entries of the hash table in memory (`hash.c`)

`struct hash_entry` has a key, a value and the link to the next entry of its bucket.  `try_set` and
`hash_get` walk along the links; `hash_remove` keeps a pointer to the link instead, which is a
bucket of the table or the `next` of an entry.  The loops have a bound `fuel`, and `none` is a loop
that goes on longer or an entry that was freed.

`Refines self t` says that the memory holds the chains of `t`.  Each call does in memory what it
does to the chains, so the calls from `hash_new` on behave as a map (`run_refines`). -/

namespace Code365.OsLesson.Memory

open List Function Linked

abbrev HashTable (ν : Type) := Store (Fin MIN_BUCKET_COUNT) (List Char × ν)

variable {ν : Type}

/-- `strcmp(key, e->key) == 0`. -/
def sameKey (key : List Char) (e : List Char × ν) : Bool := key = e.1

/-- `make_hash(MIN_BUCKET_COUNT)`. -/
def hashNew : HashTable ν := Store.empty

/-- `try_set`; `mem` is the memory that `make_entry` gets for a new entry. -/
def trySet (fuel : ℕ) (self : HashTable ν) (key : List Char) (value : ν) (mem : Option ℕ) :
    Option (Bool × HashTable ν) := do
  let i := bucketOf key
  match ← self.find (sameKey key) fuel (self.roots i) with
  | some entry =>
    let self ← self.modify entry fun e => (e.1, value)
    return (true, self)
  | none =>
    match mem with
    | none => return (false, self)
    | some entry => return (true, self.push i entry (key, value))

/-- `hash_set`, which is `none` inside when it ends the process. -/
def hashSet (fuel : ℕ) (self : HashTable ν) (key : List Char) (value : ν) (mem : Option ℕ) :
    Option (Option (HashTable ν)) := do
  let (ok, self) ← trySet fuel self key value mem
  return if ok then some self else none

def hashGet (fuel : ℕ) (self : HashTable ν) (key : List Char) : Option (Option ν) := do
  match ← self.find (sameKey key) fuel (self.roots (bucketOf key)) with
  | some entry =>
    let e ← self.cells entry
    return some e.data.2
  | none => return none

def hashRemove (fuel : ℕ) (self : HashTable ν) (key : List Char) : Option (HashTable ν) := do
  let entryp ← self.findSlot (sameKey key) fuel (.root (bucketOf key))
  match ← self.load entryp with
  | some entry => self.unlink entryp entry
  | none => return self

/-- The entries that `hash_foreach` prints, in its order; it ends with their number. -/
def hashForeach (fuel : ℕ) (self : HashTable ν) : Option (List (List Char × ν)) := do
  let chains ← (List.finRange MIN_BUCKET_COUNT).mapM fun i => self.collect fuel (self.roots i)
  return chains.flatten

/-! ### What the memory holds -/

def Refines (self : HashTable ν) (t : Hash ν) : Prop :=
  ∃ lists, Rep self lists ∧ ∀ i, t.buckets i = (lists i).map Prod.snd

theorem refines_new :
    Refines (hashNew : HashTable ν) OsLesson.hashNew := ⟨_, rep_empty, fun _ => rfl⟩

variable {self : HashTable ν} {t : Hash ν} {fuel : ℕ}

abbrev Entries (ν : Type) := List (ℕ × (List Char × ν))

def Without (key : List Char) (l : Entries ν) : Prop := ∀ x ∈ l, x.2.1 ≠ key

theorem Without.data {key : List Char} {l : Entries ν} (h : Without key l) :
    ∀ e ∈ l.map Prod.snd, e.1 ≠ key := by
  intro e he
  obtain ⟨x, hx, rfl⟩ := mem_map.mp he
  exact h x hx

theorem Without.strcmp {key : List Char} {l : Entries ν} (h : Without key l) :
    ∀ x ∈ l, sameKey key x.2 = false := by
  intro x hx
  exact decide_eq_false (Ne.symm (h x hx))

theorem sameKey_self (key : List Char) (v : ν) : sameKey key (key, v) := decide_eq_true rfl

theorem split_chain (key : List Char) (l : Entries ν) :
    Without key l ∨ ∃ l1 p v l2, l = l1 ++ (p, (key, v)) :: l2 ∧ Without key l1 := by
  cases h : l.find? (fun x => decide (x.2.1 = key)) with
  | none =>
    left
    intro x hx
    simpa using find?_eq_none.mp h x hx
  | some x =>
    right
    obtain ⟨hx, l1, l2, hl, hl1⟩ := find?_eq_some_iff_append.mp h
    obtain ⟨p, k, v⟩ := x
    obtain rfl : k = key := by simpa using hx
    exact ⟨l1, p, v, l2, hl, fun y hy => by simpa using hl1 y hy⟩

theorem get_of_without {key : List Char} {l : Entries ν} (h : Without key l) :
    Chain.get key (l.map Prod.snd) = none := by
  rw [← append_nil (List.map _ _), Chain.get_append _ h.data]
  rfl

theorem get_of_split {key : List Char} {l1 : Entries ν} (h : Without key l1) (p : ℕ) (v : ν)
    (l2 : Entries ν) : Chain.get key ((l1 ++ (p, (key, v)) :: l2).map Prod.snd) = some v := by
  rw [map_append, Chain.get_append _ h.data]
  simp [Chain.get]

theorem refines_update {self' : HashTable ν} {lists : Fin MIN_BUCKET_COUNT → Entries ν}
    {t' : Hash ν} {i : Fin MIN_BUCKET_COUNT} {l : Entries ν} (h : Rep self' (update lists i l))
    (ht : ∀ j, t.buckets j = (lists j).map Prod.snd)
    (ht' : t'.buckets = update t.buckets i (l.map Prod.snd)) : Refines self' t' := by
  refine ⟨_, h, fun j => ?_⟩
  rw [ht']
  by_cases hj : j = i
  · subst hj
    rw [update_self, update_self]
  · rw [update_of_ne hj, update_of_ne hj, ht j]

/-! ### The calls -/

theorem hashGet_refines (h : Refines self t) {key : List Char}
    (hfuel : (t.buckets (bucketOf key)).length < fuel) :
    hashGet fuel self key = some (OsLesson.hashGet t key) := by
  obtain ⟨lists, hrep, ht⟩ := h
  have hget : OsLesson.hashGet t key = Chain.get key ((lists (bucketOf key)).map Prod.snd) := by
    rw [← ht]
    rfl
  rw [ht, length_map] at hfuel
  obtain habsent | ⟨l1, p, v, l2, hl, hbefore⟩ := split_chain key (lists (bucketOf key))
  · have hfind := find_none (hrep.path (bucketOf key)) habsent.strcmp hfuel.le
    simp [hashGet, hfind, hget, get_of_without habsent]
  · obtain ⟨next, hpath, hp, _⟩ := hrep.split hl
    rw [hl, length_append] at hfuel
    have hfind := find_some hpath hbefore.strcmp hp (sameKey_self key v) (by omega : l1.length < fuel)
    simp [hashGet, hfind, hp, hget, hl, get_of_split hbefore, -map_append]

/-- `hash_set` with memory for an entry returns, and without it the process may end. -/
theorem hashSet_refines (h : Refines self t) {key : List Char} (value : ν) {mem : Option ℕ}
    (hfuel : (t.buckets (bucketOf key)).length < fuel) (hmem : ∀ p ∈ mem, self.cells p = none) :
    ∃ r, hashSet fuel self key value mem = some r ∧ (mem.isSome → r.isSome) ∧
    ∀ self' ∈ r, Refines self' (OsLesson.hashSet t key value) := by
  obtain ⟨lists, hrep, ht⟩ := h
  have hset : (OsLesson.hashSet t key value).buckets =
      update t.buckets (bucketOf key) (Chain.set key value ((lists (bucketOf key)).map Prod.snd)) := by
    rw [← ht]
    rfl
  rw [ht, length_map] at hfuel
  obtain habsent | ⟨l1, p, v, l2, hl, hbefore⟩ := split_chain key (lists (bucketOf key))
  · have hfind := find_none (hrep.path (bucketOf key)) habsent.strcmp hfuel.le
    rw [Chain.set, get_of_without habsent] at hset
    cases mem with
    | none => exact ⟨none, by simp [hashSet, trySet, hfind], nofun, nofun⟩
    | some p =>
      refine ⟨some (self.push (bucketOf key) p (key, value)), by simp [hashSet, trySet,
        hfind], fun _ => rfl, ?_⟩
      rintro self' ⟨⟩
      exact refines_update (hrep.push (bucketOf key) (hmem p rfl) (key, value)) ht hset
  · obtain ⟨next, hpath, hp, _⟩ := hrep.split hl
    rw [hl, length_append] at hfuel
    have hfind := find_some hpath hbefore.strcmp hp (sameKey_self key v) (by omega : l1.length < fuel)
    obtain ⟨self', hmodify, hrep'⟩ := hrep.modify hl fun e => (e.1, value)
    refine ⟨some self', by simp [hashSet, trySet, hfind, hmodify], fun _ => rfl, ?_⟩
    rintro self' ⟨⟩
    refine refines_update hrep' ht ?_
    rw [hset, Chain.set, hl, get_of_split hbefore, Option.isSome_some, if_pos rfl, map_append, map_append,
      Chain.assign_append _ hbefore.data]
    simp [Chain.assign]

theorem hashRemove_refines (h : Refines self t) {key : List Char}
    (hfuel : (t.buckets (bucketOf key)).length < fuel) :
    ∃ self', hashRemove fuel self key = some self' ∧ Refines self' (OsLesson.hashRemove t key) := by
  obtain ⟨lists, hrep, ht⟩ := h
  have hremove : (OsLesson.hashRemove t key).buckets =
      update t.buckets (bucketOf key) (Chain.remove key ((lists (bucketOf key)).map Prod.snd)) := by
    rw [← ht]
    rfl
  have hroot : self.load (.root (bucketOf key)) = some (self.roots (bucketOf key)) := rfl
  rw [ht, length_map] at hfuel
  obtain habsent | ⟨l1, p, v, l2, hl, hbefore⟩ := split_chain key (lists (bucketOf key))
  · have hfind := findSlot_none hroot (hrep.path (bucketOf key)) habsent.strcmp hfuel
    have hload := load_slotAfter hroot (hrep.path (bucketOf key))
    refine ⟨self, by simp [hashRemove, hfind, hload], lists, hrep, fun j => ?_⟩
    rw [hremove, ← append_nil (List.map _ _), Chain.remove_append _ habsent.data, Chain.remove, append_nil,
      ← ht, update_eq_self, ht]
  · obtain ⟨next, hpath, hp, _⟩ := hrep.split hl
    rw [hl, length_append] at hfuel
    have hfind :=
      findSlot_some hroot hpath hbefore.strcmp hp (sameKey_self key v) (by omega : l1.length < fuel)
    have hload := load_slotAfter hroot hpath
    obtain ⟨self', hunlink, hrep'⟩ := hrep.unlink hl
    refine ⟨self', by simp [hashRemove, hfind, hload, hunlink], refines_update hrep' ht ?_⟩
    rw [hremove, hl, map_append, map_append, Chain.remove_append _ hbefore.data]
    simp [Chain.remove]

theorem hashForeach_refines (h : Refines self t) (hfuel : ∀ i, (t.buckets i).length ≤ fuel) :
    hashForeach fuel self = some t.entries := by
  obtain ⟨lists, hrep, ht⟩ := h
  have hcollect : ∀ i, self.collect fuel (self.roots i) = some (t.buckets i) := by
    intro i
    have hlength := hfuel i
    rw [ht, length_map] at hlength
    rw [ht, collect_path (hrep.path i) hlength]
  have hchains : ∀ l : List (Fin MIN_BUCKET_COUNT),
      (l.mapM fun i => self.collect fuel (self.roots i)) = some (l.map t.buckets) := by
    intro l
    induction l with
    | nil => rfl
    | cons i l ih => rw [mapM_cons, hcollect, ih]; rfl
  unfold hashForeach
  rw [hchains]
  rfl

/-! ### Runs -/

inductive Call (ν : Type)
  | set (key : List Char) (value : ν)
  | remove (key : List Char)

namespace Call

def key : Call ν → List Char
  | set key _ => key
  | remove key => key

/-- The value that a call leaves for its key. -/
def value : Call ν → Option ν
  | set _ value => some value
  | remove _ => none

/-- What a call does to the chains. -/
def apply (t : Hash ν) : Call ν → Hash ν
  | set key value => OsLesson.hashSet t key value
  | remove key => OsLesson.hashRemove t key

end Call

/-- The calls that return; the memory for a new entry is at any address that is not in use. -/
def Step (fuel : ℕ) (self : HashTable ν) : Call ν → HashTable ν → Prop
  | .set key value, self' =>
    ∃ mem, (∀ p ∈ mem, self.cells p = none) ∧ hashSet fuel self key value mem = some (some self')
  | .remove key, self' => hashRemove fuel self key = some self'

/-- The value of the last `hash_set` of the key that no `hash_remove` of it follows. -/
def lastSet (calls : List (Call ν)) (k : List Char) : Option ν :=
  (calls.reverse.find? fun c => c.key = k).bind Call.value

theorem lastSet_concat (calls : List (Call ν)) (c : Call ν) (k : List Char) :
    lastSet (calls ++ [c]) k = if k = c.key then c.value else lastSet calls k := by
  unfold lastSet
  by_cases h : c.key = k
  · simp [h]
  · simp [h, Ne.symm h]

theorem hashGet_apply (t : Hash ν) (c : Call ν) (k : List Char) :
    OsLesson.hashGet (c.apply t) k = if k = c.key then c.value else OsLesson.hashGet t k := by
  cases c with
  | set key value => exact hashGet_set t key k value
  | remove key => exact hashGet_remove t key k

theorem hashGet_foldl (calls : List (Call ν)) (k : List Char) :
    OsLesson.hashGet (calls.foldl Call.apply OsLesson.hashNew) k = lastSet calls k := by
  induction calls using List.reverseRecOn with
  | nil => rfl
  | append_singleton calls c ih =>
    rw [foldl_append, foldl_cons, foldl_nil, hashGet_apply, lastSet_concat, ih]

theorem length_apply_le (t : Hash ν) (c : Call ν) (i : Fin MIN_BUCKET_COUNT) :
    ((c.apply t).buckets i).length ≤ (t.buckets i).length + 1 := by
  have hupdate : ∀ (j : Fin MIN_BUCKET_COUNT) (l : List (List Char × ν)), l.length ≤ (t.buckets j).length + 1 →
      (update t.buckets j l i).length ≤ (t.buckets i).length + 1 := by
    intro j l hl
    by_cases hi : i = j
    · subst hi
      rwa [update_self]
    · rw [update_of_ne hi]
      omega
  cases c with
  | set key value => exact hupdate _ _ (Chain.length_set_le _)
  | remove key => exact hupdate _ _ ((Chain.remove_sublist _).length_le.trans (Nat.le_succ _))

theorem exists_step (h : Refines self t) (hfuel : ∀ i, (t.buckets i).length < fuel) (c : Call ν) :
    ∃ self', Step fuel self c self' := by
  cases c with
  | set key value =>
    obtain ⟨lists, hrep, ht⟩ := h
    obtain ⟨p, hp⟩ := hrep.exists_free
    have hmem : ∀ q ∈ some p, self.cells q = none := by
      rintro q ⟨⟩
      exact hp
    obtain ⟨r, hr, hsome, _⟩ := hashSet_refines ⟨lists, hrep, ht⟩ value (hfuel _) hmem
    obtain ⟨self', rfl⟩ := Option.isSome_iff_exists.mp (hsome rfl)
    exact ⟨self', some p, hmem, hr⟩
  | remove key =>
    obtain ⟨self', hremove, _⟩ := hashRemove_refines h (hfuel (bucketOf key))
    exact ⟨self', hremove⟩

theorem step_refines (h : Refines self t) (hfuel : ∀ i, (t.buckets i).length < fuel) {c : Call ν}
    {self' : HashTable ν} (hstep : Step fuel self c self') : Refines self' (c.apply t) := by
  cases c with
  | set key value =>
    obtain ⟨mem, hmem, hset⟩ := hstep
    obtain ⟨r, hr, _, hrefines⟩ := hashSet_refines h value (hfuel (bucketOf key)) hmem
    rw [hset] at hr
    cases hr
    exact hrefines self' rfl
  | remove key =>
    obtain ⟨u, hremove, hrefines⟩ := hashRemove_refines h (hfuel (bucketOf key))
    obtain rfl : u = self' := Option.some.inj (hremove.symm.trans hstep)
    exact hrefines

/-- All the calls return, and wherever they put their entries the memory holds the chains. -/
theorem run_refines (calls : List (Call ν)) (h : Refines self t)
    (hfuel : ∀ i, (t.buckets i).length + calls.length < fuel) :
    (∃ u, Run (Step fuel) self calls u) ∧
    (∀ u, Run (Step fuel) self calls u → Refines u (calls.foldl Call.apply t)) ∧
    ∀ i, ((calls.foldl Call.apply t).buckets i).length < fuel := by
  induction calls generalizing self t with
  | nil =>
    refine ⟨⟨self, .nil self⟩, fun u hu => ?_, hfuel⟩
    cases hu
    exact h
  | cons c calls ih =>
    have hnow : ∀ i, (t.buckets i).length < fuel := fun i => lt_of_le_of_lt (Nat.le_add_right _ _) (hfuel i)
    have hrest : ∀ i, ((c.apply t).buckets i).length + calls.length < fuel := by
      intro i
      have hc := length_apply_le t c i
      have hi := hfuel i
      rw [length_cons] at hi
      omega
    obtain ⟨self', hstep⟩ := exists_step h hnow c
    obtain ⟨⟨u, hu⟩, _, hlength⟩ := ih (step_refines h hnow hstep) hrest
    refine ⟨⟨u, .cons hstep hu⟩, fun u hu => ?_, hlength⟩
    cases hu with
    | cons hstep hu => exact (ih (step_refines h hnow hstep) hrest).2.1 u hu

theorem Refines.eq_of_key (h : Refines self t) {p q : ℕ} {e e' : Cell (List Char × ν)}
    (hp : self.cells p = some e) (hq : self.cells q = some e')
    (hkey : e.data.1 = e'.data.1) : p = q := by
  obtain ⟨lists, hrep, ht⟩ := h
  have hplace : ∀ {p : ℕ} {e : Cell (List Char × ν)}, self.cells p = some e →
      (p, e.data) ∈ lists (bucketOf e.data.1) := by
    intro p e hp
    obtain ⟨i, hi⟩ := hrep.owned p (by rw [hp]; rfl)
    have hmem := (hrep.path i).mem hi hp
    have hbucket := t.placed i e.data (by rw [ht]; exact mem_map_of_mem hmem)
    rwa [hbucket]
  have hnodup := t.nodup (bucketOf e.data.1)
  rw [ht, map_map] at hnodup
  have hq' := hplace hq
  rw [← hkey] at hq'
  have heq : (p, e.data) = (q, e'.data) := inj_on_of_nodup_map hnodup (hplace hp) hq' hkey
  exact congrArg Prod.fst heq

/-- The table is a finite map, whatever keys meet in a bucket and wherever the entries are in
memory. -/
theorem hash_table_finite_map (calls : List (Call ν)) (fuel : ℕ) (hfuel : calls.length < fuel) :
    (∃ self, Run (Step fuel) hashNew calls self) ∧ ∀ self, Run (Step fuel) hashNew calls self →
      (∀ k, hashGet fuel self k = some (lastSet calls k)) ∧
      (∀ i, ∃ chain, self.collect fuel (self.roots i) = some chain ∧
      ∀ e ∈ chain, hash e.1 % MIN_BUCKET_COUNT = i) ∧
      (∀ p q e e', self.cells p = some e → self.cells q = some e' → e.data.1 = e'.data.1 → p = q) ∧
      ∃ visited, hashForeach fuel self = some visited ∧ (visited.map Prod.fst).Nodup ∧
      ∀ k v, (k, v) ∈ visited ↔ lastSet calls k = some v := by
  have hempty : ∀ i, ((OsLesson.hashNew : Hash ν).buckets i).length + calls.length < fuel := by
    intro i
    simpa [OsLesson.hashNew, ChainedTable.empty] using hfuel
  obtain ⟨hexists, hruns, hlength⟩ := run_refines calls refines_new hempty
  refine ⟨hexists, fun self hrun => ?_⟩
  have h := hruns self hrun
  refine ⟨fun k => ?_, fun i => ?_, fun p q e e' => h.eq_of_key, _,
    hashForeach_refines h fun i => (hlength i).le, ChainedTable.nodup_entries _, fun k v => ?_⟩
  · rw [hashGet_refines h (hlength _), hashGet_foldl]
  · obtain ⟨lists, hrep, ht⟩ := h
    have hle := (hlength i).le
    rw [ht, length_map] at hle
    refine ⟨_, collect_path (hrep.path i) hle, fun e he => ?_⟩
    rw [← ht] at he
    exact congrArg Fin.val (ChainedTable.placed _ i e he)
  · rw [ChainedTable.mem_entries_iff, ← hashGet_foldl]
    rfl

/-- Two keys of one bucket. -/
theorem hash_table_collision : bucketOf "ab".toList = bucketOf "bA".toList ∧ ∃ self,
    Run (Step 4) hashNew [.set "ab".toList 1, .set "bA".toList 2, .remove "ab".toList] self ∧
      hashGet 4 self "bA".toList = some (some 2) ∧ hashGet 4 self "ab".toList = some none := by
  obtain ⟨⟨self, hrun⟩, h⟩ :=
    hash_table_finite_map [.set "ab".toList 1, .set "bA".toList 2, .remove "ab".toList]
    4 (by decide)
  refine ⟨by decide, self, hrun, ?_, ?_⟩
  · rw [(h self hrun).1]
    decide
  · rw [(h self hrun).1]
    decide

end Code365.OsLesson.Memory
