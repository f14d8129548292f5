import Mathlib

/-! # Hash tables with chained buckets

A table has `n` buckets, and `place` says to which bucket a key belongs.  A bucket is a chain of
entries: setting a key writes over its entry in place or puts a new one in front, removing a key
unlinks its first entry.  `ChainedTable` carries that every entry is in the bucket of its key and
that no chain holds a key twice; therefore the table behaves as a map
(`get_set`, `get_remove`). -/

namespace Code365

open List Function

namespace Chain

variable {κ ν : Type*} [DecidableEq κ]

/-- The value of the first entry with the key. -/
def get (k : κ) : List (κ × ν) → Option ν
  | [] => none
  | e :: l => if e.1 = k then some e.2 else get k l

/-- Writes over the first entry with the key. -/
def assign (k : κ) (v : ν) : List (κ × ν) → List (κ × ν)
  | [] => []
  | e :: l => if e.1 = k then (e.1, v) :: l else e :: assign k v l

def set (k : κ) (v : ν) (l : List (κ × ν)) : List (κ × ν) :=
  if (get k l).isSome then assign k v l else (k, v) :: l

/-- Unlinks the first entry with the key. -/
def remove (k : κ) : List (κ × ν) → List (κ × ν)
  | [] => []
  | e :: l => if e.1 = k then l else e :: remove k l

variable {k k' : κ} {v : ν}

theorem get_isSome_iff : ∀ {l : List (κ × ν)}, (get k l).isSome ↔ k ∈ l.map Prod.fst
  | [] => by simp [get]
  | e :: l => by
    unfold get
    split
    next h => simp [h]
    next h =>
      rw [get_isSome_iff, map_cons, mem_cons]
      simp [Ne.symm h]

theorem keys_assign : ∀ (l : List (κ × ν)), (assign k v l).map Prod.fst = l.map Prod.fst
  | [] => rfl
  | e :: l => by
    unfold assign
    split
    · rfl
    · rw [map_cons, map_cons, keys_assign l]

theorem get_assign : ∀ {l : List (κ × ν)}, k ∈ l.map Prod.fst →
    get k' (assign k v l) = if k' = k then some v else get k' l
  | [], h => by cases h
  | e :: l, h => by
    unfold assign
    split
    next he =>
      subst he
      by_cases hk : k' = e.1
      · simp [get, hk]
      · simp [get, hk, Ne.symm hk]
    next he =>
      have hl : k ∈ l.map Prod.fst := by
        obtain rfl | hl := mem_cons.mp h
        · exact absurd rfl he
        · exact hl
      by_cases hk : e.1 = k'
      · subst hk
        simp [get, he]
      · simp [get, hk, get_assign hl]

theorem get_set (l : List (κ × ν)) : get k' (set k v l) = if k' = k then some v else get k' l := by
  unfold set
  split
  next h => exact get_assign (get_isSome_iff.mp h)
  next h =>
    by_cases hk : k' = k
    · simp [get, hk]
    · simp [get, hk, Ne.symm hk]

theorem keys_set_subset (l : List (κ × ν)) : (set k v l).map Prod.fst ⊆ k :: l.map Prod.fst := by
  unfold set
  split
  · rw [keys_assign]
    exact subset_cons_self _ _
  · exact List.Subset.refl _

theorem nodup_keys_set {l : List (κ × ν)} (h : (l.map Prod.fst).Nodup) :
    ((set k v l).map Prod.fst).Nodup := by
  unfold set
  split
  · rwa [keys_assign]
  next hk =>
    rw [get_isSome_iff] at hk
    exact nodup_cons.mpr ⟨hk, h⟩

theorem remove_sublist : ∀ (l : List (κ × ν)), (remove k l).Sublist l
  | [] => List.Sublist.refl _
  | e :: l => by
    unfold remove
    split
    · exact sublist_cons_self _ _
    · exact (remove_sublist l).cons_cons _

theorem get_remove : ∀ {l : List (κ × ν)}, (l.map Prod.fst).Nodup →
    get k' (remove k l) = if k' = k then none else get k' l
  | [], _ => by simp [get, remove]
  | e :: l, h => by
    obtain ⟨hn, hl⟩ := nodup_cons.mp h
    unfold remove
    split
    next he =>
      subst he
      by_cases hk : k' = e.1
      · rw [if_pos hk, hk, ← Option.not_isSome_iff_eq_none, get_isSome_iff]
        exact hn
      · simp [get, hk, Ne.symm hk]
    next he =>
      by_cases hk : e.1 = k'
      · subst hk
        simp [get, he]
      · simp [get, hk, get_remove hl]

theorem get_append :
    ∀ {l : List (κ × ν)} (l' : List (κ × ν)), (∀ e ∈ l, e.1 ≠ k) → get k (l ++ l') = get k l'
  | [], _, _ => rfl
  | e :: l, l', h => by
    rw [cons_append, get, if_neg (h e mem_cons_self)]
    exact get_append l' fun e he => h e (mem_cons_of_mem _ he)

theorem assign_append : ∀ {l : List (κ × ν)} (l' : List (κ × ν)), (∀ e ∈ l, e.1 ≠ k) →
    assign k v (l ++ l') = l ++ assign k v l'
  | [], _, _ => rfl
  | e :: l, l', h => by
    rw [cons_append, assign, if_neg (h e mem_cons_self),
      assign_append l' fun e he => h e (mem_cons_of_mem _ he), cons_append]

theorem remove_append : ∀ {l : List (κ × ν)} (l' : List (κ × ν)), (∀ e ∈ l, e.1 ≠ k) →
    remove k (l ++ l') = l ++ remove k l'
  | [], _, _ => rfl
  | e :: l, l', h => by
    rw [cons_append, remove, if_neg (h e mem_cons_self),
      remove_append l' fun e he => h e (mem_cons_of_mem _ he), cons_append]

theorem length_set_le (l : List (κ × ν)) : (set k v l).length ≤ l.length + 1 := by
  have hassign : (assign k v l).length = l.length := by
    have h := congrArg List.length (keys_assign (k := k) (v := v) l)
    rwa [length_map, length_map] at h
  unfold set
  split
  · omega
  · exact Nat.le_refl _

theorem mem_iff_get {l : List (κ × ν)} (h : (l.map Prod.fst).Nodup) :
    (k, v) ∈ l ↔ get k l = some v := by
  induction l with
  | nil => simp [get]
  | cons e l ih =>
    obtain ⟨hn, hl⟩ := nodup_cons.mp h
    rw [mem_cons, get]
    by_cases he : e.1 = k
    · subst he
      have hv : (e.1, v) ∉ l := fun hm => hn (mem_map.mpr ⟨_, hm, rfl⟩)
      simp [Prod.ext_iff, hv, eq_comm]
    · rw [if_neg he, ← ih hl]
      exact or_iff_right fun h => he (by rw [← h])

end Chain

/-- A table of `n` chains. -/
structure ChainedTable (κ ν : Type*) {n : ℕ} (place : κ → Fin n) where
  buckets : Fin n → List (κ × ν)
  placed : ∀ i, ∀ e ∈ buckets i, place e.1 = i
  nodup : ∀ i, ((buckets i).map Prod.fst).Nodup

namespace ChainedTable

variable {κ ν : Type*} [DecidableEq κ] {n : ℕ} {place : κ → Fin n}

def empty : ChainedTable κ ν place where
  buckets _ := []
  placed _ _ h := by cases h
  nodup _ := nodup_nil

def get (t : ChainedTable κ ν place) (k : κ) : Option ν := Chain.get k (t.buckets (place k))

/-- Sets the key in its bucket. -/
def set (t : ChainedTable κ ν place) (k : κ) (v : ν) : ChainedTable κ ν place where
  buckets := update t.buckets (place k) (Chain.set k v (t.buckets (place k)))
  placed := by
    refine (forall_update_iff _ fun i (l : List (κ × ν)) => ∀ e ∈ l, place e.1 = i).mpr
      ⟨fun e he => ?_, fun i _ => t.placed i⟩
    obtain hk | hk := mem_cons.mp (Chain.keys_set_subset _ (mem_map_of_mem he))
    · rw [hk]
    · obtain ⟨e', he', h⟩ := mem_map.mp hk
      rw [← h]
      exact t.placed _ _ he'
  nodup := (forall_update_iff _ fun _ l => (map Prod.fst l).Nodup).mpr
    ⟨Chain.nodup_keys_set (t.nodup _), fun i _ => t.nodup i⟩

/-- Removes the key from its bucket. -/
def remove (t : ChainedTable κ ν place) (k : κ) : ChainedTable κ ν place where
  buckets := update t.buckets (place k) (Chain.remove k (t.buckets (place k)))
  placed := (forall_update_iff _ fun i (l : List (κ × ν)) => ∀ e ∈ l, place e.1 = i).mpr
    ⟨fun e he => t.placed _ e ((Chain.remove_sublist _).subset he), fun i _ => t.placed i⟩
  nodup := (forall_update_iff _ fun _ l => (map Prod.fst l).Nodup).mpr
    ⟨(t.nodup _).sublist ((Chain.remove_sublist _).map _), fun i _ => t.nodup i⟩

variable (t : ChainedTable κ ν place)

@[simp] theorem get_set (k k' : κ) (v : ν) :
    (t.set k v).get k' = if k' = k then some v else t.get k' := by
  change Chain.get k' (update t.buckets (place k) (Chain.set k v _) (place k')) = _
  unfold get
  by_cases hp : place k' = place k
  · rw [hp, update_self, Chain.get_set]
  · have hk : k' ≠ k := fun h => hp (h ▸ rfl)
    rw [if_neg hk, update_of_ne hp]

@[simp] theorem get_remove (k k' : κ) :
    (t.remove k).get k' = if k' = k then none else t.get k' := by
  change Chain.get k' (update t.buckets (place k) (Chain.remove k _) (place k')) = _
  unfold get
  by_cases hp : place k' = place k
  · rw [hp, update_self, Chain.get_remove (t.nodup _)]
  · have hk : k' ≠ k := fun h => hp (h ▸ rfl)
    rw [if_neg hk, update_of_ne hp]

/-! ### All the entries -/

/-- The entries, bucket after bucket. -/
def entries (t : ChainedTable κ ν place) : List (κ × ν) := (List.finRange n).flatMap t.buckets

theorem mem_entries_iff (k : κ) (v : ν) : (k, v) ∈ t.entries ↔ t.get k = some v := by
  unfold entries get
  rw [mem_flatMap, ← Chain.mem_iff_get (t.nodup _)]
  constructor
  · rintro ⟨i, _, hi⟩
    rwa [t.placed i _ hi]
  · intro h
    exact ⟨place k, mem_finRange _, h⟩

omit [DecidableEq κ] in
theorem nodup_entries : (t.entries.map Prod.fst).Nodup := by
  unfold entries
  rw [map_flatMap, nodup_flatMap]
  refine ⟨fun i _ => t.nodup i, (nodup_finRange n).imp fun {i j} hij => ?_⟩
  -- a key in two buckets would belong to both
  intro k hi hj
  obtain ⟨e, he, rfl⟩ := mem_map.mp hi
  obtain ⟨e', he', hk⟩ := mem_map.mp hj
  rw [← t.placed i e he, ← t.placed j e' he', hk] at hij
  exact hij rfl

end ChainedTable

end Code365
