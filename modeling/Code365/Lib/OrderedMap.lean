import Mathlib

/-! # Maps ordered by descending key

`std::map<K, V, std::greater<K>>` as the list of its entries in the order of iteration.  The
structure carries the proof that the keys go down strictly, so there is one entry for a key at
most. -/

namespace Code365

open List

structure OrderedMap (κ ν : Type*) [LinearOrder κ] where
  entries : List (κ × ν)
  sorted : entries.Pairwise (fun a b => b.1 < a.1)

namespace OrderedMap

variable {κ ν : Type*} [LinearOrder κ]

def empty : OrderedMap κ ν := ⟨[], List.Pairwise.nil⟩

/-- `m.count(k)` and `m[k]`. -/
def get? (m : OrderedMap κ ν) (k : κ) : Option ν := (m.entries.find? (fun p => p.1 == k)).map Prod.snd

/-- The values in the order of iteration. -/
def values (m : OrderedMap κ ν) : List ν := m.entries.map Prod.snd

/-- `m[k] = v`. -/
def insert (m : OrderedMap κ ν) (k : κ) (v : ν) : OrderedMap κ ν where
  entries := m.entries.filter (fun p => k < p.1) ++ (k, v) :: m.entries.filter (fun p => p.1 < k)
  sorted := by
    rw [pairwise_append, pairwise_cons]
    refine ⟨m.sorted.filter _, ⟨?_, m.sorted.filter _⟩, ?_⟩
    · intro p hp
      simpa using (mem_filter.mp hp).2
    · intro p hp q hq
      have hk : k < p.1 := by simpa using (mem_filter.mp hp).2
      rcases mem_cons.mp hq with rfl | hq
      · exact hk
      · have hq' : q.1 < k := by simpa using (mem_filter.mp hq).2
        exact lt_trans hq' hk

def erase (m : OrderedMap κ ν) (k : κ) : OrderedMap κ ν :=
  ⟨m.entries.filter (fun p => p.1 != k), m.sorted.filter _⟩

def map {μ : Type*} (f : ν → μ) (m : OrderedMap κ ν) : OrderedMap κ μ where
  entries := m.entries.map (fun p => (p.1, f p.2))
  sorted := by
    rw [pairwise_map]
    exact m.sorted

variable {m : OrderedMap κ ν} {k : κ} {v w : ν}

theorem mem_values_of_get? (h : m.get? k = some v) : v ∈ m.values := by
  obtain ⟨p, hp, rfl⟩ := Option.map_eq_some_iff.mp h
  exact mem_map_of_mem (mem_of_find?_eq_some hp)

theorem mem_values_insert (h : w ∈ (m.insert k v).values) : w = v ∨ w ∈ m.values := by
  obtain ⟨p, hp, rfl⟩ := mem_map.mp h
  rcases mem_append.mp hp with hp | hp
  · exact .inr (mem_map_of_mem (mem_filter.mp hp).1)
  · rcases mem_cons.mp hp with rfl | hp
    · exact .inl rfl
    · exact .inr (mem_map_of_mem (mem_filter.mp hp).1)

theorem mem_values_erase (h : w ∈ (m.erase k).values) : w ∈ m.values := by
  obtain ⟨p, hp, rfl⟩ := mem_map.mp h
  exact mem_map_of_mem (mem_filter.mp hp).1

theorem mem_values_map {μ : Type*} {f : ν → μ} {w : μ} (h : w ∈ (m.map f).values) :
    ∃ v ∈ m.values, w = f v := by
  obtain ⟨p, hp, rfl⟩ := mem_map.mp h
  obtain ⟨q, hq, rfl⟩ := mem_map.mp hp
  exact ⟨q.2, mem_map_of_mem hq, rfl⟩

end OrderedMap

end Code365
