import Code365.Lib.KeyedSlots

/-! # The dictionary of the ini parser (`utils/dictionary.cpp`)

A dictionary is a table of slots that double when all are in use.  A slot holds a key, a value
(`NULL` for a section) and the hash of the key, which the scans compare before the key itself.
`Slot` and `Dictionary` carry what the code relies on: the stored hash is the hash of the key, `n`
counts the slots in use, no key occurs twice.

`dictionarySet` can fail only where it has to grow the table (`dictionarySet_eq_error_iff`); when it
succeeds, the entries are those before with one written (`mem_entries_set_iff`), so that
`dictionaryGet` reads the write and everything else unchanged (`dictionaryGet_set`). -/

namespace Code365.Ini

open KeyedSlots

def DICTMINSZ : ℕ := 128

/-- `(unsigned)key[i]`, where `char` is signed. -/
def unsignedOf (c : Char) : BitVec 32 := (BitVec.ofNat 8 c.toNat).signExtend 32

def dictionaryHash (key : List Char) : BitVec 32 :=
  let hash := key.foldl (fun hash c =>
    let hash := hash + unsignedOf c
    let hash := hash + (hash <<< 10)
    hash ^^^ (hash >>> 6)) 0
  let hash := hash + (hash <<< 3)
  let hash := hash ^^^ (hash >>> 11)
  hash + (hash <<< 15)

/-- One used slot: `d->key[i]`, `d->val[i]` and `d->hash[i]`. -/
structure Slot where
  key : List Char
  val : Option (List Char)
  hash : BitVec 32
  hash_eq : hash = dictionaryHash key

/-- The slot that `dictionary_set` writes. -/
def Slot.of (key : List Char) (val : Option (List Char)) : Slot := ⟨key, val, dictionaryHash key, rfl⟩

theorem Slot.key_of (key : List Char) (val : Option (List Char)) :
    (Slot.of key val).key = key := rfl

theorem Slot.eq_of : ∀ s : Slot, s = Slot.of s.key s.val
  | ⟨_, _, _, rfl⟩ => rfl

structure Dictionary where
  slots : List (Option Slot)
  n : ℕ
  n_eq : n = slots.reduceOption.length
  nodup : (keys Slot.key slots).Nodup
  minsz : DICTMINSZ ≤ slots.length

def dictionaryNew (size : ℕ) : Dictionary where
  slots := List.replicate (max size DICTMINSZ) none
  n := 0
  n_eq := by simp
  nodup := by simp [keys]
  minsz := by simp

namespace Dictionary

def size (d : Dictionary) : ℕ := d.slots.length

theorem size_dictionaryNew (size : ℕ) : (dictionaryNew size).size = max size DICTMINSZ :=
  List.length_replicate

/-- The used slots in their order. -/
def entries (d : Dictionary) : List Slot := d.slots.reduceOption

def keys (d : Dictionary) : List (List Char) := d.entries.map Slot.key

@[simp] theorem keys_dictionaryNew (size : ℕ) : (dictionaryNew size).keys = [] := by
  simp [keys, entries, dictionaryNew]

theorem nodup_keys (d : Dictionary) : d.keys.Nodup := d.nodup

theorem eq_of_key_eq {d : Dictionary} {s t : Slot} (hs : s ∈ d.entries) (ht : t ∈ d.entries)
    (h : s.key = t.key) : s = t := List.inj_on_of_nodup_map d.nodup hs ht h

/-- The scan that `dictionary_get` and `dictionary_set` share. -/
def find (d : Dictionary) (key : List Char) : Option Slot :=
  d.entries.find? (fun s => dictionaryHash key = s.hash ∧ key = s.key)

theorem find_eq_lookup (d : Dictionary) (key : List Char) :
    d.find key = lookup Slot.key key d.slots := by
  refine congrArg (fun p => d.entries.find? p) (funext fun s => ?_)
  -- equal keys have equal hashes, so the first comparison never decides
  rw [decide_eq_decide, s.hash_eq]
  constructor
  · exact fun h => h.2.symm
  · rintro rfl
    exact ⟨rfl, rfl⟩

theorem find_isSome_iff {d : Dictionary} {key : List Char} :
    (d.find key).isSome ↔ key ∈ d.keys := by
  rw [find_eq_lookup, lookup_isSome_iff]
  rfl

theorem find_eq_some_iff {d : Dictionary} {key : List Char} {s : Slot} :
    d.find key = some s ↔ s ∈ d.entries ∧ s.key = key := by
  rw [find_eq_lookup, lookup_eq_some_iff d.nodup]
  rfl

theorem length_keys (d : Dictionary) : d.keys.length = d.n := by
  rw [d.n_eq, keys, List.length_map]
  rfl

/-- `d->val[i] = xstrdup(val)` at the slot of the key. -/
def overwrite (d : Dictionary) (key : List Char) (val : Option (List Char)) : Dictionary where
  slots := replace Slot.key key (Slot.of key val) d.slots
  n := d.n
  n_eq := by
    rw [← d.length_keys, ← List.length_map (f := Slot.key)]
    exact congrArg List.length (keys_replace (Slot.key_of key val) d.slots).symm
  nodup := by
    rw [keys_replace (Slot.key_of key val)]
    exact d.nodup
  minsz := by
    rw [length_replace]
    exact d.minsz

/-- The three arrays doubled, the new half zero. -/
def double (d : Dictionary) : Dictionary where
  slots := d.slots ++ List.replicate d.size none
  n := d.n
  n_eq := by simp [d.n_eq, List.reduceOption_append]
  nodup := by
    have h := d.nodup
    simpa [KeyedSlots.keys, List.reduceOption_append] using h
  minsz := by
    have h := d.minsz
    simp only [List.length_append]
    omega

theorem exists_free {d : Dictionary} (h : d.n < d.size) : none ∈ d.slots := by
  rw [d.n_eq] at h
  exact List.reduceOption_length_lt_iff.mp h

/-- The key and its value in the first empty slot. -/
def add (d : Dictionary) (key : List Char) (val : Option (List Char)) (hk : key ∉ d.keys)
    (hn : d.n < d.size) : Dictionary where
  slots := insert (Slot.of key val) d.slots
  n := d.n + 1
  n_eq := by
    rw [(insert_perm _ (exists_free hn)).length_eq, List.length_cons, d.n_eq]
  nodup := by
    rw [(keys_insert_perm _ (exists_free hn)).nodup_iff]
    exact List.nodup_cons.mpr ⟨hk, d.nodup⟩
  minsz := by
    rw [length_insert]
    exact d.minsz

@[simp] theorem entries_double (d : Dictionary) : d.double.entries = d.entries := by
  simp [entries, double, List.reduceOption_append]

@[simp] theorem keys_double (d : Dictionary) : d.double.keys = d.keys := by
  simp [keys]

theorem lt_size_double {d : Dictionary} (h : d.n = d.size) : d.double.n < d.double.size := by
  have hm : 128 ≤ d.size := d.minsz
  have hs : d.double.size = d.size + d.size := by simp [size, double]
  have hn : d.double.n = d.n := rfl
  omega

theorem lt_size_of_ne {d : Dictionary} (h : ¬ d.n = d.size) : d.n < d.size := by
  have hle := List.reduceOption_length_le d.slots
  rw [← d.n_eq] at hle
  unfold size at *
  omega

theorem notMem_keys_of_not_find {d : Dictionary} {key : List Char}
    (h : ¬ (0 < d.n ∧ (d.find key).isSome)) : key ∉ d.keys := by
  intro hk
  refine h ⟨?_, find_isSome_iff.mpr hk⟩
  rw [← d.length_keys]
  exact List.length_pos_of_mem hk

end Dictionary

open Dictionary

/-- What a growth that fails leaves without memory: only the hash array, or the keys or the values.
`dictionary_set` returns -1 in both cases, but only in the first can the dictionary still be freed:
`dictionary_del` reads `d->key[i]` and `d->val[i]`. -/
inductive Lost
  | hash | slots
  deriving DecidableEq

/-- `dictionary_get`; `none` is the default the caller passed. -/
def dictionaryGet (d : Dictionary) (key : List Char) : Option (Option (List Char)) :=
  (d.find key).map Slot.val

/-- `dictionary_set`.  `grow size` is the outcome of the three `mem_double` calls at this size,
`none` when all succeed. -/
def dictionarySet (grow : ℕ → Option Lost) (d : Dictionary) (key : List Char) (val : Option (List Char)) :
    Except Lost Dictionary :=
  if h : 0 < d.n ∧ (d.find key).isSome then .ok (d.overwrite key val)
  else if hn : d.n = d.size then
    match grow d.size with
    | some lost => .error lost
    | none => .ok (d.double.add key val (by simpa using notMem_keys_of_not_find h) (lt_size_double hn))
  else .ok (d.add key val (notMem_keys_of_not_find h) (lt_size_of_ne hn))

variable {grow : ℕ → Option Lost} {d d' : Dictionary} {key k : List Char} {val : Option (List Char)}

theorem dictionarySet_cases (h : dictionarySet grow d key val = .ok d') : key ∈ d.keys ∧
    d' = d.overwrite key val ∨ ∃ e : Dictionary, ∃ he : key ∉ e.keys, ∃ hn, e.entries = d.entries ∧
    d' = e.add key val he hn := by
  unfold dictionarySet at h
  split_ifs at h with hf
  · exact .inl ⟨find_isSome_iff.mp hf.2, (Except.ok.inj h).symm⟩
  · split at h
    · cases h
    · exact .inr ⟨d.double, _, _, entries_double d, (Except.ok.inj h).symm⟩
  · exact .inr ⟨d, _, _, rfl, (Except.ok.inj h).symm⟩

theorem mem_entries_set_iff (h : dictionarySet grow d key val = .ok d') {s : Slot} :
    s ∈ d'.entries ↔ s = Slot.of key val ∨ s ∈ d.entries ∧ s.key ≠ key := by
  obtain ⟨hk, rfl⟩ | ⟨e, he, hn, hed, rfl⟩ := dictionarySet_cases h
  · have hm := mem_replace_iff (x := s) (Slot.key_of key val) d.nodup
    simp only [show key ∈ KeyedSlots.keys Slot.key d.slots from hk, and_true] at hm
    exact hm
  have hp := (insert_perm (Slot.of key val) (exists_free hn)).mem_iff (a := s)
  rw [List.mem_cons] at hp
  have hs : s ∈ d.entries → s.key ≠ key := by
    rintro hs rfl
    rw [← hed] at hs
    exact he (List.mem_map_of_mem hs)
  rw [← hed] at hs ⊢
  exact hp.trans (or_congr_right ⟨fun hs' => ⟨hs', hs hs'⟩, fun hs' => hs'.1⟩)

theorem dictionaryGet_eq_some_iff : dictionaryGet d k = some val ↔ Slot.of k val ∈ d.entries := by
  unfold dictionaryGet
  rw [Option.map_eq_some_iff]
  constructor
  · rintro ⟨s, hs, rfl⟩
    obtain ⟨hm, rfl⟩ := find_eq_some_iff.mp hs
    rwa [← Slot.eq_of]
  · intro hm
    exact ⟨_, find_eq_some_iff.mpr ⟨hm, rfl⟩, rfl⟩

theorem dictionaryGet_isSome_iff : (dictionaryGet d k).isSome ↔ k ∈ d.keys := by
  rw [← find_isSome_iff, dictionaryGet, Option.isSome_map]

section

variable (h : dictionarySet grow d key val = .ok d')

include h

theorem dictionaryGet_set (k : List Char) :
    dictionaryGet d' k = if k = key then some val else dictionaryGet d k := by
  apply Option.ext
  intro v
  rw [dictionaryGet_eq_some_iff, mem_entries_set_iff h]
  split
  next hk =>
    subst hk
    simp only [Slot.of, Slot.mk.injEq, true_and, ne_eq, not_true_eq_false, and_false, or_false, and_true,
      Option.some.injEq]
    exact eq_comm
  next hk =>
    rw [dictionaryGet_eq_some_iff]
    simp [Slot.of, hk]

theorem mem_keys_set_iff :
    k ∈ d'.keys ↔ k = key ∨ k ∈ d.keys := by
  rw [← dictionaryGet_isSome_iff, ← dictionaryGet_isSome_iff, dictionaryGet_set h]
  split <;> simp [*]

theorem countP_keys_set_le (p : List Char → Bool) :
    d'.keys.countP p ≤ d.keys.countP p + if key ∈ d.keys then 0 else [key].countP p := by
  obtain ⟨hk, rfl⟩ | ⟨e, he, hn, hed, rfl⟩ := dictionarySet_cases h
  · have hkeys : (d.overwrite key val).keys = d.keys := keys_replace (Slot.key_of key val) d.slots
    rw [hkeys, if_pos hk]
    omega
  · have hkeys : e.keys = d.keys := congrArg (List.map Slot.key) hed
    have hp : (e.add key val he hn).keys.Perm (key :: e.keys) := keys_insert_perm _ (exists_free hn)
    rw [hkeys] at hp he
    rw [if_neg he, hp.countP_eq, List.countP_cons, List.countP_singleton]

end

theorem dictionarySet_eq_error_iff {lost : Lost} : dictionarySet grow d key val = .error lost ↔
    key ∉ d.keys ∧ d.n = d.size ∧ grow d.size = some lost := by
  unfold dictionarySet
  split
  next hf => simp [find_isSome_iff.mp hf.2]
  next hf =>
    have hk := notMem_keys_of_not_find hf
    split
    next hn => split <;> simp [*]
    next hn => simp [hn]

/-- A write that succeeds does not depend on how the table grew. -/
theorem dictionarySet_of_ok (h : dictionarySet grow d key val = .ok d') :
    dictionarySet (fun _ => none) d key val = .ok d' := by
  unfold dictionarySet at h ⊢
  split_ifs at h ⊢
  · exact h
  · split at h
    · cases h
    · exact h
  · exact h

theorem exists_dictionarySet_ok (d : Dictionary) (key : List Char) (val : Option (List Char)) :
    ∃ d', dictionarySet (fun _ => none) d key val = .ok d' := by
  cases h : dictionarySet (fun _ => none) d key val with
  | ok d' => exact ⟨d', rfl⟩
  | error lost => simpa using (dictionarySet_eq_error_iff.mp h).2.2

end Code365.Ini
