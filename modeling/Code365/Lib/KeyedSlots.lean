import Mathlib

/-! # Tables of keyed slots

A table is a list of slots, each free (`none`) or holding an entry; an entry has a key.  `lookup`
scans the slots in order for a key, `replace` overwrites the first entry with a key, `insert`
takes the first free slot.  For a table whose keys are distinct the table is determined by the
membership of its entries: `mem_replace_iff` and `insert_perm` say what the two writes do to it,
`lookup_eq_some_iff` reads it back. -/

namespace Code365.KeyedSlots

open List

variable {α κ : Type*} [DecidableEq κ] (key : α → κ)

/-- The keys in use, in the order of the slots. -/
def keys (l : List (Option α)) : List κ := l.reduceOption.map key

def lookup (k : κ) (l : List (Option α)) : Option α := l.reduceOption.find? (fun a => key a = k)

def replace (k : κ) (a : α) : List (Option α) → List (Option α)
  | [] => []
  | none :: l => none :: replace k a l
  | some b :: l => if key b = k then some a :: l else some b :: replace k a l

def insert (a : α) : List (Option α) → List (Option α)
  | [] => []
  | none :: l => some a :: l
  | some b :: l => some b :: insert a l

variable {key} {k : κ} {a : α} {l : List (Option α)}

theorem lookup_isSome_iff : (lookup key k l).isSome ↔ k ∈ keys key l := by
  simp [lookup, keys, find?_isSome]

theorem lookup_eq_some_iff (h : (keys key l).Nodup) :
    lookup key k l = some a ↔ a ∈ l.reduceOption ∧ key a = k := by
  constructor
  · intro hf
    exact ⟨mem_of_find?_eq_some hf, by simpa using find?_some hf⟩
  · rintro ⟨ha, rfl⟩
    have hs : (lookup key (key a) l).isSome := lookup_isSome_iff.mpr (mem_map_of_mem ha)
    obtain ⟨b, hb⟩ := Option.isSome_iff_exists.mp hs
    have hk : key b = key a := by simpa using find?_some hb
    rw [hb, inj_on_of_nodup_map h (mem_of_find?_eq_some hb) ha hk]

/-! ### Overwriting an entry -/

theorem length_replace (k : κ) (a : α) :
    ∀ l : List (Option α), (replace key k a l).length = l.length
  | [] => rfl
  | none :: l => by simp [replace, length_replace k a l]
  | some b :: l => by
    unfold replace
    split <;> simp [length_replace k a l]

theorem keys_replace (ha : key a = k) :
    ∀ l : List (Option α), keys key (replace key k a l) = keys key l
  | [] => rfl
  | none :: l => by simpa [replace, keys] using keys_replace ha l
  | some b :: l => by
    unfold replace
    split
    next hb => simp [keys, ha, hb]
    next => simpa [keys] using keys_replace ha l

theorem mem_replace_iff (ha : key a = k) {x : α} : ∀ {l : List (Option α)}, (keys key l).Nodup →
    (x ∈ (replace key k a l).reduceOption ↔
      x = a ∧ k ∈ keys key l ∨ x ∈ l.reduceOption ∧ key x ≠ k)
  | [], _ => by simp [replace, keys]
  | none :: l, h => by simpa [replace, keys] using mem_replace_iff (x := x) ha (l := l) h
  | some b :: l, h => by
    obtain ⟨hb, hl⟩ := nodup_cons.mp h
    have hkeys : keys key (some b :: l) = key b :: keys key l := rfl
    unfold replace
    split
    next hbk =>
      -- the key occurs nowhere else, so every other entry stays
      have hne : x ∈ l.reduceOption → key x ≠ k := fun hx hxk =>
        hb (mem_map.mpr ⟨x, hx, hxk.trans hbk.symm⟩)
      rw [hkeys]
      simp only [reduceOption_cons_of_some, mem_cons, hbk, true_or, and_true]
      constructor
      · rintro (rfl | hx)
        · exact .inl rfl
        · exact .inr ⟨.inr hx, hne hx⟩
      · rintro (rfl | ⟨rfl | hx, hxk⟩)
        · exact .inl rfl
        · exact absurd hbk hxk
        · exact .inr hx
    next hbk =>
      have ih := mem_replace_iff (x := x) ha hl
      have hk : k ∈ key b :: keys key l ↔ k ∈ keys key l := by simp [Ne.symm hbk]
      rw [hkeys, hk]
      simp only [reduceOption_cons_of_some, mem_cons, ih]
      constructor
      · rintro (rfl | hx | ⟨hx, hxk⟩)
        · exact .inr ⟨.inl rfl, hbk⟩
        · exact .inl hx
        · exact .inr ⟨.inr hx, hxk⟩
      · rintro (hx | ⟨rfl | hx, hxk⟩)
        · exact .inr (.inl hx)
        · exact .inl rfl
        · exact .inr (.inr ⟨hx, hxk⟩)

/-! ### Taking a free slot -/

theorem length_insert (a : α) : ∀ l : List (Option α), (insert a l).length = l.length
  | [] => rfl
  | none :: l => rfl
  | some b :: l => by simp [insert, length_insert a l]

theorem insert_perm (a : α) : ∀ {l : List (Option α)}, none ∈ l →
    (insert a l).reduceOption.Perm (a :: l.reduceOption)
  | none :: l, _ => List.Perm.refl _
  | some b :: l, h => by
    have ih := insert_perm a (by simpa using h)
    exact (ih.cons b).trans (List.Perm.swap a b _)

omit [DecidableEq κ] in
theorem keys_insert_perm (a : α) (h : none ∈ l) :
    (keys key (insert a l)).Perm (key a :: keys key l) := (insert_perm a h).map key

omit [DecidableEq κ] in
/-- The keys that a predicate selects keep their order when another key is inserted. -/
theorem filter_keys_insert {p : κ → Bool} (hp : ¬ p (key a)) : ∀ l : List (Option α),
    (keys key (insert a l)).filter p = (keys key l).filter p
  | [] => rfl
  | none :: l => by simp [insert, keys, hp]
  | some b :: l => by
    have ih := filter_keys_insert hp l
    simp only [keys] at ih
    simp [insert, keys, filter_cons, ih]

end Code365.KeyedSlots
