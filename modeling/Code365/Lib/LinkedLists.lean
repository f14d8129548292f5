import Mathlib

/-! # Singly linked lists in a heap

A `Store` has cells at the addresses in use, each with a datum and the link to the next cell, and a
link for each root. `Path cells r l t` says that the links lead from `r` through the cells of `l` to
the link `t`; `Rep s lists` that the roots lead to the given lists, that a cell is in one list only
and that no cell is lost.

The loops along the links are `find`, `findSlot`, which keeps the place of the link and not its
target, and `collect`. They stop after `fuel` cells; `none` is a loop that goes on longer, or a link
to an address that is not in use.  `Rep.modify`, `Rep.push` and `Rep.unlink` say what writing a
datum, a new first cell and a cell taken out do to the lists. -/

namespace Code365.Linked

open Option List Function

structure Cell (α : Type) where
  data : α
  next : Option ℕ

structure Store (ι α : Type) where
  roots : ι → Option ℕ
  cells : ℕ → Option (Cell α)

/-- Where a link is kept. -/
inductive Slot (ι : Type)
  | root (i : ι)
  | next (p : ℕ)

namespace Store

variable {ι α : Type} [DecidableEq ι]

def empty : Store ι α := ⟨fun _ => none, fun _ => none⟩

def load (s : Store ι α) : Slot ι → Option (Option ℕ)
  | .root i => some (s.roots i)
  | .next p => (s.cells p).map Cell.next

def store (s : Store ι α) (link : Option ℕ) : Slot ι → Option (Store ι α)
  | .root i => some { s with roots := update s.roots i link }
  | .next p => (s.cells p).map fun c => { s with cells := update s.cells p (some { c with next := link }) }

def modify (s : Store ι α) (p : ℕ) (g : α → α) : Option (Store ι α) :=
  (s.cells p).map fun c => { s with cells := update s.cells p (some { c with data := g c.data }) }

/-- A new cell in front of the list of a root. -/
def push (s : Store ι α) (i : ι) (p : ℕ) (a : α) : Store ι α where
  roots := update s.roots i (some p)
  cells := update s.cells p (some ⟨a, s.roots i⟩)

def free (s : Store ι α) (p : ℕ) : Store ι α := { s with cells := update s.cells p none }

/-- Takes the cell out whose address is in the slot. -/
def unlink (s : Store ι α) (slot : Slot ι) (p : ℕ) : Option (Store ι α) := do
  let c ← s.cells p
  let s ← s.store c.next slot
  return s.free p

/-- The first cell with the property. -/
def find (s : Store ι α) (f : α → Bool) : ℕ → Option ℕ → Option (Option ℕ)
  | _, none => some none
  | 0, some _ => none
  | fuel + 1, some p => do
    let c ← s.cells p
    if f c.data then return some p else s.find f fuel c.next

/-- The slot of the first cell with the property, or that of the link at the end. -/
def findSlot (s : Store ι α) (f : α → Bool) : ℕ → Slot ι → Option (Slot ι)
  | 0, _ => none
  | fuel + 1, slot => do
    match ← s.load slot with
    | none => return slot
    | some p =>
      let c ← s.cells p
      if f c.data then return slot else s.findSlot f fuel (.next p)

/-- The data in the order of the links. -/
def collect (s : Store ι α) : ℕ → Option ℕ → Option (List α)
  | _, none => some []
  | 0, some _ => none
  | fuel + 1, some p => do
    let c ← s.cells p
    let l ← s.collect fuel c.next
    return c.data :: l

end Store

/-! ### Paths -/

section Path

variable {α : Type} {cells : ℕ → Option (Cell α)} {r t : Option ℕ} {l l' : List (ℕ × α)} {p : ℕ} {a : α}

def addrs (l : List (ℕ × α)) : List ℕ := l.map Prod.fst

@[simp] theorem addrs_nil : addrs ([] : List (ℕ × α)) = [] := rfl

@[simp] theorem addrs_cons (x : ℕ × α) (l : List (ℕ × α)) : addrs (x :: l) = x.1 :: addrs l := rfl

@[simp] theorem addrs_append (l l' : List (ℕ × α)) :
    addrs (l ++ l') = addrs l ++ addrs l' := map_append

def Path (cells : ℕ → Option (Cell α)) : Option ℕ → List (ℕ × α) → Option ℕ → Prop
  | r, [], t => r = t
  | r, (p, a) :: l, t => r = some p ∧ ∃ next, cells p = some ⟨a, next⟩ ∧ Path cells next l t

theorem path_append : ∀ {l : List (ℕ × α)} {r : Option ℕ},
    Path cells r (l ++ l') t ↔ ∃ m, Path cells r l m ∧ Path cells m l' t
  | [], r => by simp [Path]
  | (p, a) :: l, r => by
    simp only [cons_append, Path, path_append]
    constructor
    · rintro ⟨hr, next, hp, m, hl, hm⟩
      exact ⟨m, ⟨hr, next, hp, hl⟩, hm⟩
    · rintro ⟨m, ⟨hr, next, hp, hl⟩, hm⟩
      exact ⟨hr, next, hp, m, hl, hm⟩

theorem Path.congr {cells' : ℕ → Option (Cell α)} (h : Path cells r l t)
    (hl : ∀ p ∈ addrs l, cells' p = cells p) : Path cells' r l t := by
  induction l generalizing r with
  | nil => exact h
  | cons x l ih =>
    obtain ⟨hr, next, hx, hpath⟩ := h
    refine ⟨hr, next, ?_, ih hpath fun p hp => hl p (mem_cons_of_mem _ hp)⟩
    rw [hl x.1 mem_cons_self]
    exact hx

theorem Path.update (h : Path cells r l t) (hp : p ∉ addrs l) (c : Option (Cell α)) :
    Path (update cells p c) r l t :=
  h.congr fun _ hq => update_of_ne (ne_of_mem_of_not_mem hq hp) _ _

theorem Path.ne_none (h : Path cells r l t) (hp : p ∈ addrs l) : cells p ≠ none := by
  induction l generalizing r with
  | nil => cases hp
  | cons x l ih =>
    obtain ⟨hr, next, hx, hl⟩ := h
    obtain rfl | hp := mem_cons.mp hp
    · rw [hx]
      exact some_ne_none _
    · exact ih hl hp

theorem Path.mem (h : Path cells r l t) (hp : p ∈ addrs l) {c : Cell α} (hc : cells p = some c) :
    (p, c.data) ∈ l := by
  induction l generalizing r with
  | nil => cases hp
  | cons x l ih =>
    obtain ⟨hr, next, hx, hl⟩ := h
    by_cases he : p = x.1
    · subst he
      rw [hx] at hc
      cases hc
      exact mem_cons_self
    · exact mem_cons_of_mem _ (ih hl ((mem_cons.mp hp).resolve_left he))

end Path

/-! ### The loops -/

section Loops

variable {ι α : Type} {s : Store ι α} {f : α → Bool} {r t : Option ℕ} {l : List (ℕ × α)} {p fuel : ℕ} {a : α}

theorem collect_path (h : Path s.cells r l none) (hfuel : l.length ≤ fuel) :
    s.collect fuel r = some (l.map Prod.snd) := by
  induction l generalizing r fuel with
  | nil =>
    obtain rfl : r = none := h
    cases fuel <;> rfl
  | cons x l ih =>
    obtain ⟨rfl, next, hx, hl⟩ := h
    obtain ⟨fuel, rfl⟩ := Nat.exists_eq_add_of_lt hfuel
    rw [show l.length + fuel + 1 = (l.length + fuel) + 1 from rfl, Store.collect, hx]
    simp [ih hl (Nat.le_add_right _ _)]

theorem find_path (h : Path s.cells r l t) (hl : ∀ x ∈ l, f x.2 = false) (fuel : ℕ) :
    s.find f (l.length + fuel) r = s.find f fuel t := by
  induction l generalizing r with
  | nil =>
    obtain rfl : r = t := h
    rw [length_nil, zero_add]
  | cons x l ih =>
    obtain ⟨rfl, next, hx, hpath⟩ := h
    rw [length_cons, add_right_comm, Store.find, hx]
    simp only [bind_eq_bind, bind_some, hl x (by simp), Bool.false_eq_true, if_false]
    exact ih hpath fun y hy => hl y (by simp [hy])

theorem find_none (h : Path s.cells r l none) (hl : ∀ x ∈ l, f x.2 = false)
    (hfuel : l.length ≤ fuel) : s.find f fuel r = some none := by
  obtain ⟨n, rfl⟩ := Nat.exists_eq_add_of_le hfuel
  rw [find_path h hl]
  cases n <;> rfl

theorem find_some (h : Path s.cells r l (some p)) (hl : ∀ x ∈ l, f x.2 = false) {next : Option ℕ}
    (hp : s.cells p = some ⟨a, next⟩) (ha : f a) (hfuel : l.length < fuel) :
    s.find f fuel r = some (some p) := by
  obtain ⟨n, rfl⟩ := Nat.exists_eq_add_of_lt hfuel
  rw [add_assoc, find_path h hl, Store.find, hp]
  simp [ha]

/-- The slot after some cells. -/
def slotAfter (slot : Slot ι) (l : List (ℕ × α)) : Slot ι := l.foldl (fun _ x => .next x.1) slot

variable {slot : Slot ι}

section

variable (hslot : s.load slot = some r)

include hslot

theorem load_slotAfter (h : Path s.cells r l t) :
    s.load (slotAfter slot l) = some t := by
  induction l generalizing slot r with
  | nil =>
    obtain rfl : r = t := h
    exact hslot
  | cons x l ih =>
    obtain ⟨rfl, next, hx, hpath⟩ := h
    apply ih _ hpath
    rw [Store.load, hx]
    rfl

theorem findSlot_path (h : Path s.cells r l t)
    (hl : ∀ x ∈ l, f x.2 = false) (fuel : ℕ) :
    s.findSlot f (l.length + fuel) slot = s.findSlot f fuel (slotAfter slot l) := by
  induction l generalizing slot r with
  | nil => rw [length_nil, zero_add, slotAfter, foldl_nil]
  | cons x l ih =>
    obtain ⟨rfl, next, hx, hpath⟩ := h
    have hnext : s.load (.next x.1) = some next := by
      rw [Store.load, hx]
      rfl
    rw [length_cons, add_right_comm, Store.findSlot, hslot]
    simp only [bind_eq_bind, bind_some, hx, hl x (by simp), Bool.false_eq_true, if_false]
    exact ih hnext hpath fun y hy => hl y (by simp [hy])

theorem findSlot_none (h : Path s.cells r l none)
    (hl : ∀ x ∈ l, f x.2 = false) (hfuel : l.length < fuel) :
    s.findSlot f fuel slot = some (slotAfter slot l) := by
  obtain ⟨n, rfl⟩ := Nat.exists_eq_add_of_lt hfuel
  rw [add_assoc, findSlot_path hslot h hl, Store.findSlot, load_slotAfter hslot h]
  rfl

theorem findSlot_some (h : Path s.cells r l (some p))
    (hl : ∀ x ∈ l, f x.2 = false) {next : Option ℕ} (hp : s.cells p = some ⟨a, next⟩) (ha : f a)
    (hfuel : l.length < fuel) : s.findSlot f fuel slot = some (slotAfter slot l) := by
  obtain ⟨n, rfl⟩ := Nat.exists_eq_add_of_lt hfuel
  rw [add_assoc, findSlot_path hslot h hl, Store.findSlot, load_slotAfter hslot h]
  simp [hp, ha]

end

end Loops

/-! ### Stores -/

section Rep

variable {ι α : Type} {s s' : Store ι α} {lists : ι → List (ℕ × α)} {i : ι} {l l' : List (ℕ × α)}
  {p : ℕ} {a : α}

structure Rep (s : Store ι α) (lists : ι → List (ℕ × α)) : Prop where
  path : ∀ i, Path s.cells (s.roots i) (lists i) none
  nodup : ∀ i, (addrs (lists i)).Nodup
  apart : ∀ i j p, p ∈ addrs (lists i) → p ∈ addrs (lists j) → i = j
  owned : ∀ p, (s.cells p).isSome → ∃ i, p ∈ addrs (lists i)

theorem rep_empty : Rep (Store.empty : Store ι α) fun _ => [] where
  path _ := rfl
  nodup _ := nodup_nil
  apart _ _ _ h := by cases h
  owned _ h := by cases h

theorem Rep.exists_free [Finite ι] (h : Rep s lists) : ∃ p, s.cells p = none := by
  have hfinite : (⋃ i, {p | p ∈ addrs (lists i)}).Finite :=
    Set.finite_iUnion fun i => (addrs (lists i)).finite_toSet
  obtain ⟨p, hp⟩ := hfinite.exists_notMem
  refine ⟨p, ?_⟩
  by_contra hne
  obtain ⟨i, hi⟩ := h.owned p (isSome_iff_ne_none.mpr hne)
  exact hp (Set.mem_iUnion.mpr ⟨i, hi⟩)

theorem Rep.split (h : Rep s lists) (hi : lists i = l ++ (p, a) :: l') :
    ∃ next, Path s.cells (s.roots i) l (some p) ∧ s.cells p = some ⟨a, next⟩ ∧
    Path s.cells next l' none ∧ p ∉ addrs l ∧ p ∉ addrs l' := by
  have hpath := h.path i
  rw [hi, path_append] at hpath
  obtain ⟨_, hl, rfl, next, hp, hl'⟩ := hpath
  have hnodup := h.nodup i
  rw [hi, addrs_append, addrs_cons, nodup_middle, nodup_cons, mem_append, not_or] at hnodup
  exact ⟨next, hl, hp, hl', hnodup.1⟩

/-- The cells of another list are not in one that takes the place of the list of `i`. -/
theorem Rep.other (h : Rep s lists) (hnew : ∀ p ∈ addrs l, p ∈ addrs (lists i) ∨ s.cells p = none)
    {j : ι} (hj : j ≠ i) (hp : p ∈ addrs (lists j)) : p ∉ addrs l ∧ p ∉ addrs (lists i) := by
  have hi : p ∉ addrs (lists i) := fun hi => hj (h.apart j i p hp hi)
  refine ⟨fun hl => ?_, hi⟩
  obtain hin | hfree := hnew p hl
  · exact hi hin
  · exact (h.path j).ne_none hp hfree

variable [DecidableEq ι]

/-- The list of one root changes, and its cells were its own or not in use. -/
theorem Rep.replace (h : Rep s lists) (hroots : ∀ j, j ≠ i → s'.roots j = s.roots j)
    (hpath : Path s'.cells (s'.roots i) l none) (hnodup : (addrs l).Nodup)
    (hnew : ∀ p ∈ addrs l, p ∈ addrs (lists i) ∨ s.cells p = none)
    (hcells : ∀ p, p ∉ addrs l → p ∉ addrs (lists i) → s'.cells p = s.cells p)
    (hold : ∀ p ∈ addrs (lists i), p ∉ addrs l → s'.cells p = none) :
    Rep s' (update lists i l) := by
  constructor
  · rw [forall_update_iff lists fun j l => Path s'.cells (s'.roots j) l none]
    refine ⟨hpath, fun j hj => ?_⟩
    rw [hroots j hj]
    exact (h.path j).congr fun p hp => hcells p (h.other hnew hj hp).1 (h.other hnew hj hp).2
  · rw [forall_update_iff lists fun _ l => (addrs l).Nodup]
    exact ⟨hnodup, fun j _ => h.nodup j⟩
  · intro j k p hpj hpk
    rw [update_apply] at hpj hpk
    split_ifs at hpj hpk with hj hk hk
    · rw [hj, hk]
    · exact absurd hpj (h.other hnew hk hpk).1
    · exact absurd hpk (h.other hnew hj hpj).1
    · exact h.apart j k p hpj hpk
  · intro p hp
    by_cases hl : p ∈ addrs l
    · exact ⟨i, by rwa [update_self]⟩
    by_cases hi : p ∈ addrs (lists i)
    · rw [hold p hi hl] at hp
      cases hp
    · rw [hcells p hl hi] at hp
      obtain ⟨j, hj⟩ := h.owned p hp
      have hne : j ≠ i := fun he => hi (he ▸ hj)
      exact ⟨j, by rwa [update_of_ne hne]⟩

theorem Rep.modify (h : Rep s lists) (hi : lists i = l ++ (p, a) :: l') (g : α → α) :
    ∃ s', s.modify p g = some s' ∧ Rep s' (update lists i (l ++ (p, g a) :: l')) := by
  obtain ⟨next, hl, hp, hl', hpl, hpl'⟩ := h.split hi
  have haddrs : addrs (l ++ (p, g a) :: l') = addrs (lists i) := by simp [hi]
  refine ⟨{ s with cells := update s.cells p (some ⟨g a, next⟩) }, ?_,
    h.replace (fun _ _ => rfl) ?_ (haddrs ▸ h.nodup i) ?_ ?_ ?_⟩
  · rw [Store.modify, hp]
    rfl
  · rw [path_append]
    exact ⟨some p, hl.update hpl _, rfl, next, update_self .., hl'.update hpl' _⟩
  · intro q hq
    exact .inl (haddrs ▸ hq)
  · intro q hq _
    apply update_of_ne
    rintro rfl
    exact hq (by simp)
  · intro q hq hq'
    exact absurd (haddrs ▸ hq) hq'

theorem Rep.push (h : Rep s lists) (i : ι) (hp : s.cells p = none) (a : α) :
    Rep (s.push i p a) (update lists i ((p, a) :: lists i)) := by
  have hpi : p ∉ addrs (lists i) := fun hmem => (h.path i).ne_none hmem hp
  refine h.replace (fun j hj => update_of_ne hj _ _) ?_ (nodup_cons.mpr ⟨hpi, h.nodup i⟩) ?_ ?_ ?_
  · exact ⟨update_self .., s.roots i, update_self .., (h.path i).update hpi _⟩
  · intro q hq
    obtain rfl | hq := mem_cons.mp hq
    · exact .inr hp
    · exact .inl hq
  · intro q hq _
    apply update_of_ne
    rintro rfl
    exact hq mem_cons_self
  · intro q hq hq'
    exact absurd (mem_cons_of_mem _ hq) hq'

/-- Writing the link after some cells moves the end of their path. -/
theorem store_slotAfter {t : Option ℕ} (h : Path s.cells (s.roots i) l t) (hnodup : (addrs l).Nodup)
    (link : Option ℕ) :
    ∃ s', s.store link (slotAfter (.root i) l) = some s' ∧ Path s'.cells (s'.roots i) l link ∧
    (∀ j, j ≠ i → s'.roots j = s.roots j) ∧ ∀ p, p ∉ addrs l → s'.cells p = s.cells p := by
  induction l using List.reverseRecOn with
  | nil =>
    refine ⟨_, rfl, update_self .., fun j hj => update_of_ne hj _ _, fun _ _ => rfl⟩
  | append_singleton l x _ =>
    obtain ⟨_, hl, rfl, next, hx, _⟩ := path_append.mp h
    rw [addrs_append, addrs_cons, addrs_nil, nodup_append] at hnodup
    have hxl : x.1 ∉ addrs l := fun hm => hnodup.2.2 x.1 hm x.1 (by simp) rfl
    refine ⟨{ s with cells := update s.cells x.1 (some ⟨x.2, link⟩) }, ?_, ?_, fun _ _ => rfl, ?_⟩
    · rw [slotAfter, foldl_append, foldl_cons, foldl_nil, Store.store, hx]
      rfl
    · exact path_append.mpr ⟨some x.1, hl.update hxl _, rfl, link, update_self .., rfl⟩
    · intro p hp
      apply update_of_ne
      rintro rfl
      exact hp (by simp)

theorem Rep.unlink (h : Rep s lists) (hi : lists i = l ++ (p, a) :: l') :
    ∃ s', s.unlink (slotAfter (.root i) l) p = some s' ∧ Rep s' (update lists i (l ++ l')) := by
  obtain ⟨next, hl, hp, hl', hpl, hpl'⟩ := h.split hi
  have hnodup := h.nodup i
  rw [hi, addrs_append, addrs_cons, nodup_middle, nodup_cons, ← addrs_append] at hnodup
  have hsplit := hnodup.2
  rw [addrs_append, nodup_append'] at hsplit
  obtain ⟨s1, hs1, hpath, hroots, hcells⟩ := store_slotAfter hl hsplit.1 next
  have hmem : ∀ q, q ∈ addrs (lists i) ↔ q = p ∨ q ∈ addrs (l ++ l') := by
    simp only [hi, addrs_append, addrs_cons, mem_append, mem_cons]
    tauto
  refine ⟨s1.free p, by simp [Store.unlink, hp, hs1], h.replace hroots ?_ hnodup.2 ?_ ?_ ?_⟩
  · refine path_append.mpr ⟨next, hpath.update hpl _, (hl'.congr fun q hq => ?_).update hpl' _⟩
    exact hcells q fun hq' => hsplit.2.2 hq' hq
  · intro q hq
    exact .inl ((hmem q).mpr (.inr hq))
  · intro q hq hqi
    rw [hmem, not_or] at hqi
    rw [addrs_append, mem_append, not_or] at hq
    exact (update_of_ne hqi.1 _ _).trans (hcells q hq.1)
  · intro q hqi hq
    obtain rfl | hin := (hmem q).mp hqi
    · exact update_self ..
    · exact absurd hin hq

end Rep

end Code365.Linked
