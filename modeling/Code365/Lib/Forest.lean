import Mathlib

/-! # Forests of parent pointers

`p x` is the parent of `x`, and `x` is a root if `p x = x`.  `Leads p n x r`: from `x` there are `n`
steps to the root `r`. `Represents p ρ`: every element leads to a root, and the root of `x` is
`ρ x`.

Two changes of the pointers: an element may be sent to its root directly (`Shorter`), which keeps
all roots, and a root may be sent to another root (`Represents.link`), which merges their classes
(`Merges`).  `Ranked p w` is the invariant of union by rank. -/

namespace Code365.Forest

open Function Relation

variable {α : Type*} {p p' : α → α} {n m : ℕ} {x y r s : α}

inductive Leads (p : α → α) : ℕ → α → α → Prop
  | root {r : α} : p r = r → Leads p 0 r r
  | step {n : ℕ} {x r : α} : p x ≠ x → Leads p n (p x) r → Leads p (n + 1) x r

namespace Leads

theorem isRoot (h : Leads p n x r) : p r = r := by
  induction h with
  | root hr => exact hr
  | step _ _ ih => exact ih

theorem unique (h : Leads p n x r) (h' : Leads p m x s) : n = m ∧ r = s := by
  induction h generalizing m with
  | root hr =>
    cases h' with
    | root => exact ⟨rfl, rfl⟩
    | step hx => exact absurd hr hx
  | step hx _ ih =>
    cases h' with
    | root hr => exact absurd hr hx
    | step _ h' =>
      obtain ⟨rfl, rfl⟩ := ih h'
      exact ⟨rfl, rfl⟩

theorem iterate (h : Leads p n x r) : ∀ {i : ℕ}, i ≤ n → Leads p (n - i) (p^[i] x) r
  | 0, _ => h
  | i + 1, hi => by
    have hprev := h.iterate (Nat.le_of_succ_le hi)
    obtain ⟨k, hk⟩ : ∃ k, n - i = k + 1 := ⟨n - i - 1, by omega⟩
    rw [hk] at hprev
    rw [iterate_succ_apply', (by omega : n - (i + 1) = k)]
    cases hprev with
    | step _ hrest => exact hrest

/-- The elements on the way to the root are different. -/
theorem lt_card [Fintype α] (h : Leads p n x r) : n < Fintype.card α := by
  have hinj : Injective fun i : Fin (n + 1) => p^[i] x := by
    intro i j hij
    have hi := h.iterate (Nat.lt_succ_iff.mp i.isLt)
    have hj := h.iterate (Nat.lt_succ_iff.mp j.isLt)
    rw [show p^[i] x = p^[j] x from hij] at hi
    obtain ⟨hdepth, _⟩ := hi.unique hj
    exact Fin.ext (by omega)
  have hcard := Fintype.card_le_of_injective _ hinj
  rwa [Fintype.card_fin] at hcard

end Leads

/-! ### Shorter ways to the same roots -/

def Shorter (p p' : α → α) : Prop := ∀ ⦃n x r⦄, Leads p n x r → ∃ m ≤ n, Leads p' m x r

theorem Shorter.refl (p : α → α) : Shorter p p := fun n _ _ h => ⟨n, le_rfl, h⟩

theorem Shorter.trans {p'' : α → α} (h : Shorter p p') (h' : Shorter p' p'') : Shorter p p'' := by
  intro n x r hx
  obtain ⟨m, hm, hx'⟩ := h hx
  obtain ⟨k, hk, hx''⟩ := h' hx'
  exact ⟨k, hk.trans hm, hx''⟩

theorem Shorter.isRoot (h : Shorter p p') (hr : p r = r) : p' r = r := by
  obtain ⟨_, _, hlead⟩ := h (.root hr)
  exact hlead.isRoot

/-! ### The roots of all elements -/

def Represents (p ρ : α → α) : Prop := ∀ x, ∃ n, Leads p n x (ρ x)

/-- The elements that lead to `r`. -/
def tree (p : α → α) (r : α) : Set α := {x | ∃ n, Leads p n x r}

variable {ρ : α → α} {a b : α}

theorem Represents.shorter (h : Represents p ρ) (hs : Shorter p p') : Represents p' ρ := by
  intro x
  obtain ⟨n, hx⟩ := h x
  obtain ⟨m, _, hx'⟩ := hs hx
  exact ⟨m, hx'⟩

theorem Represents.isRoot (h : Represents p ρ) (x : α) : p (ρ x) = ρ x := by
  obtain ⟨_, hx⟩ := h x
  exact hx.isRoot

theorem Represents.mem_tree_iff (h : Represents p ρ) : x ∈ tree p r ↔ ρ x = r := by
  obtain ⟨n, hx⟩ := h x
  constructor
  · rintro ⟨_, hx'⟩
    exact (hx.unique hx').2
  · rintro rfl
    exact ⟨n, hx⟩

theorem Represents.tree_shorter (h : Represents p ρ) (hs : Shorter p p') :
    tree p' r = tree p r := by
  ext x
  rw [(h.shorter hs).mem_tree_iff, h.mem_tree_iff]

/-! ### Classes and the pairs that generate them -/

/-- The classes of `u` and `v` have become one. -/
def Merges (ρ ρ' : α → α) (u v : α) : Prop :=
  ∀ x y, ρ' x = ρ' y ↔ ρ x = ρ y ∨ ρ x = ρ u ∧ ρ y = ρ v ∨ ρ x = ρ v ∧ ρ y = ρ u

variable {ρ' : α → α} {u v : α}

theorem Merges.symm (h : Merges ρ ρ' u v) : Merges ρ ρ' v u := by
  intro x y
  rw [h x y]
  tauto

theorem merges_self (h : ρ u = ρ v) : Merges ρ ρ u v := by
  intro x y
  rw [h]
  constructor
  · exact .inl
  · rintro (he | ⟨hx, hy⟩ | ⟨hx, hy⟩)
    · exact he
    · rw [hx, hy]
    · rw [hx, hy]

theorem eq_iff_eqvGen {R : α → α → Prop} (hR : ∀ x y, ¬ R x y) (x y : α) :
    x = y ↔ EqvGen R x y := by
  constructor
  · rintro rfl
    exact .refl x
  · intro h
    induction h with
    | rel x y h => exact absurd h (hR x y)
    | refl => rfl
    | symm _ _ _ ih => exact ih.symm
    | trans _ _ _ _ _ ih ih' => exact ih.trans ih'

theorem Merges.eqvGen {R : α → α → Prop} (hm : Merges ρ ρ' u v) (h : ∀ x y, ρ x = ρ y ↔
    EqvGen R x y) (x y : α) : ρ' x = ρ' y ↔ EqvGen (fun x y => R x y ∨ x = u ∧ y = v) x y := by
  have hold : ∀ {x y}, ρ x = ρ y → EqvGen (fun x y => R x y ∨ x = u ∧ y = v) x y := fun he =>
    ((h _ _).mp he).mono fun _ _ => .inl
  have hnew : EqvGen (fun x y => R x y ∨ x = u ∧ y = v) u v := .rel _ _ (.inr ⟨rfl, rfl⟩)
  constructor
  · intro he
    rcases (hm x y).mp he with he | ⟨hx, hy⟩ | ⟨hx, hy⟩
    · exact hold he
    · exact ((hold hx).trans _ _ _ hnew).trans _ _ _ (hold hy.symm)
    · exact ((hold hx).trans _ _ _ (hnew.symm _ _)).trans _ _ _ (hold hy.symm)
  · intro he
    induction he with
    | rel x y hxy =>
      rcases hxy with hxy | ⟨rfl, rfl⟩
      · exact (hm x y).mpr (.inl ((h x y).mpr (.rel _ _ hxy)))
      · exact (hm x y).mpr (.inr (.inl ⟨rfl, rfl⟩))
    | refl => rfl
    | symm _ _ _ ih => exact ih.symm
    | trans _ _ _ _ _ ih ih' => exact ih.trans ih'

/-! ### Changes of the pointers -/

variable [DecidableEq α]

theorem leads_update_self (hb : p b = b) (hab : a ≠ b) : Leads (update p a b) 1 a b := by
  refine .step ?_ ?_
  · rw [update_self]
    exact hab.symm
  · rw [update_self]
    exact .root (by rw [update_of_ne hab.symm, hb])

theorem Leads.step_update (hx : p x ≠ x) (hxa : x ≠ a) (h : Leads (update p a b) n (p x) r) :
    Leads (update p a b) (n + 1) x r := by
  refine .step ?_ ?_
  · rwa [update_of_ne hxa]
  · rwa [update_of_ne hxa]

theorem Leads.compress (hx : Leads p n x r) : Shorter p (update p x r) := by
  intro m y s hy
  induction hy with
  | @root s hs =>
    refine ⟨0, le_rfl, .root ?_⟩
    by_cases he : s = x
    · subst he
      obtain ⟨_, rfl⟩ := hx.unique (.root hs)
      exact update_self ..
    · rw [update_of_ne he, hs]
  | @step m y s hy hrest ih =>
    obtain ⟨k, hk, hlead⟩ := ih
    by_cases he : y = x
    · subst he
      obtain ⟨_, rfl⟩ := hx.unique (.step hy hrest)
      have hne : y ≠ r := by
        rintro rfl
        exact hy hx.isRoot
      exact ⟨1, by omega, leads_update_self hx.isRoot hne⟩
    · exact ⟨k + 1, by omega, hlead.step_update hy he⟩

/-- Rule for a recursive search that puts every element on its way below the root:
`run fuel x (r, p')` says that the search from `x` ends with the root `r` and the parents `p'`. -/
theorem Leads.climb (run : ℕ → α → α × (α → α) → Prop)
    (hroot : ∀ fuel r, p r = r → run (fuel + 1) r (r, p)) (hstep : ∀ fuel x r p', p x ≠ x →
    run fuel (p x) (r, p') → run (fuel + 1) x (r, update p' x r)) (h : Leads p n x r) {fuel : ℕ}
    (hfuel : n < fuel) : ∃ p', run fuel x (r, p') ∧ Shorter p p' := by
  induction h generalizing fuel with
  | @root r hr =>
    obtain ⟨fuel, rfl⟩ := Nat.exists_eq_succ_of_ne_zero (Nat.ne_zero_of_lt hfuel)
    exact ⟨p, hroot fuel r hr, .refl p⟩
  | @step n x r hx hrest ih =>
    obtain ⟨fuel, rfl⟩ := Nat.exists_eq_succ_of_ne_zero (Nat.ne_zero_of_lt hfuel)
    obtain ⟨p', hrun, hshort⟩ := ih (Nat.lt_of_succ_lt_succ hfuel)
    obtain ⟨_, _, hlead⟩ := hshort (.step hx hrest)
    exact ⟨update p' x r, hstep fuel x r p' hx hrun, hshort.trans hlead.compress⟩

theorem Leads.link (hx : Leads p n x r) (ha : p a = a) (hb : p b = b) (hab : a ≠ b) :
    Leads (update p a b) (if r = a then n + 1 else n) x (if r = a then b else r) := by
  induction hx with
  | @root r hr =>
    split_ifs with he
    · subst he
      exact leads_update_self hb hab
    · exact .root (by rw [update_of_ne he, hr])
  | @step n x r hx _ ih =>
    have hxa : x ≠ a := by
      rintro rfl
      exact hx ha
    split_ifs at ih ⊢ with he
    · exact ih.step_update hx hxa
    · exact ih.step_update hx hxa

/-- The root of `x` after the root `a` has been sent to `b`. -/
def redirect (ρ : α → α) (a b x : α) : α := if ρ x = a then b else ρ x

theorem Represents.link (h : Represents p ρ) (ha : p a = a) (hb : p b = b) (hab : a ≠ b) :
    Represents (update p a b) (redirect ρ a b) := by
  intro x
  obtain ⟨_, hx⟩ := h x
  exact ⟨_, hx.link ha hb hab⟩

theorem merges_redirect (ρ : α → α) (u v : α) : Merges ρ (redirect ρ (ρ u) (ρ v)) u v := by
  intro x y
  unfold redirect
  split_ifs with hx hy hy
  · rw [hx, hy]
    tauto
  · rw [hx]
    constructor
    · intro h
      exact .inr (.inl ⟨rfl, h.symm⟩)
    · rintro (h | ⟨_, h⟩ | ⟨_, h⟩)
      · exact absurd h.symm hy
      · exact h.symm
      · exact absurd h hy
  · rw [hy]
    constructor
    · intro h
      exact .inr (.inr ⟨h, rfl⟩)
    · rintro (h | ⟨h, _⟩ | ⟨h, _⟩)
      · exact absurd h hx
      · exact absurd h hx
      · exact h
  · tauto

/-! ### Union by rank -/

/-- No way to a root is longer than the rank of the root, and a root of rank `k` has at least
`2 ^ k` elements. -/
structure Ranked (p : α → α) (w : α → ℕ) : Prop where
  depth : ∀ n x r, Leads p n x r → n ≤ w r
  count : ∀ r, p r = r → 2 ^ w r ≤ (tree p r).ncard

variable {w w' : α → ℕ}

omit [DecidableEq α] in
theorem Ranked.shorter (h : Ranked p w) (hrep : Represents p ρ) (hs : Shorter p p') :
    Ranked p' w := by
  have hrep' := hrep.shorter hs
  refine ⟨fun n x r hx => ?_, fun r hr => ?_⟩
  · obtain ⟨m, hm⟩ := hrep x
    obtain ⟨k, hk, hx'⟩ := hs hm
    obtain ⟨rfl, rfl⟩ := hx.unique hx'
    exact hk.trans (h.depth m x (ρ x) hm)
  · have hroot : ρ r = r := hrep'.mem_tree_iff.mp ⟨0, .root hr⟩
    rw [hrep.tree_shorter hs]
    apply h.count r
    rw [← hroot, hrep.isRoot]

/-- A root is sent to another one, whose rank may grow. -/
theorem Ranked.link [Finite α] (h : Ranked p w) (hrep : Represents p ρ) (ha : p a = a)
    (hb : p b = b) (hab : a ≠ b) (hother : ∀ r, r ≠ b → w' r = w r) (hlt : w a < w' b)
    (hle : w b ≤ w' b) (hpow : 2 ^ w' b ≤ 2 ^ w a + 2 ^ w b) : Ranked (update p a b) w' := by
  have hrep' := hrep.link ha hb hab
  refine ⟨fun n x r hx => ?_, fun r hr => ?_⟩
  · obtain ⟨m, hm⟩ := hrep x
    have hdepth := h.depth m x (ρ x) hm
    obtain ⟨rfl, rfl⟩ := hx.unique (hm.link ha hb hab)
    by_cases hroot : ρ x = a
    · rw [hroot] at hdepth
      rw [if_pos hroot, if_pos hroot]
      omega
    · rw [if_neg hroot, if_neg hroot]
      by_cases hroot' : ρ x = b
      · rw [hroot'] at hdepth ⊢
        omega
      · rwa [hother _ hroot']
  · have hra : r ≠ a := by
      rintro rfl
      rw [update_self] at hr
      exact hab hr.symm
    rw [update_of_ne hra] at hr
    by_cases hrb : r = b
    · subst hrb
      have htree : tree (update p a r) r = tree p a ∪ tree p r := by
        ext x
        rw [Set.mem_union, hrep'.mem_tree_iff, hrep.mem_tree_iff, hrep.mem_tree_iff, redirect]
        split_ifs with hx
        · exact iff_of_true rfl (.inl hx)
        · exact (or_iff_right hx).symm
      have hdisj : Disjoint (tree p a) (tree p r) := by
        rw [Set.disjoint_left]
        intro x hx hx'
        rw [hrep.mem_tree_iff] at hx hx'
        exact hab (hx.symm.trans hx')
      rw [htree, Set.ncard_union_eq hdisj]
      exact hpow.trans (Nat.add_le_add (h.count a ha) (h.count r hr))
    · have htree : tree (update p a b) r = tree p r := by
        ext x
        rw [hrep'.mem_tree_iff, hrep.mem_tree_iff, redirect]
        split_ifs with hx
        · exact iff_of_false (fun hbr => hrb hbr.symm) fun hxr => hra (hxr.symm.trans hx)
        · rfl
      rw [htree, hother r hrb]
      exact h.count r hr

/-- The rank of a root may grow if its class has the elements for it. -/
theorem Ranked.grow (h : Ranked p w) (hcount : 2 ^ (w r + 1) ≤ (tree p r).ncard) :
    Ranked p (update w r (w r + 1)) := by
  refine ⟨fun n x s hx => ?_, fun s hs => ?_⟩
  · have hdepth := h.depth n x s hx
    by_cases he : s = r
    · subst he
      rw [update_self]
      omega
    · rwa [update_of_ne he]
  · by_cases he : s = r
    · subst he
      rwa [update_self]
    · rw [update_of_ne he]
      exact h.count s hs

end Code365.Forest
