import Mathlib

/-! # Edits of a list, one element at a time

The least number of insertions, removals and substitutions between two lists is the value of the
recursion `distance`, which compares their heads.  `Align a b n` is in between: an alignment of the
two lists with at most `n` differences. -/

namespace Code365

variable {α : Type*} {a b : List α} {n m : ℕ} {x y : α}

inductive Edit : List α → List α → Prop
  | insertion (l r : List α) (x : α) : Edit (l ++ r) (l ++ x :: r)
  | removal (l r : List α) (x : α) : Edit (l ++ x :: r) (l ++ r)
  | substitution (l r : List α) (x y : α) : Edit (l ++ x :: r) (l ++ y :: r)

/-- Exactly `n` edits. -/
inductive Edits : ℕ → List α → List α → Prop
  | refl (a : List α) : Edits 0 a a
  | step {a b c : List α} {n : ℕ} (h : Edit a b) (hs : Edits n b c) : Edits (n + 1) a c

theorem Edit.cons (x : α) : Edit a b → Edit (x :: a) (x :: b)
  | insertion l r y => insertion (x :: l) r y
  | removal l r y => removal (x :: l) r y
  | substitution l r y z => substitution (x :: l) r y z

theorem Edits.cons (x : α) (h : Edits n a b) : Edits n (x :: a) (x :: b) := by
  induction h with
  | refl a => exact refl _
  | step h _ ih => exact step (h.cons x) ih

theorem Edit.reverse (h : Edit a b) : Edit a.reverse b.reverse := by
  cases h with
  | insertion l r x => simpa using insertion r.reverse l.reverse x
  | removal l r x => simpa using removal r.reverse l.reverse x
  | substitution l r x y => simpa using substitution r.reverse l.reverse x y

theorem Edits.reverse (h : Edits n a b) : Edits n a.reverse b.reverse := by
  induction h with
  | refl a => exact refl _
  | step h _ ih => exact step h.reverse ih

/-! ### Alignments -/

inductive Align : List α → List α → ℕ → Prop
  | nil {n : ℕ} : Align [] [] n
  | keep {a b : List α} {n : ℕ} (x : α) (h : Align a b n) : Align (x :: a) (x :: b) n
  | differ {a b : List α} {n : ℕ} (x y : α) (h : Align a b n) : Align (x :: a) (y :: b) (n + 1)
  | right {a b : List α} {n : ℕ} (y : α) (h : Align a b n) : Align a (y :: b) (n + 1)
  | left {a b : List α} {n : ℕ} (x : α) (h : Align a b n) : Align (x :: a) b (n + 1)

namespace Align

theorem add_one (h : Align a b n) : Align a b (n + 1) := by
  induction h with
  | nil => exact nil
  | keep x _ ih => exact ih.keep x
  | differ x y _ ih => exact ih.differ x y
  | right y _ ih => exact ih.right y
  | left x _ ih => exact ih.left x

theorem symm (h : Align a b n) : Align b a n := by
  induction h with
  | nil => exact nil
  | keep x _ ih => exact ih.keep x
  | differ x y _ ih => exact ih.differ y x
  | right y _ ih => exact ih.left y
  | left x _ ih => exact ih.right x

theorem refl : ∀ a : List α, Align a a 0
  | [] => nil
  | x :: a => (refl a).keep x

theorem length_le (h : Align a b n) : b.length ≤ a.length + n := by
  induction h <;> grind

variable {c : List α}

/-- The head of the first list is without a partner, or beside another element, or beside its
equal. -/
theorem of_head (hleft : ∀ b n, Align a b n → Align c b (n + 2)) (hdiffer : ∀ y b n, Align a b n →
    Align c (y :: b) (n + 2)) (hkeep : ∀ b n, Align a b n → Align c (x :: b) (n + 1))
    (h : Align (x :: a) b n) : Align c b (n + 1) := by
  generalize hl : x :: a = l at h
  induction h with
  | nil => cases hl
  | keep _ h =>
    cases hl
    exact hkeep _ _ h
  | differ _ y h =>
    cases hl
    exact hdiffer y _ _ h
  | right y _ ih => exact (ih hl).right y
  | left _ h =>
    cases hl
    exact hleft _ _ h

theorem tail (h : Align (x :: a) b n) : Align a b (n + 1) :=
  of_head (fun _ _ h => h.add_one.add_one) (fun y _ _ h => (h.right y).add_one) (fun _ _ h => h.right x) h

theorem change (y : α) (h : Align (x :: a) b n) : Align (y :: a) b (n + 1) :=
  of_head (fun _ _ h => (h.left y).add_one) (fun z _ _ h => (h.differ y z).add_one) (fun _ _ h =>
    h.differ y x) h

theorem lift_cons (hstep : ∀ b n, Align a b n → Align c b (n + 1)) (h : Align (x :: a) b n) :
    Align (x :: c) b (n + 1) :=
  of_head (fun _ _ h => (hstep _ _ h).left x) (fun y _ _ h =>
    (hstep _ _ h).differ x y) (fun _ _ h => (hstep _ _ h).keep x) h

theorem tails (h : Align (x :: a) (x :: b) n) : Align a b n := by
  cases h with
  | keep _ h => exact h
  | differ _ _ h => exact h.add_one
  | right _ h => exact h.tail
  | left _ h => exact h.symm.tail.symm

theorem of_edit (he : Edit a b) (h : Align b c n) : Align a c (n + 1) := by
  have hl : ∀ (l : List α) {a b : List α}, (∀ c n, Align b c n → Align a c (n + 1)) →
      ∀ c n, Align (l ++ b) c n → Align (l ++ a) c (n + 1) := by
    intro l
    induction l with
    | nil => exact fun h => h
    | cons x l ih => exact fun h c n hc => lift_cons (ih h) hc
  cases he with
  | insertion l r x => exact hl l (fun _ _ h => h.tail) _ _ h
  | removal l r x => exact hl l (fun _ _ h => h.left x) _ _ h
  | substitution l r x y => exact hl l (fun _ _ h => h.change x) _ _ h

theorem of_edits (h : Edits n a b) : Align a b n := by
  induction h with
  | refl a => exact refl a
  | step h _ ih => exact of_edit h ih

theorem edits (h : Align a b n) : ∃ m ≤ n, Edits m a b := by
  induction h with
  | nil => exact ⟨0, Nat.zero_le _, .refl _⟩
  | keep x _ ih =>
    obtain ⟨m, hm, hs⟩ := ih
    exact ⟨m, hm, hs.cons x⟩
  | differ x y _ ih =>
    obtain ⟨m, hm, hs⟩ := ih
    exact ⟨m + 1, by omega, .step (.substitution [] _ x y) (hs.cons y)⟩
  | right y _ ih =>
    obtain ⟨m, hm, hs⟩ := ih
    exact ⟨m + 1, by omega, .step (.insertion [] _ y) (hs.cons y)⟩
  | left x _ ih =>
    obtain ⟨m, hm, hs⟩ := ih
    exact ⟨m + 1, by omega, .step (.removal [] _ x) hs⟩

end Align

/-! ### The recursion -/

variable [DecidableEq α]

def distance : List α → List α → ℕ
  | [], b => b.length
  | a, [] => a.length
  | x :: a, y :: b =>
    if x = y then distance a b
    else 1 + min (distance (x :: a) b) (min (distance a (y :: b)) (distance a b))
termination_by a b => a.length + b.length

theorem distance_nil (a : List α) : distance a [] = a.length := by
  cases a <;> simp [distance]

theorem align_distance (a b : List α) : Align a b (distance a b) := by
  have hnil : ∀ b : List α, Align [] b b.length := by
    intro b
    induction b with
    | nil => exact .nil
    | cons y b ih => exact ih.right y
  fun_induction distance a b with
  | case1 b => exact hnil b
  | case2 a => exact (hnil a).symm
  | case3 a y b ih => exact ih.keep y
  | case4 x a y b _ ih1 ih2 ih3 =>
    rw [Nat.add_comm]
    rcases min_choice (distance (x :: a) b) (min (distance a (y :: b)) (distance a b)) with h | h <;> rw [h]
    · exact ih1.right y
    · rcases min_choice (distance a (y :: b)) (distance a b) with h | h <;> rw [h]
      · exact ih2.left x
      · exact ih3.differ x y

theorem distance_le (h : Align a b n) : distance a b ≤ n := by
  fun_induction distance a b generalizing n with
  | case1 b => simpa using h.length_le
  | case2 a => simpa using h.symm.length_le
  | case3 a y b ih => exact ih h.tails
  | case4 x a y b hxy ih1 ih2 ih3 =>
    cases h with
    | keep _ h => exact absurd rfl hxy
    | differ _ _ h => have := ih3 h; omega
    | right _ h => have := ih1 h; omega
    | left _ h => have := ih2 h; omega

theorem isLeast_distance (a b : List α) :
    IsLeast {n | Edits n a b} (distance a b) ∧ IsLeast {n | Edits n b a} (distance a b) := by
  have hle : ∀ {n}, Align a b n → distance a b ≤ n := distance_le
  obtain ⟨n, hn, hab⟩ := (align_distance a b).edits
  obtain ⟨m, hm, hba⟩ := (align_distance a b).symm.edits
  obtain rfl : n = distance a b := le_antisymm hn (hle (.of_edits hab))
  obtain rfl : m = distance a b := le_antisymm hm (hle (Align.of_edits hba).symm)
  exact ⟨⟨hab, fun k hk => hle (.of_edits hk)⟩, hba, fun k hk => hle (Align.of_edits hk).symm⟩

end Code365
