import Mathlib

/-! # Segment trees with pending changes in an array

The node with index `i` has the children `2 * i` and `2 * i + 1`; the node of the segment from `l`
to `r` is a leaf if `l = r` and else splits at `(l + r) / 2`.  A cell has the aggregate of the
segment and a change that is still to be made to all its elements.  `Rep A cell i l r f`: the cells
of the subtree of `i` stand for the elements `f` from `l` to `r`; the changes pending above `i` are
not counted.

The rules: what is outside the subtree does not matter (`Rep.frame`), a change is made to a whole
segment by changing its cell and passing it on to the children (`Base.apply`), and a node is put
together from its children (`Base.join`). -/

namespace Code365.LazyTree

open Nat Finset

/-- Changes `τ` of elements `α`, and what they do to the aggregate `β` of a segment. -/
structure LazyAction (α β τ : Type*) where
  total : (ℕ → α) → ℕ → ℕ → β
  join : β → β → β
  act : τ → α → α
  /-- The change of the aggregate of so many elements. -/
  actAll : τ → ℕ → β → β
  idle : τ
  comp : τ → τ → τ
  total_congr {f g : ℕ → α} {l r : ℕ} : (∀ j, l ≤ j → j ≤ r → f j = g j) → total f l r = total g l r
  total_split (f : ℕ → α) {l m r : ℕ} : l ≤ m → m < r → total f l r = join (total f l m) (total f (m + 1) r)
  total_act (t : τ) (f : ℕ → α) {l r : ℕ} : l ≤ r →
    total (fun j => act t (f j)) l r = actAll t (r + 1 - l) (total f l r)
  act_idle (a : α) : act idle a = a
  act_comp (t t' : τ) (a : α) : act (comp t t') a = act t (act t' a)

/-! ### The nodes of a tree -/

/-- The node `j` is in the subtree of `i`. -/
def Below (i j : ℕ) : Prop := ∃ k, j / 2 ^ k = i

namespace Below

variable {i j : ℕ}

theorem refl (i : ℕ) : Below i i := ⟨0, by rw [pow_zero, Nat.div_one]⟩

theorem of_half {c : ℕ} (h : Below c j) (hc : c / 2 = i) : Below i j := by
  obtain ⟨k, rfl⟩ := h
  exact ⟨k + 1, by rw [pow_succ, ← Nat.div_div_eq_div_mul, hc]⟩

theorem of_left (h : Below (2 * i) j) : Below i j := h.of_half (by omega)

theorem of_right (h : Below (2 * i + 1) j) : Below i j := h.of_half (by omega)

theorem le (h : Below i j) : i ≤ j := by
  obtain ⟨k, rfl⟩ := h
  exact div_le_self ..

theorem ne_of_left (h : Below (2 * i) j) (hi : 0 < i) : j ≠ i := by
  have := h.le
  omega

theorem ne_of_right (h : Below (2 * i + 1) j) : j ≠ i := by
  have := h.le
  omega

theorem not_left_and_right (hi : 0 < i) (hl : Below (2 * i) j)
    (hr : Below (2 * i + 1) j) : False := by
  obtain ⟨k, hk⟩ := hl
  obtain ⟨m, hm⟩ := hr
  rcases le_total k m with hle | hle
  · obtain ⟨d, rfl⟩ := Nat.exists_eq_add_of_le hle
    rw [pow_add, ← Nat.div_div_eq_div_mul, hk] at hm
    have hdiv := Nat.div_le_self (2 * i) (2 ^ d)
    omega
  obtain ⟨d, rfl⟩ := Nat.exists_eq_add_of_le hle
  rw [pow_add, ← Nat.div_div_eq_div_mul, hm] at hk
  cases d with
  | zero =>
    omega
  | succ d =>
    rw [pow_succ', ← Nat.div_div_eq_div_mul] at hk
    have hdiv := Nat.div_le_self ((2 * i + 1) / 2) (2 ^ d)
    omega

end Below

/-- Only cells of the subtree of `i` have changed. -/
def Within {γ : Type*} (i : ℕ) (cell cell' : ℕ → γ) : Prop := ∀ j, ¬ Below i j → cell' j = cell j

namespace Within

variable {γ : Type*} {cell cell' cell'' : ℕ → γ} {i : ℕ}

theorem refl (i : ℕ) (cell : ℕ → γ) : Within i cell cell := fun _ _ => rfl

theorem trans (h : Within i cell cell') (h' : Within i cell' cell'') : Within i cell cell'' :=
  fun j hj => (h' j hj).trans (h j hj)

theorem of_left (h : Within (2 * i) cell cell') :
    Within i cell cell' := fun j hj => h j fun hb => hj hb.of_left

theorem of_right (h : Within (2 * i + 1) cell cell') :
    Within i cell cell' := fun j hj => h j fun hb => hj hb.of_right

theorem of_ne (h : ∀ j, j ≠ i → j ≠ 2 * i → j ≠ 2 * i + 1 → cell' j = cell j) :
    Within i cell cell' := by
  intro j hj
  apply h j
  · rintro rfl
    exact hj (Below.refl _)
  · rintro rfl
    exact hj (Below.refl _).of_left
  · rintro rfl
    exact hj (Below.refl _).of_right

theorem top_left (h : Within (2 * i) cell cell') (hi : 0 < i) : cell' i = cell i :=
  h i fun hb => hb.ne_of_left hi rfl

theorem top_right (h : Within (2 * i + 1) cell cell') :
    cell' i = cell i := h i fun hb => hb.ne_of_right rfl

end Within

/-- The nodes of the tree have indices below `size`. -/
inductive Fits (size : ℕ) : ℕ → ℕ → ℕ → Prop
  | intro {i l r : ℕ} : i < size → (l < r → Fits size (2 * i) l ((l + r) / 2)) →
      (l < r → Fits size (2 * i + 1) ((l + r) / 2 + 1) r) → Fits size i l r

theorem fits_of_le_two_pow {size : ℕ} :
    ∀ {h i l r : ℕ}, (i + 1) * 2 ^ h ≤ size → r < l + 2 ^ h → Fits size i l r
  | 0, i, l, r, hsize, hr => by
    exact .intro (by omega) (fun hlt => absurd hlt (by omega)) fun hlt => absurd hlt (by omega)
  | h + 1, i, l, r, hsize, hr => by
    have hpow : 2 ^ (h + 1) = 2 * 2 ^ h := pow_succ' 2 h
    have hchild : (2 * i + 1 + 1) * 2 ^ h ≤ size := by
      calc (2 * i + 1 + 1) * 2 ^ h = (i + 1) * 2 ^ (h + 1) := by rw [hpow]; ring
        _ ≤ size := hsize
    have hself : i + 1 ≤ (i + 1) * 2 ^ (h + 1) := Nat.le_mul_of_pos_right _ (Nat.two_pow_pos _)
    refine .intro (by omega) (fun hlt => ?_) fun hlt => ?_
    · apply fits_of_le_two_pow (le_trans (mul_le_mul_right _ (by omega)) hchild)
      omega
    · apply fits_of_le_two_pow hchild
      omega

theorem fits_of_four_mul_le {size n l : ℕ} (hn : 0 < n) (hsize : 4 * n ≤ size) :
    Fits size 1 l (l + n - 1) := by
  have hle : n ≤ 2 ^ clog 2 n := le_pow_clog (by omega) n
  refine fits_of_le_two_pow (h := clog 2 n) ?_ (by omega)
  rcases lt_or_ge 1 n with h1 | h1
  · have hlt := pow_pred_clog_lt_self (b := 2) (by omega) h1
    obtain ⟨c, hc⟩ := exists_eq_succ_of_ne_zero (clog_pos (b := 2) (by omega) h1).ne'
    rw [hc, Nat.pred_succ] at hlt
    rw [hc, pow_succ]
    omega
  · obtain rfl : n = 1 := by omega
    rw [clog_one_right]
    omega

/-! ### What the cells stand for -/

variable {α β τ : Type*} (A : LazyAction α β τ)

inductive Rep (cell : ℕ → β × τ) : ℕ → ℕ → ℕ → (ℕ → α) → Prop
  | intro {i l r : ℕ} {f : ℕ → α} (g : ℕ → α) : l ≤ r → (cell i).1 = A.total g l r →
      (l < r → Rep cell (2 * i) l ((l + r) / 2) g) → (l < r → Rep cell (2 * i + 1) ((l + r) / 2 + 1) r g) →
      (∀ j, l ≤ j → j ≤ r → f j = A.act (cell i).2 (g j)) → Rep cell i l r f

/-- The elements without the change that is pending at the node itself. -/
structure Base (cell : ℕ → β × τ) (i l r : ℕ) (g : ℕ → α) : Prop where
  le : l ≤ r
  val : (cell i).1 = A.total g l r
  left : l < r → Rep A cell (2 * i) l ((l + r) / 2) g
  right : l < r → Rep A cell (2 * i + 1) ((l + r) / 2 + 1) r g

variable {A} {cell cell' : ℕ → β × τ} {i l r : ℕ} {f g : ℕ → α}

theorem Rep.base (h : Rep A cell i l r f) :
    ∃ g, Base A cell i l r g ∧ ∀ j, l ≤ j → j ≤ r → f j = A.act (cell i).2 (g j) := by
  obtain ⟨g, hle, hval, hleft, hright, htag⟩ := h
  exact ⟨g, ⟨hle, hval, hleft, hright⟩, htag⟩

theorem Rep.le (h : Rep A cell i l r f) : l ≤ r := by
  obtain ⟨_, hb, _⟩ := h.base
  exact hb.le

theorem Base.rep (h : Base A cell i l r g) (htag : ∀ j, l ≤ j → j ≤ r →
    f j = A.act (cell i).2 (g j)) : Rep A cell i l r f := .intro g h.le h.val h.left h.right htag

theorem Rep.congr (h : Rep A cell i l r f) (hfg : ∀ j, l ≤ j → j ≤ r → g j = f j) :
    Rep A cell i l r g := by
  obtain ⟨b, hb, htag⟩ := h.base
  exact hb.rep fun j hl hr => (hfg j hl hr).trans (htag j hl hr)

theorem Base.congr (h : Base A cell i l r f) (hfg : ∀ j, l ≤ j → j ≤ r → g j = f j) :
    Base A cell i l r g := by
  refine ⟨h.le, h.val.trans (A.total_congr fun j hl hr => (hfg j hl hr).symm), fun hlt => ?_, fun hlt => ?_⟩
  · exact (h.left hlt).congr fun j hl hr => hfg j hl (by omega)
  · exact (h.right hlt).congr fun j hl hr => hfg j (by omega) hr

theorem Rep.base_of_idle (h : Rep A cell i l r f) (hidle : (cell i).2 = A.idle) :
    Base A cell i l r f := by
  obtain ⟨g, hb, htag⟩ := h.base
  exact hb.congr fun j hl hr => by rw [htag j hl hr, hidle, A.act_idle]

theorem Base.rep_of_idle (h : Base A cell i l r f) (hidle : (cell i).2 = A.idle) :
    Rep A cell i l r f :=
  h.rep fun j _ _ => by rw [hidle, A.act_idle]

theorem Base.rep_of_top (h : Base A cell i l r f) (hidle : (cell i).2 = A.idle)
    (htop : cell' i = cell i) (hleft : Rep A cell' (2 * i) l ((l + r) / 2) f)
    (hright : Rep A cell' (2 * i + 1) ((l + r) / 2 + 1) r f) : Rep A cell' i l r f := by
  rw [← htop] at hidle
  exact Base.rep_of_idle ⟨h.le, htop ▸ h.val, fun _ => hleft, fun _ => hright⟩ hidle

theorem Rep.frame (h : Rep A cell i l r f) (hcell : ∀ j, Below i j → cell' j = cell j) :
    Rep A cell' i l r f := by
  induction h with
  | intro g hle hval _ _ htag ihl ihr =>
    have hi := hcell _ (Below.refl _)
    refine .intro g hle (by rw [hi, hval]) (fun hlt => ihl hlt fun j hj => hcell j hj.of_left)
      (fun hlt => ihr hlt fun j hj => hcell j hj.of_right) ?_
    rw [hi]
    exact htag

theorem Rep.right_of_within (h : Rep A cell (2 * i + 1) l r f) (hi : 0 < i)
    (hw : Within (2 * i) cell cell') : Rep A cell' (2 * i + 1) l r f :=
  h.frame fun j hj => hw j fun hb => Below.not_left_and_right hi hb hj

theorem Rep.left_of_within (h : Rep A cell (2 * i) l r f) (hi : 0 < i)
    (hw : Within (2 * i + 1) cell cell') : Rep A cell' (2 * i) l r f :=
  h.frame fun j hj => hw j fun hb => Below.not_left_and_right hi hj hb

theorem Base.frame (h : Base A cell i l r f) (hi : 0 < i) (hval : (cell' i).1 = (cell i).1)
    (hcell : ∀ j, j ≠ i → cell' j = cell j) : Base A cell' i l r f := by
  refine ⟨h.le, hval.trans h.val, fun hlt => (h.left hlt).frame fun j hj => ?_,
    fun hlt => (h.right hlt).frame fun j hj => ?_⟩
  · exact hcell j (hj.ne_of_left hi)
  · exact hcell j hj.ne_of_right

/-- One more change at the top of a subtree. -/
theorem Rep.pend (h : Rep A cell i l r f) (hi : 0 < i) (t : τ)
    (htop : cell' i = ((cell i).1, A.comp t (cell i).2)) (hcell : ∀ j, Below i j → j ≠ i →
    cell' j = cell j) : Rep A cell' i l r fun j => A.act t (f j) := by
  obtain ⟨g, hb, htag⟩ := h.base
  have hbelow : ∀ j, Below (2 * i) j ∨ Below (2 * i + 1) j → cell' j = cell j := by
    rintro j (hj | hj)
    · exact hcell j hj.of_left (hj.ne_of_left hi)
    · exact hcell j hj.of_right hj.ne_of_right
  refine .intro g hb.le (by rw [htop, hb.val]) (fun hlt => (hb.left hlt).frame fun j hj => hbelow j (.inl hj))
    (fun hlt => (hb.right hlt).frame fun j hj => hbelow j (.inr hj)) fun j hl hr => ?_
  rw [htop, A.act_comp, htag j hl hr]

/-- A change of the whole segment: the aggregate changes, and the children get it as pending. -/
theorem Base.apply (h : Base A cell i l r g) (hi : 0 < i) (t : τ)
    (hval : (cell' i).1 = A.actAll t (r + 1 - l) (cell i).1)
    (hleft : l < r → cell' (2 * i) = ((cell (2 * i)).1, A.comp t (cell (2 * i)).2))
    (hright : l < r → cell' (2 * i + 1) = ((cell (2 * i + 1)).1, A.comp t (cell (2 * i + 1)).2))
    (hcell : ∀ j, j ≠ i → j ≠ 2 * i → j ≠ 2 * i + 1 → cell' j = cell j) :
    Base A cell' i l r fun j => A.act t (g j) := by
  refine ⟨h.le, ?_, fun hlt => ?_, fun hlt => ?_⟩
  · rw [hval, h.val, A.total_act t g h.le]
  · refine (h.left hlt).pend (by omega) t (hleft hlt) fun j hj hne => hcell j (hj.ne_of_left hi) hne ?_
    rintro rfl
    exact Below.not_left_and_right hi hj (Below.refl _)
  · refine (h.right hlt).pend (by omega) t (hright hlt) fun j hj hne => hcell j hj.ne_of_right ?_ hne
    rintro rfl
    exact Below.not_left_and_right hi (Below.refl _) hj

/-- A node from its children, when nothing is pending at them. -/
theorem Base.join (hi : 0 < i) (hlt : l < r) (hleft : Rep A cell (2 * i) l ((l + r) / 2) f)
    (hright : Rep A cell (2 * i + 1) ((l + r) / 2 + 1) r f) (hidle : (cell (2 * i)).2 = A.idle)
    (hidle' : (cell (2 * i + 1)).2 = A.idle)
    (hval : (cell' i).1 = A.join (cell (2 * i)).1 (cell (2 * i + 1)).1)
    (hcell : ∀ j, j ≠ i → cell' j = cell j) : Base A cell' i l r f := by
  refine ⟨hlt.le, ?_, fun _ => hleft.frame fun j hj => ?_, fun _ => hright.frame fun j hj => ?_⟩
  · rw [hval, (hleft.base_of_idle hidle).val, (hright.base_of_idle hidle').val,
      ← A.total_split f (by omega) (by omega)]
  · exact hcell j (hj.ne_of_left hi)
  · exact hcell j hj.ne_of_right

/-! ### Positions of a segment -/

/-- The positions of the segment from `l` to `r` that lie between `a` and `b`. -/
def asked (l r a b : ℕ) : Finset ℕ := {j ∈ Finset.Icc l r | a ≤ j ∧ j ≤ b}

variable {a b : ℕ}

theorem asked_eq_empty (h : r < a ∨ b < l) : asked l r a b = ∅ := by
  refine filter_false_of_mem fun j hj => ?_
  obtain ⟨hl, hr⟩ := mem_Icc.mp hj
  omega

theorem asked_eq_Icc (ha : a ≤ l) (hb : r ≤ b) : asked l r a b = Finset.Icc l r := by
  refine filter_true_of_mem fun j hj => ?_
  obtain ⟨hl, hr⟩ := mem_Icc.mp hj
  omega

theorem asked_of_le (hl : l ≤ a) (hr : b ≤ r) : asked l r a b = Finset.Icc a b := by
  ext j
  simp only [asked, mem_filter, mem_Icc]
  omega

theorem asked_split {m : ℕ} (hlm : l ≤ m) (hmr : m < r) :
    asked l r a b = asked l m a b ∪ asked (m + 1) r a b := by
  ext j
  simp only [asked, mem_filter, mem_Icc, mem_union]
  omega

theorem Icc_split {m : ℕ} (hlm : l ≤ m) (hmr : m < r) :
    Finset.Icc l r = Finset.Icc l m ∪ Finset.Icc (m + 1) r := by
  ext j
  simp only [mem_Icc, mem_union]
  omega

end Code365.LazyTree
