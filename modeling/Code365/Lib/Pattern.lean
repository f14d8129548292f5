import Mathlib

/-! # Patterns with a wild card

A pattern is a word over letters and the wild card `w`; it matches a word of letters that agrees
with it in every position that is not wild.  `mismatches` counts the positions where two words
differ: the wild ones always do, so a pattern matches exactly if there are no others
(`count_mismatches`).  Two patterns that differ in one position are joined by making it wild
(`Joined`), and over two letters this loses and adds nothing (`Joined.matches_of_left`,
`Joined.matches_or`).  A pattern that matches another one, read as a word, matches all its words;
over two letters the converse holds too (`matches_of_covers`). -/

namespace Code365.Pattern

open List

variable {α : Type*} (w : α)

def Matches : List α → List α → Prop := List.Forall₂ fun p a => p = w ∨ p = a

variable {w} {p a x y k : List α}

theorem matches_refl (w : α) (p : List α) : Matches w p p := forall₂_same.mpr fun _ _ => .inr rfl

theorem matches_iff_eq (hp : w ∉ p) : Matches w p a ↔ p = a := by
  constructor
  · intro h
    induction h with
    | nil => rfl
    | @cons c b p a hc _ ih =>
      rw [mem_cons, not_or] at hp
      rw [hc.resolve_left (Ne.symm hp.1), ih hp.2]
  · rintro rfl
    exact matches_refl w p

theorem matches_middle {p1 p2 : List α} {c : α} : Matches w (p1 ++ c :: p2) a ↔
    ∃ a1 b a2, a = a1 ++ b :: a2 ∧ Matches w p1 a1 ∧ (c = w ∨ c = b) ∧ Matches w p2 a2 := by
  constructor
  · intro h
    induction p1 generalizing a with
    | nil =>
      cases h with
      | @cons _ b _ a2 hc hrest => exact ⟨[], b, a2, rfl, .nil, hc, hrest⟩
    | cons d p1 ih =>
      cases h with
      | @cons _ e _ a' hd hrest =>
        obtain ⟨a1, b, a2, rfl, h1, hc, h2⟩ := ih hrest
        exact ⟨e :: a1, b, a2, rfl, .cons hd h1, hc, h2⟩
  · rintro ⟨a1, b, a2, rfl, h1, hc, h2⟩
    induction h1 with
    | nil => exact .cons hc h2
    | cons hd _ ih => exact .cons hd ih

/-! ### Joining two patterns -/

variable (w) in
/-- The patterns differ in one position, which is wild in `k`. -/
inductive Joined : List α → List α → List α → Prop
  | intro (p1 p2 : List α) {c d : α} : c ≠ d → Joined (p1 ++ c :: p2) (p1 ++ d :: p2) (p1 ++ w :: p2)

theorem Joined.symm (h : Joined w x y k) : Joined w y x k := by
  obtain ⟨p1, p2, hcd⟩ := h
  exact .intro p1 p2 hcd.symm

theorem Joined.cons (h : Joined w x y k) (c : α) : Joined w (c :: x) (c :: y) (c :: k) := by
  obtain ⟨p1, p2, hcd⟩ := h
  exact .intro (c :: p1) p2 hcd

theorem Joined.length_eq (h : Joined w x y k) : k.length = x.length := by
  obtain ⟨p1, p2, _⟩ := h
  simp

theorem Joined.mem (h : Joined w x y k) {c : α} (hc : c ∈ k) : c = w ∨ c ∈ x := by
  obtain ⟨p1, p2, _⟩ := h
  simp only [mem_append, mem_cons] at hc ⊢
  tauto

theorem Joined.matches_of_left (h : Joined w x y k) (hx : Matches w x a) : Matches w k a := by
  obtain ⟨p1, p2, _⟩ := h
  obtain ⟨a1, b, a2, rfl, h1, _, h2⟩ := matches_middle.mp hx
  exact matches_middle.mpr ⟨a1, b, a2, rfl, h1, .inl rfl, h2⟩

/-- Of two letters and the wild card, the two that the patterns do not share cover both letters. -/
theorem Joined.matches_or {u v : α} (h : Joined w x y k) (hxw : ∀ c ∈ x, c = u ∨ c = v ∨ c = w)
    (hyw : ∀ c ∈ y, c = u ∨ c = v ∨ c = w) (ha : ∀ b ∈ a, b = u ∨ b = v) (hk : Matches w k a) :
    Matches w x a ∨ Matches w y a := by
  cases h with
  | @intro p1 p2 c d hcd =>
    obtain ⟨a1, b, a2, rfl, h1, _, h2⟩ := matches_middle.mp hk
    have hc := hxw c (by simp)
    have hd := hyw d (by simp)
    have hb := ha b (by simp)
    have hcase : (c = w ∨ c = b) ∨ (d = w ∨ d = b) := by grind
    rcases hcase with hcase | hcase
    · exact .inl (matches_middle.mpr ⟨a1, b, a2, rfl, h1, hcase, h2⟩)
    · exact .inr (matches_middle.mpr ⟨a1, b, a2, rfl, h1, hcase, h2⟩)

/-! ### Larger patterns -/

theorem Matches.trans (hxy : Matches w x y) (hya : Matches w y a) : Matches w x a := by
  induction hxy generalizing a with
  | nil => exact hya
  | @cons c d x y hc _ ih =>
    cases hya with
    | @cons _ b _ a hd hrest =>
      refine .cons ?_ (ih hrest)
      rcases hc with hc | rfl
      · exact .inl hc
      · exact hd

theorem Matches.antisymm (hxy : Matches w x y) (hyx : Matches w y x) : x = y := by
  induction hxy with
  | nil => rfl
  | @cons c d x y hc _ ih =>
    cases hyx with
    | cons hd hrest =>
      rw [ih hrest]
      rcases hc with rfl | rfl
      · rcases hd with rfl | rfl <;> rfl
      · rfl

theorem exists_matches {u v : α} : ∀ {p : List α}, (∀ c ∈ p, c = u ∨ c = v ∨ c = w) →
    ∃ a, (∀ b ∈ a, b = u ∨ b = v) ∧ Matches w p a
  | [], _ => ⟨[], by simp, .nil⟩
  | c :: p, hp => by
    obtain ⟨a, ha, hmatch⟩ := exists_matches fun c hc => hp c (mem_cons_of_mem _ hc)
    rcases hp c mem_cons_self with rfl | rfl | rfl
    · exact ⟨c :: a, by simpa using ha, .cons (.inr rfl) hmatch⟩
    · exact ⟨c :: a, by simpa using ha, .cons (.inr rfl) hmatch⟩
    · exact ⟨u :: a, by simpa using ha, .cons (.inl rfl) hmatch⟩

theorem matches_of_covers {u v : α} (huv : u ≠ v) : ∀ {x y : List α}, (∀ c ∈ x, c = u ∨ c = v ∨
    c = w) → (∀ a, (∀ b ∈ a, b = u ∨ b = v) → Matches w x a → Matches w y a) → Matches w y x
  | [], y, _, h => h [] (by simp) .nil
  | c :: x, y, hx, h => by
    have hx' : ∀ c ∈ x, c = u ∨ c = v ∨ c = w := fun c hc => hx c (mem_cons_of_mem _ hc)
    have hc := hx c mem_cons_self
    obtain ⟨a, ha, hmatch⟩ := exists_matches hx'
    -- a letter that `c` allows
    obtain ⟨b, hb, hcb⟩ : ∃ b, (b = u ∨ b = v) ∧ (c = w ∨ c = b) := by
      rcases hc with rfl | rfl | rfl
      · exact ⟨c, .inl rfl, .inr rfl⟩
      · exact ⟨c, .inr rfl, .inr rfl⟩
      · exact ⟨u, .inl rfl, .inl rfl⟩
    have hfirst : ∀ b', (b' = u ∨ b' = v) → (c = w ∨ c = b') → Matches w y (b' :: a) := fun b' hb' hcb' =>
      h (b' :: a) (by simpa using ⟨hb', ha⟩) (.cons hcb' hmatch)
    cases y with
    | nil => cases hfirst b hb hcb
    | cons d y =>
      have hletter : ∀ b', (b' = u ∨ b' = v) → (c = w ∨ c = b') → d = w ∨ d = b' := fun b' hb' hcb' =>
        (forall₂_cons.mp (hfirst b' hb' hcb')).1
      refine .cons ?_ (matches_of_covers huv hx' fun a' ha' hmatch' => ?_)
      · rcases hc with rfl | rfl | rfl
        · exact hletter c (.inl rfl) (.inr rfl)
        · exact hletter c (.inr rfl) (.inr rfl)
        · -- both letters are allowed, so `d` is wild
          rcases hletter u (.inl rfl) (.inl rfl) with hd | rfl
          · exact .inl hd
          · exact .inl ((hletter v (.inr rfl) (.inl rfl)).resolve_right huv)
      · exact (forall₂_cons.mp (h (b :: a') (by simpa using ⟨hb, ha'⟩) (.cons hcb hmatch'))).2

theorem Matches.exists_wild (h : Matches w y x) (hne : y ≠ x) :
    ∃ p1 c p2, x = p1 ++ c :: p2 ∧ c ≠ w ∧ Matches w y (p1 ++ w :: p2) := by
  induction h with
  | nil => exact absurd rfl hne
  | @cons d c y x hd hrest ih =>
    by_cases hdc : d = c
    · subst hdc
      obtain ⟨p1, c, p2, rfl, hc, hmatch⟩ := ih fun he => hne (by rw [he])
      exact ⟨d :: p1, c, p2, rfl, hc, .cons (.inr rfl) hmatch⟩
    · obtain rfl := hd.resolve_right hdc
      exact ⟨[], c, x, rfl, Ne.symm hdc, .cons (.inl rfl) hrest⟩

variable [DecidableEq α]

theorem Joined.count_eq (h : Joined w x y k) (hxy : x.count w = y.count w) :
    k.count w = x.count w + 1 := by
  cases h with
  | @intro p1 p2 c d hcd =>
    have hc : c ≠ w := by
      rintro rfl
      rw [count_append, count_append, count_cons_self, count_cons_of_ne hcd.symm] at hxy
      omega
    rw [count_append, count_append, count_cons_self, count_cons_of_ne hc]
    omega

/-! ### Counting the positions that differ -/

def mismatches : List α → List α → ℕ
  | c :: p, b :: a => (if c ≠ b then 1 else 0) + mismatches p a
  | _, _ => 0

/-- The positions that differ are the wild ones, and they are all if and only if the pattern
matches. -/
theorem count_mismatches (hlen : p.length = a.length) (ha : w ∉ a) :
    p.count w ≤ mismatches p a ∧ (mismatches p a = p.count w ↔ Matches w p a) := by
  induction p generalizing a with
  | nil =>
    obtain rfl := length_eq_zero_iff.mp hlen.symm
    exact ⟨Nat.le_refl _, iff_of_true rfl .nil⟩
  | cons c p ih =>
    obtain _ | ⟨b, a⟩ := a
    · simp at hlen
    rw [mem_cons, not_or] at ha
    obtain ⟨hle, hiff⟩ := ih (Nat.succ.inj hlen) ha.2
    rw [count_cons, mismatches, Matches, forall₂_cons, ← Matches, ← hiff]
    by_cases hc : c = w
    · subst hc
      rw [if_pos ha.1]
      simp
      omega
    · rw [beq_eq_false_iff_ne.mpr hc]
      by_cases hb : c = b
      · simp [hb, hle]
      · simp [hb, hc]
        omega

end Code365.Pattern
