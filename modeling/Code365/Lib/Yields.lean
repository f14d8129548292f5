import Mathlib

/-! # When a computation returns, and what

`Yields o P v` says that the optional value `o` is `v` if `P` holds, and `none` otherwise.  A
computation of several steps is followed by `bind`, one that may fail in one step only by `bind_eq`,
and a loop by `foldlM`. -/

namespace Code365

open List

variable {α β σ : Type*} {o : Option α} {f : α → Option β} {P Q : Prop} {v : α} {w : β}

def Yields (o : Option α) (P : Prop) (v : α) : Prop := ∀ b, o = some b ↔ P ∧ b = v

namespace Yields

theorem eq_some (h : Yields o P v) (hP : P) : o = some v := (h v).mpr ⟨hP, rfl⟩

theorem of_eq (h : o = some v) (hP : P) : Yields o P v := fun b => by
  rw [h, Option.some_inj, eq_comm, and_iff_right hP]

theorem congr (h : Yields o P v) (hPQ : P ↔ Q) : Yields o Q v := fun b => by rw [h b, hPQ]

theorem bind (h : Yields o P v) (hf : P → Yields (f v) Q w) : Yields (o.bind f) (P ∧ Q) w := by
  intro b
  rw [Option.bind_eq_some_iff]
  constructor
  · rintro ⟨a, ha, hb⟩
    obtain ⟨hP, rfl⟩ := (h a).mp ha
    obtain ⟨hQ, rfl⟩ := (hf hP b).mp hb
    exact ⟨⟨hP, hQ⟩, rfl⟩
  · rintro ⟨⟨hP, hQ⟩, rfl⟩
    exact ⟨v, h.eq_some hP, (hf hP).eq_some hQ⟩

theorem bind_eq (h : Yields o P v) (hf : f v = some w) : Yields (o.bind f) P w :=
  (h.bind fun _ => of_eq hf trivial).congr (iff_of_eq (and_true P))

theorem map (h : Yields o P v) (g : α → β) : Yields (o.map g) P (g v) := by
  rw [Option.map_eq_bind]
  exact h.bind_eq rfl

theorem foldlM {g : σ → β → Option σ} {s : ℕ → σ} {p : ℕ → Prop} {l : List β}
    (h : ∀ i x, l[i]? = some x → Yields (g (s i) x) (p i) (s (i + 1))) :
    Yields (l.foldlM g (s 0)) (∀ i < l.length, p i) (s l.length) := by
  induction l using List.reverseRecOn with
  | nil => exact of_eq rfl nofun
  | append_singleton l x ih =>
    have hl := ih fun i y hy => h i y (by rw [getElem?_append_left (List.getElem?_eq_some_iff.mp hy).1, hy])
    have hx := h l.length x (by simp)
    rw [foldlM_append, length_append, length_singleton]
    simp only [foldlM_cons, foldlM_nil, bind_pure]
    exact (hl.bind fun _ => hx).congr Nat.forall_lt_succ_right.symm

end Yields

end Code365
