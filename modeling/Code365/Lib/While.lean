import Mathlib

/-! # Loops

`whileLoop test body fuel s` is the loop `while (test) body` from the state `s`.  The body is
partial: `none` is a step that the language gives no meaning.  `fuel` bounds the number of rounds; a
loop that does not end within it gives `none` too, so that a result `some t` says that the loop
ends, in `t`.  `whileLoop_total` is the rule for loops with an invariant and a measure;
`Rounds n s t` says that `n` rounds lead from `s` to `t`, for loops whose rounds are put together
from parts. `forLoop a b body s` runs the body for `a ≤ i < b`; `foldlM_induct` is the rule for
loops over a list; `setCell` writes to a table. -/

namespace Code365

open List

variable {σ : Type*} {test : σ → Bool} {body : σ → Option σ} {s : σ} {fuel : ℕ}

def whileLoop (test : σ → Bool) (body : σ → Option σ) : ℕ → σ → Option σ
  | 0, _ => none
  | fuel + 1, s => if test s then (body s).bind (whileLoop test body fuel) else some s

/-- What the body keeps holds at the end, and the loop ends when a measure goes down with each
round. -/
theorem whileLoop_total {I : σ → Prop} (μ : σ → ℕ)
    (hbody : ∀ s, I s → test s = true → ∃ t, body s = some t ∧ I t ∧ μ t < μ s) (hs : I s)
    (hfuel : μ s < fuel) : ∃ t, whileLoop test body fuel s = some t ∧ I t ∧ test t = false := by
  induction fuel generalizing s with
  | zero => omega
  | succ fuel ih =>
    unfold whileLoop
    cases htest : test s with
    | false => exact ⟨s, by simp, hs, htest⟩
    | true =>
      obtain ⟨t, hst, ht, hμ⟩ := hbody s hs htest
      obtain ⟨u, hu, hI, hend⟩ := ih ht (by omega)
      refine ⟨u, ?_, hI, hend⟩
      rw [if_pos rfl, hst, Option.bind_some, hu]

/-- `n` rounds of the loop lead from `s` to `t`. -/
inductive Rounds (test : σ → Bool) (body : σ → Option σ) : ℕ → σ → σ → Prop
  | refl (s : σ) : Rounds test body 0 s s
  | step {s t u : σ} {n : ℕ} :
      test s = true → body s = some t → Rounds test body n t u → Rounds test body (n + 1) s u

namespace Rounds

variable {t u : σ} {m n : ℕ}

theorem trans (h : Rounds test body m s t) (h' : Rounds test body n t u) :
    Rounds test body (m + n) s u := by
  induction h with
  | refl => rwa [Nat.zero_add]
  | step htest hbody _ ih =>
    rw [Nat.add_right_comm]
    exact step htest hbody (ih h')

theorem whileLoop_eq (h : Rounds test body n s t) (hend : test t = false) (hfuel : n < fuel) :
    whileLoop test body fuel s = some t := by
  induction h generalizing fuel with
  | refl s =>
    obtain ⟨fuel, rfl⟩ : ∃ k, fuel = k + 1 := ⟨fuel - 1, by omega⟩
    rw [whileLoop, hend, if_neg Bool.false_ne_true]
  | step htest hbody _ ih =>
    obtain ⟨fuel, rfl⟩ : ∃ k, fuel = k + 1 := ⟨fuel - 1, by omega⟩
    rw [whileLoop, if_pos htest, hbody, Option.bind_some, ih hend (by omega)]

end Rounds

/-! ### Counting -/

def forLoop (a b : ℕ) (body : ℕ → σ → σ) (s : σ) : σ := (List.range' a (b - a)).foldl (fun s i => body i s) s

theorem forLoop_self (a : ℕ) (body : ℕ → σ → σ) (s : σ) :
    forLoop a a body s = s := by simp [forLoop]

theorem forLoop_induct {a b : ℕ} {f : ℕ → σ → σ} {I : ℕ → σ → Prop} (hab : a ≤ b) (hs : I a s)
    (hbody : ∀ i s, a ≤ i → i < b → I i s → I (i + 1) (f i s)) : I b (forLoop a b f s) := by
  obtain ⟨n, rfl⟩ := Nat.exists_eq_add_of_le hab
  rw [forLoop, Nat.add_sub_cancel_left]
  induction n with
  | zero => exact hs
  | succ n ih =>
    rw [range'_1_concat, foldl_append]
    exact hbody (a + n) _ (Nat.le_add_right a n) (by omega)
      (ih (Nat.le_add_right a n) fun i s hi hn => hbody i s hi (by omega))

/-! ### Lists -/

section list

variable {α : Type*} {f : σ → α → Option σ} {l : List α}

theorem foldlM_concat.{u, v} {τ : Type u} {m : Type u → Type v} [Monad m] [LawfulMonad m] (g : τ →
    α → m τ) (l : List α) (x : α) (s : τ) : (l ++ [x]).foldlM g s = l.foldlM g s >>= (g · x) := by
  simp only [foldlM_append, foldlM_cons, foldlM_nil, bind_pure]

theorem foldlM_induct {I : List α → σ → Prop} (hs : I [] s) (hbody : ∀ done x s, x ∈ l → I done s →
    ∃ t, f s x = some t ∧ I (done ++ [x]) t) : ∃ t, l.foldlM f s = some t ∧ I l t := by
  induction l using reverseRecOn with
  | nil => exact ⟨s, rfl, hs⟩
  | append_singleton l x ih =>
    obtain ⟨t, ht, hI⟩ := ih fun done y s hy => hbody done y s (mem_append_left _ hy)
    obtain ⟨u, hu, hI⟩ := hbody l x t (by simp) hI
    exact ⟨u, by simp [foldlM_append, ht, hu], hI⟩

theorem foldlM_fixed (h : ∀ x ∈ l, f s x = some s) : l.foldlM f s = some s := by
  induction l with
  | nil => rfl
  | cons x l ih =>
    rw [foldlM_cons, h x mem_cons_self]
    exact ih fun y hy => h y (mem_cons_of_mem _ hy)

theorem foldlM_one {l1 l2 : List α} {x : α} (h : ∀ y ∈ l1 ++ l2, ∀ s, f s y = some s) :
    (l1 ++ x :: l2).foldlM f s = f s x := by
  rw [foldlM_append, foldlM_fixed fun y hy => h y (mem_append_left _ hy) s]
  cases hx : f s x with
  | none => simp [hx]
  | some t => simp [hx, foldlM_fixed fun y hy => h y (mem_append_right _ hy) t]

end list

/-! ### Tables -/

section table

variable {α : Type*} (f : ℕ → ℕ → α) {i j k l : ℕ} (v w : α)

/-- `f[i][j] = v` -/
def setCell (f : ℕ → ℕ → α) (i j : ℕ) (v : α) : ℕ → ℕ → α := Function.update f i (Function.update (f i) j v)

theorem setCell_self : setCell f i j v i j = v := by simp [setCell]

theorem setCell_of_ne (h : ¬(k = i ∧ l = j)) : setCell f i j v k l = f k l := by
  by_cases hk : k = i
  · subst hk
    have hl : l ≠ j := fun hl => h ⟨rfl, hl⟩
    simp [setCell, hl]
  · simp [setCell, hk]

theorem setCell_setCell : setCell (setCell f i j v) i j w = setCell f i j w := by simp [setCell]

end table

end Code365
