import Mathlib

/-! # Flows and residual capacities

`c` are the capacities and `r` the capacities that are left.  `Residual c r b`: nothing is left
below zero, what one direction loses the other one gains, and the net flow out of `u` is `b u`.  The
net flow over a cut is what flows out of the vertices on one side (`Residual.across`), so that a cut
no residual capacity leads over is a least cut (`Residual.isLeast_cut`).

A path is given by the parents from its end back to its start (`Up`); pushing along it moves the net
flow from its end to its start (`Residual.pushAll`). -/

namespace Code365.Flow

open Finset

variable {V : Type*} [Fintype V] [DecidableEq V] {c r : V → V → ℤ} {b : V → ℤ} {s t u v : V}
  {S : Finset V}

structure Residual (c r : V → V → ℤ) (b : V → ℤ) : Prop where
  nonneg : ∀ u v, 0 ≤ r u v
  pair : ∀ u v, r u v + r v u = c u v + c v u
  net : ∀ u, ∑ v, (c u v - r u v) = b u

omit [DecidableEq V] in
theorem residual_self (hc : ∀ u v, 0 ≤ c u v) :
    Residual c c 0 := ⟨hc, fun _ _ => rfl, fun u => by simp⟩

/-! ### Cuts -/

/-- The capacity of the edges that leave a set. -/
def cut (c : V → V → ℤ) (S : Finset V) : ℤ := ∑ u ∈ S, ∑ v ∈ Sᶜ, c u v

/-- The net flow of a value from `s` to `t`. -/
def demand (s t : V) (value : ℤ) (u : V) : ℤ := (if u = s then value else 0) - if u = t then value else 0

omit [Fintype V] in
theorem sum_demand {value : ℤ} (hs : s ∈ S) (ht : t ∉ S) : ∑ u ∈ S, demand s t value u = value := by
  unfold demand
  rw [sum_sub_distrib, sum_ite_eq' S s, sum_ite_eq' S t, if_pos hs, if_neg ht, sub_zero]

omit [DecidableEq V] in
/-- Inside a set the net flow cancels. -/
theorem Residual.sum_inside (h : Residual c r b) (S : Finset V) :
    ∑ u ∈ S, ∑ v ∈ S, (c u v - r u v) = 0 := by
  have hanti : ∀ u v, c u v - r u v = -(c v u - r v u) := by
    intro u v
    have := h.pair u v
    omega
  have hself : ∑ u ∈ S, ∑ v ∈ S, (c u v - r u v) = -∑ u ∈ S, ∑ v ∈ S, (c u v - r u v) := by
    rw [← sum_neg_distrib]
    calc ∑ u ∈ S, ∑ v ∈ S, (c u v - r u v) = ∑ v ∈ S, ∑ u ∈ S, (c u v - r u v) := sum_comm
      _ = ∑ v ∈ S, -∑ u ∈ S, (c v u - r v u) := by
        apply sum_congr rfl
        intro v _
        rw [← sum_neg_distrib]
        exact sum_congr rfl fun u _ => hanti u v
  omega

theorem Residual.across (h : Residual c r b) (S : Finset V) : ∑ u ∈ S, b u + cut r S = cut c S := by
  have hsplit : ∀ u, b u = ∑ v ∈ S, (c u v - r u v) + ∑ v ∈ Sᶜ, (c u v - r u v) := by
    intro u
    rw [← h.net u, sum_add_sum_compl]
  have hout : ∑ u ∈ S, b u = ∑ u ∈ S, ∑ v ∈ Sᶜ, (c u v - r u v) := by
    rw [sum_congr rfl fun u _ => hsplit u, sum_add_distrib, h.sum_inside, zero_add]
  unfold cut
  rw [hout, ← sum_add_distrib]
  apply sum_congr rfl
  intro u _
  rw [← sum_add_distrib]
  exact sum_congr rfl fun v _ => sub_add_cancel _ _

section value

variable {value : ℤ} (h : Residual c r (demand s t value))

include h

theorem Residual.le_cut (hs : s ∈ S) (ht : t ∉ S) : value ≤ cut c S := by
  have hacross := h.across S
  have hnonneg : 0 ≤ cut r S := sum_nonneg fun u _ => sum_nonneg fun v _ => h.nonneg u v
  rw [sum_demand hs ht] at hacross
  omega

/-- Nothing is left over the cut, so that the value is its capacity. -/
theorem Residual.eq_cut (hs : s ∈ S) (ht : t ∉ S) (hfull : ∀ u ∈ S, ∀ v, v ∉ S → r u v = 0) :
    value = cut c S := by
  have hacross := h.across S
  have hzero : cut r S = 0 :=
    sum_eq_zero fun u hu => sum_eq_zero fun v hv => hfull u hu v (mem_compl.mp hv)
  rw [sum_demand hs ht] at hacross
  omega

theorem Residual.isLeast_cut (hs : s ∈ S) (ht : t ∉ S) (hfull : ∀ u ∈ S, ∀ v, v ∉ S → r u v = 0) :
    IsLeast {d | ∃ S : Finset V, s ∈ S ∧ t ∉ S ∧ d = cut c S} value := by
  refine ⟨⟨S, hs, ht, h.eq_cut hs ht hfull⟩, ?_⟩
  rintro d ⟨S', hs', ht', rfl⟩
  exact h.le_cut hs' ht'

end value

/-! ### Flows -/

/-- A feasible flow from `s` to `t`. -/
structure IsFlow (c : V → V → ℤ) (s t : V) (g : V → V → ℤ) (value : ℤ) : Prop where
  nonneg : ∀ u v, 0 ≤ g u v
  le : ∀ u v, g u v ≤ c u v
  conserved : ∀ u, u ≠ s → u ≠ t → ∑ v, g u v = ∑ v, g v u
  value : ∑ v, g s v - ∑ v, g v s = value

/-- What has been taken off the capacities is a flow. -/
theorem Residual.isFlow {value : ℤ} (h : Residual c r (demand s t value)) (hc : ∀ u v, 0 ≤ c u v)
    (hst : s ≠ t) : IsFlow c s t (fun u v => max (c u v - r u v) 0) value := by
  have hnet : ∀ u, ∑ v, max (c u v - r u v) 0 - ∑ v, max (c v u - r v u) 0 = demand s t value u := by
    intro u
    rw [← sum_sub_distrib, ← h.net u]
    apply sum_congr rfl
    intro v _
    have := h.pair u v
    omega
  refine ⟨fun u v => le_max_right _ _, fun u v => ?_, fun u hus hut => ?_, ?_⟩
  · have := h.nonneg u v
    have := hc u v
    omega
  · have := hnet u
    rw [demand, if_neg hus, if_neg hut] at this
    omega
  · rw [hnet s, demand, if_pos rfl, if_neg hst, sub_zero]

/-! ### Pushing along a path -/

/-- Capacity is moved from one direction of a pair to the other. -/
def push (r : V → V → ℤ) (f : ℤ) (u v : V) : V → V → ℤ := fun x y =>
  r x y - (if x = u ∧ y = v then f else 0) + if x = v ∧ y = u then f else 0

omit [Fintype V] in
theorem push_of_ne {f : ℤ} {x y : V} (h : ¬ (x = u ∧ y = v)) (h' : ¬ (x = v ∧ y = u)) :
    push r f u v x y = r x y := by
  rw [push, if_neg h, if_neg h', sub_zero, add_zero]

theorem Residual.push {f : ℤ} (h : Residual c r b) (huv : u ≠ v) (hf : 0 ≤ f) (hle : f ≤ r u v) :
    Residual c (push r f u v) fun x => b x + demand u v f x := by
  refine ⟨fun x y => ?_, fun x y => ?_, fun x => ?_⟩
  · have := h.nonneg x y
    unfold Flow.push
    by_cases hxy : x = u ∧ y = v
    · obtain ⟨rfl, rfl⟩ := hxy
      rw [if_pos ⟨rfl, rfl⟩]
      split_ifs <;> omega
    · rw [if_neg hxy]
      split_ifs <;> omega
  · have := h.pair x y
    unfold Flow.push
    simp only [and_comm (a := y = v), and_comm (a := y = u)]
    omega
  · have hrow : ∀ a d : V, ∑ y, (if x = a ∧ y = d then f else 0) = if x = a then f else 0 := by
      intro a d
      by_cases hx : x = a
      · simp [hx]
      · simp [hx]
    have hterm : ∀ y, c x y - Flow.push r f u v x y =
        c x y - r x y + (if x = u ∧ y = v then f else 0) - if x = v ∧ y = u then f else 0 := by
      intro y
      unfold Flow.push
      ring
    rw [sum_congr rfl fun y _ => hterm y, sum_sub_distrib, sum_add_distrib, h.net, hrow, hrow, demand]
    ring

/-- The pairs from the parents back to `s`, with the depths of the vertices. -/
inductive Up (parent : V → Option V) (depth : V → ℕ) (s : V) : V → List (V × V) → Prop
  | root : Up parent depth s s []
  | step {u v : V} {es : List (V × V)} (hv : v ≠ s) (hp : parent v = some u) (hd : depth u < depth v)
      (h : Up parent depth s u es) : Up parent depth s v ((u, v) :: es)

variable {parent : V → Option V} {depth : V → ℕ} {es : List (V × V)}

omit [Fintype V] [DecidableEq V] in
theorem Up.depth_le (h : Up parent depth s v es) :
    ∀ e ∈ es, depth e.1 < depth e.2 ∧ depth e.2 ≤ depth v := by
  induction h with
  | root => simp
  | @step u v es hv hp hd h ih =>
    exact List.forall_mem_cons.mpr ⟨⟨hd, le_rfl⟩, fun e he => ⟨(ih e he).1, (ih e he).2.trans hd.le⟩⟩

/-- All pairs of a path are pushed. -/
def pushAll (r : V → V → ℤ) (f : ℤ) (es : List (V × V)) : V → V → ℤ := es.foldl (fun r e => push r f e.1 e.2) r

theorem Residual.pushAll {f : ℤ} (hf : 0 ≤ f) (hup : Up parent depth s v es) :
    ∀ {r : V → V → ℤ} {b : V → ℤ}, Residual c r b → (∀ e ∈ es, f ≤ r e.1 e.2) →
    Residual c (pushAll r f es) fun x => b x + demand s v f x := by
  induction hup with
  | root =>
    intro r b h _
    have hzero : (fun x => b x + demand s s f x) = b := by
      funext x
      rw [demand, sub_self, add_zero]
    rw [hzero]
    exact h
  | @step u v es hv hp hd hup ih =>
    intro r b h hle
    have huv : u ≠ v := by
      rintro rfl
      exact absurd hd (lt_irrefl _)
    have hpush := h.push huv hf (hle (u, v) List.mem_cons_self)
    -- the pairs that come later are nearer to `s`
    have hrest : ∀ e ∈ es, f ≤ Flow.push r f u v e.1 e.2 := by
      intro e he
      obtain ⟨hlt, hle'⟩ := hup.depth_le e he
      rw [push_of_ne]
      · exact hle e (List.mem_cons_of_mem _ he)
      · rintro ⟨_, hev⟩
        rw [hev] at hle'
        omega
      · rintro ⟨heu, hev⟩
        rw [heu, hev] at hlt
        omega
    have hall := ih hpush hrest
    have hsum : (fun x => b x + demand u v f x + demand s u f x) = fun x => b x + demand s v f x := by
      funext x
      unfold demand
      ring
    rw [hsum] at hall
    exact hall

section pushed

variable {f : ℤ} {x y : V} (hf : 0 ≤ f)
include hf

omit [Fintype V] in
theorem le_push (h : (x, y) ≠ (u, v)) (r : V → V → ℤ) : r x y ≤ push r f u v x y := by
  rw [push, if_neg fun hxy => h (Prod.ext hxy.1 hxy.2)]
  split_ifs <;> omega

omit [Fintype V] in
theorem le_pushAll : ∀ {es : List (V × V)} (r : V → V → ℤ), (x, y) ∉ es → r x y ≤ pushAll r f es x y
  | [], _, _ => le_rfl
  | e :: es, r, h => by
    rw [List.mem_cons, not_or] at h
    exact (le_push hf h.1 r).trans (le_pushAll _ h.2)

omit [Fintype V] in
theorem Up.sub_le_pushAll (hup : Up parent depth s v es) (r : V → V → ℤ) :
    r x y - f ≤ pushAll r f es x y := by
  induction hup generalizing r with
  | root => exact sub_le_self _ hf
  | @step u v es hv hp hd hup ih =>
    by_cases hxy : (x, y) = (u, v)
    · have hlater : (x, y) ∉ es := by
        intro hmem
        have hle := (hup.depth_le _ hmem).2
        rw [hxy] at hle
        exact absurd hd (not_lt.mpr hle)
      have hpush : r x y - f ≤ push r f u v x y := by
        rw [push]
        split_ifs <;> omega
      exact hpush.trans (le_pushAll hf (push r f u v) hlater)
    · exact (sub_le_sub_right (le_push hf hxy r) f).trans (ih _)

end pushed

omit [Fintype V] in
theorem demand_add {value f : ℤ} :
    (fun x => demand s t value x + demand s t f x) = demand s t (value + f) := by
  funext x
  unfold demand
  split_ifs <;> ring

end Code365.Flow
