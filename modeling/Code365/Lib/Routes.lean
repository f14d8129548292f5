import Mathlib

/-! # Weighted routes

A weighted graph is the relation `E u v w` of an edge from `u` to `v` of weight `w`.  A route is
kept with the weight at each of its vertices, the last one first.

A table of distances that no edge can lower is a lower bound for the weights of all routes
(`Relaxed.le_of_mem`).  A route on which each return to a vertex has a smaller weight than before
visits each vertex once, or shows a cycle of negative weight (`Route.nodup_or_negativeCycle`).  For
weights that are not negative, a route leaves a set of vertices with exact distances through a
vertex whose value is no greater (`Frontier.exists_le`). -/

namespace Code365.Routes

variable {V M : Type*} [AddCommGroup M] {E : V → V → M → Prop} {s u v : V} {d w : M} {l p : List (V × M)}

/-- The vertices of a route from `s` with the weights so far, in reverse order. -/
inductive Route (E : V → V → M → Prop) (s : V) : List (V × M) → Prop
  | start : Route E s [(s, 0)]
  | step {u v : V} {d w : M} {l : List (V × M)} (h : Route E s ((u, d) :: l)) (he : E u v w) :
      Route E s ((v, d + w) :: (u, d) :: l)

def Weights (E : V → V → M → Prop) (s v : V) : Set M := {d | ∃ l, Route E s ((v, d) :: l)}

def Reachable (E : V → V → M → Prop) (s v : V) : Prop := ∃ d, d ∈ Weights E s v

theorem mem_weights_step (hd : d ∈ Weights E s u) (he : E u v w) : d + w ∈ Weights E s v := by
  obtain ⟨l, hl⟩ := hd
  exact ⟨_, hl.step he⟩

theorem weights_induction {P : V → M → Prop} (hstart : P s 0) (hstep : ∀ {u v d w}, d ∈
    Weights E s u → P u d → E u v w → P v (d + w)) (hd : d ∈ Weights E s v) : P v d := by
  have key : ∀ {p : List (V × M)}, Route E s p → ∀ {v d l}, p = (v, d) :: l → P v d := by
    intro p hp
    induction hp with
    | start =>
      rintro v d l h
      cases h
      exact hstart
    | step h he ih =>
      rintro v d l h'
      cases h'
      exact hstep ⟨_, h⟩ (ih rfl) he
  obtain ⟨l, hl⟩ := hd
  exact key hl rfl

/-- A route goes through each of its vertices, and on from there. -/
theorem Route.of_mem {x : V} {d' : M} (h : Route E s ((v, d) :: l)) (hx : (x, d') ∈ (v, d) :: l) :
    d' ∈ Weights E s x ∧ d - d' ∈ Weights E x v := by
  generalize hp : (v, d) :: l = p at h
  induction h generalizing v d l with
  | start =>
    cases hp
    cases List.mem_singleton.mp hx
    exact ⟨⟨[], .start⟩, [], by rw [sub_self]; exact .start⟩
  | @step u v1 d1 w l1 h he ih =>
    cases hp
    rcases List.mem_cons.mp hx with hx | hx
    · cases hx
      exact ⟨⟨_, h.step he⟩, [], by rw [sub_self]; exact .start⟩
    · obtain ⟨hs, hrest⟩ := ih hx rfl
      refine ⟨hs, ?_⟩
      have hnext := mem_weights_step hrest he
      rwa [show d1 - d' + w = d1 + w - d' by abel] at hnext

variable [LinearOrder M] [IsOrderedAddMonoid M]

theorem weights_nonneg (hnonneg : ∀ {u v w}, E u v w → 0 ≤ w) (hd : d ∈ Weights E s v) : 0 ≤ d :=
  weights_induction (P := fun _ d => 0 ≤ d) le_rfl (fun _ hd he => add_nonneg hd (hnonneg he)) hd

/-! ### Cycles -/

/-- Each return to a vertex has a smaller weight. -/
def Descending (p : List (V × M)) : Prop := p.Pairwise fun a b => a.1 = b.1 → a.2 < b.2

/-- A cycle of negative weight can be reached. -/
def NegativeCycle (E : V → V → M → Prop) (s : V) : Prop := ∃ c, Reachable E s c ∧ ∃ d ∈ Weights E c c, d < 0

theorem Route.nodup_or_negativeCycle (h : Route E s p) (hp : Descending p) :
    (p.map Prod.fst).Nodup ∨ NegativeCycle E s := by
  induction h with
  | start => exact .inl (by simp)
  | @step u v d w l h he ih =>
    obtain ⟨hlast, hrest⟩ := List.pairwise_cons.mp hp
    rcases ih hrest with hnodup | hcycle
    · by_cases hv : v ∈ ((u, d) :: l).map Prod.fst
      · obtain ⟨⟨x, d'⟩, hx, rfl⟩ := List.mem_map.mp hv
        obtain ⟨hs, hcycle⟩ := (h.step he).of_mem (List.mem_cons_of_mem _ hx)
        exact .inr ⟨x, ⟨d', hs⟩, _, hcycle, sub_neg.mpr (hlast _ hx rfl)⟩
      · exact .inl (List.nodup_cons.mpr ⟨hv, hnodup⟩)
    · exact .inr hcycle

/-! ### Tables of distances -/

/-- The table has the least weights, and `top` for the vertices that cannot be reached. -/
def Distances (E : V → V → M → Prop) (s : V) (top : M) (dist : V → M) : Prop :=
  ∀ v, (Reachable E s v → IsLeast (Weights E s v) (dist v)) ∧ (dist v = top ↔ ¬ Reachable E s v)

omit [IsOrderedAddMonoid M] in
theorem distances_of {top : M} {dist : V → M} (hmem : ∀ v, dist v ≠ top → dist v ∈ Weights E s v)
    (hle : ∀ v, ∀ d ∈ Weights E s v, dist v ≠ top ∧ dist v ≤ d) : Distances E s top dist := by
  refine fun v => ⟨?_, ?_, ?_⟩
  · rintro ⟨d, hd⟩
    exact ⟨hmem v (hle v d hd).1, fun d' hd' => (hle v d' hd').2⟩
  · rintro hv ⟨d, hd⟩
    exact (hle v d hd).1 hv
  · intro hv
    by_contra hne
    exact hv ⟨_, hmem v hne⟩

/-- No edge can lower the value of a vertex of `R`. -/
structure Relaxed (E : V → V → M → Prop) (R : V → Prop) (dist : V → M) : Prop where
  closed : ∀ {u v w}, R u → E u v w → R v
  le : ∀ {u v w}, R u → E u v w → dist v ≤ dist u + w

variable {R : V → Prop} {dist : V → M}

theorem Relaxed.le_of_mem (h : Relaxed E R dist) {x : V} (hx : R x) (hd : d ∈ Weights E x v) :
    R v ∧ dist v ≤ dist x + d := by
  refine weights_induction (P := fun v d => R v ∧ dist v ≤ dist x + d) ⟨hx, by rw [add_zero]⟩ ?_ hd
  rintro u v d w _ ⟨hu, hle⟩ he
  refine ⟨h.closed hu he, (h.le hu he).trans ?_⟩
  rw [← add_assoc]
  exact add_le_add_left hle w

theorem Relaxed.not_negativeCycle (h : Relaxed E R dist) (hs : R s) : ¬ NegativeCycle E s := by
  rintro ⟨c, ⟨d, hd⟩, d', hd', hneg⟩
  have hle := (h.le_of_mem (h.le_of_mem hs hd).1 hd').2
  exact absurd (le_add_iff_nonneg_right _ |>.mp hle) (not_le.mpr hneg)

/-- Settled vertices have exact values; the edges out of them have been used. -/
structure Frontier (E : V → V → M → Prop) (s : V) (S R : V → Prop) (dist : V → M) : Prop where
  start : R s ∧ dist s ≤ 0
  settled : ∀ {v}, S v → ∀ d ∈ Weights E s v, dist v ≤ d
  relaxed : ∀ {u v w}, S u → ¬ S v → E u v w → R v ∧ dist v ≤ dist u + w

theorem Frontier.exists_le {S : V → Prop} (h : Frontier E s S R dist)
    (hnonneg : ∀ {u v w}, E u v w → 0 ≤ w) (hd : d ∈ Weights E s v) :
    S v ∨ ∃ y, ¬ S y ∧ R y ∧ dist y ≤ d := by
  refine weights_induction (P := fun v d => S v ∨ ∃ y, ¬ S y ∧ R y ∧ dist y ≤ d) ?_ ?_ hd
  · by_cases hs : S s
    · exact .inl hs
    · exact .inr ⟨s, hs, h.start⟩
  · rintro u v d w hd (hu | ⟨y, hy, hR, hle⟩) he
    · by_cases hv : S v
      · exact .inl hv
      · obtain ⟨hR, hle⟩ := h.relaxed hu hv he
        exact .inr ⟨v, hv, hR, hle.trans (add_le_add_left (h.settled hu d hd) w)⟩
    · exact .inr ⟨y, hy, hR, hle.trans (le_add_of_nonneg_right (hnonneg he))⟩

end Code365.Routes
