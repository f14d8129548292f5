import Code365.Algorithms.FordFulkerson
import Code365.Lib.StrongComponents

/-! # `minimum_cut.py`: the saturated edges

`mincut` runs the loop of `ford_fulkerson.py`, with a copy of the capacities, and returns the edges
that have no residual capacity left.  Without these edges the sink cannot be reached.  The edges of
every least cut are among them; but an edge may have been saturated anywhere on the way, and then
the capacities add up to more than the maximum flow.  Which other edges are saturated depends on the
flow that the searches happen to find.  None is if the other edges have more capacity than the cut,
and some are if there are least cuts with different edges (`mincut_minimum`). -/

namespace Code365.Algorithms.MinimumCut

open Finset Code365.Flow FordFulkerson

variable {n : ℕ}

/-- The loops at the end of `mincut`. -/
def saturated (temp graph : Fin n → Fin n → ℤ) : List (Fin n × Fin n) :=
  (List.finRange n).flatMap fun i =>
    ((List.finRange n).filter fun j => graph i j = 0 ∧ temp i j > 0).map fun j => (i, j)

def mincut (fuel : ℕ) (graph : Fin n → Fin n → ℤ) (source sink : Fin n) : Option (List (Fin n × Fin n)) := do
  let (_, residual) ← flowLoop source sink fuel graph (fun _ => none) 0
  some (saturated graph residual)

variable {graph r : Fin n → Fin n → ℤ} {source sink : Fin n}

theorem mem_saturated {i j : Fin n} : (i, j) ∈ saturated graph r ↔ r i j = 0 ∧ 0 < graph i j := by
  simp [saturated]

theorem sum_saturated (graph r : Fin n → Fin n → ℤ) : ((saturated graph r).map fun e =>
    graph e.1 e.2).sum = ∑ i, ∑ j, if r i j = 0 ∧ 0 < graph i j then graph i j else 0 := by
  have hrows : ∀ l : List (Fin n), ((l.flatMap fun i =>
      ((List.finRange n).filter fun j => r i j = 0 ∧ graph i j > 0).map fun j =>
        (i, j)).map fun e => graph e.1 e.2).sum =
        (l.map fun i => ∑ j, if r i j = 0 ∧ 0 < graph i j then graph i j else 0).sum := by
    intro l
    induction l with
    | nil => rfl
    | cons i l ih =>
      rw [List.flatMap_cons, List.map_append, List.sum_append, ih, List.map_cons, List.sum_cons,
        Fin.sum_univ_def, List.sum_map_ite, List.map_map]
      simp [Function.comp_def]
  rw [saturated, hrows, Fin.sum_univ_def]

/-- Without the edges of `res` the sink cannot be reached. -/
def Separates (graph : Fin n → Fin n → ℤ) (res : List (Fin n × Fin n)) (source sink : Fin n) : Prop :=
  ¬ Relation.ReflTransGen (fun u v => 0 < graph u v ∧ (u, v) ∉ res) source sink

theorem separates_saturated {S : Finset (Fin n)} (hsource : source ∈ S) (hsink : sink ∉ S)
    (hfull : ∀ u ∈ S, ∀ v, v ∉ S → r u v = 0) :
    Separates graph (saturated graph r) source sink := by
  refine fun h => hsink (of_reaches ?_ hsource h)
  rintro u hu v ⟨hpos, hnot⟩
  by_contra hv
  exact hnot (mem_saturated.mpr ⟨hfull u hu v hv, hpos⟩)

theorem cut_eq_sum (graph : Fin n → Fin n → ℤ) (S : Finset (Fin n)) :
    cut graph S = ∑ i, ∑ j, if i ∈ S ∧ j ∉ S then graph i j else 0 := by
  have hrow : ∀ i, (∑ j, if i ∈ S ∧ j ∉ S then graph i j else 0) = if i ∈
      S then ∑ j ∈ Sᶜ, graph i j else 0 := by
    intro i
    by_cases hi : i ∈ S
    · simp only [hi, true_and, if_true, ← mem_compl]
      rw [sum_ite_mem, univ_inter]
    · simp [hi]
  simp only [hrow]
  rw [sum_ite_mem, univ_inter, cut]

/-- A set that no residual capacity leads out of: the capacities of the saturated edges are those of
its cut and of the other saturated edges. -/
theorem sum_saturated_eq_add (hgraph : ∀ u v, 0 ≤ graph u v) {S : Finset (Fin n)}
    (hfull : ∀ u ∈ S, ∀ v, v ∉ S → r u v = 0) :
    ((saturated graph r).map fun e => graph e.1 e.2).sum = cut graph S + ∑ i, ∑ j,
    if (r i j = 0 ∧ 0 < graph i j) ∧ ¬ (i ∈ S ∧ j ∉ S) then graph i j else 0 := by
  rw [sum_saturated, cut_eq_sum, ← sum_add_distrib]
  apply sum_congr rfl
  intro i _
  rw [← sum_add_distrib]
  apply sum_congr rfl
  intro j _
  by_cases hS : i ∈ S ∧ j ∉ S
  · have hnonneg := hgraph i j
    have hzero := hfull i hS.1 j hS.2
    have hother : ¬ ((r i j = 0 ∧ 0 < graph i j) ∧ ¬ (i ∈ S ∧ j ∉ S)) := fun h => h.2 hS
    rw [if_pos hS, if_neg hother, add_zero]
    split_ifs with hsat
    · rfl
    · by_contra hne
      exact hsat ⟨hzero, lt_of_le_of_ne hnonneg hne⟩
  · simp only [hS, not_false_eq_true, and_true, if_false, zero_add]

theorem sum_saturated_eq_cut_iff (hgraph : ∀ u v, 0 ≤ graph u v) {S : Finset (Fin n)}
    (hfull : ∀ u ∈ S, ∀ v, v ∉ S → r u v = 0) : ((saturated graph r).map fun e =>
    graph e.1 e.2).sum = cut graph S ↔ ∀ i j, r i j = 0 → 0 < graph i j → i ∈ S ∧ j ∉ S := by
  have hcell : ∀ i j, 0 ≤ if (r i j = 0 ∧ 0 < graph i j) ∧ ¬ (i ∈ S ∧ j ∉ S) then graph i j else 0 := by
    intro i j
    split_ifs
    · exact hgraph i j
    · exact le_rfl
  rw [sum_saturated_eq_add hgraph hfull, add_eq_left, sum_eq_zero_iff_of_nonneg fun i _ =>
    sum_nonneg fun j _ => hcell i j]
  constructor
  · intro h i j hr hpos
    by_contra hnot
    have hrow := (sum_eq_zero_iff_of_nonneg fun j _ => hcell i j).mp (h i (mem_univ i)) j (mem_univ j)
    rw [if_pos ⟨⟨hr, hpos⟩, hnot⟩] at hrow
    omega
  · intro h i _
    exact sum_eq_zero fun j _ => if_neg fun hij => hij.2 (h i j hij.1.1 hij.1.2)

/-- A cut of least capacity. -/
structure LeastCut (graph : Fin n → Fin n → ℤ) (source sink : Fin n) (S : Finset (Fin n)) : Prop where
  source_mem : source ∈ S
  sink_notMem : sink ∉ S
  least : ∀ T : Finset (Fin n), source ∈ T → sink ∉ T → cut graph S ≤ cut graph T

/-- Every edge that does not lead out of `S` has more capacity than all those that do. -/
def Wide (graph : Fin n → Fin n → ℤ) (S : Finset (Fin n)) : Prop :=
  ∀ i j, 0 < graph i j → ¬ (i ∈ S ∧ j ∉ S) → cut graph S < graph i j

section least

variable {value : ℤ} {S : Finset (Fin n)} (h : Residual graph r (demand source sink value))
  (hS : LeastCut graph source sink S)
  (hvalue : IsLeast {d | ∃ S : Finset (Fin n), source ∈ S ∧ sink ∉ S ∧ d = cut graph S} value)
include hS hvalue

theorem LeastCut.cut_eq : cut graph S = value := by
  obtain ⟨T, hsource, hsink, hT⟩ := hvalue.1
  exact le_antisymm (hT ▸ hS.least T hsource hsink) (hvalue.2 ⟨S, hS.source_mem, hS.sink_notMem, rfl⟩)

include h

/-- A maximum flow saturates every least cut. -/
theorem LeastCut.full : ∀ u ∈ S, ∀ v, v ∉ S → r u v = 0 := by
  have hacross := h.across S
  rw [sum_demand hS.source_mem hS.sink_notMem, hS.cut_eq hvalue, add_eq_left, cut,
    sum_eq_zero_iff_of_nonneg fun u _ => sum_nonneg fun v _ => h.nonneg u v] at hacross
  intro u hu v hv
  exact (sum_eq_zero_iff_of_nonneg fun v _ => h.nonneg u v).mp (hacross u hu) v (mem_compl.mpr hv)

theorem LeastCut.sum_saturated_iff (hgraph : ∀ u v, 0 ≤ graph u v) :
    ((saturated graph r).map fun e => graph e.1 e.2).sum = value ↔ ∀ i j, r i j = 0 →
    0 < graph i j → i ∈ S ∧ j ∉ S := by
  rw [← hS.cut_eq hvalue]
  exact sum_saturated_eq_cut_iff hgraph (hS.full h hvalue)

end least

/-- The edges always separate the sink.  Their capacities add up to the maximum flow if every edge
outside of some least cut has more capacity than the cut, and only if all least cuts have the same
edges. -/
theorem mincut_minimum (n : ℕ) (graph : Fin n → Fin n → ℤ) (hgraph : ∀ u v, 0 ≤ graph u v)
    (source sink : Fin n) (hne : source ≠ sink) (fuel : ℕ) (hfuel : ∑ v, graph source v < fuel) :
    ∃ value res, mincut fuel graph source sink = some res ∧
      (∃ g, IsFlow graph source sink g value) ∧ IsLeast {d | ∃ S : Finset (Fin n), source ∈ S ∧
      sink ∉ S ∧ d = cut graph S} value ∧ Separates graph res source sink ∧
      ((∃ S, LeastCut graph source sink S ∧ Wide graph S) → (res.map fun e => graph e.1 e.2).sum =
      value) ∧ ((res.map fun e => graph e.1 e.2).sum = value → ∀ S T, LeastCut graph source sink S →
      LeastCut graph source sink T → ∀ i j, 0 < graph i j → i ∈ S ∧ j ∉ S → i ∈ T ∧ j ∉ T) := by
  obtain ⟨value, r, hrun, h, hlost, S, hsource, hsink, hclosed⟩ := flowLoop_start hgraph hne hfuel
  have hfull := eq_zero_of_closed h.nonneg hclosed
  have hvalue := h.isLeast_cut hsource hsink hfull
  refine ⟨value, saturated graph r, by rw [mincut, hrun]; rfl, ⟨_, h.isFlow hgraph hne⟩, hvalue,
    separates_saturated hsource hsink hfull, ?_, ?_⟩
  · rintro ⟨S, hS, hwide⟩
    rw [hS.sum_saturated_iff h hvalue hgraph]
    intro i j hzero hpos
    by_contra hnot
    have hlt := hwide i j hpos hnot
    have := hlost i j
    rw [hS.cut_eq hvalue] at hlt
    omega
  · intro hsum S T hS hT i j hpos hij
    exact (hT.sum_saturated_iff h hvalue hgraph).mp hsum i j (hS.full h hvalue i hij.1 j hij.2) hpos

theorem mincut_minimum_diamond : mincut 4 diamond 0 3 = some [(0, 1), (0, 2)] ∧
    ∃ value res, mincut 4 diamond 0 3 = some res ∧ (res.map fun e => diamond e.1 e.2).sum = value ∧
      IsLeast {d | ∃ S : Finset (Fin 4), 0 ∈ S ∧ 3 ∉ S ∧ d = cut diamond S} value := by
  obtain ⟨value, res, hrun, _, hleast, _, hsum, _⟩ :=
    mincut_minimum 4 diamond (by decide) 0 3 (by decide) 4 (by decide)
  refine ⟨by decide, value, res, hrun, hsum ⟨{0}, ⟨by decide, by decide, by decide⟩, ?_⟩, hleast⟩
  unfold Wide
  decide

/-- A path of two edges with the same capacity. -/
def twoEdges : Fin 3 → Fin 3 → ℤ := fun i j => if j.val = i.val + 1 then 1 else 0

/-- Both edges of the path are returned; the maximum flow is 1. -/
theorem mincut_twoEdges :
    mincut 2 twoEdges 0 2 = some [(0, 1), (1, 2)] ∧ fordFulkerson 2 twoEdges 0 2 = some 1 ∧
      ([(0, 1), (1, 2)].map fun e : Fin 3 × Fin 3 => twoEdges e.1 e.2).sum = 2 := ⟨rfl, rfl, rfl⟩

end Code365.Algorithms.MinimumCut
