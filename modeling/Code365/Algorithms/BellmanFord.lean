import Code365.Lib.CInt
import Code365.Lib.Routes

/-! # `Bellman-Ford.c`: distances and negative cycles from a list of edges

The rounds change `dist` in place, so that after `k` of them a value may belong to a route of more
than `k` edges.  It is bounded from both sides: no value is above the weight of a route of at most
`k` edges with weights below `INT_MAX` (`Bound`), and each value is the weight of such a route on
which every return to a vertex has a smaller weight than before (`Inv`).

A sum that is not in the range of `int` is undefined; `SumsFit` follows the loops and says that no
such sum is formed, and then they do what they would do with unbounded numbers (`rounds_eq`,
`checkLoop_eq`).  `INT_MAX` stands for a vertex that has not been reached, so a vertex has to be
reached along smaller weights (`SeenBelow`). -/

namespace Code365.Algorithms.BellmanFord

open List CInt Routes

variable {V : ℕ}

structure Edge (V : ℕ) where
  src : Fin V
  dst : Fin V
  weight : ℤ
deriving DecidableEq, Repr

/-- `edgeNum` is the length of the list. -/
structure Graph (vertexNum : ℕ) where
  edges : List (Edge vertexNum)

inductive Report (V : ℕ)
  | negativeCycle
  | distances (dist : Fin V → ℤ)

/-- The body of the inner loop; `none` is an undefined sum. -/
def relax (dist : Fin V → ℤ) (e : Edge V) : Option (Fin V → ℤ) :=
  if dist e.src ≠ INT_MAX then do
    let d ← add (dist e.src) e.weight
    some (if d < dist e.dst then Function.update dist e.dst d else dist)
  else some dist

/-- The outer loop, with the number of rounds that are left. -/
def rounds (graph : Graph V) : ℕ → (Fin V → ℤ) → Option (Fin V → ℤ)
  | 0, dist => some dist
  | n + 1, dist => do
    let dist ← graph.edges.foldlM relax dist
    rounds graph n dist

/-- The loop that looks for an edge that can still be relaxed. -/
def checkLoop (dist : Fin V → ℤ) : List (Edge V) → Option Bool
  | [] => some false
  | e :: l =>
    if dist e.src ≠ INT_MAX then do
      let d ← add (dist e.src) e.weight
      if d < dist e.dst then some true else checkLoop dist l
    else checkLoop dist l

def init (src : Fin V) : Fin V → ℤ := Function.update (fun _ => INT_MAX) src 0

def bellmanFord (graph : Graph V) (src : Fin V) : Option (Report V) := do
  let dist ← rounds graph V (init src)
  let found ← checkLoop dist graph.edges
  some (if found then .negativeCycle else .distances dist)

/-! ### Values and routes -/

/-- The graph as a relation. -/
def IsEdge (graph : Graph V) (u v : Fin V) (w : ℤ) : Prop := ⟨u, v, w⟩ ∈ graph.edges

def CanRelax (dist : Fin V → ℤ) (e : Edge V) : Prop :=
  dist e.src ≠ INT_MAX ∧ dist e.src + e.weight < dist e.dst

instance (dist : Fin V → ℤ) : DecidablePred (CanRelax dist) := fun _ => inferInstanceAs (Decidable (_ ∧ _))

/-- `relax` with unbounded numbers. -/
def lower (dist : Fin V → ℤ) (e : Edge V) : Fin V → ℤ :=
  if CanRelax dist e then Function.update dist e.dst (dist e.src + e.weight) else dist

/-- The sum that is formed for an edge, if one is, is in the range of `int`. -/
def FitsAt (dist : Fin V → ℤ) (e : Edge V) : Prop :=
  dist e.src ≠ INT_MAX → INT_MIN ≤ dist e.src + e.weight ∧ dist e.src + e.weight ≤ INT_MAX

def RoundFits : (Fin V → ℤ) → List (Edge V) → Prop
  | _, [] => True
  | dist, e :: l => FitsAt dist e ∧ RoundFits (lower dist e) l

/-- The sums of the check, which ends at the first edge that can be relaxed. -/
def CheckFits (dist : Fin V → ℤ) : List (Edge V) → Prop
  | [] => True
  | e :: l => FitsAt dist e ∧ (¬ CanRelax dist e → CheckFits dist l)

/-- The sums of `n` rounds and of the check after them. -/
def LoopsFit (graph : Graph V) : ℕ → (Fin V → ℤ) → Prop
  | 0, dist => CheckFits dist graph.edges
  | n + 1, dist => RoundFits dist graph.edges ∧ LoopsFit graph n (graph.edges.foldl lower dist)

/-- Every sum that the program forms is in the range of `int`. -/
def SumsFit (graph : Graph V) (src : Fin V) : Prop := LoopsFit graph V (init src)

/-- All weights on the way are below `INT_MAX`. -/
def Below (p : List (Fin V × ℤ)) : Prop := ∀ x ∈ p, x.2 < INT_MAX

/-- A vertex that can be reached can be reached along weights below `INT_MAX`. -/
def SeenBelow (graph : Graph V) (src : Fin V) : Prop :=
  ∀ v, Reachable (IsEdge graph) src v → ∃ d l, Route (IsEdge graph) src ((v, d) :: l) ∧ Below ((v, d) :: l)

variable {graph : Graph V} {src : Fin V} {n : ℕ} {dist dist' : Fin V → ℤ} {e : Edge V}
  {l : List (Edge V)}

theorem add_of_fitsAt (hu : dist e.src ≠ INT_MAX) (h : FitsAt dist e) :
    add (dist e.src) e.weight = some (dist e.src + e.weight) := add_of_range (h hu).1 (h hu).2

theorem relax_eq (h : FitsAt dist e) : relax dist e = some (lower dist e) := by
  unfold relax lower CanRelax
  by_cases hu : dist e.src = INT_MAX
  · simp [hu]
  · simp [hu, add_of_fitsAt hu h]

theorem foldlM_relax (h : RoundFits dist l) : l.foldlM relax dist = some (l.foldl lower dist) := by
  induction l generalizing dist with
  | nil => rfl
  | cons e l ih =>
    rw [foldlM_cons, relax_eq h.1]
    exact ih h.2

theorem checkLoop_eq (h : CheckFits dist l) :
    checkLoop dist l = some (l.any fun e => CanRelax dist e) := by
  induction l with
  | nil => rfl
  | cons e l ih =>
    rw [checkLoop, any_cons]
    by_cases hu : dist e.src = INT_MAX
    · have hno : ¬ CanRelax dist e := fun hcan => hcan.1 hu
      rw [if_neg (not_not.mpr hu), ih (h.2 hno), decide_eq_false hno, Bool.false_or]
    · rw [if_pos hu, add_of_fitsAt hu h.1]
      by_cases hcan : CanRelax dist e
      · simp [hcan, hcan.2]
      · have hle : ¬ dist e.src + e.weight < dist e.dst := fun hlt => hcan ⟨hu, hlt⟩
        simp [hcan, hle, ih (h.2 hcan)]

def values (graph : Graph V) (dist : Fin V → ℤ) (n : ℕ) : Fin V → ℤ := (graph.edges.foldl lower)^[n] dist

theorem rounds_eq (h : LoopsFit graph n dist) : rounds graph n dist = some (values graph dist n) ∧
    CheckFits (values graph dist n) graph.edges := by
  induction n generalizing dist with
  | zero => exact ⟨rfl, h⟩
  | succ n ih =>
    rw [rounds, foldlM_relax h.1]
    exact ih h.2

/-- The values belong to routes. -/
structure Inv (graph : Graph V) (src : Fin V) (dist : Fin V → ℤ) : Prop where
  start : dist src ≤ 0
  le : ∀ v, dist v ≤ INT_MAX
  route : ∀ v, dist v ≠ INT_MAX → ∃ l, Route (IsEdge graph) src ((v, dist v) :: l) ∧
    Descending ((v, dist v) :: l) ∧ Below ((v, dist v) :: l) ∧ ∀ x ∈ l, dist x.1 ≤ x.2

theorem init_apply (src v : Fin V) :
    init src v = if v = src then 0 else INT_MAX := Function.update_apply _ _ _ _

theorem inv_init (graph : Graph V) (src : Fin V) : Inv graph src (init src) := by
  have hsrc : init src src = 0 := by rw [init_apply, if_pos rfl]
  refine ⟨hsrc.le, fun v => ?_, fun v hv => ?_⟩
  · rw [init_apply]
    split_ifs
    · decide
    · exact le_rfl
  · obtain rfl : v = src := by
      by_contra hne
      exact hv (by rw [init_apply, if_neg hne])
    rw [hsrc]
    exact ⟨[], .start, pairwise_singleton _ _, by simp [Below, INT_MAX], by simp⟩

/-! ### The rounds -/

/-- What relaxing the edges of `l` does to the values. -/
structure Lowered (l : List (Edge V)) (dist dist' : Fin V → ℤ) : Prop where
  le : ∀ v, dist' v ≤ dist v
  relaxed : ∀ e ∈ l, dist e.src ≠ INT_MAX → dist' e.dst ≤ dist e.src + e.weight

theorem lowered_lower (dist : Fin V → ℤ) (e : Edge V) : Lowered [e] dist (lower dist e) := by
  unfold lower
  by_cases hcan : CanRelax dist e
  · rw [if_pos hcan]
    refine ⟨update_le_self_iff.mpr hcan.2.le, fun e' he' _ => ?_⟩
    rw [mem_singleton.mp he', Function.update_self]
  · rw [if_neg hcan]
    refine ⟨fun v => le_rfl, fun e' he' hu => ?_⟩
    rw [mem_singleton.mp he'] at hu ⊢
    exact not_lt.mp fun hlt => hcan ⟨hu, hlt⟩

namespace Inv

variable (h : Inv graph src dist)
include h

/-- An edge that can be relaxed continues the route of its source. -/
theorem route_step (he : e ∈ graph.edges) (hcan : CanRelax dist e) :
    ∃ l, Route (IsEdge graph) src ((e.dst, dist e.src + e.weight) :: (e.src, dist e.src) :: l) ∧
    Descending ((e.dst, dist e.src + e.weight) :: (e.src, dist e.src) :: l) ∧
    Below ((e.dst, dist e.src + e.weight) :: (e.src, dist e.src) :: l) ∧
    ∀ x ∈ (e.src, dist e.src) :: l, dist x.1 ≤ x.2 := by
  obtain ⟨hu, hlt⟩ := hcan
  obtain ⟨l, hroute, hdesc, hbelow, hle⟩ := h.route e.src hu
  have hle' : ∀ x ∈ (e.src, dist e.src) :: l, dist x.1 ≤ x.2 := forall_mem_cons.mpr ⟨le_rfl, hle⟩
  refine ⟨l, hroute.step he, pairwise_cons.mpr ⟨fun x hx hvx => ?_, hdesc⟩,
    forall_mem_cons.mpr ⟨hlt.trans_le (h.le _), hbelow⟩, hle'⟩
  apply lt_of_lt_of_le hlt
  rw [show e.dst = x.1 from hvx]
  exact hle' x hx

theorem lower {e : Edge V} (he : e ∈ graph.edges) : Inv graph src (lower dist e) := by
  have hle := (lowered_lower dist e).le
  by_cases hcan : CanRelax dist e
  · refine ⟨(hle src).trans h.start, fun x => (hle x).trans (h.le x), fun x hx => ?_⟩
    by_cases hxv : x = e.dst
    · subst hxv
      obtain ⟨l, hroute, hdesc, hbelow, hl⟩ := h.route_step he hcan
      have hval : BellmanFord.lower dist e e.dst = dist e.src + e.weight := by
        rw [BellmanFord.lower, if_pos hcan, Function.update_self]
      rw [hval]
      exact ⟨_, hroute, hdesc, hbelow, fun y hy => (hle y.1).trans (hl y hy)⟩
    · have hval : BellmanFord.lower dist e x = dist x := by
        rw [BellmanFord.lower, if_pos hcan, Function.update_of_ne hxv]
      rw [hval] at hx ⊢
      obtain ⟨l, hroute, hdesc, hbelow, hl⟩ := h.route x hx
      exact ⟨l, hroute, hdesc, hbelow, fun y hy => (hle y.1).trans (hl y hy)⟩
  · rwa [BellmanFord.lower, if_neg hcan]

end Inv

theorem Lowered.append {l' : List (Edge V)} {dist1 : Fin V → ℤ} (h : Lowered l dist dist1)
    (h' : Lowered l' dist1 dist') (hle : ∀ v, dist v ≤ INT_MAX) : Lowered (l ++ l') dist dist' := by
  refine ⟨fun v => (h'.le v).trans (h.le v), fun e he hu => ?_⟩
  rcases mem_append.mp he with he | he
  · exact (h'.le _).trans (h.relaxed e he hu)
  · have hlt : dist e.src < INT_MAX := lt_of_le_of_ne (hle _) hu
    exact (h'.relaxed e he (ne_INT_MAX_of_le (h.le _) hlt)).trans (by have := h.le e.src; omega)

theorem Inv.foldl (hl : ∀ e ∈ l, e ∈ graph.edges) (h : Inv graph src dist) :
    Inv graph src (l.foldl BellmanFord.lower dist) ∧
    Lowered l dist (l.foldl BellmanFord.lower dist) := by
  induction l generalizing dist with
  | nil => exact ⟨h, fun _ => le_rfl, by simp⟩
  | cons e l ih =>
    obtain ⟨h', hlow⟩ := ih (fun e' he' => hl e' (mem_cons_of_mem _ he')) (h.lower (hl e mem_cons_self))
    exact ⟨h', (lowered_lower dist e).append hlow h.le⟩

/-- No value is above the weight of a route of at most `k` edges with weights below `INT_MAX`. -/
def Bound (graph : Graph V) (src : Fin V) (k : ℕ) (dist : Fin V → ℤ) : Prop :=
  ∀ v d l, Route (IsEdge graph) src ((v, d) :: l) → Below ((v, d) :: l) → l.length ≤ k → dist v ≤ d

theorem Bound.next {k : ℕ} (hbound : Bound graph src k dist) (hstart : dist src ≤ 0)
    (h : Lowered graph.edges dist dist') : Bound graph src (k + 1) dist' := by
  intro v d l hroute hbelow hlen
  cases hroute with
  | start => exact (h.le src).trans hstart
  | @step u _ d w l hroute he =>
    obtain ⟨_, hbelow⟩ := forall_mem_cons.mp hbelow
    have hle := hbound u d l hroute hbelow (by rw [length_cons] at hlen; omega)
    have hle' := h.relaxed ⟨u, v, w⟩ he (ne_INT_MAX_of_le hle (hbelow _ mem_cons_self))
    exact hle'.trans (by change dist u + w ≤ d + w; omega)

theorem bound_zero (src : Fin V) : Bound graph src 0 (init src) := by
  intro v d l hroute _ hlen
  obtain rfl := length_eq_zero_iff.mp (Nat.le_zero.mp hlen)
  cases hroute with
  | start => rw [init_apply, if_pos rfl]

theorem values_spec (graph : Graph V) (src : Fin V) (n : ℕ) :
    Inv graph src (values graph (init src) n) ∧ Bound graph src n (values graph (init src) n) := by
  induction n with
  | zero => exact ⟨inv_init graph src, bound_zero src⟩
  | succ n ih =>
    obtain ⟨h, hbound⟩ := ih
    have hvalues : values graph (init src) (n + 1) = graph.edges.foldl lower (values graph (init src) n) :=
      Function.iterate_succ_apply' _ _ _
    rw [hvalues]
    obtain ⟨h', hlow⟩ := h.foldl fun _ he => he
    exact ⟨h', hbound.next h.start hlow⟩

/-! ### The check -/

theorem Inv.negativeCycle (h : Inv graph src dist) (hbound : Bound graph src V dist)
    (he : e ∈ graph.edges) (hcan : CanRelax dist e) : NegativeCycle (IsEdge graph) src := by
  obtain ⟨l, hroute, hdesc, hbelow, _⟩ := h.route_step he hcan
  rcases hroute.nodup_or_negativeCycle hdesc with hnodup | hcycle
  · -- each vertex occurs once, so the route is one of those the rounds have bounded
    have hlen := hnodup.length_le_card
    rw [Fintype.card_fin, length_map, length_cons] at hlen
    exact absurd (hbound _ _ _ hroute hbelow (by omega)) (not_le.mpr hcan.2)
  · exact hcycle

/-- When no edge can be relaxed, no value is above the weight of a route with weights below
`INT_MAX`. -/
theorem Inv.le_of_route (h : Inv graph src dist) (hno : ∀ e ∈ graph.edges, ¬ CanRelax dist e)
    {p : List (Fin V × ℤ)} (hroute : Route (IsEdge graph) src p) (hbelow : Below p) :
    ∀ {v d l}, p = (v, d) :: l → dist v ≤ d := by
  induction hroute with
  | start =>
    rintro v d l heq
    cases heq
    exact h.start
  | @step u v d w l _ he ih =>
    rintro v' d' l' heq
    cases heq
    obtain ⟨_, hbelow⟩ := forall_mem_cons.mp hbelow
    have hle := ih hbelow rfl
    have hlt : dist u < INT_MAX := hle.trans_lt (hbelow _ mem_cons_self)
    have hrelaxed : ¬ dist u + w < dist v := fun hlt' => hno ⟨u, v, w⟩ he ⟨hlt.ne, hlt'⟩
    omega

theorem Inv.relaxed (h : Inv graph src dist) (hseen : SeenBelow graph src)
    (hno : ∀ e ∈ graph.edges, ¬ CanRelax dist e) :
    Relaxed (IsEdge graph) (fun v => dist v ≠ INT_MAX) dist := by
  refine ⟨fun {u v w} hu he => ?_, fun {u v w} hu he => not_lt.mp fun hlt => hno ⟨u, v, w⟩ he ⟨hu, hlt⟩⟩
  obtain ⟨l, hroute, _⟩ := h.route u hu
  obtain ⟨d, l', hroute', hbelow⟩ := hseen v ⟨_, _, hroute.step he⟩
  exact ne_INT_MAX_of_le (h.le_of_route hno hroute' hbelow rfl) (hbelow _ mem_cons_self)

theorem Inv.distances (h : Inv graph src dist)
    (hrelaxed : Relaxed (IsEdge graph) (fun v => dist v ≠ INT_MAX) dist) :
    Distances (IsEdge graph) src INT_MAX dist := by
  have hle : ∀ v, ∀ d ∈ Weights (IsEdge graph) src v, dist v ≠ INT_MAX ∧ dist v ≤ d := by
    intro v d hd
    obtain ⟨hne, hle⟩ := hrelaxed.le_of_mem (ne_INT_MAX_of_le h.start (by decide)) hd
    exact ⟨hne, hle.trans (by have := h.start; omega)⟩
  have hmem : ∀ v, dist v ≠ INT_MAX → dist v ∈ Weights (IsEdge graph) src v := by
    intro v hv
    obtain ⟨l, hroute, _⟩ := h.route v hv
    exact ⟨l, hroute⟩
  exact distances_of hmem hle

/-- The program reports a negative cycle just when one can be reached, and has the exact distances
otherwise. -/
theorem bellmanFord_exact (V : ℕ) (graph : Graph V) (src : Fin V) (hfit : SumsFit graph src)
    (hseen : SeenBelow graph src) : ∃ report, bellmanFord graph src = some report ∧
      (report = .negativeCycle ↔ NegativeCycle (IsEdge graph) src) ∧
      ∀ dist, report = .distances dist → Distances (IsEdge graph) src INT_MAX dist := by
  obtain ⟨hrun, hcheck⟩ := rounds_eq hfit
  obtain ⟨h, hbound⟩ := values_spec graph src V
  generalize values graph (init src) V = dist at hrun hcheck h hbound
  have hresult : bellmanFord graph src =
      some (if graph.edges.any fun e => CanRelax dist e then .negativeCycle else .distances dist) := by
    rw [bellmanFord, hrun]
    change (checkLoop dist graph.edges >>= _) = _
    rw [checkLoop_eq hcheck]
    rfl
  refine ⟨_, hresult, ?_⟩
  by_cases hfound : ∃ e ∈ graph.edges, CanRelax dist e
  · obtain ⟨e, he, hcan⟩ := hfound
    rw [if_pos (any_eq_true.mpr ⟨e, he, decide_eq_true hcan⟩)]
    exact ⟨iff_of_true rfl (h.negativeCycle hbound he hcan), fun dist' hdist' => by cases hdist'⟩
  have hno : ∀ e ∈ graph.edges, ¬ CanRelax dist e := fun e he hcan => hfound ⟨e, he, hcan⟩
  have hrelaxed := h.relaxed hseen hno
  rw [if_neg fun hany => hfound (by simpa using hany)]
  refine ⟨iff_of_false (by simp)
    (hrelaxed.not_negativeCycle (ne_INT_MAX_of_le h.start (by decide))), fun dist' hdist' => ?_⟩
  cases hdist'
  exact h.distances hrelaxed

/-- The sums go down to `INT_MIN`, where the check finds the cycle and ends. -/
theorem bellmanFord_exact_loop : SumsFit (⟨[⟨1, 0, -536870912⟩, ⟨0, 1, -536870912⟩]⟩ : Graph 2) 0 ∧
      SeenBelow (⟨[⟨1, 0, -536870912⟩, ⟨0, 1, -536870912⟩]⟩ : Graph 2) 0 ∧
      ∃ report, bellmanFord (⟨[⟨1, 0, -536870912⟩, ⟨0, 1, -536870912⟩]⟩ : Graph 2) 0 = some report ∧
      (report = .negativeCycle ↔
      NegativeCycle (IsEdge (⟨[⟨1, 0, -536870912⟩, ⟨0, 1, -536870912⟩]⟩ : Graph 2)) 0) ∧
      ∀ dist, report = .distances dist →
      Distances (IsEdge ⟨[⟨1, 0, -536870912⟩, ⟨0, 1, -536870912⟩]⟩) 0 INT_MAX dist := by
  have hfit : SumsFit (⟨[⟨1, 0, -536870912⟩, ⟨0, 1, -536870912⟩]⟩ : Graph 2) 0 := by
    simp [SumsFit, LoopsFit, RoundFits, CheckFits, FitsAt, lower, CanRelax, init_apply, INT_MAX,
      INT_MIN]
  have hseen : SeenBelow (⟨[⟨1, 0, -536870912⟩, ⟨0, 1, -536870912⟩]⟩ : Graph 2) 0 := by
    intro v _
    fin_cases v
    · exact ⟨0, [], .start, by simp [Below, INT_MAX]⟩
    · exact ⟨_, _, Route.start.step (w := -536870912) (by simp [IsEdge]), by simp [Below, INT_MAX]⟩
  exact ⟨hfit, hseen, bellmanFord_exact 2 _ 0 hfit hseen⟩

/-- A path of weight `INT_MAX`: no sum leaves the range of `int`, but the vertex looks as if it
could not be reached. -/
theorem bellmanFord_path_INT_MAX :
    (∀ v d, d ∈ Weights (IsEdge (⟨[⟨0, 1, 2147483647⟩]⟩ : Graph 2)) 0 v → INT_MIN ≤ d ∧
      d ≤ INT_MAX) ∧ Reachable (IsEdge (⟨[⟨0, 1, 2147483647⟩]⟩ : Graph 2)) 0 1 ∧
      ∃ dist, bellmanFord (⟨[⟨0, 1, 2147483647⟩]⟩ : Graph 2) 0 = some (.distances dist) ∧
      dist 1 = INT_MAX := by
  refine ⟨fun v d hd => ?_, ⟨_, _, Route.start.step (mem_singleton_self _)⟩, _, rfl, rfl⟩
  have hweight : v = 0 ∧ d = 0 ∨ v = 1 ∧ d = 2147483647 := by
    refine weights_induction (P := fun v d => v = 0 ∧ d = 0 ∨ v = 1 ∧ d = 2147483647) (.inl ⟨rfl, rfl⟩) ?_ hd
    rintro u v d w _ hu he
    cases mem_singleton.mp he
    rcases hu with ⟨_, rfl⟩ | ⟨h, _⟩
    · exact .inr ⟨rfl, rfl⟩
    · cases h
  rcases hweight with ⟨_, rfl⟩ | ⟨_, rfl⟩ <;> decide

end Code365.Algorithms.BellmanFord
