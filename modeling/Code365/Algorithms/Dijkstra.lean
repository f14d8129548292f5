import Code365.Lib.CInt
import Code365.Lib.Routes

/-! # `Dijkstra.c`: distances in a graph given by a matrix

The vertices are the indices `0 .. V-1`.  `minDistance` declares `minInd` without a value, and sets
it when it finds a vertex that is not in the tree and is not at `INT_MAX`; if there is none, it
returns a value that was never set, which is the index that `Dijkstra` uses next
(`Fault.uninitialised`).

The loop always runs `V - 1` times.  As long as it finds a vertex, the values are the distances on
the tree and upper bounds elsewhere (`Inv`). -/

namespace Code365.Algorithms.Dijkstra

open List Finset Function CInt Routes

variable {V : ℕ}

structure Graph (vertexNum : ℕ) where
  edges : Fin vertexNum → Fin vertexNum → ℤ

def createGraph (V : ℕ) : Graph V := ⟨fun i => update (fun _ => INT_MAX) i 0⟩

def addEdge (G : Graph V) (src dst : Fin V) (weight : ℤ) : Graph V :=
  ⟨update G.edges src (update (G.edges src) dst weight)⟩

/-- The graph after calls of `addEdge`. -/
def build (V : ℕ) (calls : List (Fin V × Fin V × ℤ)) : Graph V :=
  calls.foldl (fun G c => addEdge G c.1 c.2.1 c.2.2) (createGraph V)

/-- The body of the loop of `minDistance`, on `minVal` and `minInd`. -/
def minStep (mdist vset : Fin V → ℤ) (m : ℤ × Option (Fin V)) (i : Fin V) : ℤ × Option (Fin V) :=
  if vset i = 0 ∧ mdist i < m.1 then (mdist i, some i) else m

/-- `none` is the value of `minInd` when it has not been set. -/
def minDistance (mdist vset : Fin V → ℤ) : Option (Fin V) :=
  ((List.finRange V).foldl (minStep mdist vset) (INT_MAX, none)).2

inductive Fault
  | uninitialised
  | overflow
deriving DecidableEq, Repr

structure State (V : ℕ) where
  mdist : Fin V → ℤ
  vset : Fin V → ℤ

/-- The body of the inner loop. -/
def relax (graph : Graph V) (vset : Fin V → ℤ) (u : Fin V) (mdist : Fin V → ℤ)
    (v : Fin V) : Except Fault (Fin V → ℤ) :=
  if vset v = 0 ∧ graph.edges u v ≠ INT_MAX then
    match add (mdist u) (graph.edges u v) with
    | none => .error .overflow
    | some d => .ok (if d < mdist v then update mdist v d else mdist)
  else .ok mdist

/-- The body of the outer loop. -/
def iterate (graph : Graph V) (s : State V) : Except Fault (State V) :=
  match minDistance s.mdist s.vset with
  | none => .error .uninitialised
  | some u => do
    let vset := update s.vset u 1
    let mdist ← (List.finRange V).foldlM (relax graph vset u) s.mdist
    pure ⟨mdist, vset⟩

def loop (graph : Graph V) : ℕ → State V → Except Fault (State V)
  | 0, s => pure s
  | n + 1, s => do
    let s ← iterate graph s
    loop graph n s

def init (src : Fin V) : State V := ⟨update (fun _ => INT_MAX) src 0, fun _ => 0⟩

/-- The values of `mdist` that are printed. -/
def dijkstra (graph : Graph V) (src : Fin V) : Except Fault (Fin V → ℤ) := do
  let s ← loop graph (V - 1) (init src)
  pure s.mdist

/-! ### The graph -/

/-- The edges of the graph; an entry `INT_MAX` is no edge. -/
def Edge (graph : Graph V) (u v : Fin V) (w : ℤ) : Prop := graph.edges u v ≠ INT_MAX ∧ w = graph.edges u v

theorem edges_addEdge (G : Graph V) (src dst : Fin V) (weight : ℤ) (u v : Fin V) :
    (addEdge G src dst weight).edges u v = if u = src ∧ v = dst then weight else G.edges u v := by
  simp only [addEdge, update_apply]
  by_cases hu : u = src
  · subst hu
    simp [update_apply]
  · simp [hu]

theorem build_nonneg {calls : List (Fin V × Fin V × ℤ)} (h : ∀ c ∈ calls, 0 ≤ c.2.2) (u v : Fin V) :
    0 ≤ (build V calls).edges u v := by
  refine foldlRecOn (motive := fun G : Graph V => ∀ u v, 0 ≤ G.edges u v) calls _ (fun u v =>
    ?_) (fun G hG c hc u v => ?_) u v
  · simp only [createGraph, update_apply]
    split_ifs
    · exact le_rfl
    · decide
  · rw [edges_addEdge]
    split_ifs
    · exact h c hc
    · exact hG u v

/-! ### `minDistance` -/

variable {mdist vset : Fin V → ℤ}

/-- The least value so far is that of `minInd`. -/
structure Least (mdist vset : Fin V → ℤ) (seen : List (Fin V)) (m : ℤ × Option (Fin V)) : Prop where
  le : m.1 ≤ INT_MAX
  least : ∀ i ∈ seen, vset i = 0 → m.1 ≤ mdist i
  none : m.2 = none → m.1 = INT_MAX
  some : ∀ u, m.2 = some u → vset u = 0 ∧ mdist u = m.1 ∧ m.1 < INT_MAX

theorem Least.step {seen : List (Fin V)} {m : ℤ × Option (Fin V)} (h : Least mdist vset seen m)
    (i : Fin V) : Least mdist vset (seen ++ [i]) (minStep mdist vset m i) := by
  unfold minStep
  split_ifs with hi
  · have hlt : mdist i < INT_MAX := lt_of_lt_of_le hi.2 h.le
    refine ⟨hlt.le, fun j hj hj0 => ?_, fun h => (by cases h), fun u hu => ?_⟩
    · rcases mem_append.mp hj with hj | hj
      · exact hi.2.le.trans (h.least j hj hj0)
      · rw [List.mem_singleton.mp hj]
    · cases hu
      exact ⟨hi.1, rfl, hlt⟩
  · refine ⟨h.le, fun j hj hj0 => ?_, h.none, h.some⟩
    rcases mem_append.mp hj with hj | hj
    · exact h.least j hj hj0
    · obtain rfl := List.mem_singleton.mp hj
      exact not_lt.mp fun hlt => hi ⟨hj0, hlt⟩

theorem Least.foldl {seen : List (Fin V)} {m : ℤ × Option (Fin V)} (h : Least mdist vset seen m)
    (l : List (Fin V)) : Least mdist vset (seen ++ l) (l.foldl (minStep mdist vset) m) := by
  induction l generalizing seen m with
  | nil => rwa [append_nil]
  | cons i l ih =>
    have hl := ih (h.step i)
    rwa [append_assoc] at hl

theorem least_minDistance (mdist vset : Fin V → ℤ) :
    ∃ m, minDistance mdist vset = m.2 ∧ Least mdist vset (finRange V) m := by
  have hstart : Least mdist vset [] (INT_MAX, none) := ⟨le_rfl, by simp, fun _ => rfl, by simp⟩
  exact ⟨_, rfl, hstart.foldl _⟩

theorem minDistance_eq_some {u : Fin V} (h : minDistance mdist vset = some u) :
    vset u = 0 ∧ mdist u < INT_MAX ∧ ∀ i, vset i = 0 → mdist u ≤ mdist i := by
  obtain ⟨m, hm, hleast⟩ := least_minDistance mdist vset
  obtain ⟨hu, heq, hlt⟩ := hleast.some u (hm.symm.trans h)
  exact ⟨hu, heq ▸ hlt, fun i hi => heq ▸ hleast.least i (mem_finRange i) hi⟩

theorem minDistance_eq_none (h : minDistance mdist vset = none) {i : Fin V} (hi : vset i = 0) :
    INT_MAX ≤ mdist i := by
  obtain ⟨m, hm, hleast⟩ := least_minDistance mdist vset
  have := hleast.least i (mem_finRange i) hi
  rwa [hleast.none (hm.symm.trans h)] at this

/-! ### The inner loop -/

variable {graph : Graph V} {u v : Fin V}

/-- What the inner loop makes of an entry. -/
def relaxed (graph : Graph V) (vset : Fin V → ℤ) (u : Fin V) (mdist : Fin V → ℤ) (v : Fin V) : ℤ :=
  if vset v = 0 ∧ graph.edges u v ≠ INT_MAX then min (mdist u + graph.edges u v) (mdist v) else mdist v

theorem relax_eq (hsum : vset v = 0 → graph.edges u v ≠ INT_MAX →
    add (mdist u) (graph.edges u v) = some (mdist u + graph.edges u v)) :
    relax graph vset u mdist v = .ok (update mdist v (relaxed graph vset u mdist v)) := by
  unfold relax relaxed
  split_ifs with hv
  · rw [hsum hv.1 hv.2]
    dsimp only
    split_ifs with hlt
    · rw [min_eq_left hlt.le]
    · rw [min_eq_right (not_lt.mp hlt), update_eq_self]
  · rw [update_eq_self]

theorem relax_foldlM (hu : vset u ≠ 0) : ∀ {l : List (Fin V)} {mdist : Fin V → ℤ}, l.Nodup →
    (∀ v ∈ l, vset v = 0 → graph.edges u v ≠ INT_MAX → add (mdist u) (graph.edges u v) =
    some (mdist u + graph.edges u v)) → l.foldlM (relax graph vset u) mdist = .ok fun v =>
    if v ∈ l then relaxed graph vset u mdist v else mdist v
  | [], mdist, _, _ => by simp [pure, Except.pure]
  | v :: l, mdist, hl, hsum => by
    obtain ⟨hv, hl⟩ := nodup_cons.mp hl
    -- the entry of `u` itself stays, since `u` is in the tree
    have hmdist : update mdist v (relaxed graph vset u mdist v) u = mdist u := by
      by_cases huv : u = v
      · subst huv
        rw [update_self, relaxed, if_neg fun h => hu h.1]
      · rw [update_of_ne huv]
    rw [foldlM_cons, relax_eq (hsum v mem_cons_self)]
    apply (relax_foldlM hu hl fun v' hv' => by rw [hmdist]; exact hsum v' (mem_cons_of_mem _ hv')).trans
    congr 1
    funext x
    by_cases hxv : x = v
    · subst hxv
      rw [if_neg hv, update_self, if_pos List.mem_cons_self]
    · have hsame : relaxed graph vset u (update mdist v (relaxed graph vset u mdist v)) x =
          relaxed graph vset u mdist x := by
        rw [relaxed, hmdist, update_of_ne hxv, relaxed]
      simp only [List.mem_cons, hxv, false_or, hsame, update_of_ne hxv]

/-! ### The outer loop -/

variable {src : Fin V} {s : State V}

structure Inv (graph : Graph V) (src : Fin V) (s : State V) : Prop where
  start : s.mdist src ≤ 0
  le : ∀ v, s.mdist v ≤ INT_MAX
  route : ∀ v, s.mdist v ≠ INT_MAX → ∃ l, Route (Edge graph) src ((v, s.mdist v) :: l) ∧
    (((v, s.mdist v) :: l).map Prod.fst).Nodup ∧ ∀ x ∈ l, s.vset x.1 ≠ 0
  settled : ∀ v, s.vset v ≠ 0 → s.mdist v ≠ INT_MAX ∧ ∀ d ∈ Weights (Edge graph) src v, s.mdist v ≤ d
  relaxed : ∀ u v, s.vset u ≠ 0 → s.vset v = 0 → graph.edges u v ≠ INT_MAX →
    s.mdist v ≠ INT_MAX ∧ s.mdist v ≤ s.mdist u + graph.edges u v

theorem mdist_init (src v : Fin V) : (init src).mdist v = if v = src then 0 else INT_MAX := by
  simp only [init, update_apply]

theorem inv_init (graph : Graph V) (src : Fin V) : Inv graph src (init src) := by
  have hmdist : ∀ v, (init src).mdist v ≠ INT_MAX → v = src := by
    intro v hv
    by_contra hne
    exact hv (by rw [mdist_init, if_neg hne])
  have hsrc : (init src).mdist src = 0 := by rw [mdist_init, if_pos rfl]
  refine ⟨hsrc.le, fun v => ?_, fun v hv => ?_, fun v hv => absurd rfl hv, fun u v hu => absurd rfl hu⟩
  · rw [mdist_init]
    split_ifs
    · decide
    · exact le_rfl
  · obtain rfl := hmdist v hv
    exact ⟨[], by rw [hsrc]; exact .start, by simp, by simp⟩

theorem edge_nonneg (hnonneg : ∀ u v, 0 ≤ graph.edges u v) {w : ℤ}
    (he : Edge graph u v w) : 0 ≤ w :=
  he.2 ▸ hnonneg u v

/-- The state after an iteration that takes `u`. -/
def advance (graph : Graph V) (s : State V) (u : Fin V) : State V :=
  ⟨fun v => Dijkstra.relaxed graph (update s.vset u 1) u s.mdist v, update s.vset u 1⟩

theorem vset_advance_eq_zero : (advance graph s u).vset v = 0 ↔ v ≠ u ∧ s.vset v = 0 := by
  simp only [advance, update_apply]
  by_cases hv : v = u <;> simp [hv]

theorem mdist_advance_le (u v : Fin V) : (advance graph s u).mdist v ≤ s.mdist v := by
  unfold advance Dijkstra.relaxed
  dsimp only
  split_ifs
  · exact min_le_right _ _
  · exact le_rfl

theorem mdist_advance_of_ne (hv : (advance graph s u).vset v ≠ 0) :
    (advance graph s u).mdist v = s.mdist v :=
  if_neg fun h => hv h.1

def onTree (s : State V) : Finset (Fin V) := Finset.univ.filter fun v => s.vset v ≠ 0

theorem mem_onTree : v ∈ onTree s ↔ s.vset v ≠ 0 := by simp [onTree]

theorem card_onTree_advance (hu : s.vset u = 0) :
    (onTree (advance graph s u)).card = (onTree s).card + 1 := by
  have hinsert : onTree (advance graph s u) = insert u (onTree s) := by
    ext v
    rw [mem_onTree, mem_insert, mem_onTree, Ne, vset_advance_eq_zero, not_and_or, not_not]
  rw [hinsert, card_insert_of_notMem (by rw [mem_onTree]; exact not_not.mpr hu)]

namespace Inv

variable (h : Inv graph src s)
include h

theorem mem_weights (hv : s.mdist v ≠ INT_MAX) : s.mdist v ∈ Weights (Edge graph) src v := by
  obtain ⟨l, hroute, _⟩ := h.route v hv
  exact ⟨l, hroute⟩

theorem frontier :
    Frontier (Edge graph) src (fun v => s.vset v ≠ 0) (fun v => s.mdist v ≠ INT_MAX) s.mdist := by
  refine ⟨⟨ne_INT_MAX_of_le h.start (by decide), h.start⟩, fun hv => (h.settled _ hv).2, ?_⟩
  rintro u v w hu hv ⟨he, rfl⟩
  exact h.relaxed u v hu (not_not.mp hv) he

variable (hnonneg : ∀ u v, 0 ≤ graph.edges u v)
  (hsums : ∀ {v d l}, Route (Edge graph) src ((v, d) :: l) → (((v, d) :: l).map Prod.fst).Nodup → d < INT_MAX)
include hnonneg

/-- A reachable vertex is on the tree, or some vertex off the tree has a value. -/
theorem exists_le {d : ℤ} (hd : d ∈ Weights (Edge graph) src v) :
    s.vset v ≠ 0 ∨ ∃ y, s.vset y = 0 ∧ s.mdist y ≠ INT_MAX ∧ s.mdist y ≤ d := by
  rcases h.frontier.exists_le (edge_nonneg hnonneg) hd with hv | ⟨y, hy, hknown, hle⟩
  · exact .inl hv
  · exact .inr ⟨y, not_not.mp hy, hknown, hle⟩

/-- A single vertex off the tree has the right value too. -/
theorem distances (hone : ∀ x y, x ∉ onTree s → y ∉ onTree s → x = y) :
    Distances (Edge graph) src INT_MAX s.mdist := by
  have hle : ∀ v, ∀ d ∈ Weights (Edge graph) src v, s.mdist v ≠ INT_MAX ∧ s.mdist v ≤ d := by
    intro v d hd
    by_cases hv : s.vset v = 0
    · rcases h.exists_le hnonneg hd with hv' | ⟨y, hy, hknown, hle⟩
      · exact absurd hv hv'
      · obtain rfl : y = v := hone y v (by simp [mem_onTree, hy]) (by simp [mem_onTree, hv])
        exact ⟨hknown, hle⟩
    · exact ⟨(h.settled v hv).1, (h.settled v hv).2 d hd⟩
  exact distances_of (fun v hv => h.mem_weights hv) hle

include hsums

omit hnonneg in
theorem route_step (hu : s.mdist u ≠ INT_MAX) (hvu : v ≠ u) (hv : s.vset v = 0)
    (he : graph.edges u v ≠ INT_MAX) : s.mdist u + graph.edges u v < INT_MAX ∧
    ∃ l, Route (Edge graph) src ((v, s.mdist u + graph.edges u v) :: (u, s.mdist u) :: l) ∧
    (((v, s.mdist u + graph.edges u v) :: (u, s.mdist u) :: l).map Prod.fst).Nodup ∧
    ∀ x ∈ l, s.vset x.1 ≠ 0 := by
  obtain ⟨l, hroute, hnodup, hl⟩ := h.route u hu
  have hnext := hroute.step (⟨he, rfl⟩)
  have hnodup' : (((v, s.mdist u + graph.edges u v) :: (u, s.mdist u) :: l).map Prod.fst).Nodup := by
    refine nodup_cons.mpr ⟨fun hmem => ?_, hnodup⟩
    obtain ⟨x, hx, hxv⟩ := mem_map.mp hmem
    rcases mem_cons.mp hx with rfl | hx
    · exact hvu hxv.symm
    · exact hl x hx (hxv ▸ hv)
  exact ⟨hsums hnext hnodup', l, hnext, hnodup', hl⟩

theorem iterate_eq (hu : minDistance s.mdist s.vset = some u) :
    iterate graph s = .ok (advance graph s u) := by
  obtain ⟨hu0, hlt, _⟩ := minDistance_eq_some hu
  have hnonneg' : 0 ≤ s.mdist u := weights_nonneg (edge_nonneg hnonneg) (h.mem_weights hlt.ne)
  have hset : update s.vset u 1 u ≠ 0 := by rw [update_self]; decide
  have hsum : ∀ v ∈ finRange V, update s.vset u 1 v = 0 → graph.edges u v ≠ INT_MAX →
      add (s.mdist u) (graph.edges u v) = some (s.mdist u + graph.edges u v) := by
    intro v _ hv he
    obtain ⟨hvu, hv⟩ := vset_advance_eq_zero.mp (show (advance graph s u).vset v = 0 from hv)
    refine add_of_range ?_ (h.route_step hsums hlt.ne hvu hv he).1.le
    exact le_trans (by decide) (add_nonneg hnonneg' (hnonneg u v))
  unfold iterate
  rw [hu]
  dsimp only
  rw [relax_foldlM hset (nodup_finRange V) hsum]
  simp only [mem_finRange, if_true]
  rfl

theorem next (hu : minDistance s.mdist s.vset = some u) : Inv graph src (advance graph s u) := by
  obtain ⟨hu0, hlt, hmin⟩ := minDistance_eq_some hu
  have hkeep : ∀ {v}, s.vset v ≠ 0 →
    (advance graph s u).vset v ≠ 0 := fun hv h' => hv (vset_advance_eq_zero.mp h').2
  have huset : (advance graph s u).vset u ≠ 0 := fun h' => (vset_advance_eq_zero.mp h').1 rfl
  refine ⟨(mdist_advance_le u src).trans h.start, fun v =>
    (mdist_advance_le u v).trans (h.le v), fun v hv => ?_, fun v hv => ?_, fun a v ha hv he => ?_⟩
  · by_cases hold : (advance graph s u).mdist v = s.mdist v
    · rw [hold] at hv ⊢
      obtain ⟨l, hroute, hnodup, hl⟩ := h.route v hv
      exact ⟨l, hroute, hnodup, fun x hx => hkeep (hl x hx)⟩
    -- the value has come over `u`
    have hif : (advance graph s u).vset v = 0 ∧ graph.edges u v ≠ INT_MAX := by
      by_contra hno
      exact hold (if_neg hno)
    have hnew : (advance graph s u).mdist v = s.mdist u + graph.edges u v := by
      have heq : (advance graph s u).mdist v = min (s.mdist u + graph.edges u v) (s.mdist v) := if_pos hif
      rw [heq] at hold ⊢
      rcases min_choice (s.mdist u + graph.edges u v) (s.mdist v) with hmin | hmin
      · exact hmin
      · exact absurd hmin hold
    obtain ⟨hvu, hv0⟩ := vset_advance_eq_zero.mp hif.1
    obtain ⟨_, l, hroute, hnodup, hl⟩ := h.route_step hsums hlt.ne hvu hv0 hif.2
    rw [hnew]
    refine ⟨_, hroute, hnodup, fun x hx => ?_⟩
    rcases mem_cons.mp hx with rfl | hx
    · exact huset
    · exact hkeep (hl x hx)
  · rw [mdist_advance_of_ne hv]
    by_cases hvu : v = u
    · subst hvu
      refine ⟨hlt.ne, fun d hd => ?_⟩
      rcases h.exists_le hnonneg hd with hv0 | ⟨y, hy, _, hle⟩
      · exact absurd hu0 hv0
      · exact (hmin y hy).trans hle
    · exact h.settled v fun hv0 => hv (vset_advance_eq_zero.mpr ⟨hvu, hv0⟩)
  · rw [mdist_advance_of_ne ha]
    obtain ⟨hvu, hv0⟩ := vset_advance_eq_zero.mp hv
    by_cases hau : a = u
    · subst hau
      have hle : (advance graph s a).mdist v ≤ s.mdist a + graph.edges a v :=
        (if_pos ⟨hv, he⟩ : (advance graph s a).mdist v = _).trans_le (min_le_left _ _)
      exact ⟨ne_INT_MAX_of_le hle (h.route_step hsums hlt.ne hvu hv0 he).1, hle⟩
    · have ha0 : s.vset a ≠ 0 := fun h0 => ha (vset_advance_eq_zero.mpr ⟨hau, h0⟩)
      obtain ⟨hne, hle⟩ := h.relaxed a v ha0 hv0 he
      have hle' : (advance graph s u).mdist v ≤ s.mdist v := mdist_advance_le u v
      exact ⟨ne_INT_MAX_of_le hle' (lt_of_le_of_ne (h.le v) hne), hle'.trans hle⟩

/-- An iteration puts a vertex on the tree, unless all vertices that can be reached are on it. -/
theorem iterate :
    (∃ s', iterate graph s = .ok s' ∧ Inv graph src s' ∧ (onTree s').card = (onTree s).card + 1) ∨
    iterate graph s = .error .uninitialised ∧ ∀ v, Reachable (Edge graph) src v → v ∈ onTree s := by
  cases hu : minDistance s.mdist s.vset with
  | some u =>
    exact .inl ⟨_, h.iterate_eq hnonneg hsums hu, h.next hnonneg hsums hu,
      card_onTree_advance (minDistance_eq_some hu).1⟩
  | none =>
    refine .inr ⟨by rw [Dijkstra.iterate, hu], ?_⟩
    rintro v ⟨d, hd⟩
    rw [mem_onTree]
    rcases h.exists_le hnonneg hd with hv | ⟨y, hy, hknown, _⟩
    · exact hv
    · exact absurd (le_antisymm (h.le y) (minDistance_eq_none hu hy)) hknown

theorem loop (n : ℕ) :
    (∃ s', loop graph n s = .ok s' ∧ Inv graph src s' ∧ (onTree s').card = (onTree s).card + n) ∨
    loop graph n s = .error .uninitialised ∧ ∃ s' : State V, (onTree s').card <
    (onTree s).card + n ∧ ∀ v, Reachable (Edge graph) src v → v ∈ onTree s' := by
  induction n generalizing s with
  | zero => exact .inl ⟨s, rfl, h, rfl⟩
  | succ n ih =>
    rcases h.iterate hnonneg hsums with ⟨s1, hs1, h1, hcard1⟩ | ⟨herror, hall⟩
    · have hrun : Dijkstra.loop graph (n + 1) s = Dijkstra.loop graph n s1 := by
        rw [Dijkstra.loop, hs1]
        rfl
      rcases ih h1 with ⟨s', hs', h', hcard⟩ | ⟨herror, s', hcard, hall⟩
      · exact .inl ⟨s', hrun.trans hs', h', by omega⟩
      · exact .inr ⟨hrun.trans herror, s', by omega, hall⟩
    · refine .inr ⟨?_, s, by omega, hall⟩
      rw [Dijkstra.loop, herror]
      rfl

end Inv

/-! ### The result -/

theorem eq_of_notMem_of_card {t : Finset (Fin V)} (ht : t.card = V - 1) {x y : Fin V} (hx : x ∉ t)
    (hy : y ∉ t) : x = y := by
  have hcard : tᶜ.card ≤ 1 := by
    rw [card_compl, Fintype.card_fin, ht]
    omega
  exact card_le_one.mp hcard x (mem_compl.mpr hx) y (mem_compl.mpr hy)

/-- The program ends with the distances just when at most one vertex cannot be reached. -/
theorem dijkstra_exact_iff (V : ℕ) (calls : List (Fin V × Fin V × ℤ)) (hweights : ∀ c ∈ calls, 0 ≤
    c.2.2) (src : Fin V) (hsums : ∀ v d l, Route (Edge (build V calls)) src ((v, d) :: l) →
    (((v, d) :: l).map Prod.fst).Nodup → d < INT_MAX) : (∃ mdist, dijkstra (build V calls) src =
      .ok mdist ∧ Distances (Edge (build V calls)) src INT_MAX mdist) ↔
      ∀ x y, ¬ Reachable (Edge (build V calls)) src x →
      ¬ Reachable (Edge (build V calls)) src y → x = y := by
  have hnonneg := build_nonneg hweights
  have hempty : (onTree (init src)).card = 0 := by simp [onTree, init]
  rcases (inv_init (build V calls) src).loop hnonneg (hsums _ _ _) (V - 1) with ⟨s, hs, h, hcard⟩ |
    ⟨herror, s, hcard, hall⟩
  · rw [hempty, zero_add] at hcard
    have hreach : ∀ v, ¬ Reachable (Edge (build V calls)) src v → v ∉ onTree s := by
      intro v hv hmem
      exact hv ⟨_, h.mem_weights (h.settled v (mem_onTree.mp hmem)).1⟩
    refine iff_of_true ⟨s.mdist, by rw [dijkstra, hs]; rfl, ?_⟩ ?_
    · exact h.distances hnonneg fun x y => eq_of_notMem_of_card hcard
    · exact fun x y hx hy => eq_of_notMem_of_card hcard (hreach x hx) (hreach y hy)
  · refine iff_of_false ?_ fun hone => ?_
    · rintro ⟨mdist, hrun, _⟩
      rw [dijkstra, herror] at hrun
      cases hrun
    · have hcompl : 1 < (onTree s)ᶜ.card := by
        rw [card_compl, Fintype.card_fin]
        omega
      obtain ⟨x, hx, y, hy, hxy⟩ := one_lt_card.mp hcompl
      exact hxy (hone x y (fun h => mem_compl.mp hx (hall x h)) fun h => mem_compl.mp hy (hall y h))

theorem weights_build_two {v : Fin 2} {d : ℤ} (hd : d ∈ Weights (Edge (build 2 [(0, 1, 5)])) 0 v) :
    v = 0 ∧ d = 0 ∨ v = 1 ∧ d = 5 := by
  refine weights_induction (P := fun v d => v = 0 ∧ d = 0 ∨ v = 1 ∧ d = 5) (.inl ⟨rfl, rfl⟩) ?_ hd
  rintro u v d w _ (⟨rfl, rfl⟩ | ⟨rfl, rfl⟩) ⟨hne, rfl⟩
  · fin_cases v
    · exact .inl ⟨rfl, rfl⟩
    · exact .inr ⟨rfl, rfl⟩
  · fin_cases v
    · exact absurd rfl hne
    · exact .inr ⟨rfl, rfl⟩

theorem dijkstra_exact_iff_two : (∀ c ∈ [((0 : Fin 2), (1 : Fin 2), (5 : ℤ))], 0 ≤ c.2.2) ∧
      ((∃ mdist, dijkstra (build 2 [(0, 1, 5)]) 0 = .ok mdist ∧
      Distances (Edge (build 2 [(0, 1, 5)])) 0 INT_MAX mdist) ↔ ∀ x y, ¬ Reachable
      (Edge (build 2 [(0, 1, 5)])) 0 x → ¬ Reachable (Edge (build 2 [(0, 1, 5)])) 0 y → x = y) := by
  refine ⟨by decide, dijkstra_exact_iff 2 [(0, 1, 5)] (by decide) 0 fun v d l hroute _ => ?_⟩
  rcases weights_build_two ⟨l, hroute⟩ with ⟨_, rfl⟩ | ⟨_, rfl⟩ <;> decide

/-- Two vertices that cannot be reached: the second search of `minDistance` finds nothing. -/
theorem dijkstra_three_isolated : dijkstra (build 3 []) 0 = .error .uninitialised := rfl

end Code365.Algorithms.Dijkstra
