import Code365.Lib.Flow

/-! # `ford_fulkerson.py`: a maximum flow

The vertices are `0 .. n-1` and `graph` is a matrix of residual capacities.  A search fills `parent`
from the source; the array is used again by the next search, so that entries of vertices which have
not been visited are old.  A path is followed from the sink back to the source; an entry -1 is
`none` here and is never followed.  `float("Inf")` is the `path_flow` `none`.

The depth of a vertex in the search tree shows that the way back ends and passes each edge once
(`Tree`).  The loops are bounded by `fuel`. -/

namespace Code365.Algorithms.FordFulkerson

open Finset List Function Code365.Flow

variable {n : ℕ}

/-! ### The program -/

structure Search (n : ℕ) where
  visited : Fin n → Bool
  queue : List (Fin n)
  parent : Fin n → Option (Fin n)

/-- The body of the inner loop of `BFS`. -/
def visit (graph : Fin n → Fin n → ℤ) (u : Fin n) (s : Search n) (ind : Fin n) : Search n :=
  if s.visited ind = false ∧ graph u ind > 0 then
    ⟨update s.visited ind true, s.queue ++ [ind], update s.parent ind (some u)⟩
  else s

def bfsLoop (graph : Fin n → Fin n → ℤ) : ℕ → Search n → Option (Search n)
  | 0, _ => none
  | fuel + 1, s =>
    match s.queue with
    | [] => some s
    | u :: queue => bfsLoop graph fuel ((List.finRange n).foldl (visit graph u) { s with queue })

/-- `BFS` returns whether `t` has been visited, and changes `parent`. -/
def bfs (graph : Fin n → Fin n → ℤ) (s t : Fin n)
    (parent : Fin n → Option (Fin n)) : Option (Bool × (Fin n → Option (Fin n))) := do
  let r ← bfsLoop graph (n + 1) ⟨update (fun _ => false) s true, [s], parent⟩
  some (r.visited t, r.parent)

/-- `min(path_flow, x)`. -/
def minFlow (pathFlow : Option ℤ) (x : ℤ) : Option ℤ := some (pathFlow.elim x (min · x))

/-- The first loop from the sink. -/
def pathLoop (graph : Fin n → Fin n → ℤ) (parent : Fin n → Option (Fin n)) (source : Fin n) :
    ℕ → Option ℤ → Fin n → Option (Option ℤ)
  | 0, _, _ => none
  | fuel + 1, pathFlow, s =>
    if s ≠ source then do
      let u ← parent s
      pathLoop graph parent source fuel (minFlow pathFlow (graph u s)) u
    else some pathFlow

/-- `graph[u][v] = x`. -/
def setCell (graph : Fin n → Fin n → ℤ) (u v : Fin n) (x : ℤ) : Fin n → Fin n → ℤ :=
  update graph u (update (graph u) v x)

/-- The second loop from the sink. -/
def augmentLoop (parent : Fin n → Option (Fin n)) (source : Fin n) (pathFlow : ℤ) :
    ℕ → (Fin n → Fin n → ℤ) → Fin n → Option (Fin n → Fin n → ℤ)
  | 0, _, _ => none
  | fuel + 1, graph, v =>
    if v ≠ source then do
      let u ← parent v
      let graph := setCell graph u v (graph u v - pathFlow)
      let graph := setCell graph v u (graph v u + pathFlow)
      augmentLoop parent source pathFlow fuel graph u
    else some graph

/-- The outer loop; it ends with `max_flow` and the residual capacities. -/
def flowLoop (source sink : Fin n) :
    ℕ → (Fin n → Fin n → ℤ) → (Fin n → Option (Fin n)) → ℤ → Option (ℤ × (Fin n → Fin n → ℤ))
  | 0, _, _, _ => none
  | fuel + 1, graph, parent, maxFlow => do
    let (found, parent) ← bfs graph source sink parent
    if found then do
      let pathFlow ← pathLoop graph parent source (n + 1) none sink
      let pathFlow ← pathFlow
      let graph ← augmentLoop parent source pathFlow (n + 1) graph sink
      flowLoop source sink fuel graph parent (maxFlow + pathFlow)
    else some (maxFlow, graph)

def fordFulkerson (fuel : ℕ) (graph : Fin n → Fin n → ℤ) (source sink : Fin n) : Option ℤ := do
  let (maxFlow, _) ← flowLoop source sink fuel graph (fun _ => none) 0
  some maxFlow

/-! ### The search -/

variable {graph c : Fin n → Fin n → ℤ} {source sink u : Fin n} {st : Search n}

def seen (st : Search n) : Finset (Fin n) := Finset.univ.filter fun v => st.visited v = true

theorem mem_seen {v : Fin n} : v ∈ seen st ↔ st.visited v = true := by simp [seen]

/-- The parents of the visited vertices form a tree. -/
def Tree (graph : Fin n → Fin n → ℤ) (source : Fin n) (st : Search n) (depth : Fin n → ℕ) : Prop :=
  ∀ v ∈ seen st, depth v < (seen st).card ∧
    (v ≠ source → ∃ u ∈ seen st, st.parent v = some u ∧ 0 < graph u v ∧ depth u < depth v)

/-- The state of the search; the vertices that are visited, not in the queue and not `pending` have
been scanned. -/
structure Inv (graph : Fin n → Fin n → ℤ) (source : Fin n) (st : Search n)
    (pending : Fin n → Prop) : Prop where
  root : source ∈ seen st
  queue : ∀ u ∈ st.queue, u ∈ seen st
  tree : ∃ depth, Tree graph source st depth
  scanned : ∀ u ∈ seen st, u ∈ st.queue ∨ pending u ∨ ∀ v, 0 < graph u v → v ∈ seen st

theorem seen_visit {ind : Fin n} (h : st.visited ind = false ∧ graph u ind > 0) :
    seen (visit graph u st ind) = insert ind (seen st) := by
  ext v
  rw [mem_seen, mem_insert, mem_seen, visit, if_pos h]
  by_cases hv : v = ind
  · simp [hv]
  · simp [hv]

theorem card_visit (graph : Fin n → Fin n → ℤ) (u : Fin n) (st : Search n) (ind : Fin n) :
    (seen (visit graph u st ind)).card + st.queue.length =
    (seen st).card + (visit graph u st ind).queue.length := by
  by_cases h : st.visited ind = false ∧ graph u ind > 0
  · have hnew : ind ∉ seen st := by simp [mem_seen, h.1]
    rw [seen_visit h, card_insert_of_notMem hnew, visit, if_pos h, length_append, length_singleton]
    omega
  · rw [visit, if_neg h]

theorem seen_subset_visit (graph : Fin n → Fin n → ℤ) (u : Fin n) (st : Search n) (ind : Fin n) :
    seen st ⊆ seen (visit graph u st ind) := by
  by_cases h : st.visited ind = false ∧ graph u ind > 0
  · rw [seen_visit h]
    exact Finset.subset_insert _ _
  · rw [visit, if_neg h]

/-- A new vertex is one step further down than the one it is found from. -/
theorem Tree.grow {depth : Fin n → ℕ} (h : Tree graph source st depth) (hu : u ∈ seen st)
    {ind : Fin n} (hnew : st.visited ind = false ∧ graph u ind > 0) :
    Tree graph source (visit graph u st ind) (update depth ind (depth u + 1)) := by
  have hne : ∀ w ∈ seen st, w ≠ ind := by
    rintro w hw rfl
    simp [mem_seen, hnew.1] at hw
  have hsub := seen_subset_visit graph u st ind
  have hcard : (seen (visit graph u st ind)).card = (seen st).card + 1 := by
    rw [seen_visit hnew, card_insert_of_notMem fun hind => hne ind hind rfl]
  have hparent : (visit graph u st ind).parent = update st.parent ind (some u) := by
    rw [visit, if_pos hnew]
  intro v hv
  rw [seen_visit hnew] at hv
  rw [hcard, hparent]
  rcases mem_insert.mp hv with rfl | hold
  · rw [update_self]
    refine ⟨Nat.succ_lt_succ (h u hu).1, fun _ => ⟨u, hsub hu, update_self _ _ _, hnew.2, ?_⟩⟩
    rw [update_of_ne (hne u hu)]
    exact Nat.lt_succ_self _
  obtain ⟨hlt, hup⟩ := h v hold
  rw [update_of_ne (hne v hold)]
  refine ⟨Nat.lt_succ_of_lt hlt, fun hvs => ?_⟩
  obtain ⟨w, hw, hpw, hpos, hdw⟩ := hup hvs
  refine ⟨w, hsub hw, ?_, hpos, ?_⟩
  · rw [update_of_ne (hne v hold), hpw]
  · rwa [update_of_ne (hne w hw)]

theorem Inv.scan {pending : Fin n → Prop} (h : Inv graph source st pending) (hu : u ∈ seen st)
    (ind : Fin n) : Inv graph source (visit graph u st ind) pending ∧ (0 < graph u ind →
    ind ∈ seen (visit graph u st ind)) ∧ seen st ⊆ seen (visit graph u st ind) := by
  have hsub := seen_subset_visit graph u st ind
  by_cases hnew : st.visited ind = false ∧ graph u ind > 0
  · have hmem : ind ∈ seen (visit graph u st ind) := by
      rw [seen_visit hnew]
      exact Finset.mem_insert_self _ _
    have hqueue : (visit graph u st ind).queue = st.queue ++ [ind] := by
      rw [visit, if_pos hnew]
    obtain ⟨depth, htree⟩ := h.tree
    refine ⟨⟨hsub h.root, fun v hv => ?_, ⟨_, htree.grow hu hnew⟩, fun v hv => ?_⟩, fun _ => hmem, hsub⟩
    · rw [hqueue] at hv
      rcases mem_append.mp hv with hv | hv
      · exact hsub (h.queue v hv)
      · rw [List.mem_singleton.mp hv]
        exact hmem
    · rw [hqueue]
      rw [seen_visit hnew] at hv
      rcases mem_insert.mp hv with rfl | hv
      · exact .inl (by simp)
      · rcases h.scanned v hv with hq | hp | hall
        · exact .inl (mem_append_left _ hq)
        · exact .inr (.inl hp)
        · exact .inr (.inr fun w hw => hsub (hall w hw))
  · have hvisit : visit graph u st ind = st := if_neg hnew
    rw [hvisit]
    refine ⟨h, fun hpos => ?_, Finset.Subset.refl _⟩
    rw [mem_seen]
    by_contra hfalse
    exact hnew ⟨Bool.eq_false_of_not_eq_true hfalse, hpos⟩

theorem Inv.foldl {pending : Fin n → Prop} :
    ∀ (l : List (Fin n)) {st : Search n}, Inv graph source st pending → u ∈ seen st →
    Inv graph source (l.foldl (visit graph u) st) pending ∧
    (∀ v ∈ l, 0 < graph u v → v ∈ seen (l.foldl (visit graph u) st)) ∧ seen st ⊆
    seen (l.foldl (visit graph u) st) ∧ (seen (l.foldl (visit graph u) st)).card + st.queue.length =
    (seen st).card + (l.foldl (visit graph u) st).queue.length
  | [], st, h, _ => ⟨h, by simp, Finset.Subset.refl _, rfl⟩
  | ind :: l, st, h, hu => by
    obtain ⟨h1, hind, hsub⟩ := h.scan hu ind
    obtain ⟨h', hl, hsub', hcard⟩ := Inv.foldl l h1 (hsub hu)
    have hcard1 := card_visit graph u st ind
    rw [foldl_cons]
    exact ⟨h', forall_mem_cons.mpr ⟨fun hpos => hsub' (hind hpos), hl⟩, hsub.trans hsub', by omega⟩

theorem bfsLoop_spec : ∀ {fuel : ℕ} {st : Search n}, Inv graph source st (fun _ => False) →
    n + st.queue.length < (seen st).card + fuel → ∃ st', bfsLoop graph fuel st = some st' ∧
    source ∈ seen st' ∧ (∃ depth, Tree graph source st' depth) ∧
    ∀ u ∈ seen st', ∀ v, 0 < graph u v → v ∈ seen st'
  | 0, st, h, hfuel => by
    have := card_le_univ (seen st)
    rw [Fintype.card_fin] at this
    omega
  | fuel + 1, st, h, hfuel => by
    cases hq : st.queue with
    | nil =>
      refine ⟨st, by rw [bfsLoop, hq], h.root, h.tree, fun u hu => ?_⟩
      rcases h.scanned u hu with hmem | hfalse | hall
      · rw [hq] at hmem
        cases hmem
      · exact hfalse.elim
      · exact hall
    | cons u queue =>
      have hu : u ∈ seen st := h.queue u (by rw [hq]; exact mem_cons_self)
      -- `u` is taken from the queue and scanned
      have hpop : Inv graph source { st with queue } (· = u) := by
        refine ⟨h.root, fun v hv => h.queue v (by rw [hq]; exact mem_cons_of_mem _ hv), h.tree, fun v hv => ?_⟩
        rcases h.scanned v hv with hmem | hfalse | hall
        · rw [hq] at hmem
          rcases mem_cons.mp hmem with rfl | hmem
          · exact .inr (.inl rfl)
          · exact .inl hmem
        · exact hfalse.elim
        · exact .inr (.inr hall)
      obtain ⟨h1, hscan, _, hcard⟩ := hpop.foldl (finRange n) hu
      have hnext : Inv graph source ((finRange n).foldl (visit graph u) { st with queue }) fun _ => False := by
        refine ⟨h1.root, h1.queue, h1.tree, fun v hv => ?_⟩
        rcases h1.scanned v hv with hmem | rfl | hall
        · exact .inl hmem
        · exact .inr (.inr fun w hw => hscan w (mem_finRange w) hw)
        · exact .inr (.inr hall)
      rw [hq, length_cons] at hfuel
      have hsame : seen { st with queue } = seen st := rfl
      rw [hsame] at hcard
      dsimp only at hcard
      obtain ⟨st', hrun, hspec⟩ := bfsLoop_spec hnext (show n + _ < _ + fuel by omega)
      exact ⟨st', by rw [bfsLoop, hq]; exact hrun, hspec⟩

/-- The search finds the vertices that residual capacities lead to, and a tree of them. -/
theorem bfs_spec (graph : Fin n → Fin n → ℤ) (source sink : Fin n)
    (parent : Fin n → Option (Fin n)) :
    ∃ st, bfs graph source sink parent = some (st.visited sink, st.parent) ∧ source ∈ seen st ∧
    (∃ depth, Tree graph source st depth) ∧ ∀ u ∈ seen st, ∀ v, 0 < graph u v → v ∈ seen st := by
  have hseen : seen (⟨update (fun _ => false) source true, [source], parent⟩ : Search n) = {source} := by
    ext v
    rw [mem_seen, Finset.mem_singleton]
    by_cases hv : v = source
    · simp [hv]
    · simp [hv]
  have hstart : Inv graph source ⟨update (fun _ => false) source true, [source], parent⟩ fun _ => False := by
    refine ⟨by rw [hseen]; exact Finset.mem_singleton_self _, fun u hu => ?_, ⟨fun _ =>
      0, fun v hv => ⟨?_, fun hne => ?_⟩⟩, fun u hu => ?_⟩
    · rw [hseen, Finset.mem_singleton]
      exact List.mem_singleton.mp hu
    · rw [hseen, card_singleton]
      exact Nat.one_pos
    · rw [hseen] at hv
      exact absurd (Finset.mem_singleton.mp hv) hne
    · rw [hseen] at hu
      exact .inl (List.mem_singleton.mpr (Finset.mem_singleton.mp hu))
  obtain ⟨st, hrun, hspec⟩ :=
    bfsLoop_spec hstart (show n + 1 < _ + (n + 1) by rw [hseen, card_singleton]; omega)
  exact ⟨st, by rw [bfs, hrun]; rfl, hspec⟩

/-! ### The way back -/

variable {parent : Fin n → Option (Fin n)} {depth : Fin n → ℕ} {es : List (Fin n × Fin n)} {v : Fin n}

theorem Tree.exists_up (h : Tree graph source st depth) (hv : v ∈ seen st) :
    ∃ es, Up st.parent depth source v es ∧ es.length ≤ depth v ∧ (∀ e ∈ es, 0 < graph e.1 e.2) := by
  obtain ⟨d, hd⟩ : ∃ d, depth v = d := ⟨_, rfl⟩
  induction d using Nat.strong_induction_on generalizing v with
  | _ d ih =>
    by_cases hvs : v = source
    · subst hvs
      exact ⟨[], .root, Nat.zero_le _, by simp⟩
    · obtain ⟨u, hu, hp, hpos, hlt⟩ := (h v hv).2 hvs
      obtain ⟨es, hup, hlen, hes⟩ := ih (depth u) (hd ▸ hlt) hu rfl
      refine ⟨(u, v) :: es, .step hvs hp hlt hup, ?_, forall_mem_cons.mpr ⟨hpos, hes⟩⟩
      rw [length_cons]
      omega

theorem pathLoop_eq (hup : Up parent depth source v es) : ∀ {fuel : ℕ} (pathFlow : Option ℤ),
    es.length < fuel → pathLoop graph parent source fuel pathFlow v =
    some (es.foldl (fun pf e => minFlow pf (graph e.1 e.2)) pathFlow) := by
  induction hup with
  | root =>
    intro fuel pathFlow hfuel
    obtain ⟨fuel, rfl⟩ := Nat.exists_eq_succ_of_ne_zero hfuel.ne_bot
    rw [pathLoop, if_neg (not_not.mpr rfl), foldl_nil]
  | @step u v es hv hp _ _ ih =>
    intro fuel pathFlow hfuel
    obtain ⟨fuel, rfl⟩ := Nat.exists_eq_succ_of_ne_zero (Nat.ne_zero_of_lt hfuel)
    rw [pathLoop, if_pos hv, hp]
    exact ih _ (Nat.lt_of_succ_lt_succ hfuel)

theorem minFlow_foldl : ∀ {es : List (Fin n × Fin n)} {m : ℤ}, 0 < m →
    (∀ e ∈ es, 0 < graph e.1 e.2) → ∃ f, es.foldl (fun pf e =>
    minFlow pf (graph e.1 e.2)) (some m) = some f ∧ 0 < f ∧ f ≤ m ∧ ∀ e ∈ es, f ≤ graph e.1 e.2
  | [], m, hm, _ => ⟨m, rfl, hm, le_rfl, by simp⟩
  | e :: es, m, hm, hes => by
    obtain ⟨f, hrun, hpos, hle, hall⟩ := minFlow_foldl (lt_min hm (hes e mem_cons_self))
      fun e' he' => hes e' (mem_cons_of_mem _ he')
    exact ⟨f, hrun, hpos, hle.trans (min_le_left _ _),
      forall_mem_cons.mpr ⟨hle.trans (min_le_right _ _), hall⟩⟩

theorem setCell_push {f : ℤ} (huv : u ≠ v) : setCell (setCell graph u v (graph u v - f)) v u
    (setCell graph u v (graph u v - f) v u + f) = push graph f u v := by
  have hcell : ∀ (g : Fin n → Fin n → ℤ) (a b : Fin n) (z : ℤ) (x y : Fin n),
      setCell g a b z x y = if x = a ∧ y = b then z else g x y := by
    intro g a b z x y
    unfold setCell
    by_cases hx : x = a
    · subst hx
      by_cases hy : y = b
      · simp [hy]
      · simp [hy]
    · simp [hx]
  funext x y
  rw [hcell, hcell, hcell, push]
  by_cases h1 : x = u ∧ y = v
  · obtain ⟨rfl, rfl⟩ := h1
    rw [if_neg fun h => huv h.1, if_pos ⟨rfl, rfl⟩, if_pos ⟨rfl, rfl⟩, if_neg fun h => huv h.1, add_zero]
  · by_cases h2 : x = v ∧ y = u
    · obtain ⟨rfl, rfl⟩ := h2
      rw [if_pos ⟨rfl, rfl⟩, if_neg h1, if_neg h1, if_pos ⟨rfl, rfl⟩, sub_zero]
    · rw [if_neg h2, if_neg h1, if_neg h1, if_neg h2, sub_zero, add_zero]

theorem augmentLoop_eq {f : ℤ} (hup : Up parent depth source v es) :
    ∀ {fuel : ℕ} (graph : Fin n → Fin n → ℤ), es.length < fuel →
    augmentLoop parent source f fuel graph v = some (pushAll graph f es) := by
  induction hup with
  | root =>
    intro fuel graph hfuel
    obtain ⟨fuel, rfl⟩ := Nat.exists_eq_succ_of_ne_zero hfuel.ne_bot
    rw [augmentLoop, if_neg (not_not.mpr rfl)]
    rfl
  | @step u v es hv hp hd _ ih =>
    intro fuel graph hfuel
    obtain ⟨fuel, rfl⟩ := Nat.exists_eq_succ_of_ne_zero (Nat.ne_zero_of_lt hfuel)
    have huv : u ≠ v := by
      rintro rfl
      exact absurd hd (lt_irrefl _)
    have hrest := ih
      (setCell (setCell graph u v (graph u v - f)) v u (setCell graph u v (graph u v - f) v u + f))
      (Nat.lt_of_succ_lt_succ hfuel)
    rw [augmentLoop, if_pos hv, hp]
    apply hrest.trans
    rw [setCell_push huv]
    rfl

/-! ### The outer loop -/

theorem augment_spec {r : Fin n → Fin n → ℤ} {value : ℤ}
    (h : Residual c r (demand source sink value)) (hne : sink ≠ source)
    (htree : Tree r source st depth) (hsink : sink ∈ seen st) :
    ∃ f r', 0 < f ∧ pathLoop r st.parent source (n + 1) none sink = some (some f) ∧
    augmentLoop st.parent source f (n + 1) r sink = some r' ∧
    Residual c r' (demand source sink (value + f)) ∧ ∀ u v, r u v - f ≤ r' u v := by
  obtain ⟨es, hup, hlen, hpos⟩ := htree.exists_up hsink
  have hfuel : es.length < n + 1 := by
    have hdepth := (htree sink hsink).1
    have hcard := card_le_univ (seen st)
    rw [Fintype.card_fin] at hcard
    omega
  have hmin : ∃ f, es.foldl (fun pf e => minFlow pf (r e.1 e.2)) none = some f ∧ 0 < f ∧
      ∀ e ∈ es, f ≤ r e.1 e.2 := by
    cases hup with
    | root => exact absurd rfl hne
    | @step u _ es _ _ _ _ =>
      obtain ⟨f, hrun, hf, hle, hall⟩ := minFlow_foldl (hpos _ mem_cons_self)
        fun e he => hpos e (mem_cons_of_mem _ he)
      exact ⟨f, hrun, hf, forall_mem_cons.mpr ⟨hle, hall⟩⟩
  obtain ⟨f, hfold, hf, hle⟩ := hmin
  refine ⟨f, pushAll r f es, hf, ?_, augmentLoop_eq hup r hfuel, ?_, fun u v => hup.sub_le_pushAll hf.le r⟩
  · rw [pathLoop_eq hup none hfuel, hfold]
  · have hall := Residual.pushAll hf.le hup h hle
    rwa [demand_add] at hall

/-- The loop ends with the residual capacities of a flow, and a cut that they do not lead over.  No
edge has lost more than the value of the flow. -/
theorem flowLoop_spec (hne : sink ≠ source) :
    ∀ {fuel : ℕ} {r : Fin n → Fin n → ℤ} {value : ℤ} (parent : Fin n → Option (Fin n)),
    Residual c r (demand source sink value) → (∀ u v, c u v - value ≤ r u v) → cut c {source} <
    value + fuel → ∃ value' r', flowLoop source sink fuel r parent value = some (value', r') ∧
    Residual c r' (demand source sink value') ∧ (∀ u v, c u v - value' ≤ r' u v) ∧
    ∃ S : Finset (Fin n), source ∈ S ∧ sink ∉ S ∧ ∀ u ∈ S, ∀ v, 0 < r' u v → v ∈ S
  | 0, r, value, parent, h, _, hfuel => by
    have := h.le_cut (Finset.mem_singleton_self source) (by rw [Finset.mem_singleton]; exact hne)
    omega
  | fuel + 1, r, value, parent, h, hlost, hfuel => by
    obtain ⟨st, hbfs, hsource, ⟨depth, htree⟩, hclosed⟩ := bfs_spec r source sink parent
    cases hfound : st.visited sink with
    | false =>
      refine ⟨value, r, ?_, h, hlost, seen st, hsource, by simp [mem_seen, hfound], hclosed⟩
      rw [flowLoop, hbfs]
      simp [hfound]
    | true =>
      obtain ⟨f, r', hf, hpath, haugment, h', hstep⟩ := augment_spec h hne htree (mem_seen.mpr hfound)
      have hlost' : ∀ u v, c u v - (value + f) ≤ r' u v := by
        intro u v
        have := hlost u v
        have := hstep u v
        omega
      have hfuel' : cut c {source} < value + f + (fuel : ℤ) := by
        omega
      obtain ⟨value', r'', hrun, hspec⟩ := flowLoop_spec hne st.parent h' hlost' hfuel'
      refine ⟨value', r'', ?_, hspec⟩
      rw [flowLoop, hbfs]
      simp [hfound, hpath, haugment, hrun]

theorem flowLoop_start (hgraph : ∀ u v, 0 ≤ graph u v) (hne : source ≠ sink) {fuel : ℕ}
    (hfuel : ∑ v, graph source v < fuel) :
    ∃ value r, flowLoop source sink fuel graph (fun _ => none) 0 = some (value, r) ∧
    Residual graph r (demand source sink value) ∧ (∀ u v, graph u v - value ≤ r u v) ∧
    ∃ S : Finset (Fin n), source ∈ S ∧ sink ∉ S ∧ ∀ u ∈ S, ∀ v, 0 < r u v → v ∈ S := by
  have hstart : Residual graph graph (demand source sink 0) := by
    have hzero : demand source sink 0 = 0 := by
      funext x
      simp [demand]
    rw [hzero]
    exact residual_self hgraph
  refine flowLoop_spec hne.symm (fun _ => none) hstart (fun u v =>
    (sub_zero _).le) (lt_of_le_of_lt ?_ (by rwa [zero_add]))
  rw [cut, Finset.sum_singleton]
  exact sum_le_univ_sum_of_nonneg (hgraph source)

theorem eq_zero_of_closed {r : Fin n → Fin n → ℤ} (hr : ∀ u v, 0 ≤ r u v) {S : Finset (Fin n)}
    (hS : ∀ u ∈ S, ∀ v, 0 < r u v → v ∈ S) : ∀ u ∈ S, ∀ v, v ∉ S → r u v = 0 := by
  intro u hu v hv
  by_contra hne
  exact hv (hS u hu v (lt_of_le_of_ne (hr u v) (Ne.symm hne)))

/-- The result is the value of a flow and of a least cut. -/
theorem fordFulkerson_maximum (n : ℕ) (graph : Fin n → Fin n → ℤ) (hgraph : ∀ u v, 0 ≤ graph u v)
    (source sink : Fin n) (hne : source ≠ sink) (fuel : ℕ) (hfuel : ∑ v, graph source v < fuel) :
    ∃ value, fordFulkerson fuel graph source sink = some value ∧
      (∃ g, IsFlow graph source sink g value) ∧
      IsLeast {d | ∃ S : Finset (Fin n), source ∈ S ∧ sink ∉ S ∧ d = cut graph S} value := by
  obtain ⟨value, r, hrun, h, _, S, hsource, hsink, hclosed⟩ := flowLoop_start hgraph hne hfuel
  refine ⟨value, by rw [fordFulkerson, hrun]; rfl, ⟨_, h.isFlow hgraph hne⟩, ?_⟩
  exact h.isLeast_cut hsource hsink (eq_zero_of_closed h.nonneg hclosed)

/-- Two ways from 0 to 3, over 1 and over 2. -/
def diamond : Fin 4 → Fin 4 → ℤ := ![![0, 1, 2, 0], ![0, 0, 0, 4], ![0, 0, 0, 5], ![0, 0, 0, 0]]

theorem fordFulkerson_maximum_diamond : fordFulkerson 4 diamond 0 3 = some 3 ∧
    ∃ value, fordFulkerson 4 diamond 0 3 = some value ∧ (∃ g, IsFlow diamond 0 3 g value) ∧
      IsLeast {d | ∃ S : Finset (Fin 4), 0 ∈ S ∧ 3 ∉ S ∧ d = cut diamond S} value :=
  ⟨by decide, fordFulkerson_maximum 4 diamond (by decide) 0 3 (by decide) 4 (by decide)⟩

end Code365.Algorithms.FordFulkerson
