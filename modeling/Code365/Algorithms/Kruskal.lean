import Code365.Lib.CInt
import Code365.Lib.SpanningTree

/-! # `KruskalsAlgorithm.java`: a minimum spanning tree

The vertices are `0 .. V-1`, and the entries of `subsets` are again vertices, so that an index into
`subsets` is never out of range; an index into `edge` may be.  `Arrays.sort` is a function that
orders a list by `compareTo`, which is a difference of two values of type `int`.

The roots of `subsets` tell apart what the edges of `result` join, and each edge that has been
looked at is joined by edges of `result` that are no heavier (`Inv`).  So the choice is greedy in
the sense of `SpanningTree.sum_le_of_greedy`. -/

namespace Code365.Algorithms.Kruskal

open List Function CInt Forest SpanningTree

variable {V : ℕ}

structure Edge (V : ℕ) where
  src : Fin V
  dest : Fin V
  weight : ℤ
deriving DecidableEq, Repr

def compareTo (e compareEdge : Edge V) : ℤ := wrap (e.weight - compareEdge.weight)

/-- `parent` and `rank` of the entries. -/
structure Subsets (V : ℕ) where
  parent : Fin V → Fin V
  rank : Fin V → ℕ

/-- `find` returns the root, and changes `parent`; `none` if the calls are nested deeper than
`fuel`. -/
def find : ℕ → (Fin V → Fin V) → Fin V → Option (Fin V × (Fin V → Fin V))
  | 0, _, _ => none
  | fuel + 1, parent, i =>
    if parent i ≠ i then do
      let (r, parent) ← find fuel parent (parent i)
      let parent := update parent i r
      some (parent i, parent)
    else some (parent i, parent)

def Union (subsets : Subsets V) (x y : Fin V) : Option (Subsets V) := do
  let (xroot, parent) ← find V subsets.parent x
  let (yroot, parent) ← find V parent y
  let rank := subsets.rank
  some <|
    if rank xroot < rank yroot then ⟨update parent xroot yroot, rank⟩
    else if rank xroot > rank yroot then ⟨update parent yroot xroot, rank⟩
    else ⟨update parent yroot xroot, update rank xroot (rank xroot + 1)⟩

inductive Fault
  /-- `edge[i++]` with `i` past the array. -/
  | indexOutOfBounds
  | stackOverflow
deriving DecidableEq, Repr

/-- The body of the loop of `KruskalMST`, after `next_edge` has been read. -/
def step (subsets : Subsets V) (result : List (Edge V))
    (nextEdge : Edge V) : Option (Subsets V × List (Edge V)) := do
  let (x, parent) ← find V subsets.parent nextEdge.src
  let (y, parent) ← find V parent nextEdge.dest
  let subsets := { subsets with parent }
  if x ≠ y then do
    let subsets ← Union subsets x y
    some (subsets, result ++ [nextEdge])
  else some (subsets, result)

/-- The loop, on the edges from index `i` on; `e` is the length of `result`. -/
def loop (subsets : Subsets V) (result : List (Edge V)) : List (Edge V) → Except Fault (List (Edge V))
  | [] => if result.length < V - 1 then .error .indexOutOfBounds else .ok result
  | nextEdge :: edge =>
    if result.length < V - 1 then
      match step subsets result nextEdge with
      | none => .error .stackOverflow
      | some (subsets, result) => loop subsets result edge
    else .ok result

/-- The edges that are printed; `sort` is `Arrays.sort`. -/
def kruskalMST (sort : List (Edge V) → List (Edge V)) (edge : List (Edge V)) : Except Fault (List (Edge V)) :=
  loop ⟨fun v => v, fun _ => 0⟩ [] (sort edge)

/-! ### `find` and `Union` -/

variable {parent parent' ρ : Fin V → Fin V} {subsets : Subsets V} {result : List (Edge V)} {e : Edge V}

theorem find_of_leads {n fuel : ℕ} {i r : Fin V} (h : Leads parent n i r) (hfuel : n < fuel) :
    ∃ parent', find fuel parent i = some (r, parent') ∧ Shorter parent parent' := by
  apply h.climb (fun fuel i res => find fuel parent i = some res) _ _ hfuel
  · intro fuel r hr
    rw [find, if_neg (not_not.mpr hr), hr]
  · intro fuel i r parent' hi hrun
    rw [find, if_pos hi, hrun]
    simp

theorem find_spec (h : Represents parent ρ) (i : Fin V) :
    ∃ parent', find V parent i = some (ρ i, parent') ∧ Represents parent' ρ := by
  obtain ⟨n, hi⟩ := h i
  have hlt := hi.lt_card
  rw [Fintype.card_fin] at hlt
  obtain ⟨parent', hrun, hshort⟩ := find_of_leads hi hlt
  exact ⟨parent', hrun, h.shorter hshort⟩

theorem root_root (h : Represents parent ρ) (i : Fin V) :
    ρ (ρ i) = ρ i := h.mem_tree_iff.mp ⟨0, .root (h.isRoot i)⟩

theorem Union_spec (h : Represents subsets.parent ρ) {x y : Fin V} (hxy : ρ x ≠ ρ y) :
    ∃ subsets' ρ', Union subsets x y = some subsets' ∧ Represents subsets'.parent ρ' ∧
    Merges ρ ρ' x y := by
  obtain ⟨parent1, hfind1, h1⟩ := find_spec h x
  obtain ⟨parent2, hfind2, h2⟩ := find_spec h1 y
  have hx := h2.isRoot x
  have hy := h2.isRoot y
  -- one of the two roots is put below the other
  obtain ⟨s, hrun, hlink⟩ : ∃ s, Union subsets x y = some s ∧
      (s.parent = update parent2 (ρ x) (ρ y) ∨ s.parent = update parent2 (ρ y) (ρ x)) := by
    rw [Union, hfind1]
    simp only [Option.bind_eq_bind, Option.bind_some, hfind2]
    refine ⟨_, rfl, ?_⟩
    split_ifs
    · exact .inl rfl
    · exact .inr rfl
    · exact .inr rfl
  rcases hlink with hlink | hlink
  · exact ⟨s, redirect ρ (ρ x) (ρ y), hrun, hlink ▸ h2.link hx hy hxy, merges_redirect ρ x y⟩
  · exact ⟨s, redirect ρ (ρ y) (ρ x), hrun, hlink ▸ h2.link hy hx hxy.symm, (merges_redirect ρ y x).symm⟩

/-! ### The loop -/

/-- The edges as pairs of vertices. -/
def ends (e : Edge V) : Fin V × Fin V := (e.src, e.dest)

/-- The state after the edges `done`. -/
structure Inv (done : List (Edge V)) (subsets : Subsets V) (result : List (Edge V)) : Prop where
  roots : ∃ ρ, Represents subsets.parent ρ ∧ ∀ x y, ρ x = ρ y ↔ Joins (result.map ends) x y
  count : result.length + classes (result.map ends) = V
  sublist : result.Sublist done
  greedy : ∀ e ∈ done, Joins ((result.filter fun k => k.weight ≤ e.weight).map ends) e.src e.dest

theorem inv_start : Inv [] (⟨fun v => v, fun _ => 0⟩ : Subsets V) [] := by
  have hnil : ∀ x y : Fin V, x = y ↔ Joins (([] : List (Edge V)).map ends) x y :=
    Forest.eq_iff_eqvGen fun _ _ => not_mem_nil
  refine ⟨⟨fun x => x, fun x => ⟨0, .root rfl⟩, hnil⟩, ?_, .refl [], by simp⟩
  rw [map_nil, classes_nil, length_nil, zero_add, Nat.card_eq_fintype_card, Fintype.card_fin]

theorem joins_concat {x y : Fin V} : Joins ((result ++ [e]).map ends) x y ↔
    Relation.EqvGen (fun x y => (x, y) ∈ result.map ends ∨ x = e.src ∧ y = e.dest) x y := by
  have hrel : (fun x y => (x, y) ∈ (result ++ [e]).map ends) =
      fun x y => (x, y) ∈ result.map ends ∨ x = e.src ∧ y = e.dest := by
    funext x y
    rw [map_append, mem_append, map_singleton, mem_singleton, ends, Prod.mk.injEq]
  rw [Joins, hrel]

theorem classes_concat (h : ¬ Joins (result.map ends) e.src e.dest) :
    classes ((result ++ [e]).map ends) + 1 = classes (result.map ends) := by
  have hperm : ((result ++ [e]).map ends).Perm ((e.src, e.dest) :: result.map ends) := by
    rw [map_append]
    exact perm_append_comm
  rw [classes_perm hperm, classes_cons_of_not_joins h]

variable {done rest : List (Edge V)}

theorem Inv.filter_eq (h : Inv done subsets result) (hle : ∀ k ∈ done, k.weight ≤ e.weight) :
    result.filter (fun k => k.weight ≤ e.weight) = result :=
  filter_eq_self.mpr fun k hk => by simpa using hle k (h.sublist.subset hk)

theorem Inv.step (h : Inv done subsets result) (hle : ∀ k ∈ done, k.weight ≤ e.weight) :
    ∃ subsets' result', step subsets result e = some (subsets', result') ∧
    Inv (done ++ [e]) subsets' result' := by
  obtain ⟨ρ, hrep, hjoined⟩ := h.roots
  obtain ⟨parent1, hfind1, h1⟩ := find_spec hrep e.src
  obtain ⟨parent2, hfind2, h2⟩ := find_spec h1 e.dest
  have hrun : Kruskal.step subsets result e =
      if ρ e.src ≠ ρ e.dest then
        (Union ⟨parent2, subsets.rank⟩ (ρ e.src) (ρ e.dest)).bind fun s => some (s, result ++ [e])
      else some (⟨parent2, subsets.rank⟩, result) := by
    rw [Kruskal.step, hfind1]
    simp only [Option.bind_eq_bind, Option.bind_some, hfind2]
  by_cases hne : ρ e.src = ρ e.dest
  · refine ⟨_, result, by rw [hrun, if_neg (not_not.mpr hne)], ⟨ρ, h2, hjoined⟩, h.count, ?_, fun k hk => ?_⟩
    · exact h.sublist.trans (sublist_append_left _ _)
    · rcases mem_append.mp hk with hk | hk
      · exact h.greedy k hk
      · obtain rfl := mem_singleton.mp hk
        rw [h.filter_eq hle]
        exact (hjoined _ _).mp hne
  · have hroots : ρ (ρ e.src) ≠ ρ (ρ e.dest) := by rwa [root_root h2, root_root h2]
    obtain ⟨subsets', ρ', hunion, hrep', hmerge⟩ :=
      Union_spec (show Represents (⟨parent2, subsets.rank⟩ : Subsets V).parent ρ from h2) hroots
    simp only [Merges, root_root h2] at hmerge
    have hcount := classes_concat fun hj => hne ((hjoined _ _).mpr hj)
    refine ⟨subsets', result ++ [e], by rw [hrun, if_pos hne, hunion]; rfl, ⟨ρ',
      hrep', fun x y => ?_⟩, ?_, ?_, fun k hk => ?_⟩
    · rw [joins_concat]
      exact Merges.eqvGen hmerge hjoined x y
    · have := h.count
      rw [length_append, length_singleton]
      omega
    · exact h.sublist.append (.refl [e])
    · rcases mem_append.mp hk with hk | hk
      · refine (h.greedy k hk).of_subset (map_subset _ ?_)
        rw [filter_append]
        exact subset_append_left _ _
      · obtain rfl := mem_singleton.mp hk
        exact .of_mem (mem_map_of_mem (by simp))

/-- What the choice of edges has to be for `SpanningTree.sum_le_of_greedy`. -/
structure Chosen (edge result : List (Edge V)) : Prop where
  count : result.length = V - 1
  sublist : result.Sublist edge
  tree : IsTree (result.map ends)
  greedy : ∀ e ∈ edge, Joins ((result.filter fun k => k.weight ≤ e.weight).map ends) e.src e.dest

/-- As many edges as a tree has: the edges that have not been looked at are joined too. -/
theorem Inv.chosen (h : Inv done subsets result) (hV : 1 ≤ V) (hlen : ¬ result.length < V - 1)
    (hle : ∀ k ∈ done, ∀ e ∈ rest, k.weight ≤ e.weight) : Chosen (done ++ rest) result := by
  have hcard : Nat.card (Fin V) = V := by rw [Nat.card_eq_fintype_card, Fintype.card_fin]
  have hne : Nonempty (Fin V) := ⟨⟨0, hV⟩⟩
  have hcount := h.count
  have hclasses := classes_pos (result.map ends)
  have hconnected : Connected (result.map ends) := connected_iff.mpr (by omega)
  refine ⟨by omega, h.sublist.trans (sublist_append_left _ _), ⟨hconnected,
    acyclic_iff.mpr ?_⟩, fun e he => ?_⟩
  · rw [length_map, hcard]
    exact hcount
  · rcases mem_append.mp he with he | he
    · exact h.greedy e he
    · rw [h.filter_eq fun k hk => hle k hk e he]
      exact hconnected _ _

theorem loop_spec (hV : 1 ≤ V) : ∀ {rest done : List (Edge V)} {subsets : Subsets V}
    {result : List (Edge V)}, Inv done subsets result →
    (done ++ rest).Pairwise (fun a b => a.weight ≤ b.weight) → Connected ((done ++ rest).map ends) →
    ∃ result', loop subsets result rest = .ok result' ∧ Chosen (done ++ rest) result'
  | [], done, subsets, result, h, hsorted, hconnected => by
    have hlen : ¬ result.length < V - 1 := by
      have hne : Nonempty (Fin V) := ⟨⟨0, hV⟩⟩
      have hone := connected_iff.mp hconnected
      have hle : classes (result.map ends) ≤ classes ((done ++ []).map ends) := by
        apply classes_mono
        intro p hp
        rw [append_nil] at hp
        obtain ⟨e, he, rfl⟩ := mem_map.mp hp
        exact (h.greedy e he).of_subset (map_subset _ filter_sublist.subset)
      have := h.count
      omega
    exact ⟨result, if_neg hlen, h.chosen hV hlen (by simp)⟩
  | e :: rest, done, subsets, result, h, hsorted, hconnected => by
    have hle := (pairwise_append.mp hsorted).2.2
    by_cases hlen : result.length < V - 1
    · obtain ⟨subsets', result', hstep, h'⟩ := h.step fun k hk => hle k hk e mem_cons_self
      rw [append_cons] at hsorted hconnected ⊢
      obtain ⟨final, hfinal, hchosen⟩ := loop_spec hV h' hsorted hconnected
      exact ⟨final, by rw [loop, if_pos hlen, hstep]; exact hfinal, hchosen⟩
    · exact ⟨result, by rw [loop, if_neg hlen], h.chosen hV hlen hle⟩

/-! ### The result -/

/-- What is assumed of `Arrays.sort`, for weights on which `compareTo` is an order. -/
def SortsByCompareTo (sort : List (Edge V) → List (Edge V)) : Prop :=
  ∀ l, (∀ e ∈ l, 0 ≤ e.weight ∧ e.weight ≤ INT_MAX) → (sort l).Perm l ∧
    (sort l).Pairwise fun a b => compareTo a b ≤ 0

theorem compareTo_nonpos_iff {a b : Edge V} (ha : 0 ≤ a.weight ∧ a.weight ≤ INT_MAX)
    (hb : 0 ≤ b.weight ∧ b.weight ≤ INT_MAX) : compareTo a b ≤ 0 ↔ a.weight ≤ b.weight := by
  unfold INT_MAX at ha hb
  rw [compareTo, wrap_eq_self (by omega) (by omega), sub_nonpos]

theorem sortsByCompareTo_insertionSort :
    SortsByCompareTo fun l : List (Edge V) => l.insertionSort (·.weight ≤ ·.weight) := by
  intro l hl
  have hperm := perm_insertionSort (fun a b : Edge V => a.weight ≤ b.weight) l
  refine ⟨hperm, (pairwise_insertionSort (fun a b : Edge V => a.weight ≤ b.weight) l).imp_of_mem
    fun ha hb hab => ?_⟩
  exact (compareTo_nonpos_iff (hl _ (hperm.subset ha)) (hl _ (hperm.subset hb))).mpr hab

/-- In a connected graph the program selects a spanning tree of least weight. -/
theorem kruskalMST_minimum (V : ℕ) (hV : 1 ≤ V) (edge : List (Edge V)) (hweights : ∀ e ∈ edge, 0 ≤
    e.weight ∧ e.weight ≤ INT_MAX) (hconnected : Connected (edge.map ends))
    (sort : List (Edge V) → List (Edge V)) (hsort : SortsByCompareTo sort) :
    ∃ result, kruskalMST sort edge = .ok result ∧ result.length = V - 1 ∧ result.Subperm edge ∧
      IsTree (result.map ends) ∧ ∀ tree : List (Edge V), tree.Subperm edge →
      IsTree (tree.map ends) → (result.map Edge.weight).sum ≤ (tree.map Edge.weight).sum := by
  obtain ⟨hperm, hcompare⟩ := hsort edge hweights
  have hsorted : (sort edge).Pairwise fun a b => a.weight ≤ b.weight := by
    refine hcompare.imp_of_mem fun ha hb hab => ?_
    exact (compareTo_nonpos_iff (hweights _ (hperm.subset ha)) (hweights _ (hperm.subset hb))).mp hab
  have hconnected' : Connected ((sort edge).map ends) := fun x y =>
    (hconnected x y).of_subset (map_subset _ hperm.symm.subset)
  obtain ⟨result, hrun, hchosen⟩ := loop_spec hV inv_start hsorted hconnected'
  refine ⟨result, hrun, hchosen.count, hchosen.sublist.subperm.trans hperm.subperm,
    hchosen.tree, fun tree htree hT => ?_⟩
  have hne : Nonempty (Fin V) := ⟨⟨0, hV⟩⟩
  have hlen : result.length = tree.length := by
    have h1 := hchosen.tree.length_add_one
    have h2 := hT.length_add_one
    rw [length_map] at h1 h2
    omega
  apply sum_le_of_greedy ends Edge.weight hlen hT.acyclic
  intro e he
  exact hchosen.greedy e (hperm.symm.subset (htree.subset he))

local instance neZero_three : NeZero 3 := Nat.instNeZeroSucc

def triangle : List (Edge 3) := [⟨0, 1, 5⟩, ⟨1, 2, 1⟩, ⟨0, 2, 3⟩]

theorem kruskalMST_minimum_triangle : Connected (triangle.map ends) ∧
    ∃ result, kruskalMST (fun l => l.insertionSort (·.weight ≤ ·.weight)) triangle = .ok result ∧
      result.length = 2 ∧ result.Subperm triangle ∧ IsTree (result.map ends) ∧
      ∀ tree : List (Edge 3), tree.Subperm triangle → IsTree (tree.map ends) →
        (result.map Edge.weight).sum ≤ (tree.map Edge.weight).sum := by
  have hconnected : Connected (triangle.map ends) := by
    have hzero : ∀ x, Joins (triangle.map ends) 0 x := by
      intro x
      fin_cases x
      · exact .refl _
      · exact .of_mem (by decide)
      · exact .of_mem (by decide)
    exact fun x y => ((hzero x).symm _ _).trans _ _ _ (hzero y)
  exact ⟨hconnected,
    kruskalMST_minimum 3 (by decide) _ (by decide) hconnected _ sortsByCompareTo_insertionSort⟩

end Code365.Algorithms.Kruskal
