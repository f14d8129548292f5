import Code365.Lib.DepthFirst

/-! # `articulation_points.py`: cut vertices

`computeAP` searches depth-first from the least vertex of each component.  `low[at]` is the least
*label* of the vertices below `at` and of their neighbours, and `at` is marked when no label below
one of its children is smaller than its own.  The roots are marked by the number of their children,
which is right.  Another vertex `at` is a cut vertex when no edge leads from below a child to a
vertex above `at`, and this need not have anything to do with the labels: the marks are right when
the labels grow along the search (`Grows`), and the path 0, 2, 1 has a cut vertex that is not found
(`computeAP_crossed`). -/

namespace Code365.Algorithms.ArticulationPoints

open List Function DepthFirst

variable {n : ℕ}

/-! ### Executable definitions -/

structure State (n : ℕ) where
  low : Fin n → ℕ
  visited : Fin n → Bool
  isArt : Fin n → Bool

/-- The first lines of `dfs`, with `v` for `at`. -/
def enter (v : Fin n) (s : State n) : State n :=
  { s with visited := update s.visited v true, low := update s.low v v }

def mark (v : Fin n) (s : State n) : State n :=
  { s with isArt := update s.isArt v true }

/-- The lines after the recursive call for the neighbour `w`, which is `to`. -/
def leave (v w : Fin n) (s : State n) : State n :=
  let s := { s with low := update s.low v (min (s.low v) (s.low w)) }
  let s := if (v : ℕ) < s.low w then mark v s else s
  if (v : ℕ) = s.low w then mark v s else s

/-- The last branch of the loop. -/
def lower (v w : Fin n) (s : State n) : State n :=
  { s with low := update s.low v (min (s.low v) w) }

/-- The loop over `l[at]`, with the recursive call as a parameter. -/
def edges (call : Fin n → Option (Fin n) → ℕ → State n → Option (ℕ × State n)) (v : Fin n)
    (parent : Option (Fin n)) : List (Fin n) → ℕ → State n → Option (ℕ × State n)
  | [], outEdgeCount, s => some (outEdgeCount, s)
  | w :: ws, outEdgeCount, s =>
    if some w = parent then edges call v parent ws outEdgeCount s
    else if s.visited w = false then do
      let r ← call w (some v) outEdgeCount s
      edges call v parent ws r.1 (leave v w r.2)
    else edges call v parent ws outEdgeCount (lower v w s)

/-- `dfs`, with a bound on the depth of the recursion; `none` is the parent `-1`. -/
def dfs (l : Fin n → List (Fin n)) (root : Fin n) : ℕ → Fin n → Option (Fin n) → ℕ → State n →
    Option (ℕ × State n)
  | 0, _, _, _, _ => none
  | fuel + 1, v, parent, outEdgeCount, s =>
    edges (dfs l root fuel) v parent (l v)
      (if parent = some root then outEdgeCount + 1 else outEdgeCount) (enter v s)

def start (n : ℕ) : State n where
  low := fun _ => 0
  visited := fun _ => false
  isArt := fun _ => false

/-- The loop of `computeAP` over the vertices. -/
def roots (l : Fin n → List (Fin n)) (fuel : ℕ) : List (Fin n) → State n → Option (State n)
  | [], s => some s
  | i :: is, s =>
    if s.visited i = false then do
      let r ← dfs l i fuel i none 0 s
      roots l fuel is { r.2 with isArt := update r.2.isArt i (decide (r.1 > 1)) }
    else roots l fuel is s

/-- The vertices that are printed. -/
def computeAP (fuel : ℕ) (l : Fin n → List (Fin n)) : Option (List (Fin n)) := do
  let s ← roots l fuel (List.finRange n) (start n)
  some ((List.finRange n).filter fun x => s.isArt x)

/-! ### The children of a vertex -/

/-- The vertices below the child `c` of `v`, when the search has come to `v` over those of `A`. -/
abbrev branch (l : Fin n → List (Fin n)) (A : Set (Fin n)) (v c : Fin n) : Set (Fin n) :=
  Part (Listed l) (insert v A)ᶜ c

/-- The vertices below `v`. -/
abbrev tree (l : Fin n → List (Fin n)) (A : Set (Fin n)) (v : Fin n) : Set (Fin n) := Part (Listed l) Aᶜ v

/-- No label in `S` or next to `S` is smaller than `b`. -/
def AtLeast (l : Fin n → List (Fin n)) (b : ℕ) (S : Set (Fin n)) : Prop := ∀ x ∈ S, b ≤ x ∧ ∀ y ∈ l x, b ≤ y

/-- A child has no label smaller than `v` below it or next to it: what `isArt` records. -/
def Marked (l : Fin n → List (Fin n)) (A : Set (Fin n)) (v : Fin n) : Prop :=
  ∃ c ∈ l v, c ∉ insert v A ∧ AtLeast l v (branch l A v c)

/-- `kids` are the vertices of `done` for which a call is made. -/
structure Kids (l : Fin n → List (Fin n)) (A : Set (Fin n)) (v : Fin n) (done kids : List (Fin n)) : Prop where
  mem : ∀ c ∈ kids, c ∈ done ∧ c ∉ insert v A
  apart : kids.Pairwise fun c d => d ∉ branch l A v c
  cover : ∀ x ∈ done, x ∉ insert v A → ∃ c ∈ kids, x ∈ branch l A v c
  first : ∀ pre c post, done = pre ++ c :: post → c ∉ insert v A → (∀ x ∈ pre, x ∉ branch l A v c) → c ∈ kids

variable {l : Fin n → List (Fin n)} {A B : Set (Fin n)} {v w root x c : Fin n} {done kids : List (Fin n)}
  (hsymm : ∀ x y, y ∈ l x → x ∈ l y)

theorem eq_append_cons_concat {pre post : List (Fin n)} (h : done ++ [w] = pre ++ c :: post) :
    (c = w ∧ pre = done) ∨ ∃ post', done = pre ++ c :: post' := by
  rcases eq_nil_or_concat post with rfl | ⟨post', z, rfl⟩
  · obtain ⟨rfl, hw⟩ := append_inj' h rfl
    exact .inl ⟨(List.cons.inj hw).1.symm, rfl⟩
  · rw [concat_eq_append, ← cons_append, ← append_assoc] at h
    exact .inr ⟨post', (append_inj' h rfl).1⟩

namespace Kids

theorem nil : Kids l A v [] [] :=
  ⟨by simp, List.Pairwise.nil, by simp, fun pre c post h => by simp at h⟩

theorem snoc (h : Kids l A v done kids) (hw : w ∉ insert v A)
    (hnew : ∀ c ∈ kids, w ∉ branch l A v c) : Kids l A v (done ++ [w]) (kids ++ [w]) := by
  refine ⟨?_, ?_, ?_, ?_⟩
  · exact forall_mem_append.mpr ⟨fun c hc => ⟨mem_append_left _ (h.mem c hc).1, (h.mem c hc).2⟩,
      forall_mem_singleton.mpr ⟨mem_append_right _ (mem_singleton_self w), hw⟩⟩
  · rw [pairwise_append]
    refine ⟨h.apart, pairwise_singleton _ _, ?_⟩
    intro c hc d hd
    rw [mem_singleton.mp hd]
    exact hnew c hc
  · intro x hx hxA
    rcases mem_append.mp hx with hx | hx
    · obtain ⟨c, hc, hxc⟩ := h.cover x hx hxA
      exact ⟨c, mem_append_left _ hc, hxc⟩
    · rw [mem_singleton.mp hx]
      exact ⟨w, mem_append_right _ (mem_singleton_self w), self_mem_part⟩
  · intro pre c post heq hc hpre
    rcases eq_append_cons_concat heq with ⟨rfl, rfl⟩ | ⟨post', heq⟩
    · exact mem_append_right _ (mem_singleton_self c)
    · exact mem_append_left _ (h.first pre c post' heq hc hpre)

theorem branch_subset (hc : c ∈ l v) (hcA : c ∉ insert v A) : branch l A v c ⊆ tree l A v := by
  intro x hx
  refine part_head hc (fun hA => hcA (Set.mem_insert_of_mem v hA)) (part_mono ?_ hx)
  exact Set.compl_subset_compl.mpr (Set.subset_insert v A)

theorem mem_tree_iff (h : Kids l A v (l v) kids) :
    x ∈ tree l A v ↔ x = v ∨ ∃ c ∈ kids, x ∈ branch l A v c := by
  constructor
  · intro hx
    obtain hxv | ⟨d, hvd, hd, hxd⟩ := part_cases hx
    · exact .inl hxv
    · rw [← compl_insert_eq] at hd hxd
      obtain ⟨c, hc, hdc⟩ := h.cover d hvd hd
      exact .inr ⟨c, hc, part_trans hdc hxd⟩
  · rintro (rfl | ⟨c, hc, hxc⟩)
    · exact self_mem_part
    · exact branch_subset (h.mem c hc).1 (h.mem c hc).2 hxc

theorem atLeast_iff (h : Kids l A v (l v) kids) (b : ℕ) : AtLeast l b (tree l A v) ↔
    (b ≤ v ∧ ∀ y ∈ l v, b ≤ y) ∧ ∀ c ∈ kids, AtLeast l b (branch l A v c) := by
  constructor
  · intro hb
    refine ⟨hb v self_mem_part, ?_⟩
    intro c hc x hx
    exact hb x (h.mem_tree_iff.mpr (.inr ⟨c, hc, hx⟩))
  · rintro ⟨hv, hkids⟩ x hx
    rcases h.mem_tree_iff.mp hx with rfl | ⟨c, hc, hxc⟩
    · exact hv
    · exact hkids c hc x hxc

include hsymm

/-- No call is made for a vertex that is above the children or below one of them already. -/
theorem skip (h : Kids l A v done kids)
    (hw : w ∈ insert v A ∨ ∃ c ∈ kids, w ∈ branch l A v c) : Kids l A v (done ++ [w]) kids := by
  refine ⟨fun c hc => ⟨mem_append_left _ (h.mem c hc).1, (h.mem c hc).2⟩, h.apart, ?_, ?_⟩
  · intro x hx hxA
    rcases mem_append.mp hx with hx | hx
    · exact h.cover x hx hxA
    · rw [mem_singleton.mp hx] at hxA ⊢
      exact hw.resolve_left hxA
  · intro pre c post heq hc hpre
    rcases eq_append_cons_concat heq with ⟨rfl, rfl⟩ | ⟨post', heq⟩
    · obtain ⟨d, hd, hcd⟩ := hw.resolve_left hc
      exact absurd (part_symm hsymm (h.mem d hd).2 hcd) (hpre d (h.mem d hd).1)
    · exact h.first pre c post' heq hc hpre

theorem branch_eq (h : Kids l A v done kids) {d : Fin n} (hc : c ∈ kids)
    (hd : d ∈ branch l A v c) : branch l A v d = branch l A v c :=
  part_eq_of_mem hsymm (h.mem c hc).2 hd

theorem marked_iff (h : Kids l A v (l v) kids) :
    Marked l A v ↔ ∃ c ∈ kids, AtLeast l v (branch l A v c) := by
  constructor
  · rintro ⟨d, hvd, hd, hleast⟩
    obtain ⟨c, hc, hdc⟩ := h.cover d hvd hd
    rw [h.branch_eq hsymm hc hdc] at hleast
    exact ⟨c, hc, hleast⟩
  · rintro ⟨c, hc, hleast⟩
    exact ⟨c, (h.mem c hc).1, (h.mem c hc).2, hleast⟩

theorem one_lt_length_iff (h : Kids l A v (l v) kids) : 1 < kids.length ↔
    ∃ c ∈ l v, ∃ d ∈ l v, c ∉ insert v A ∧ d ∉ insert v A ∧ d ∉ branch l A v c := by
  constructor
  · intro hlen
    match kids, hlen, h with
    | c :: d :: _, _, h =>
      have hc := h.mem c (by simp)
      have hd := h.mem d (by simp)
      exact ⟨c, hc.1, d, hd.1, hc.2, hd.2, (pairwise_cons.mp h.apart).1 d mem_cons_self⟩
  · rintro ⟨c, hvc, d, hvd, hc, hd, hcd⟩
    obtain ⟨k, hk, hck⟩ := h.cover c hvc hc
    obtain ⟨m, hm, hdm⟩ := h.cover d hvd hd
    by_contra hlen
    have hkm : m = k := by
      match kids, hlen, hk, hm with
      | [a], _, hk, hm => rw [mem_singleton.mp hk, mem_singleton.mp hm]
      | a :: b :: rest, hlen, _, _ => simp at hlen
    rw [hkm] at hdm
    rw [h.branch_eq hsymm hk hck] at hcd
    exact hcd hdm

omit hsymm

end Kids

/-! ### One call -/

/-- `dfs` is called for `v` over the vertices of `A`: those below `v` have not been visited. -/
structure Ready (l : Fin n → List (Fin n)) (A : Set (Fin n)) (v : Fin n) (parent : Option (Fin n))
    (s : State n) : Prop where
  above : ∀ x ∈ A, s.visited x = true
  fresh : ∀ x ∈ tree l A v, s.visited x = false
  unmarked : ∀ x, s.visited x = false → s.isArt x = false
  parent_mem : ∀ p, parent = some p → p ∈ A

/-- What the call leaves behind. -/
structure Searched (l : Fin n → List (Fin n)) (A : Set (Fin n)) (v : Fin n)
    (parent : Option (Fin n)) (s s' : State n) : Prop where
  visited_iff : ∀ x, s'.visited x = true ↔ s.visited x = true ∨ x ∈ tree l A v
  low_eq : ∀ x ∉ tree l A v, s'.low x = s.low x
  isArt_eq : ∀ x ∉ tree l A v, s'.isArt x = s.isArt x
  low_iff : ∀ b, (∀ p, parent = some p → b ≤ (p : ℕ)) → (b ≤ s'.low v ↔ AtLeast l b (tree l A v))
  marked_iff : ∀ B w, Below l A v B w → (s'.isArt w = true ↔ Marked l B w)

/-- The loop of the call for `v` in `s` has passed the edges to `done` and called `dfs` for
`kids`. -/
structure Scanned (l : Fin n → List (Fin n)) (A : Set (Fin n)) (v : Fin n) (parent : Option (Fin n))
    (s : State n)
    (done kids : List (Fin n)) (s' : State n) : Prop where
  children : Kids l A v done kids
  visited_iff : ∀ x, s'.visited x = true ↔ s.visited x = true ∨ x = v ∨ ∃ c ∈ kids, x ∈ branch l A v c
  low_eq : ∀ x ∉ tree l A v, s'.low x = s.low x
  isArt_eq : ∀ x ∉ tree l A v, s'.isArt x = s.isArt x
  unmarked : ∀ x, s'.visited x = false → s'.isArt x = false
  low_iff : ∀ b, (∀ p, parent = some p → b ≤ (p : ℕ)) →
    (b ≤ s'.low v ↔ (b ≤ v ∧ ∀ y ∈ done, b ≤ y) ∧ ∀ c ∈ kids, AtLeast l b (branch l A v c))
  isArt_iff : s'.isArt v = true ↔ ∃ c ∈ kids, AtLeast l v (branch l A v c)
  marked_iff : ∀ c ∈ kids, ∀ B w, Below l (insert v A) c B w → (s'.isArt w = true ↔ Marked l B w)

variable {parent : Option (Fin n)} {s s0 s' : State n}

theorem Ready.scanned (h : Ready l A v parent s) : Scanned l A v parent s [] [] (enter v s) := by
  have hv := h.fresh v self_mem_part
  refine ⟨Kids.nil, ?_, ?_, fun _ _ => rfl, ?_, ?_, ?_, by simp⟩
  · intro x
    by_cases hx : x = v <;> simp [enter, hx]
  · intro x hx
    have hxv : x ≠ v := fun hxv => hx (hxv ▸ self_mem_part)
    simp [enter, hxv]
  · intro x hx
    apply h.unmarked
    by_cases hxv : x = v
    · rw [hxv, hv]
    · simpa [enter, hxv] using hx
  · simp [enter]
  · simp [enter, h.unmarked v hv]

/-! ### After a call -/

theorem leave_visited (v w : Fin n) (s : State n) : (leave v w s).visited = s.visited := by
  simp only [leave]
  split_ifs <;> rfl

theorem leave_low (v w : Fin n) (s : State n) :
    (leave v w s).low = update s.low v (min (s.low v) (s.low w)) := by
  simp only [leave]
  split_ifs <;> rfl

theorem leave_isArt_of_ne (hx : x ≠ v) (w : Fin n) (s : State n) :
    (leave v w s).isArt x = s.isArt x := by
  simp only [leave]
  split_ifs <;> simp [mark, hx]

theorem leave_isArt_self (hvw : w ≠ v) (s : State n) :
    (leave v w s).isArt v = true ↔ s.isArt v = true ∨ (v : ℕ) ≤ s.low w := by
  simp only [leave, update_of_ne hvw]
  split_ifs with hlt heq heq <;> simp_all [mark, le_iff_lt_or_eq]

def unvisited (s : State n) : Finset (Fin n) := Finset.univ.filter fun x => s.visited x = false

theorem mem_unvisited : x ∈ unvisited s ↔ s.visited x = false := by
  simp [unvisited]

namespace Scanned

variable (h : Scanned l A v parent s0 done kids s)
include h

theorem not_mem_branch (hw : s.visited w = false) : ∀ c ∈ kids, w ∉ branch l A v c := by
  intro c hc hwc
  rw [(h.visited_iff w).mpr (.inr (.inr ⟨c, hc, hwc⟩))] at hw
  cases hw

/-- `low[at]` after the call takes in the labels below `w` and next to them. -/
theorem low_leave_iff (hv : v ∉ branch l A v w) (hcall : Searched l (insert v A) w (some v) s s')
    {b : ℕ} (hb : ∀ p, parent = some p → b ≤ (p : ℕ)) : b ≤ (leave v w s').low v ↔
    (b ≤ v ∧ ∀ y ∈ done ++ [w], b ≤ y) ∧ ∀ c ∈ kids ++ [w], AtLeast l b (branch l A v c) := by
  have hlow : b ≤ v → (b ≤ s'.low w ↔ AtLeast l b (branch l A v w)) := by
    intro hbv
    apply hcall.low_iff b
    rintro p ⟨⟩
    exact hbv
  have hself : AtLeast l b (branch l A v w) → b ≤ w := fun hleast => (hleast w self_mem_part).1
  rw [leave_low, update_self, le_min_iff, hcall.low_eq v hv, h.low_iff b hb, forall_mem_append,
    forall_mem_singleton, forall_mem_append, forall_mem_singleton]
  tauto

variable (h0 : Ready l A v parent s0)
include h0

theorem above : ∀ x ∈ insert v A, s.visited x = true := by
  rintro x (hxv | hxA)
  · exact (h.visited_iff x).mpr (.inr (.inl hxv))
  · exact (h.visited_iff x).mpr (.inl (h0.above x hxA))

theorem not_mem_above (hw : s.visited w = false) : w ∉ insert v A := by
  intro hwA
  rw [h.above h0 w hwA] at hw
  cases hw

theorem unvisited_ssubset : unvisited s ⊂ unvisited s0 := by
  refine Finset.ssubset_iff_subset_ne.mpr ⟨?_, ?_⟩
  · intro x hx
    rw [mem_unvisited] at hx ⊢
    rw [← Bool.not_eq_true, h.visited_iff] at hx
    rw [← Bool.not_eq_true]
    exact fun hx0 => hx (.inl hx0)
  · intro heq
    have hv := mem_unvisited.mpr (h0.fresh v self_mem_part)
    rw [← heq, mem_unvisited, ← Bool.not_eq_true, h.visited_iff] at hv
    exact hv (.inr (.inl rfl))

include hsymm

/-- The neighbour `w` has been visited before, and `low[at]` takes it into account unless it is the
parent. -/
theorem skip (hvw : w ∈ l v) (hw : s.visited w = true) (hvisited : s'.visited = s.visited)
    (hisArt : s'.isArt = s.isArt) (hlow : ∀ x ≠ v, s'.low x = s.low x)
    (hmin : ∀ b, (∀ p, parent = some p → b ≤ (p : ℕ)) → (b ≤ s'.low v ↔ b ≤ s.low v ∧ b ≤ w)) :
    Scanned l A v parent s0 (done ++ [w]) kids s' := by
  have hbelow : w ∈ insert v A ∨ ∃ c ∈ kids, w ∈ branch l A v c := by
    by_cases hwA : w ∈ insert v A
    · exact .inl hwA
    have hwt : w ∈ tree l A v := Kids.branch_subset hvw hwA self_mem_part
    rcases (h.visited_iff w).mp hw with hw0 | hwv | hwk
    · rw [h0.fresh w hwt] at hw0
      cases hw0
    · exact .inl (.inl hwv)
    · exact .inr hwk
  refine ⟨h.children.skip hsymm hbelow, ?_, ?_, ?_, ?_, ?_, ?_, ?_⟩
  · rw [hvisited]
    exact h.visited_iff
  · intro x hx
    rw [hlow x fun hxv => hx (hxv ▸ self_mem_part)]
    exact h.low_eq x hx
  · rw [hisArt]
    exact h.isArt_eq
  · rw [hvisited, hisArt]
    exact h.unmarked
  · intro b hb
    rw [hmin b hb, h.low_iff b hb, forall_mem_append, forall_mem_singleton]
    tauto
  · rw [hisArt]
    exact h.isArt_iff
  · rw [hisArt]
    exact h.marked_iff

theorem ready (hvw : w ∈ l v) (hw : s.visited w = false) : Ready l (insert v A) w (some v) s := by
  have hwA := h.not_mem_above h0 hw
  refine ⟨h.above h0, ?_, h.unmarked, ?_⟩
  · intro x hx
    rw [← Bool.not_eq_true, h.visited_iff]
    rintro (hx0 | hxv | ⟨c, hc, hxc⟩)
    · rw [h0.fresh x (Kids.branch_subset hvw hwA hx)] at hx0
      cases hx0
    · exact mem_of_part hwA hx (.inl hxv)
    · -- `w` would have been visited together with `x`
      exact h.not_mem_branch hw c hc (part_trans hxc (part_symm hsymm hwA hx))
  · intro p hp
    exact .inl (Option.some.inj hp).symm

theorem call (hvw : w ∈ l v) (hw : s.visited w = false)
    (hcall : Searched l (insert v A) w (some v) s s') :
    Scanned l A v parent s0 (done ++ [w]) (kids ++ [w]) (leave v w s') := by
  have hwA := h.not_mem_above h0 hw
  have hnew := h.not_mem_branch hw
  have hne : w ≠ v := fun hwv => hwA (.inl hwv)
  have hv : v ∉ branch l A v w := fun hv => mem_of_part hwA hv (Set.mem_insert v A)
  have hsub := Kids.branch_subset hvw hwA
  refine ⟨h.children.snoc hwA hnew, ?_, ?_, ?_, ?_, fun b hb => h.low_leave_iff hv hcall hb, ?_, ?_⟩
  · intro x
    rw [leave_visited, hcall.visited_iff, h.visited_iff]
    simp only [or_assoc, mem_append, mem_singleton, or_and_right, exists_or, exists_eq_left]
  · intro x hx
    have hxv : x ≠ v := fun hxv => hx (hxv ▸ self_mem_part)
    rw [leave_low, update_of_ne hxv, hcall.low_eq x fun hxw => hx (hsub hxw), h.low_eq x hx]
  · intro x hx
    have hxv : x ≠ v := fun hxv => hx (hxv ▸ self_mem_part)
    rw [leave_isArt_of_ne hxv, hcall.isArt_eq x fun hxw => hx (hsub hxw), h.isArt_eq x hx]
  · intro x hx
    rw [leave_visited, ← Bool.not_eq_true, hcall.visited_iff, not_or, Bool.not_eq_true] at hx
    have hxv : x ≠ v := fun hxv => h.not_mem_above h0 hx.1 (.inl hxv)
    rw [leave_isArt_of_ne hxv, hcall.isArt_eq x hx.2]
    exact h.unmarked x hx.1
  · rw [leave_isArt_self hne, hcall.isArt_eq v hv, h.isArt_iff, hcall.low_iff v (by rintro p ⟨⟩; exact le_rfl)]
    simp only [mem_append, mem_singleton, or_and_right, exists_or, exists_eq_left]
  · intro c hc B x hB
    have hcA := ((h.children.snoc hwA hnew).mem c hc).2
    have hxc := hB.mem_part
    have hxv : x ≠ v := fun hxv => mem_of_part hcA hxc (.inl hxv)
    rw [leave_isArt_of_ne hxv]
    rcases mem_append.mp hc with hc | hc
    · have hxw : x ∉ branch l A v w := fun hxw => hnew c hc (part_trans hxc (part_symm hsymm hwA hxw))
      rw [hcall.isArt_eq x hxw]
      exact h.marked_iff c hc B x hB
    · rw [mem_singleton.mp hc] at hB
      exact hcall.marked_iff B x hB

end Scanned

/-! ### The whole run -/

/-- What the calls for the children of `v` add to `outEdgeCount`. -/
def tally (root v : Fin n) (kids : List (Fin n)) : ℕ := if v = root then kids.length else 0

theorem tally_append (root v : Fin n) (kids kids' : List (Fin n)) :
    tally root v (kids ++ kids') = tally root v kids + tally root v kids' := by
  simp only [tally, length_append]
  split_ifs <;> rfl

/-- `r` has the least label of its component. -/
def Least (l : Fin n → List (Fin n)) (r : Fin n) : Prop := ∀ x ∈ tree l ∅ r, r ≤ x

/-- Between two roots: whole components have been visited. -/
structure Rooted (l : Fin n → List (Fin n)) (s : State n) : Prop where
  closed : ∀ x y, s.visited x = true → y ∈ l x → s.visited y = true
  unmarked : ∀ x, s.visited x = false → s.isArt x = false
  root_iff : ∀ r, Least l r → s.visited r = true → (s.isArt r = true ↔ CutVertex (Listed l) r)
  marked_iff : ∀ r, Least l r → s.visited r = true → ∀ A v, Below l ∅ r A v → v ≠ r →
    (s.isArt v = true ↔ Marked l A v)

theorem Rooted.start (l : Fin n → List (Fin n)) : Rooted l (start n) := by
  refine ⟨?_, ?_, ?_, ?_⟩ <;> simp [ArticulationPoints.start]

theorem Rooted.visited_of_mem (h : Rooted l s) {y : Fin n} (hx : s.visited x = true)
    (hy : y ∈ tree l A x) : s.visited y = true :=
  part_induction (P := fun y => s.visited y = true) hx (fun a b _ ha hab _ => h.closed a b ha hab) hy

section symm

include hsymm

theorem Scanned.searched (h : Scanned l A v parent s0 (l v) kids s) :
    Searched l A v parent s0 s := by
  refine ⟨?_, h.low_eq, h.isArt_eq, ?_, ?_⟩
  · intro x
    rw [h.visited_iff, h.children.mem_tree_iff]
  · intro b hb
    rw [h.low_iff b hb, h.children.atLeast_iff]
  · intro B w hB
    cases hB with
    | self => rw [h.isArt_iff, h.children.marked_iff hsymm]
    | child hl hc hfirst hB => exact h.marked_iff _ (h.children.first _ _ _ hl hc hfirst) B w hB

/-- The loop over `l[at]`, for calls that do what `dfs` does. -/
theorem Scanned.edges (call : Fin n → Option (Fin n) → ℕ → State n → Option (ℕ × State n))
    (h0 : Ready l A v parent s0) (hcall : ∀ w count s, unvisited s ⊂ unvisited s0 →
    Ready l (insert v A) w (some v) s → ∃ s', call w (some v) count s =
    some (count + tally root v [w], s') ∧ Searched l (insert v A) w (some v) s s') :
    ∀ (ws done kids : List (Fin n)) (count : ℕ) (s : State n), (∀ w ∈ ws, w ∈ l v) →
    Scanned l A v parent s0 done kids s → ∃ new s', edges call v parent ws count s =
    some (count + tally root v new, s') ∧ Scanned l A v parent s0 (done ++ ws) (kids ++ new) s'
  | [], done, kids, count, s, _, h =>
    ⟨[], s, by simp [ArticulationPoints.edges, tally], by rwa [append_nil, append_nil]⟩
  | w :: ws, done, kids, count, s, hws, h => by
    have hvw := hws w mem_cons_self
    have hrest : ∀ w ∈ ws, w ∈ l v := fun w hw => hws w (mem_cons_of_mem _ hw)
    rw [ArticulationPoints.edges, append_cons]
    by_cases hparent : some w = parent
    · rw [if_pos hparent]
      have hw : s.visited w = true := (h.visited_iff w).mpr (.inl (h0.above w (h0.parent_mem w hparent.symm)))
      refine Scanned.edges call h0 hcall ws _ _ _ _ hrest (h.skip hsymm h0 hvw hw rfl rfl (fun _ _ => rfl) ?_)
      intro b hb
      exact ⟨fun hbv => ⟨hbv, hb w hparent.symm⟩, fun hbv => hbv.1⟩
    rw [if_neg hparent]
    by_cases hw : s.visited w = false
    · obtain ⟨s', hs', hsearched⟩ := hcall w count s (h.unvisited_ssubset h0) (h.ready hsymm h0 hvw hw)
      rw [if_pos hw, hs']
      obtain ⟨new, s'', hs'', hscanned⟩ :=
        Scanned.edges call h0 hcall ws _ _ (count + tally root v [w]) _ hrest
        (h.call hsymm h0 hvw hw hsearched)
      have htally := tally_append root v [w] new
      rw [singleton_append] at htally
      refine ⟨w :: new, s'', hs''.trans ?_, by rwa [append_cons kids w new]⟩
      rw [htally, add_assoc]
    · rw [if_neg hw]
      rw [Bool.not_eq_false] at hw
      refine Scanned.edges call h0 hcall ws _ _ _ _ hrest (h.skip hsymm h0 hvw hw rfl rfl ?_ ?_)
      · intro x hx
        exact update_of_ne hx _ _
      · intro b _
        simp [lower]

/-- A depth of the recursion as large as the number of vertices not visited is enough. -/
theorem dfs_spec (root : Fin n) : ∀ (fuel : ℕ) (A : Set (Fin n)) (v : Fin n)
    (parent : Option (Fin n)) (count : ℕ) (s : State n), (unvisited s).card ≤ fuel →
    root ∈ insert v A → Ready l A v parent s → ∃ kids s', dfs l root fuel v parent count s =
    some ((if parent = some root then count + 1 else count) + tally root v kids, s') ∧
    Kids l A v (l v) kids ∧ Searched l A v parent s s'
  | 0, A, v, parent, count, s, hfuel, _, h => by
    have hv := mem_unvisited.mpr (h.fresh v self_mem_part)
    rw [Finset.card_eq_zero.mp (Nat.le_zero.mp hfuel)] at hv
    exact absurd hv (Finset.notMem_empty v)
  | fuel + 1, A, v, parent, count, s, hfuel, hroot, h => by
    have hcall : ∀ w count s', unvisited s' ⊂ unvisited s → Ready l (insert v A) w (some v) s' →
        ∃ s'', dfs l root fuel w (some v) count s' = some (count + tally root v [w], s'') ∧
          Searched l (insert v A) w (some v) s' s'' := by
      intro w count s' hlt h'
      have hcard := Finset.card_lt_card hlt
      obtain ⟨kids, s'', hs'', _, hsearched⟩ :=
        dfs_spec root fuel (insert v A) w (some v) count s' (by omega) (Set.mem_insert_of_mem w hroot) h'
      refine ⟨s'', hs''.trans ?_, hsearched⟩
      have hw : w ≠ root := by
        rintro rfl
        have hfresh := h'.fresh w self_mem_part
        rw [h'.above w hroot] at hfresh
        cases hfresh
      simp only [tally, if_neg hw, Option.some.injEq, add_zero, length_singleton]
      split_ifs <;> rfl
    obtain ⟨kids, s', hs', hscanned⟩ :=
      Scanned.edges hsymm (dfs l root fuel) h hcall (l v) [] [] _ _ (fun _ hw => hw) h.scanned
    exact ⟨kids, s', hs', hscanned.children, hscanned.searched hsymm⟩

theorem Rooted.ready (h : Rooted l s) (hv : s.visited v = false) : Ready l ∅ v none s := by
  refine ⟨by simp, ?_, h.unmarked, by simp⟩
  intro x hx
  rw [← Bool.not_eq_true]
  intro hxv
  rw [h.visited_of_mem hxv (part_symm hsymm (by simp) hx)] at hv
  cases hv

theorem Least.eq {r : Fin n} (hr : Least l r) (hv : Least l v) (hrv : r ∈ tree l ∅ v) : r = v :=
  le_antisymm (hr v (part_symm hsymm (by simp) hrv)) (hv r hrv)

theorem Rooted.search (h : Rooted l s) (hv : s.visited v = false) (hleast : Least l v)
    (hkids : Kids l ∅ v (l v) kids) (hsearched : Searched l ∅ v none s s') :
    Rooted l { s' with isArt := update s'.isArt v (decide (kids.length > 1)) } := by
  have hold : ∀ x, s.visited x = true →
    x ∉ tree l ∅ v := fun x hx hxv => by simp [(h.ready hsymm hv).fresh x hxv] at hx
  have hkeep : ∀ x ∉ tree l ∅ v, update s'.isArt v (decide (kids.length > 1)) x = s.isArt x := by
    intro x hx
    have hxv : x ≠ v := fun hxv => hx (hxv ▸ self_mem_part)
    rw [update_of_ne hxv, hsearched.isArt_eq x hx]
  have hroot : ∀ r, Least l r → s'.visited r = true → s.visited r = true ∨ r = v := by
    intro r hr hrs
    rcases (hsearched.visited_iff r).mp hrs with hrs | hrv
    · exact .inl hrs
    · exact .inr (hr.eq hsymm hleast hrv)
  refine ⟨?_, ?_, ?_, ?_⟩
  · intro x y hx hxy
    rw [hsearched.visited_iff] at hx ⊢
    rcases hx with hx | hx
    · exact .inl (h.closed x y hx hxy)
    · exact .inr (part_tail hx hxy (by simp))
  · intro x hx
    rw [← Bool.not_eq_true, hsearched.visited_iff, not_or, Bool.not_eq_true] at hx
    simp only [hkeep x hx.2]
    exact h.unmarked x hx.1
  · intro r hr hrs
    rcases hroot r hr hrs with hrs | rfl
    · simp only [hkeep r (hold r hrs)]
      exact h.root_iff r hr hrs
    · simp only [update_self, decide_eq_true_eq]
      rw [gt_iff_lt, hkids.one_lt_length_iff hsymm, cutVertex_root_iff hsymm]
      simp only [branch, insert_empty_eq, Set.mem_singleton_iff, ne_eq]
  · intro r hr hrs A w hB hne
    rcases hroot r hr hrs with hrs | rfl
    · simp only [hkeep w (hold w (h.visited_of_mem hrs hB.mem_part))]
      exact h.marked_iff r hr hrs A w hB hne
    · simp only [update_of_ne hne]
      exact hsearched.marked_iff A w hB

theorem roots_spec {fuel : ℕ} (hfuel : n ≤ fuel) : ∀ (vs : List (Fin n)) (s : State n),
    vs.Pairwise (· < ·) → (∀ x, s.visited x = false → x ∈ vs) → Rooted l s →
    ∃ s', roots l fuel vs s = some s' ∧ Rooted l s' ∧ ∀ x, s'.visited x = true
  | [], s, _, hall, h => ⟨s, rfl, h, fun x => by simpa using hall x⟩
  | v :: vs, s, hsorted, hall, h => by
    rw [pairwise_cons] at hsorted
    rw [roots]
    by_cases hv : s.visited v = false
    · have hready := h.ready hsymm hv
      have hleast : Least l v := by
        intro x hx
        rcases mem_cons.mp (hall x (hready.fresh x hx)) with rfl | hx
        · exact le_rfl
        · exact (hsorted.1 x hx).le
      have hcard : (unvisited s).card ≤ fuel := (Finset.card_le_univ _).trans (by rwa [Fintype.card_fin])
      obtain ⟨kids, s', hs', hkids, hsearched⟩ :=
        dfs_spec hsymm v fuel ∅ v none 0 s hcard (Set.mem_insert v ∅) hready
      have hcount : (if none = some v then 0 + 1 else 0) + tally v v kids = kids.length := by simp [tally]
      rw [hcount] at hs'
      rw [if_pos hv, hs']
      refine roots_spec hfuel vs _ hsorted.2 ?_ (h.search hsymm hv hleast hkids hsearched)
      intro x hx
      rw [← Bool.not_eq_true, hsearched.visited_iff, not_or, Bool.not_eq_true] at hx
      apply (mem_cons.mp (hall x hx.1)).resolve_left
      rintro rfl
      exact hx.2 self_mem_part
    · rw [if_neg hv]
      refine roots_spec hfuel vs s hsorted.2 ?_ h
      intro x hx
      apply (mem_cons.mp (hall x hx)).resolve_left
      rintro rfl
      exact hv hx

theorem exists_least (v : Fin n) : ∃ r A, Least l r ∧ Below l ∅ r A v := by
  obtain ⟨r, hr, hmin⟩ :=
    (wellFounded_lt : WellFounded fun a b : Fin n => a < b).has_min (tree l ∅ v) ⟨v, self_mem_part⟩
  obtain ⟨A, hA⟩ := Below.exists_of_part hsymm (Set.notMem_empty r) (part_symm hsymm (by simp) hr)
  refine ⟨r, A, ?_, hA⟩
  intro x hx
  exact not_lt.mp (hmin x (part_trans hr hx))

end symm

/-- No edge leads from below some child of `v` to a vertex above `v`. -/
def CutsOff (l : Fin n → List (Fin n)) (A : Set (Fin n)) (v : Fin n) : Prop :=
  ∃ c ∈ l v, c ∉ insert v A ∧ ∀ x ∈ branch l A v c, ∀ y ∈ l x, y ∉ A

/-- Every vertex has a larger label than the vertices over which the search comes to it. -/
def Grows (l : Fin n → List (Fin n)) : Prop := ∀ r, Least l r → ∀ A v, Below l ∅ r A v → ∀ a ∈ A, a < v

section grows

variable {r : Fin n} (hgrows : Grows l) (hr : Least l r) (hB : Below l ∅ r A v)
include hsymm hgrows hr hB

theorem lt_of_mem_branch (hc : c ∈ l v) (hcA : c ∉ insert v A)
    (hx : x ∈ branch l A v c) : v < x := by
  have hxv : x ≠ v := fun hxv => mem_of_part hcA hx (.inl hxv)
  obtain ⟨C, hC⟩ := Below.exists_of_part hsymm (hB.not_mem (Set.notMem_empty r)) (Kids.branch_subset hc hcA hx)
  exact hgrows r hr C x (hB.trans hC) v (hC.mem_of_ne hxv)

/-- The edges from below a child lead to the vertices below it, to `v` and to those above `v`. -/
theorem cutsOff_iff_marked : CutsOff l A v ↔ Marked l A v := by
  constructor
  · rintro ⟨c, hc, hcA, hout⟩
    refine ⟨c, hc, hcA, ?_⟩
    intro x hx
    have hbelow : ∀ z ∈ branch l A v c, v < z := fun z hz => lt_of_mem_branch hsymm hgrows hr hB hc hcA hz
    refine ⟨(hbelow x hx).le, ?_⟩
    intro y hy
    by_cases hyA : y ∈ insert v A
    · rcases hyA with rfl | hyA
      · exact le_rfl
      · exact absurd hyA (hout x hx y hy)
    · exact (hbelow y (part_tail hx hy hyA)).le
  · rintro ⟨c, hc, hcA, hleast⟩
    refine ⟨c, hc, hcA, ?_⟩
    intro x hx y hy hyA
    exact absurd (hgrows r hr A v hB y hyA) (not_lt.mpr ((hleast x hx).2 y hy))

end grows

/-- When the labels grow along the search, the vertices printed are those whose removal leaves more
components. -/
theorem computeAP_exact (n : ℕ) (G : SimpleGraph (Fin n)) (l : Fin n → List (Fin n))
    (hl : ∀ x y, y ∈ l x ↔ G.Adj x y) (hgrows : Grows l) (fuel : ℕ) (hfuel : n ≤ fuel) :
    ∃ printed, computeAP fuel l = some printed ∧ printed.Nodup ∧ ∀ v, v ∈ printed ↔
      Nat.card G.ConnectedComponent < Nat.card (G.induce {v}ᶜ).ConnectedComponent := by
  have hsymm : ∀ x y, y ∈ l x → x ∈ l y := fun x y hxy => (hl y x).mpr ((hl x y).mp hxy).symm
  have hadj : Listed l = G.Adj := by
    ext x y
    exact hl x y
  obtain ⟨s, hs, h, hall⟩ := roots_spec hsymm hfuel (List.finRange n) (start n) (pairwise_lt_finRange n)
    (fun x _ => mem_finRange x) (Rooted.start l)
  refine ⟨(List.finRange n).filter fun x => s.isArt x, ?_, (nodup_finRange n).filter _, ?_⟩
  · rw [computeAP, hs]
    rfl
  intro v
  have hmem : v ∈ (List.finRange n).filter (fun x => s.isArt x) ↔ s.isArt v = true := by simp
  rw [hmem, card_components_lt_iff, ← hadj]
  obtain ⟨r, A, hr, hB⟩ := exists_least hsymm v
  by_cases hne : v = r
  · rw [hne]
    exact h.root_iff r hr (hall r)
  · rw [h.marked_iff r hr (hall r) A v hB hne, hB.cutVertex_iff hsymm hne]
    exact (cutsOff_iff_marked hsymm hgrows hr hB).symm

/-- A triangle and a vertex that hangs on 1; the search goes from 0 to 1 and from there to 2 and to
3. -/
def kite : Fin 4 → List (Fin 4) := ![[1, 2], [0, 2, 3], [0, 1], [1]]

def kiteGraph : SimpleGraph (Fin 4) where
  Adj x y := y ∈ kite x
  symm := ⟨by decide⟩
  loopless := ⟨by decide⟩

/-- The vertices over which the search comes to each vertex of the kite. -/
def kiteAbove : Fin 4 → Set (Fin 4) := ![∅, {0}, {0, 1}, {0, 1}]

theorem least_kite {r : Fin 4} (hr : Least kite r) : r = 0 := by
  have h10 : (0 : Fin 4) ∈ tree kite ∅ 1 :=
    part_tail self_mem_part (show (0 : Fin 4) ∈ kite 1 by decide) (by simp)
  have hzero : (0 : Fin 4) ∈ tree kite ∅ r := by
    fin_cases r
    · exact self_mem_part
    · exact h10
    · exact part_tail self_mem_part (show (0 : Fin 4) ∈ kite 2 by decide) (by simp)
    · exact part_head (show (1 : Fin 4) ∈ kite 3 by decide) (by simp) h10
  exact Fin.le_zero_iff.mp (hr 0 hzero)

/-- From 0 the search does not go to 2, since 1 stands before it and is connected with it without
0. -/
theorem kite_child {v c : Fin 4} {pre post : List (Fin 4)} (hl : kite v = pre ++ c :: post)
    (hc : c ∉ insert v (kiteAbove v)) (hfirst : ∀ x ∈ pre, x ∉ branch kite (kiteAbove v) v c) :
    insert v (kiteAbove v) = kiteAbove c := by
  have h21 : (1 : Fin 4) ∈ branch kite ∅ 0 2 :=
    part_tail self_mem_part (show (1 : Fin 4) ∈ kite 2 by decide) (by simp)
  by_cases hv : v = 0
  · subst hv
    cases pre with
    | nil =>
      obtain ⟨rfl, _⟩ := List.cons.inj hl
      simp [kiteAbove]
    | cons x pre =>
      obtain ⟨rfl, htail⟩ := List.cons.inj hl
      have hc2 : c ∈ [(2 : Fin 4)] := htail ▸ mem_append_right pre mem_cons_self
      rw [mem_singleton.mp hc2] at hfirst
      exact absurd h21 (hfirst 1 mem_cons_self)
  · have hmem : c ∈ kite v := by simp [hl]
    revert hv hc hmem
    fin_cases v <;> fin_cases c <;> simp [kite, kiteAbove, Set.pair_comm (1 : Fin 4) 0]

theorem grows_kite : Grows kite := by
  have habove : ∀ {A B : Set (Fin 4)} {r v : Fin 4}, Below kite A r B v → A = kiteAbove r →
      B = kiteAbove v := by
    intro A B r v h
    induction h with
    | self => exact fun hA => hA
    | child hl hc hfirst _ ih =>
      rintro rfl
      exact ih (kite_child hl hc hfirst)
  intro r hr A v hB a ha
  obtain rfl := least_kite hr
  rw [habove hB rfl] at ha
  revert a
  fin_cases v <;> simp [kiteAbove]

theorem computeAP_exact_kite : computeAP 4 kite = some [1] ∧
      ∃ printed, computeAP 4 kite = some printed ∧ printed.Nodup ∧ ∀ v, v ∈ printed ↔
      Nat.card kiteGraph.ConnectedComponent < Nat.card (kiteGraph.induce {v}ᶜ).ConnectedComponent :=
  ⟨by decide, computeAP_exact 4 kiteGraph kite (fun _ _ => Iff.rfl) grows_kite 4 le_rfl⟩

/-- The graph at the end of the file. -/
example : computeAP 9 (![[1, 2], [0, 2], [0, 1, 3, 5], [2, 4], [3], [2, 6, 8], [5, 7], [6, 8],
    [5, 7]] : Fin 9 → List (Fin 9)) = some [2, 3, 5] := by decide

/-- The path 0, 2, 1. -/
def crossed : Fin 3 → List (Fin 3) := ![[2], [2], [0, 1]]

def crossedGraph : SimpleGraph (Fin 3) where
  Adj x y := y ∈ crossed x
  symm := ⟨by decide⟩
  loopless := ⟨by decide⟩

/-- Without vertex 2 the path falls apart, but nothing is printed. -/
theorem computeAP_crossed : computeAP 3 crossed = some [] ∧ Nat.card
      crossedGraph.ConnectedComponent < Nat.card (crossedGraph.induce {2}ᶜ).ConnectedComponent := by
  refine ⟨by decide, card_components_lt_iff.mpr ⟨0, 1, by decide, by decide, ?_, ?_⟩⟩
  · have h02 : (2 : Fin 3) ∈ Part crossedGraph.Adj Set.univ 0 :=
      part_tail self_mem_part (show (2 : Fin 3) ∈ crossed 0 by decide) (Set.mem_univ 2)
    exact part_tail h02 (show (1 : Fin 3) ∈ crossed 2 by decide) (Set.mem_univ 1)
  · intro h
    have h0 : (1 : Fin 3) = 0 := by
      refine part_induction (P := fun z => z = 0) rfl ?_ h
      rintro a b _ rfl hab hb
      have hb2 : b = 2 := mem_singleton.mp hab
      exact absurd hb2 hb
    exact absurd h0 (by decide)

end Code365.Algorithms.ArticulationPoints
