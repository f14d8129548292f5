import Code365.Lib.StrongComponents

/-! # `tarjans_scc.py`: strongly connected components

`strong_connect` numbers the vertices of one depth-first tree, from 0 again for every root, and
keeps those whose component is not complete yet on a stack.  `lowlink_of` takes over the *lowlink*
of a vertex on the stack, which may be smaller than its index; it is still the index of a vertex on
the stack that can be reached, and no edge from the part of the stack above `v` leads to an index
below `lowlink_of[v]`.  So where it equals the index of `v` at the end, `v` and what is above it is
a whole component. -/

namespace Code365.Algorithms.Tarjan

open List Function Relation

variable {n : ℕ}

/-! ### Executable definitions -/

/-- The variables of `tarjan`; the top of the stack comes first. -/
structure State (n : ℕ) where
  stack : List (Fin n)
  onStack : Fin n → Bool
  indexOf : Fin n → ℤ
  lowlinkOf : Fin n → ℤ
  components : List (List (Fin n))

/-- The first lines of `strong_connect`. -/
def visit (v : Fin n) (index : ℤ) (s : State n) : State n :=
  { s with
    indexOf := update s.indexOf v index
    lowlinkOf := update s.lowlinkOf v index
    stack := v :: s.stack
    onStack := update s.onStack v true }

/-- The assignment to `lowlink_of[v]` in both branches of the loop. -/
def lower (v w : Fin n) (s : State n) : State n :=
  { s with
    lowlinkOf := update s.lowlinkOf v
      (if s.lowlinkOf w < s.lowlinkOf v then s.lowlinkOf w else s.lowlinkOf v) }

/-- The loop over `g[v]`, with the recursive call as a parameter. -/
def scan (call : Fin n → ℤ → State n → Option (ℤ × State n)) (v : Fin n) :
    List (Fin n) → ℤ → State n → Option (ℤ × State n)
  | [], index, s => some (index, s)
  | w :: ws, index, s =>
    if s.indexOf w = -1 then do
      let r ← call w index s
      scan call v ws r.1 (lower v w r.2)
    else if s.onStack w then scan call v ws index (lower v w s)
    else scan call v ws index s

/-- The stack is popped until `v` is; `pop` on an empty stack raises an exception. -/
def popUntil (v : Fin n) : List (Fin n) → (Fin n → Bool) → List (Fin n) →
    Option (List (Fin n) × (Fin n → Bool) × List (Fin n))
  | [], _, _ => none
  | w :: stack, onStack, component =>
    let onStack := update onStack w false
    let component := component ++ [w]
    if w ≠ v then popUntil v stack onStack component else some (stack, onStack, component)

/-- The end of `strong_connect`. -/
def finish (v : Fin n) (s : State n) : Option (State n) :=
  if s.lowlinkOf v = s.indexOf v then do
    let (stack, onStack, component) ← popUntil v s.stack s.onStack []
    some { s with stack := stack, onStack := onStack, components := s.components ++ [component] }
  else some s

/-- `strong_connect(v, index)`, with a bound on the depth of the recursion. -/
def strongConnect (g : Fin n → List (Fin n)) : ℕ → Fin n → ℤ → State n → Option (ℤ × State n)
  | 0, _, _, _ => none
  | fuel + 1, v, index, s => do
    let r ← scan (strongConnect g fuel) v (g v) (index + 1) (visit v index s)
    let s ← finish v r.2
    some (r.1, s)

def start (n : ℕ) : State n where
  stack := []
  onStack := fun _ => false
  indexOf := fun _ => -1
  lowlinkOf := fun _ => -1
  components := []

/-- The loop of `tarjan` over the vertices. -/
def roots (g : Fin n → List (Fin n)) (fuel : ℕ) : List (Fin n) → State n → Option (State n)
  | [], s => some s
  | v :: vs, s =>
    if s.indexOf v = -1 then do
      let r ← strongConnect g fuel v 0 s
      roots g fuel vs r.2
    else roots g fuel vs s

def tarjan (fuel : ℕ) (g : Fin n → List (Fin n)) : Option (List (List (Fin n))) := do
  let s ← roots g fuel (List.finRange n) (start n)
  some s.components

/-! ### The invariant -/

/-- A path of edges leads from one vertex to the other. -/
abbrev Reaches (g : Fin n → List (Fin n)) : Fin n → Fin n → Prop := ReflTransGen fun x y => y ∈ g x

/-- The stack while the calls for the vertices of `path` are running and `index` is the next
number. -/
structure Stacked (g : Fin n → List (Fin n)) (path : Set (Fin n)) (index : ℤ) (s : State n) : Prop where
  nonneg : 0 ≤ index
  lt_index : ∀ x ∈ s.stack, s.indexOf x < index
  sorted : s.stack.Pairwise fun x y => s.indexOf y < s.indexOf x
  path_stack : ∀ x ∈ path, x ∈ s.stack
  reaches_later : ∀ x ∈ s.stack, ∀ y ∈ s.stack, s.indexOf x ≤ s.indexOf y → Reaches g x y
  reaches_path : ∀ y ∈ s.stack, ∃ x ∈ path, s.indexOf x ≤ s.indexOf y ∧ Reaches g y x
  low_le : ∀ x ∈ s.stack, s.lowlinkOf x ≤ s.indexOf x
  low_reached : ∀ x ∈ s.stack, ∃ u ∈ s.stack, s.indexOf u = s.lowlinkOf x ∧ Reaches g x u

/-- The whole state: what has been seen is on the stack or listed, and only the running calls still
have edges to vertices not seen yet. -/
structure Inv (g : Fin n → List (Fin n)) (path : Set (Fin n)) (index : ℤ) (s : State n) : Prop extends
    Stacked g path index s where
  onStack_iff : ∀ x, s.onStack x = true ↔ x ∈ s.stack
  seen_iff : ∀ x, s.indexOf x ≠ -1 ↔ x ∈ s.stack ∨ x ∈ s.components.flatten
  not_listed : ∀ x ∈ s.stack, x ∉ s.components.flatten
  closed : ∀ x, s.indexOf x ≠ -1 → x ∉ path → ∀ y ∈ g x, s.indexOf y ≠ -1
  listed : SinksFirst (fun x y => y ∈ g x) s.components

variable {g : Fin n → List (Fin n)} {path : Set (Fin n)} {index index' : ℤ} {s s' : State n} {v w x : Fin n}
  {new done : List (Fin n)}

namespace Stacked

/-- Only the numbers of the vertices on the stack matter. -/
theorem congr (h : Stacked g path index s) (hle : index ≤ index') (hstack : s'.stack = s.stack)
    (hindex : ∀ x ∈ s.stack, s'.indexOf x = s.indexOf x)
    (hlow : ∀ x ∈ s.stack, s'.lowlinkOf x = s.lowlinkOf x) : Stacked g path index' s' := by
  refine ⟨h.nonneg.trans hle, ?_, ?_, ?_, ?_, ?_, ?_, ?_⟩ <;> rw [hstack]
  · intro x hx
    rw [hindex x hx]
    exact (h.lt_index x hx).trans_le hle
  · apply h.sorted.imp_of_mem
    intro x y hx hy hxy
    rwa [hindex x hx, hindex y hy]
  · exact h.path_stack
  · intro x hx y hy hxy
    rw [hindex x hx, hindex y hy] at hxy
    exact h.reaches_later x hx y hy hxy
  · intro y hy
    obtain ⟨x, hx, hxy, hyx⟩ := h.reaches_path y hy
    refine ⟨x, hx, ?_, hyx⟩
    rwa [hindex x (h.path_stack x hx), hindex y hy]
  · intro x hx
    rw [hindex x hx, hlow x hx]
    exact h.low_le x hx
  · intro x hx
    obtain ⟨u, hu, hux, hxu⟩ := h.low_reached x hx
    exact ⟨u, hu, by rw [hindex u hu, hlow x hx, hux], hxu⟩

/-- A vertex that all the running calls lead to comes on top of the stack, with the next number. -/
theorem push (h : Stacked g path index s) (hpath : ∀ x ∈ path, Reaches g x v)
    (hstack : s'.stack = v :: s.stack) (hv : s'.indexOf v = index) (hlv : s'.lowlinkOf v = index)
    (hindex : ∀ x ∈ s.stack, s'.indexOf x = s.indexOf x)
    (hlow : ∀ x ∈ s.stack, s'.lowlinkOf x = s.lowlinkOf x) :
    Stacked g (insert v path) (index + 1) s' := by
  have hnew : Stacked g path index { s' with stack := s.stack } := h.congr le_rfl rfl hindex hlow
  have hlt : ∀ x ∈ s.stack, s'.indexOf x < index := hnew.lt_index
  have hnonneg := h.nonneg
  have hreach : ∀ x ∈ s.stack, Reaches g x v := by
    intro x hx
    obtain ⟨p, hp, _, hxp⟩ := h.reaches_path x hx
    exact hxp.trans (hpath p hp)
  refine ⟨by omega, ?_, ?_, ?_, ?_, ?_, ?_, ?_⟩ <;> rw [hstack]
  · rintro x (_ | ⟨_, hx⟩)
    · omega
    · have := hlt x hx
      omega
  · refine List.Pairwise.cons ?_ hnew.sorted
    intro x hx
    rw [hv]
    exact hlt x hx
  · rintro x (rfl | hx)
    · exact mem_cons_self
    · exact mem_cons_of_mem _ (h.path_stack x hx)
  · rintro x (_ | ⟨_, hx⟩) y (_ | ⟨_, hy⟩) hxy
    · exact ReflTransGen.refl
    · have := hlt y hy
      omega
    · exact hreach x hx
    · exact hnew.reaches_later x hx y hy hxy
  · rintro y (_ | ⟨_, hy⟩)
    · exact ⟨v, Set.mem_insert v path, le_rfl, ReflTransGen.refl⟩
    · obtain ⟨x, hx, hxy⟩ := hnew.reaches_path y hy
      exact ⟨x, Set.mem_insert_of_mem v hx, hxy⟩
  · rintro x (_ | ⟨_, hx⟩)
    · rw [hv, hlv]
    · exact hnew.low_le x hx
  · rintro x (_ | ⟨_, hx⟩)
    · exact ⟨v, mem_cons_self, by rw [hv, hlv], ReflTransGen.refl⟩
    · obtain ⟨u, hu, hux⟩ := hnew.low_reached x hx
      exact ⟨u, mem_cons_of_mem _ hu, hux⟩

/-- `lowlink_of[v]` may be lowered to the lowlink of `w` when that is the index of a vertex that `v`
reaches. -/
theorem lower (h : Stacked g path index s) (hlow : s.lowlinkOf w < s.lowlinkOf v → ∃ u ∈ s.stack,
    s.indexOf u = s.lowlinkOf w ∧ Reaches g v u) : Stacked g path index (lower v w s) := by
  refine { h with low_le := ?_, low_reached := ?_ }
  · intro x hx
    have hle := h.low_le x hx
    by_cases hxv : x = v
    · subst hxv
      simp only [Tarjan.lower, update_self]
      split_ifs <;> omega
    · simpa [Tarjan.lower, update_of_ne hxv] using hle
  · intro x hx
    by_cases hxv : x = v
    · subst hxv
      simp only [Tarjan.lower, update_self]
      split_ifs with hlt
      · exact hlow hlt
      · exact h.low_reached x hx
    · simpa [Tarjan.lower, update_of_ne hxv] using h.low_reached x hx

/-- The call for `v` ends, and `v` reaches a vertex with a smaller index. -/
theorem leave (h : Stacked g (insert v path) index s) (hv : v ∈ s.stack)
    (hlow : s.lowlinkOf v < s.indexOf v) : Stacked g path index s := by
  obtain ⟨u, hu, huv, hvu⟩ := h.low_reached v hv
  obtain ⟨p, hp, hpu, hup⟩ := h.reaches_path u hu
  have hpath : p ∈ path := by
    rcases hp with rfl | hp
    · omega
    · exact hp
  refine { h with path_stack := fun x hx => h.path_stack x (Set.mem_insert_of_mem v hx), reaches_path := ?_ }
  intro y hy
  obtain ⟨x, hx | hx, hxy, hyx⟩ := h.reaches_path y hy
  · subst hx
    exact ⟨p, hpath, by omega, hyx.trans (hvu.trans hup)⟩
  · exact ⟨x, hx, hxy, hyx⟩

theorem nodup (h : Stacked g path index s) : s.stack.Nodup := by
  apply h.sorted.imp
  rintro x y hxy rfl
  exact lt_irrefl _ hxy

end Stacked

theorem Inv.stack_eq_nil (h : Inv g ∅ index s) : s.stack = [] := by
  rw [eq_nil_iff_forall_not_mem]
  intro y hy
  obtain ⟨x, hx, _⟩ := h.reaches_path y hy
  exact hx

theorem Inv.seen_of_stack (h : Inv g path index s) (hx : x ∈ s.stack) : s.indexOf x ≠ -1 :=
  (h.seen_iff x).mpr (.inl hx)

theorem Inv.start (g : Fin n → List (Fin n)) : Inv g ∅ 0 (start n) := by
  refine ⟨⟨le_rfl, ?_, List.Pairwise.nil, ?_, ?_, ?_, ?_, ?_⟩, ?_, ?_, ?_, ?_, SinksFirst.nil⟩ <;>
    simp [Tarjan.start]

/-- Between two roots the stack is empty, so the numbers may start from 0 again. -/
theorem Inv.restart (h : Inv g ∅ index s) : Inv g ∅ 0 s := by
  have hnil := h.stack_eq_nil
  exact { h with nonneg := le_rfl, lt_index := fun x hx => absurd hx (by simp [hnil]) }

theorem Inv.visit (h : Inv g path index s) (hv : s.indexOf v = -1)
    (hpath : ∀ x ∈ path, Reaches g x v) : Inv g (insert v path) (index + 1) (visit v index s) := by
  have hne : ∀ x ∈ s.stack, x ≠ v := fun x hx hxv => h.seen_of_stack hx (hxv ▸ hv)
  have hpush : Stacked g (insert v path) (index + 1) (Tarjan.visit v index s) := by
    apply h.push hpath rfl (update_self _ _ _) (update_self _ _ _)
    · exact fun x hx => update_of_ne (hne x hx) _ _
    · exact fun x hx => update_of_ne (hne x hx) _ _
  refine ⟨hpush, ?_, ?_, ?_, ?_, h.listed⟩
  · intro x
    by_cases hx : x = v
    · simp [Tarjan.visit, hx]
    · simp [Tarjan.visit, hx, h.onStack_iff]
  · intro x
    by_cases hx : x = v
    · have := h.nonneg
      simp [Tarjan.visit, hx]
      omega
    · simp [Tarjan.visit, hx, h.seen_iff]
  · rintro x (_ | ⟨_, hx⟩)
    · intro hl
      exact ((h.seen_iff v).mpr (.inr hl)) hv
    · exact h.not_listed x hx
  · intro x hx hxp y hy
    rw [Set.mem_insert_iff, not_or] at hxp
    have hx' : s.indexOf x ≠ -1 := by simpa [Tarjan.visit, update_of_ne hxp.1] using hx
    have hy' := h.closed x hx' hxp.2 y hy
    have hyv : y ≠ v := fun hyv => hy' (hyv ▸ hv)
    simpa [Tarjan.visit, update_of_ne hyv] using hy'

theorem lower_le_left (v w : Fin n) (s : State n) : (lower v w s).lowlinkOf v ≤ s.lowlinkOf v := by
  simp only [lower, update_self]
  split_ifs <;> omega

theorem lower_le_right (v w : Fin n) (s : State n) : (lower v w s).lowlinkOf v ≤ s.lowlinkOf w := by
  simp only [lower, update_self]
  split_ifs <;> omega

theorem popUntil_append (v : Fin n) (rest : List (Fin n)) :
    ∀ (new : List (Fin n)) (onStack : Fin n → Bool) (component : List (Fin n)), v ∉ new →
    ∃ onStack', popUntil v (new ++ v :: rest) onStack component = some (rest, onStack',
    component ++ (new ++ [v])) ∧ ∀ x, onStack' x = true ↔ onStack x = true ∧ x ∉ new ++ [v]
  | [], onStack, component, _ => by
    refine ⟨update onStack v false, by simp [popUntil], ?_⟩
    intro x
    by_cases hx : x = v <;> simp [hx]
  | w :: new, onStack, component, hv => by
    rw [mem_cons, not_or] at hv
    obtain ⟨onStack', hpop, hiff⟩ :=
      popUntil_append v rest new (update onStack w false) (component ++ [w]) hv.2
    refine ⟨onStack', ?_, ?_⟩
    · have hwv : w ≠ v := fun h => hv.1 h.symm
      rw [cons_append, popUntil, if_pos hwv, hpop]
      simp
    · intro x
      rw [hiff x]
      by_cases hx : x = w <;> simp [hx]

/-! ### One call -/

/-- What `strong_connect(v, index)` leaves behind: `new` is what it adds to the stack. -/
structure Connected (g : Fin n → List (Fin n)) (path : Set (Fin n)) (v : Fin n) (index : ℤ)
    (s : State n) (index' : ℤ)
    (s' : State n) (new : List (Fin n)) : Prop where
  inv : Inv g path index' s'
  index_le : index ≤ index'
  stack_eq : s'.stack = new ++ s.stack
  indexOf_eq : ∀ x, s.indexOf x ≠ -1 → s'.indexOf x = s.indexOf x
  lowlinkOf_eq : ∀ x, s.indexOf x ≠ -1 → s'.lowlinkOf x = s.lowlinkOf x
  seen : s'.indexOf v ≠ -1
  low : v ∈ s'.stack ∨ index ≤ s'.lowlinkOf v
  bound : ∀ x ∈ new, ∀ y ∈ g x, y ∈ s.stack → s'.lowlinkOf v ≤ s.indexOf y

/-- The loop of `strong_connect(v, index)`, called in `s`, has passed the edges to `done`: `new` is
above `v`. -/
structure Scanned (g : Fin n → List (Fin n)) (path : Set (Fin n)) (v : Fin n) (index : ℤ)
    (s : State n) (done : List (Fin n))
    (index' : ℤ) (s' : State n) (new : List (Fin n)) : Prop where
  inv : Inv g (insert v path) index' s'
  index_lt : index < index'
  stack_eq : s'.stack = new ++ v :: s.stack
  indexOf_eq : ∀ x, s.indexOf x ≠ -1 → s'.indexOf x = s.indexOf x
  lowlinkOf_eq : ∀ x, s.indexOf x ≠ -1 → s'.lowlinkOf x = s.lowlinkOf x
  indexOf_self : s'.indexOf v = index
  seen : ∀ y ∈ done, s'.indexOf y ≠ -1
  bound_self : ∀ y ∈ done, y ∈ s.stack → s'.lowlinkOf v ≤ s.indexOf y
  bound : ∀ x ∈ new, ∀ y ∈ g x, y ∈ s.stack → s'.lowlinkOf v ≤ s.indexOf y

theorem Scanned.visit (h : Inv g path index s) (hv : s.indexOf v = -1)
    (hpath : ∀ x ∈ path, Reaches g x v) :
    Scanned g path v index s [] (index + 1) (visit v index s) [] := by
  have hne : ∀ x, s.indexOf x ≠ -1 → x ≠ v := fun x hx hxv => hx (hxv ▸ hv)
  refine ⟨h.visit hv hpath, by omega, rfl, ?_, ?_, update_self _ _ _, by simp, by simp, by simp⟩
  · intro x hx
    exact update_of_ne (hne x hx) _ _
  · intro x hx
    exact update_of_ne (hne x hx) _ _

namespace Scanned

variable {index0 : ℤ} {s0 : State n}

section

variable (h : Scanned g path v index0 s0 done index s new)
include h

theorem mem_stack {y : Fin n} (hy : y ∈ s0.stack) : y ∈ s.stack := by
  rw [h.stack_eq]
  exact mem_append_right _ (mem_cons_of_mem _ hy)

theorem self_mem_stack : v ∈ s.stack := by
  rw [h.stack_eq]
  exact mem_append_right _ mem_cons_self

theorem snoc (hseen : s.indexOf w ≠ -1) (hbound : w ∈ s0.stack → s.lowlinkOf v ≤ s0.indexOf w) :
    Scanned g path v index0 s0 (done ++ [w]) index s new := by
  refine { h with seen := ?_, bound_self := ?_ }
  · exact forall_mem_append.mpr ⟨h.seen, forall_mem_singleton.mpr hseen⟩
  · exact forall_mem_append.mpr ⟨h.bound_self, forall_mem_singleton.mpr hbound⟩

theorem lower (hv : s0.indexOf v = -1) (hlow : s.lowlinkOf w < s.lowlinkOf v →
    ∃ u ∈ s.stack, s.indexOf u = s.lowlinkOf w ∧ Reaches g v u) :
    Scanned g path v index0 s0 done index (lower v w s) new := by
  have hle := lower_le_left v w s
  refine { h with
    inv := { h.inv with toStacked := h.inv.toStacked.lower hlow }
    lowlinkOf_eq := ?_, bound_self := ?_, bound := ?_ }
  · intro x hx
    have hxv : x ≠ v := fun hxv => hx (hxv ▸ hv)
    rw [← h.lowlinkOf_eq x hx]
    exact update_of_ne hxv _ _
  · intro y hy hys
    exact hle.trans (h.bound_self y hy hys)
  · intro x hx y hy hys
    exact hle.trans (h.bound x hx y hy hys)

/-- After the call for `w`, a lowlink of `w` below that of `v` is the index of a vertex that `v`
reaches. -/
theorem low_of_call {top : List (Fin n)} (hvw : w ∈ g v)
    (hcall : Connected g (insert v path) w index s index' s' top)
    (hlt : s'.lowlinkOf w < s'.lowlinkOf v) :
    ∃ u ∈ s'.stack, s'.indexOf u = s'.lowlinkOf w ∧ Reaches g v u := by
  rcases hcall.low with hws | hge
  · obtain ⟨u, hu, huw, hwu⟩ := hcall.inv.low_reached w hws
    exact ⟨u, hu, huw, ReflTransGen.head hvw hwu⟩
  -- the component of `w` is complete, and its lowlink is an index that came after `v`
  have hle := h.inv.low_le v h.self_mem_stack
  have hself := h.indexOf_self
  have hindex := h.index_lt
  rw [hcall.lowlinkOf_eq v (h.inv.seen_of_stack h.self_mem_stack)] at hlt
  omega

theorem call {top : List (Fin n)} (hv : s0.indexOf v = -1) (hvw : w ∈ g v) (hw : s.indexOf w = -1)
    (h0 : Inv g path index0 s0) (hcall : Connected g (insert v path) w index s index' s' top) :
    Scanned g path v index0 s0 (done ++ [w]) index' (Tarjan.lower v w s') (top ++ new) := by
  have hvs := h.inv.seen_of_stack h.self_mem_stack
  have hseen : ∀ x, s0.indexOf x ≠ -1 → s.indexOf x ≠ -1 := fun x hx => by rwa [h.indexOf_eq x hx]
  have hleft := lower_le_left v w s'
  rw [hcall.lowlinkOf_eq v hvs] at hleft
  refine ⟨{ hcall.inv with toStacked := hcall.inv.toStacked.lower (h.low_of_call hvw hcall) },
    h.index_lt.trans_le hcall.index_le, ?_, ?_, ?_, ?_, ?_, ?_, ?_⟩
  · simp only [Tarjan.lower]
    rw [hcall.stack_eq, h.stack_eq, append_assoc]
  · intro x hx
    simp only [Tarjan.lower]
    rw [hcall.indexOf_eq x (hseen x hx), h.indexOf_eq x hx]
  · intro x hx
    have hxv : x ≠ v := fun hxv => hx (hxv ▸ hv)
    simp only [Tarjan.lower, update_of_ne hxv]
    rw [hcall.lowlinkOf_eq x (hseen x hx), h.lowlinkOf_eq x hx]
  · simp only [Tarjan.lower]
    rw [hcall.indexOf_eq v hvs, h.indexOf_self]
  · intro y hy
    simp only [Tarjan.lower]
    rcases mem_append.mp hy with hy | hy
    · rw [hcall.indexOf_eq y (h.seen y hy)]
      exact h.seen y hy
    · rw [mem_singleton.mp hy]
      exact hcall.seen
  · intro y hy hys
    rcases mem_append.mp hy with hy | hy
    · exact hleft.trans (h.bound_self y hy hys)
    · rw [mem_singleton.mp hy] at hys
      exact absurd hw (h.inv.seen_of_stack (h.mem_stack hys))
  · intro x hx y hy hys
    rcases mem_append.mp hx with hx | hx
    · have hle := hcall.bound x hx y hy (h.mem_stack hys)
      rw [h.indexOf_eq y (h0.seen_of_stack hys)] at hle
      exact (lower_le_right v w s').trans hle
    · exact hleft.trans (h.bound x hx y hy hys)

theorem stack_split : s.stack = (new ++ [v]) ++ s0.stack := by
  rw [h.stack_eq, ← append_cons]

theorem not_mem_top (hx : x ∈ s0.stack) : x ∉ new ++ [v] := by
  have hnodup := h.inv.nodup
  rw [h.stack_split, nodup_append'] at hnodup
  exact fun htop => hnodup.2.2 htop hx

theorem self_not_mem : v ∉ new := by
  have hnodup := h.inv.nodup
  rw [h.stack_eq, nodup_append'] at hnodup
  exact fun hv => hnodup.2.2 hv mem_cons_self

theorem not_mem_path (h0 : Inv g path index0 s0) (hx : x ∈ new) : x ∉ insert v path := by
  rintro (rfl | hp)
  · exact h.self_not_mem hx
  · exact h.not_mem_top (h0.path_stack x hp) (mem_append_left _ hx)

theorem mem_of_top (hx : x ∈ new ++ [v]) : x ∈ s.stack := by
  rw [h.stack_split]
  exact mem_append_left _ hx

end

/-! ### The end of a call -/

variable (h : Scanned g path v index0 s0 (g v) index s new)
include h

/-- No edge from `v` and what is above it leads below `lowlink_of[v]`. -/
theorem bound_top : ∀ x ∈ new ++ [v], ∀ y ∈ g x, y ∈ s0.stack → s.lowlinkOf v ≤ s0.indexOf y :=
  forall_mem_append.mpr ⟨h.bound, forall_mem_singleton.mpr h.bound_self⟩

/-- All the edges are done, and none of them lowered `lowlink_of[v]`: no edge leads from `v` and
what is above it down the stack. -/
theorem edge_of_root (h0 : Inv g path index0 s0) (hroot : s.lowlinkOf v = s.indexOf v) :
    ∀ x ∈ new ++ [v], ∀ y ∈ g x, y ∈ new ++ [v] ∨ y ∈ s.components.flatten := by
  intro x hx y hy
  have hseen : s.indexOf y ≠ -1 := by
    rcases mem_append.mp hx with hx | hx
    · exact h.inv.closed x (h.inv.seen_of_stack (h.mem_of_top (mem_append_left _ hx)))
        (h.not_mem_path h0 hx) y hy
    · rw [mem_singleton.mp hx] at hy
      exact h.seen y hy
  have hbound : y ∉ s0.stack := by
    intro hys
    have hlt := h0.lt_index y hys
    have hself := h.indexOf_self
    have hle := h.bound_top x hx y hy hys
    omega
  rcases (h.inv.seen_iff y).mp hseen with hys | hyl
  · rw [h.stack_split, mem_append] at hys
    exact .inl (hys.resolve_right hbound)
  · exact .inr hyl

theorem reaches_of_root (h0 : Inv g path index0 s0)
    (hroot : s.lowlinkOf v = s.indexOf v) : ∀ x ∈ new ++ [v], ∀ y ∈ new ++ [v], Reaches g x y := by
  -- what can be reached is never further down the stack
  have hclosed : ∀ x, x ∈ new ++ [v] ∨ x ∈ s.components.flatten → ∀ y, y ∈ g x →
      y ∈ new ++ [v] ∨ y ∈ s.components.flatten := by
    rintro x (hx | hx) y hy
    · exact h.edge_of_root h0 hroot x hx y hy
    · exact .inr (h.inv.listed.closed x hx y hy)
  have hto : ∀ x ∈ new ++ [v], Reaches g x v := by
    intro x hx
    obtain ⟨p, hp | hp, _, hxp⟩ := h.inv.reaches_path x (h.mem_of_top hx)
    · rwa [hp] at hxp
    · have hps := h0.path_stack p hp
      rcases of_reaches hclosed (.inl hx) hxp with hpn | hpl
      · exact absurd hpn (h.not_mem_top hps)
      · exact absurd hpl (h.inv.not_listed p (h.mem_stack hps))
  have hfrom : ∀ x ∈ new ++ [v], Reaches g v x := by
    intro x hx
    apply h.inv.reaches_later v h.self_mem_stack x (h.mem_of_top hx)
    rcases mem_append.mp hx with hxn | hxv
    · have hsorted := h.inv.sorted
      rw [h.stack_eq, pairwise_append] at hsorted
      exact (hsorted.2.2 x hxn v mem_cons_self).le
    · rw [mem_singleton.mp hxv]
  intro x hx y hy
  exact (hto x hx).trans (hfrom y hy)

theorem closed_left : ∀ x, s.indexOf x ≠ -1 → x ∉ path → ∀ y ∈ g x, s.indexOf y ≠ -1 := by
  intro x hx hxp y hy
  by_cases hxv : x = v
  · rw [hxv] at hy
    exact h.seen y hy
  · exact h.inv.closed x hx (by simp [hxv, hxp]) y hy

/-- `v` reaches further down the stack and stays there. -/
theorem connected_of_ne (hne : s.lowlinkOf v ≠ s.indexOf v) :
    Connected g path v index0 s0 index s (new ++ [v]) := by
  have hlt := lt_of_le_of_ne (h.inv.low_le v h.self_mem_stack) hne
  have hinv : Inv g path index s :=
    { h.inv with toStacked := h.inv.toStacked.leave h.self_mem_stack hlt, closed := h.closed_left }
  refine ⟨hinv, h.index_lt.le, h.stack_split, h.indexOf_eq, h.lowlinkOf_eq,
    h.inv.seen_of_stack h.self_mem_stack, .inl h.self_mem_stack, h.bound_top⟩

/-- `v` and what is above it are listed as a component. -/
theorem connected_of_eq (h0 : Inv g path index0 s0) (hroot : s.lowlinkOf v = s.indexOf v)
    {onStack : Fin n → Bool} (hon : ∀ x, onStack x = true ↔ s.onStack x = true ∧ x ∉ new ++ [v]) :
    Connected g path v index0 s0 index
    { s with stack := s0.stack, onStack := onStack, components := s.components ++ [new ++ [v]] }
    [] := by
  have hflat : (s.components ++ [new ++ [v]]).flatten = s.components.flatten ++ (new ++ [v]) := by simp
  have hnodup := h.inv.nodup
  rw [h.stack_split] at hnodup
  have hstacked : Stacked g path index
      { s with stack := s0.stack, onStack := onStack, components := s.components ++ [new ++ [v]] } :=
    h0.toStacked.congr h.index_lt.le rfl (fun x hx => h.indexOf_eq x (h0.seen_of_stack hx))
      fun x hx => h.lowlinkOf_eq x (h0.seen_of_stack hx)
  refine ⟨⟨hstacked, ?_, ?_, ?_, h.closed_left, ?_⟩, h.index_lt.le, rfl, h.indexOf_eq, h.lowlinkOf_eq,
    h.inv.seen_of_stack h.self_mem_stack, .inr ?_, by simp⟩
  · intro x
    rw [hon x, h.inv.onStack_iff, h.stack_split, mem_append]
    constructor
    · rintro ⟨hx, hnot⟩
      exact hx.resolve_left hnot
    · intro hx
      exact ⟨.inr hx, h.not_mem_top hx⟩
  · intro x
    simp only [hflat]
    rw [h.inv.seen_iff, h.stack_split]
    simp only [mem_append]
    tauto
  · intro x hx
    simp only [hflat]
    rw [mem_append, not_or]
    exact ⟨h.inv.not_listed x (h.mem_stack hx), h.not_mem_top hx⟩
  · exact h.inv.listed.append (by simp) (nodup_append'.mp hnodup).1 (fun x hx =>
      h.inv.not_listed x (h.mem_of_top hx))
      (h.reaches_of_root h0 hroot) (h.edge_of_root h0 hroot)
  · exact (hroot.trans h.indexOf_self).ge

theorem finish (h0 : Inv g path index0 s0) :
    ∃ s' top, finish v s = some s' ∧ Connected g path v index0 s0 index s' top := by
  rw [Tarjan.finish]
  split_ifs with hroot
  · obtain ⟨onStack, hpop, hon⟩ := popUntil_append v s0.stack new s.onStack [] h.self_not_mem
    rw [h.stack_eq, hpop]
    exact ⟨_, [], rfl, h.connected_of_eq h0 hroot hon⟩
  · exact ⟨s, new ++ [v], rfl, h.connected_of_ne hroot⟩

end Scanned

/-! ### The whole run -/

def unseen (s : State n) : Finset (Fin n) := Finset.univ.filter fun x => s.indexOf x = -1

theorem mem_unseen : x ∈ unseen s ↔ s.indexOf x = -1 := by
  simp [unseen]

theorem Scanned.unseen_ssubset {index0 : ℤ} {s0 : State n}
    (h : Scanned g path v index0 s0 done index s new) (hv : s0.indexOf v = -1) :
    unseen s ⊂ unseen s0 := by
  refine Finset.ssubset_iff_subset_ne.mpr ⟨?_, ?_⟩
  · intro x hx
    rw [mem_unseen] at hx ⊢
    by_contra hne
    exact hne ((h.indexOf_eq x hne).symm.trans hx)
  · intro heq
    have hmem := mem_unseen.mpr hv
    rw [← heq, mem_unseen] at hmem
    exact h.inv.seen_of_stack h.self_mem_stack hmem

theorem Scanned.scan (call : Fin n → ℤ → State n → Option (ℤ × State n)) {index0 : ℤ} {s0 : State n}
    (h0 : Inv g path index0 s0) (hv : s0.indexOf v = -1) (hpath : ∀ x ∈ path, Reaches g x v)
    (hcall : ∀ w index s, s.indexOf w = -1 → unseen s ⊂ unseen s0 → Inv g (insert v path) index s →
    (∀ x ∈ insert v path, Reaches g x w) → ∃ r top, call w index s = some r ∧
    Connected g (insert v path) w index s r.1 r.2 top) :
    ∀ (ws done new : List (Fin n)) (index : ℤ) (s : State n), (∀ w ∈ ws, w ∈ g v) →
    Scanned g path v index0 s0 done index s new → ∃ r new', scan call v ws index s = some r ∧
    Scanned g path v index0 s0 (done ++ ws) r.1 r.2 new'
  | [], done, new, index, s, _, h => ⟨(index, s), new, rfl, by rwa [append_nil]⟩
  | w :: ws, done, new, index, s, hws, h => by
    have hvw := hws w mem_cons_self
    have hrest : ∀ w ∈ ws, w ∈ g v := fun w hw => hws w (mem_cons_of_mem _ hw)
    rw [Tarjan.scan, append_cons]
    split_ifs with hw hon
    · have hto : ∀ x ∈ insert v path, Reaches g x w := by
        rintro x (rfl | hx)
        · exact ReflTransGen.single hvw
        · exact (hpath x hx).tail hvw
      obtain ⟨r, top, hr, hconn⟩ := hcall w index s hw (h.unseen_ssubset hv) h.inv hto
      rw [hr]
      exact Scanned.scan call h0 hv hpath hcall ws _ _ _ _ hrest (h.call hv hvw hw h0 hconn)
    · rw [h.inv.onStack_iff] at hon
      have hlower := h.lower (w := w) hv fun _ => by
        obtain ⟨u, hu, huw, hwu⟩ := h.inv.low_reached w hon
        exact ⟨u, hu, huw, ReflTransGen.head hvw hwu⟩
      refine Scanned.scan call h0 hv hpath hcall ws _ _ _ _ hrest (hlower.snoc hw ?_)
      intro hws0
      rw [← h.indexOf_eq w (h0.seen_of_stack hws0)]
      exact (lower_le_right v w s).trans (h.inv.low_le w hon)
    · refine Scanned.scan call h0 hv hpath hcall ws _ _ _ _ hrest (h.snoc hw ?_)
      intro hws0
      exact absurd ((h.inv.onStack_iff w).mpr (h.mem_stack hws0)) hon

/-- A depth of the recursion as large as the number of vertices without a number is enough. -/
theorem strongConnect_spec :
    ∀ (fuel : ℕ) (path : Set (Fin n)) (v : Fin n) (index : ℤ) (s : State n), (unseen s).card ≤
    fuel → Inv g path index s → s.indexOf v = -1 → (∀ x ∈ path, Reaches g x v) →
    ∃ r top, strongConnect g fuel v index s = some r ∧ Connected g path v index s r.1 r.2 top
  | 0, path, v, index, s, hfuel, h, hv, hpath => by
    have hmem := mem_unseen.mpr hv
    rw [Finset.card_eq_zero.mp (Nat.le_zero.mp hfuel)] at hmem
    exact absurd hmem (Finset.notMem_empty v)
  | fuel + 1, path, v, index, s, hfuel, h, hv, hpath => by
    obtain ⟨r, new, hr, hscanned⟩ := Scanned.scan (strongConnect g fuel) h hv hpath
      (fun w index' s' hw hsub h' hpath' => strongConnect_spec fuel _ w index' s'
        (by have := Finset.card_lt_card hsub; omega) h' hw hpath') (g v) [] [] _ _ (fun _ hw =>
        hw) (Scanned.visit h hv hpath)
    obtain ⟨s', top, hs', hconn⟩ := hscanned.finish h
    refine ⟨(r.1, s'), top, ?_, hconn⟩
    rw [strongConnect, hr]
    exact (congrArg (fun o => o.bind fun s => some (r.1, s)) hs').trans rfl

theorem roots_spec {fuel : ℕ} (hfuel : n ≤ fuel) :
    ∀ (vs : List (Fin n)) (s : State n), Inv g ∅ 0 s → ∃ s', roots g fuel vs s = some s' ∧
    Inv g ∅ 0 s' ∧ (∀ x, s.indexOf x ≠ -1 → s'.indexOf x ≠ -1) ∧ ∀ v ∈ vs, s'.indexOf v ≠ -1
  | [], s, h => ⟨s, rfl, h, fun _ hx => hx, by simp⟩
  | v :: vs, s, h => by
    rw [roots]
    split_ifs with hv
    · have hcard : (unseen s).card ≤ fuel := (Finset.card_le_univ _).trans (by rwa [Fintype.card_fin])
      obtain ⟨r, top, hr, hconn⟩ := strongConnect_spec fuel ∅ v 0 s hcard h hv (by simp)
      obtain ⟨s', hs', h', hkeeps, hseen⟩ := roots_spec hfuel vs r.2 hconn.inv.restart
      refine ⟨s', by rw [hr]; exact hs', h', ?_, ?_⟩
      · intro x hx
        exact hkeeps x (by rwa [hconn.indexOf_eq x hx])
      · rintro x (_ | ⟨_, hx⟩)
        · exact hkeeps v hconn.seen
        · exact hseen x hx
    · obtain ⟨s', hs', h', hkeeps, hseen⟩ := roots_spec hfuel vs s h
      refine ⟨s', hs', h', hkeeps, ?_⟩
      rintro x (_ | ⟨_, hx⟩)
      · exact hkeeps v hv
      · exact hseen x hx

/-- The lists returned are disjoint, not empty and hold all the vertices; each is one class of
mutual reachability; and no edge leads from one of them to a later one. -/
theorem tarjan_components (n : ℕ) (g : Fin n → List (Fin n)) (fuel : ℕ) (hfuel : n ≤ fuel) :
    ∃ components, tarjan fuel g = some components ∧
      (components.flatten.Nodup ∧ (∀ v, v ∈ components.flatten) ∧ ∀ c ∈ components, c ≠ []) ∧
      (∀ c ∈ components, ∀ x ∈ c, ∀ y, y ∈ c ↔ Reaches g x y ∧ Reaches g y x) ∧
      components.Pairwise fun c d => ∀ x ∈ c, ∀ y ∈ d, y ∉ g x := by
  obtain ⟨s, hs, h, _, hseen⟩ := roots_spec hfuel (List.finRange n) (start n) (Inv.start g)
  refine ⟨s.components, ?_, ⟨h.listed.nodup, ?_, h.listed.ne_nil⟩, ?_, h.listed.order⟩
  · rw [tarjan, hs]
    rfl
  · intro v
    have hv := (h.seen_iff v).mp (hseen v (mem_finRange v))
    rw [h.stack_eq_nil] at hv
    exact hv.resolve_left (not_mem_nil)
  · intro c hc x hx y
    exact h.listed.mem_iff hc hx y

/-- A cycle of two vertices and a vertex that leads into it. -/
def twoCycle (v : Fin 3) : List (Fin 3) := (List.finRange 3).filter fun w => w.val = (v.val + 1) % 2

theorem tarjan_components_twoCycle : tarjan 3 twoCycle = some [[1, 0], [2]] ∧
    ∃ components, tarjan 3 twoCycle = some components ∧
      (components.flatten.Nodup ∧ (∀ v, v ∈ components.flatten) ∧ ∀ c ∈ components, c ≠ []) ∧
      (∀ c ∈ components, ∀ x ∈ c, ∀ y, y ∈ c ↔ Reaches twoCycle x y ∧ Reaches twoCycle y x) ∧
      components.Pairwise fun c d => ∀ x ∈ c, ∀ y ∈ d, y ∉ twoCycle x :=
  ⟨by decide, tarjan_components 3 twoCycle 3 le_rfl⟩

/-- The test at the end of the file. -/
example : tarjan 7 (![[1, 3], [2], [0], [1, 4], [5, 6], [], [5]] : Fin 7 → List (Fin 7)) =
    some [[5], [6], [4], [3, 2, 1, 0]] := by decide

end Code365.Algorithms.Tarjan
