import Code365.Lib.BinaryTrees
import Code365.Lib.While

/-! # `MorrisInorder.cpp` (`algorithms/cpp/Datastructures`)

`morrisInorder` walks through a tree without a stack: before it enters the left subtree of a node,
it makes the last right pointer there point back to the node, and takes this back when it comes
along the pointer.  The addresses of the nodes are numbers; following `NULL` gives `none`, as does a
loop of more than `fuel` rounds.

`Own h t next` says that the heap holds the tree `t` of addresses, with the pointer `next` in the
place of the last right pointer of the tree.  From the root of such a part of the heap the loop
comes to `next`, has printed the part, and leaves the heap as it was (`rounds_own`); `next` is
`NULL` for the whole tree, and the node above for a left subtree. -/

namespace Code365.Algorithms.MorrisInorder

open Function BinaryTree BinaryTrees

/-- The members of the nodes. -/
structure Heap where
  data : ℕ → ℤ
  left : ℕ → Option ℕ
  right : ℕ → Option ℕ

def Heap.setRight (h : Heap) (a : ℕ) (p : Option ℕ) : Heap := { h with right := update h.right a p }

/-- The heap, `curr`, and the numbers printed so far. -/
structure State where
  heap : Heap
  curr : Option ℕ
  out : List ℤ

/-- The inner loop: the last node that is reached through right pointers from `temp` without coming
to `curr`. -/
def extremeRight (fuel : ℕ) (h : Heap) (curr temp : ℕ) : Option ℕ :=
  whileLoop (fun temp => (h.right temp).isSome && h.right temp ≠ some curr) h.right fuel temp

/-- The body of the outer loop. -/
def visit (fuel : ℕ) (s : State) : Option State := do
  let curr ← s.curr
  match s.heap.left curr with
  | none => return { s with curr := s.heap.right curr, out := s.out ++ [s.heap.data curr] }
  | some left =>
    let temp ← extremeRight fuel s.heap curr left
    if s.heap.right temp = none then
      let heap := s.heap.setRight temp (some curr)
      return { s with heap := heap, curr := heap.left curr }
    else if s.heap.right temp = some curr then
      let heap := s.heap.setRight temp none
      return { heap := heap, curr := heap.right curr, out := s.out ++ [s.heap.data curr] }
    else return s

/-- The heap afterwards, and the numbers that are printed. -/
def morrisInorder (fuel : ℕ) (h : Heap) (root : Option ℕ) : Option (Heap × List ℤ) := do
  let s ← whileLoop (fun s => s.curr.isSome) (visit fuel) fuel ⟨h, root, []⟩
  return (s.heap, s.out)

/-! ### Trees in the heap -/

variable {h : Heap} {a z curr fuel : ℕ} {l r t : BinaryTree ℕ} {next p : Option ℕ}

def address : BinaryTree ℕ → Option ℕ
  | nil => none
  | node a _ _ => some a

/-- The address of the last node in order. -/
def last : BinaryTree ℕ → ℕ
  | nil => 0
  | node a _ nil => a
  | node _ _ (node b x y) => last (node b x y)

/-- The pointers of the nodes are those of the tree, but the last right pointer is `next`. -/
def Own (h : Heap) : BinaryTree ℕ → Option ℕ → Prop
  | nil, _ => True
  | node a l r, next => h.left a = address l ∧ h.right a = (address r).or next ∧ Own h l none ∧ Own h r next

theorem exists_address (hne : t ≠ nil) : ∃ b, address t = some b := by
  cases t with
  | nil => exact absurd rfl hne
  | node b x y => exact ⟨b, rfl⟩

theorem last_mem : ∀ {t : BinaryTree ℕ}, t ≠ nil → last t ∈ inorder t
  | nil, hne => absurd rfl hne
  | node a l nil, _ => by simp [last]
  | node a l (node b x y), _ => by
    have hmem : last (node b x y) ∈ inorder (node b x y) := last_mem nofun
    exact List.mem_append_right _ (List.mem_cons_of_mem _ hmem)

theorem nodup_node : (inorder (node a l r)).Nodup ↔ (inorder l).Nodup ∧ (inorder r).Nodup ∧
    a ∉ inorder l ∧ a ∉ inorder r ∧ ∀ x ∈ inorder l, x ∉ inorder r := by
  rw [inorder_node, List.nodup_append, List.nodup_cons]
  grind

theorem own_setRight_of_not_mem : ∀ {t : BinaryTree ℕ} {next : Option ℕ}, z ∉ inorder t →
    Own h t next → Own (h.setRight z p) t next
  | nil, _, _, _ => trivial
  | node a l r, next, hz, ⟨hleft, hright, hl, hr⟩ => by
    rw [inorder_node, List.mem_append, List.mem_cons, not_or, not_or] at hz
    refine ⟨hleft, ?_, own_setRight_of_not_mem hz.1 hl, own_setRight_of_not_mem hz.2.2 hr⟩
    rw [← hright]
    exact update_of_ne (fun ha => hz.2.1 ha.symm) _ _

theorem own_setRight_last : ∀ {t : BinaryTree ℕ} {next : Option ℕ}, t ≠ nil → (inorder t).Nodup →
    Own h t next → Own (h.setRight (last t) p) t p
  | nil, _, hne, _, _ => absurd rfl hne
  | node a l nil, next, _, hnodup, ⟨hleft, hright, hl, hr⟩ => by
    obtain ⟨_, _, hal, _⟩ := nodup_node.mp hnodup
    exact ⟨hleft, update_self .., own_setRight_of_not_mem hal hl, trivial⟩
  | node a l (node b x y), next, _, hnodup, ⟨hleft, hright, hl, hr⟩ => by
    obtain ⟨_, hnodup', hal, har, hlr⟩ := nodup_node.mp hnodup
    have hne : node b x y ≠ nil := nofun
    have hlast : last (node b x y) ∈ inorder (node b x y) := last_mem hne
    refine ⟨hleft, ?_, own_setRight_of_not_mem (fun hmem => hlr _ hmem hlast) hl,
      own_setRight_last hne hnodup' hr⟩
    have hright' : h.right a = some b := hright
    have ha : a ≠ last (node b x y) := fun ha => har (ha ▸ hlast)
    exact (update_of_ne ha _ _).trans hright'

theorem own_right_last :
    ∀ {t : BinaryTree ℕ} {next : Option ℕ}, t ≠ nil → Own h t next → h.right (last t) = next
  | nil, _, hne, _ => absurd rfl hne
  | node _ _ nil, _, _, ⟨_, hright, _, _⟩ => hright
  | node _ _ (node b x y), _, _, ⟨_, _, _, hr⟩ => own_right_last (t := node b x y) nofun hr

/-- The inner loop finds the last node of the left subtree, whether its pointer leads back to `curr`
or is `NULL`. -/
theorem extremeRight_spec : ∀ {t : BinaryTree ℕ} {next : Option ℕ} {a fuel : ℕ}, address t =
    some a → Own h t next → (next = none ∨ next = some curr) → curr ∉ inorder t →
    t.numNodes < fuel → extremeRight fuel h curr a = some (last t)
  | _, _, _, 0, _, _, _, _, hfuel => absurd hfuel (Nat.not_lt_zero _)
  | nil, _, _, fuel + 1, ha, _, _, _, _ => by cases ha
  | node a l nil, next, _, fuel + 1, ha, ⟨_, hright, _, _⟩, hnext, _, _ => by
    cases ha
    have hright' : h.right a = next := hright
    rw [extremeRight, whileLoop, hright', if_neg]
    · rfl
    · rcases hnext with rfl | rfl <;> simp
  | node a l (node b x y), next, _, fuel + 1, ha, ⟨_, hright, _, hr⟩, hnext, hcurr, hfuel => by
    cases ha
    have hright' : h.right a = some b := hright
    rw [inorder_node, List.mem_append, List.mem_cons, not_or, not_or] at hcurr
    have hb : b ≠ curr := by
      rintro rfl
      exact hcurr.2.2 (by simp)
    have hfuel' : (node b x y).numNodes < fuel := by
      simp only [numNodes] at hfuel ⊢
      omega
    rw [extremeRight, whileLoop, hright', if_pos (by simpa using hb), Option.bind_some]
    have hlast := extremeRight_spec rfl hr hnext hcurr.2.2 hfuel'
    exact hlast

/-! ### The walk -/

abbrev Walk (fuel : ℕ) : ℕ → State → State → Prop := Rounds (fun s => s.curr.isSome) (visit fuel)

variable {out : List ℤ}

theorem visit_leftmost (hleft : h.left a = none) :
    visit fuel ⟨h, some a, out⟩ = some ⟨h, h.right a, out ++ [h.data a]⟩ := by
  simp [visit, hleft]

/-- Coming to a node from above, the loop leaves a pointer back to it and goes to the left
subtree. -/
theorem visit_enter (hne : l ≠ nil) (hleft : h.left a = address l) (hl : Own h l none)
    (ha : a ∉ inorder l) (hfuel : l.numNodes < fuel) :
    visit fuel ⟨h, some a, out⟩ = some ⟨h.setRight (last l) (some a), address l, out⟩ := by
  obtain ⟨b, hb⟩ := exists_address hne
  rw [hb] at hleft ⊢
  simp [visit, hleft, extremeRight_spec hb hl (.inl rfl) ha hfuel, own_right_last hne hl, Heap.setRight]

/-- Coming back along this pointer, the loop removes it, prints the node and goes on to the
right. -/
theorem visit_leave (out : List ℤ) (hne : l ≠ nil) (hleft : h.left a = address l)
    (hl : Own h l (some a)) (ha : a ∉ inorder l) (hfuel : l.numNodes < fuel) :
    visit fuel ⟨h, some a, out⟩ =
    some ⟨h.setRight (last l) none, (h.setRight (last l) none).right a, out ++ [h.data a]⟩ := by
  obtain ⟨b, hb⟩ := exists_address hne
  rw [hb] at hleft
  simp [visit, hleft, extremeRight_spec hb hl (.inr rfl) ha hfuel, own_right_last hne hl]

theorem setRight_setRight (hz : h.right z = none) : (h.setRight z p).setRight z none = h := by
  simp only [Heap.setRight, update_idem]
  rw [← hz, update_eq_self]

/-- The loop prints the tree and comes to `next`, with the heap as it was. -/
theorem rounds_own (out : List ℤ) (hnodup : (inorder t).Nodup) (hown : Own h t next)
    (hfuel : t.numNodes < fuel) : ∃ n, n ≤ 2 * t.numNodes ∧
    Walk fuel n ⟨h, (address t).or next, out⟩ ⟨h, next, out ++ (inorder t).map h.data⟩ := by
  induction t generalizing h next out with
  | nil => exact ⟨0, le_rfl, by simpa [address] using Rounds.refl _⟩
  | node a l r ihl ihr =>
    obtain ⟨hnodupl, hnodupr, hal, har, hlr⟩ := nodup_node.mp hnodup
    obtain ⟨hleft, hright, hl, hr⟩ := hown
    simp only [numNodes] at hfuel ⊢
    have hout : out ++ (inorder (node a l r)).map h.data =
        out ++ (inorder l).map h.data ++ [h.data a] ++ (inorder r).map h.data := by simp
    obtain ⟨n, hn, hwalk⟩ := ihr (out ++ (inorder l).map h.data ++ [h.data a]) hnodupr hr (by omega)
    rw [← hright] at hwalk
    rw [hout]
    by_cases hne : l = nil
    · subst hne
      rw [inorder_nil, List.map_nil, List.append_nil] at hwalk ⊢
      exact ⟨n + 1, by omega, Rounds.step rfl (visit_leftmost hleft) hwalk⟩
    -- the left subtree is walked through with the pointer from its last node back to `a`
    have hl' : Own (h.setRight (last l) (some a)) l (some a) := own_setRight_last hne hnodupl hl
    obtain ⟨m, hm, hwalkl⟩ := ihl out hnodupl hl' (by omega)
    have hentry : (address l).or (some a) = address l := by
      obtain ⟨b, hb⟩ := exists_address hne
      rw [hb, Option.some_or]
    have hleave := visit_leave (h :=
      h.setRight (last l) (some a)) (out ++ (inorder l).map h.data) hne hleft hl' hal
      (show l.numNodes < fuel by omega)
    rw [setRight_setRight (own_right_last hne hl)] at hleave
    rw [hentry] at hwalkl
    refine ⟨m + (n + 1) + 1, by omega, Rounds.step rfl (visit_enter hne hleft hl hal (by omega)) ?_⟩
    exact hwalkl.trans (Rounds.step rfl hleave hwalk)

/-- The traversal of a tree in the heap ends, prints the data in order and leaves the heap as it
was. -/
theorem morrisInorder_prints (h : Heap) (t : BinaryTree ℕ) (hnodup : (inorder t).Nodup)
    (hown : Own h t none) (fuel : ℕ) (hfuel : 2 * t.numNodes < fuel) :
    morrisInorder fuel h (address t) = some (h, (inorder t).map h.data) := by
  obtain ⟨n, hn, hwalk⟩ := rounds_own [] hnodup hown (show t.numNodes < fuel by omega)
  rw [Option.or_none] at hwalk
  rw [morrisInorder, hwalk.whileLoop_eq rfl (by omega)]
  rfl

theorem morrisInorder_prints_example :
    (inorder (node 2 (node 0 nil (node 1 nil nil)) (node 3 nil nil))).Nodup ∧
      ∃ h : Heap, Own h (node 2 (node 0 nil (node 1 nil nil)) (node 3 nil nil)) none ∧
        morrisInorder 9 h (some 2) = some (h, [7, 7, 5, 6]) := by
  let h : Heap :=
    { data := fun a => [7, 7, 5, 6].getD a 0
      left := fun a => if a = 2 then some 0 else none
      right := fun a => if a = 2 then some 3 else if a = 0 then some 1 else none }
  have hown : Own h (node 2 (node 0 nil (node 1 nil nil)) (node 3 nil nil)) none := by simp [Own, address, h]
  exact ⟨by decide, h, hown, morrisInorder_prints h _ (by decide) hown 9 (by decide)⟩

end Code365.Algorithms.MorrisInorder
