import Code365.Lib.BinaryTrees

/-! # `AVLtree.cpp` (`algorithms/cpp/Datastructures`)

The trees are those that the pointers of the nodes describe; `NULL` is `nil`, and following it gives
`none`.  The member `height` of a node is never read: the function `height` walks through the
subtree.

`insert` keeps the heights of two siblings from differing by more than one.  `deleteNode` keeps the
order and removes one occurrence of the key, but its comment `Balancing Tree after deletion` has no
code behind it: `deleteNode_balanced_iff` says for which trees and keys the result is balanced. -/

namespace Code365.Algorithms.AvlTree

open Multiset Option BinaryTree BinaryTrees

abbrev Node := BinaryTree ℤ

def createNode (data : ℤ) : Node := node data nil nil

def height : Node → ℤ
  | nil => 0
  | node _ l r => 1 + max (height l) (height r)

def getBalance : Node → Option ℤ
  | nil => none
  | node _ l r => some (height l - height r)

def rightRotate : Node → Option Node
  | node d (node e t u) r => some (node e t (node d u r))
  | _ => none

def leftRotate : Node → Option Node
  | node d l (node e u t) => some (node e (node d l u) t)
  | _ => none

/-- The data of the node that `minValue` returns. -/
def minValue : Node → Option ℤ
  | nil => none
  | node d nil _ => some d
  | node _ l _ => minValue l

/-- The lines of `insert` after the recursive call, for the node with `data`, `left` and `right`. -/
def rebalance (data : ℤ) (left right : Node) : Option Node := do
  let b ← getBalance (node data left right)
  if b > 1 then
    let left ← if (← getBalance left) < 0 then leftRotate left else some left
    rightRotate (node data left right)
  else if b < -1 then
    let right ← if (← getBalance right) > 0 then rightRotate right else some right
    leftRotate (node data left right)
  else return node data left right

def insert : Node → ℤ → Option Node
  | nil, item => some (createNode item)
  | node data left right, item => do
    if item < data then
      let left ← insert left item
      rebalance data left right
    else
      let right ← insert right item
      rebalance data left right

def deleteNode : Node → ℤ → Option Node
  | nil, _ => some nil
  | node data left right, key => do
    if key < data then
      let left ← deleteNode left key
      return node data left right
    else if key > data then
      let right ← deleteNode right key
      return node data left right
    else if right = nil then return left
    else if left = nil then return right
    else
      let temp ← minValue right
      let right ← deleteNode right temp
      return node temp left right

/-! ### Rotations -/

variable {data item : ℤ} {left right : Node}

theorem height_eq : ∀ t : Node, height t = t.height
  | nil => rfl
  | node _ l r => by
    rw [height, height_eq l, height_eq r, BinaryTree.height]
    omega

theorem getBalance_node (data : ℤ) (l r : Node) :
    getBalance (node data l r) = some ((l.height : ℤ) - r.height) := by
  rw [getBalance, height_eq, height_eq]

/-- What the repair makes of a node: a balanced tree with the same values in the same order, as high
as the higher of the two subtrees or one higher. -/
structure Repaired (data : ℤ) (left right t : Node) : Prop where
  inorder : inorder t = inorder (node data left right)
  balanced : Balanced t
  height : t.height = max left.height right.height ∨ t.height = max left.height right.height + 1

theorem rebalance_left (data : ℤ) (hl : Balanced left) (hr : Balanced right)
    (h : left.height = right.height + 2) :
    ∃ t, rebalance data left right = some t ∧ Repaired data left right t := by
  obtain ⟨e, a, u, rfl⟩ := height_pos (show 0 < BinaryTree.height left by omega)
  obtain ⟨ha, hu, hau, hua⟩ := hl
  have hb : ((node e a u).height : ℤ) - right.height > 1 := by omega
  by_cases hlt : (a.height : ℤ) - u.height < 0
  · obtain ⟨f, b, c, rfl⟩ := height_pos (show 0 < BinaryTree.height u by omega)
    obtain ⟨hb', hc, hbc, hcb⟩ := hu
    refine ⟨node f (node e a b) (node data c right), ?_, by simp, ?_, ?_⟩
    · simp only [rebalance, getBalance_node, bind_eq_bind, bind_some, hb, hlt, if_true,
        leftRotate, rightRotate]
    all_goals
      simp only [balanced_node, BinaryTree.height, ha, hb', hc, hr, true_and] at h hau hua hlt ⊢
      omega
  · refine ⟨node e a (node data u right), ?_, by simp, ?_, ?_⟩
    · simp only [rebalance, getBalance_node, bind_eq_bind, bind_some, hb, hlt, if_true, if_false, rightRotate]
    all_goals
      simp only [balanced_node, BinaryTree.height, ha, hu, hr, true_and] at h hau hua hlt ⊢
      omega

theorem rebalance_right (data : ℤ) (hl : Balanced left) (hr : Balanced right)
    (h : right.height = left.height + 2) :
    ∃ t, rebalance data left right = some t ∧ Repaired data left right t := by
  obtain ⟨e, u, a, rfl⟩ := height_pos (show 0 < BinaryTree.height right by omega)
  obtain ⟨hu, ha, hau, hua⟩ := hr
  have hb : ¬(left.height : ℤ) - (node e u a).height > 1 := by omega
  have hb' : (left.height : ℤ) - (node e u a).height < -1 := by omega
  by_cases hlt : (u.height : ℤ) - a.height > 0
  · obtain ⟨f, b, c, rfl⟩ := height_pos (show 0 < BinaryTree.height u by omega)
    obtain ⟨hb'', hc, hbc, hcb⟩ := hu
    refine ⟨node f (node data left b) (node e c a), ?_, by simp, ?_, ?_⟩
    · simp only [rebalance, getBalance_node, bind_eq_bind, bind_some, hb, hb', hlt, if_true,
        if_false, leftRotate, rightRotate]
    all_goals
      simp only [balanced_node, BinaryTree.height, hl, hb'', hc, ha, true_and] at h hau hua hlt ⊢
      omega
  · refine ⟨node e (node data left u) a, ?_, by simp, ?_, ?_⟩
    · simp only [rebalance, getBalance_node, bind_eq_bind, bind_some, hb, hb', hlt, if_true,
        if_false, leftRotate]
    all_goals
      simp only [balanced_node, BinaryTree.height, hl, hu, ha, true_and] at h hau hua hlt ⊢
      omega

/-- The repair works for subtrees whose heights differ by at most two, and leaves those alone that
differ by at most one. -/
theorem rebalance_spec (data : ℤ) (hl : Balanced left) (hr : Balanced right)
    (h : left.height ≤ right.height + 2) (h' : right.height ≤ left.height + 2) :
    ∃ t, rebalance data left right = some t ∧ Repaired data left right t ∧
    (left.height ≤ right.height + 1 → right.height ≤ left.height + 1 →
    t.height = max left.height right.height + 1) := by
  by_cases hgt : left.height = right.height + 2
  · obtain ⟨t, ht, hrep⟩ := rebalance_left data hl hr hgt
    exact ⟨t, ht, hrep, by omega⟩
  by_cases hlt : right.height = left.height + 2
  · obtain ⟨t, ht, hrep⟩ := rebalance_right data hl hr hlt
    exact ⟨t, ht, hrep, by omega⟩
  · have hb : ¬(left.height : ℤ) - right.height > 1 := by omega
    have hb' : ¬(left.height : ℤ) - right.height < -1 := by omega
    have hheight : (node data left right).height = max left.height right.height + 1 := rfl
    refine ⟨node data left right, ?_, ⟨rfl, ⟨hl, hr, by omega, by omega⟩, .inr hheight⟩, fun _ _ => hheight⟩
    simp only [rebalance, getBalance_node, bind_eq_bind, bind_some, hb, hb', if_false, Option.pure_def]

/-! ### Insertion -/

/-- What `insert` makes of a balanced tree. -/
structure Inserted (root t : Node) (item : ℤ) : Prop where
  balanced : Balanced t
  keys : keys t = item ::ₘ keys root
  sorted : Sorted root → Sorted t
  height : t.height = root.height ∨ t.height = root.height + 1

/-- A subtree with the item in place of one without it, and then the repair. -/
theorem inserted_rebalance {l r : Node} (hroot : Balanced (node data left right)) (hl : Balanced l)
    (hr : Balanced r) (hkeys : keys (node data l r) = item ::ₘ keys (node data left right))
    (hsorted : Sorted (node data left right) → Sorted (node data l r))
    (hheight : l.height = left.height ∧ (r.height = right.height ∨ r.height = right.height + 1) ∨
    r.height = right.height ∧ (l.height = left.height ∨ l.height = left.height + 1)) :
    ∃ t, rebalance data l r = some t ∧ Inserted (node data left right) t item := by
  obtain ⟨_, _, hlr, hrl⟩ := hroot
  obtain ⟨t, ht, ⟨hinorder, hbal, hor⟩, hnear⟩ := rebalance_spec data hl hr (by omega) (by omega)
  refine ⟨t, ht, hbal, ?_, ?_, ?_⟩
  · rw [← hkeys, BinaryTrees.keys, hinorder]
    rfl
  · rw [show Sorted t ↔ Sorted (node data l r) by rw [Sorted, Sorted, hinorder]]
    exact hsorted
  · simp only [BinaryTree.height]
    omega

theorem insert_spec : ∀ (root : Node) (item : ℤ), Balanced root → ∃ t, insert root item = some t ∧
    Inserted root t item
  | nil, item, _ => by
    refine ⟨_, rfl, ?_, rfl, fun _ => List.pairwise_singleton _ _, .inr rfl⟩
    exact ⟨trivial, trivial, by decide, by decide⟩
  | node data left right, item, hroot => by
    rw [insert]
    split_ifs with hlt
    · obtain ⟨l, hl, hbal, hkeys, hsorted, hheight⟩ := insert_spec left item hroot.1
      rw [hl]
      refine inserted_rebalance hroot hbal hroot.2.1 ?_ ?_ (.inr ⟨rfl, hheight⟩)
      · rw [keys_node, keys_node, hkeys, cons_add, cons_swap]
      · rw [sorted_node, sorted_node, hkeys, forall_mem_cons]
        exact fun ⟨hsl, hsr, hld, hdr⟩ => ⟨hsorted hsl, hsr, ⟨hlt.le, hld⟩, hdr⟩
    · obtain ⟨r, hr, hbal, hkeys, hsorted, hheight⟩ := insert_spec right item hroot.2.1
      rw [hr]
      refine inserted_rebalance hroot hroot.1 hbal ?_ ?_ (.inl ⟨rfl, hheight⟩)
      · rw [keys_node, keys_node, hkeys, add_cons, cons_swap]
      · rw [sorted_node, sorted_node, hkeys, forall_mem_cons]
        exact fun ⟨hsl, hsr, hld, hdr⟩ => ⟨hsl, hsorted hsr, hld, not_lt.mp hlt, hdr⟩

/-- `insert` keeps the order and the balance, and adds the item. -/
theorem insert_balanced (root : Node) (item : ℤ) (hsorted : Sorted root)
    (hbalanced : Balanced root) :
    ∃ t, insert root item = some t ∧ Sorted t ∧ Balanced t ∧ keys t = item ::ₘ keys root := by
  obtain ⟨t, ht, hinserted⟩ := insert_spec root item hbalanced
  exact ⟨t, ht, hinserted.sorted hsorted, hinserted.balanced, hinserted.keys⟩

theorem insert_balanced_example :
    insert (node 3 (node 1 nil nil) nil) 1 = some (node 1 (node 1 nil nil) (node 3 nil nil)) ∧
      ∃ t, insert (node 3 (node 1 nil nil) nil) 1 = some t ∧ Sorted t ∧ Balanced t ∧
        keys t = 1 ::ₘ keys (node 3 (node 1 nil nil) nil) :=
  ⟨by decide, insert_balanced _ _ (by decide) (by decide)⟩

/-! ### Deletion -/

variable {key : ℤ} {root : Node}

theorem minValue_spec :
    ∀ {t : Node}, t ≠ nil → Sorted t → ∃ m, minValue t = some m ∧ m ∈ keys t ∧ ∀ x ∈ keys t, m ≤ x
  | nil, hne, _ => absurd rfl hne
  | node d nil r, _, hsorted => by
    obtain ⟨_, _, _, hr⟩ := sorted_node.mp hsorted
    refine ⟨d, rfl, by simp, ?_⟩
    rw [keys_node, forall_mem_cons, keys_nil, Multiset.zero_add]
    exact ⟨le_rfl, hr⟩
  | node d (node e a b) r, _, hsorted => by
    obtain ⟨hl, _, hld, hdr⟩ := sorted_node.mp hsorted
    obtain ⟨m, hm, hmem, hle⟩ := minValue_spec (fun h => by cases h) hl
    have hmd := hld m hmem
    refine ⟨m, hm, ?_, ?_⟩
    · rw [keys_node]
      exact mem_cons_of_mem (mem_add.mpr (.inl hmem))
    · rw [keys_node, forall_mem_cons]
      refine ⟨hmd, fun x hx => ?_⟩
      rcases mem_add.mp hx with hx | hx
      · exact hle x hx
      · exact hmd.trans (hdr x hx)

/-- One occurrence of the key is removed, and the order is kept. -/
theorem deleteNode_spec : ∀ (root : Node) (key : ℤ), Sorted root →
    ∃ t, deleteNode root key = some t ∧ Sorted t ∧ keys t = (keys root).erase key
  | nil, key, h => ⟨nil, rfl, h, rfl⟩
  | node data left right, key, h => by
    obtain ⟨hl, hr, hld, hdr⟩ := sorted_node.mp h
    rw [deleteNode]
    split_ifs with hlt hgt hright hleft
    · obtain ⟨l, hl', hsorted, hkeys⟩ := deleteNode_spec left key hl
      rw [hl']
      refine ⟨node data l right, rfl, ?_, ?_⟩
      · rw [sorted_node, hkeys]
        exact ⟨hsorted, hr, fun x hx => hld x (mem_of_mem_erase hx), hdr⟩
      · have hnot : key ∉ keys right := fun hmem => absurd (hdr key hmem) (not_le.mpr hlt)
        rw [keys_node, keys_node, hkeys, erase_cons_tail _ hlt.ne', erase_add_left_neg _ hnot]
    · obtain ⟨r, hr', hsorted, hkeys⟩ := deleteNode_spec right key hr
      rw [hr']
      refine ⟨node data left r, rfl, ?_, ?_⟩
      · rw [sorted_node, hkeys]
        exact ⟨hl, hsorted, hld, fun x hx => hdr x (mem_of_mem_erase hx)⟩
      · have hnot : key ∉ keys left := fun hmem => absurd (hld key hmem) (not_le.mpr hgt)
        rw [keys_node, keys_node, hkeys, erase_cons_tail _ hgt.ne, erase_add_right_neg _ hnot]
    all_goals
      obtain rfl : key = data := le_antisymm (not_lt.mp hgt) (not_lt.mp hlt)
      rw [keys_node, erase_cons_head]
    · subst hright
      exact ⟨left, rfl, hl, (Multiset.add_zero _).symm⟩
    · subst hleft
      exact ⟨right, rfl, hr, (Multiset.zero_add _).symm⟩
    · obtain ⟨temp, htemp, hmem, hmin⟩ := minValue_spec hright hr
      obtain ⟨r, hr', hsorted, hkeys⟩ := deleteNode_spec right temp hr
      rw [htemp, bind_eq_bind, bind_some, hr']
      refine ⟨node temp left r, rfl, ?_, ?_⟩
      · rw [sorted_node, hkeys]
        exact ⟨hl, hsorted, fun x hx => (hld x hx).trans (hdr temp hmem), fun x hx =>
          hmin x (mem_of_mem_erase hx)⟩
      · rw [keys_node, hkeys, ← add_cons, cons_erase hmem]

theorem deleteNode_of_not_mem : ∀ {root : Node}, key ∉ keys root → deleteNode root key = some root
  | nil, _ => rfl
  | node data left right, h => by
    rw [keys_node, mem_cons, mem_add, not_or, not_or] at h
    obtain ⟨hne, hl, hr⟩ := h
    rw [deleteNode, deleteNode_of_not_mem hl, deleteNode_of_not_mem hr]
    rcases lt_or_gt_of_ne hne with hlt | hgt
    · rw [if_pos hlt]
      rfl
    · rw [if_neg hgt.le.not_gt, if_pos hgt]
      rfl

/-- The nodes from the root down to the parent of the node that is taken out of the tree: for each
the height of the subtree in which the way goes on, and the height of the other one. -/
def path : Node → ℤ → List (ℕ × ℕ)
  | nil, _ => []
  | node data left right, key =>
    if key < data then (left.height, right.height) :: path left key
    else if key > data then (right.height, left.height) :: path right key
    else if right = nil then []
    else if left = nil then []
    else (right.height, left.height) :: path right ((minValue right).getD 0)

/-- The lowest node on the way whose subtree that loses a node is not the higher one. -/
def lowest (p : List (ℕ × ℕ)) : Option (ℕ × ℕ) := p.reverse.find? fun h => h.1 ≤ h.2

theorem lowest_cons (h : ℕ × ℕ) (p : List (ℕ × ℕ)) :
    lowest (h :: p) = (lowest p).or (if h.1 ≤ h.2 then some h else none) := by
  rw [lowest, lowest, List.reverse_cons, List.find?_append, List.find?_singleton]
  simp only [decide_eq_true_eq]

/-- The heights after a node has been taken out: without a lowest node the whole tree is lower by
one; otherwise it is as high as before, and is balanced if the two heights at the lowest node were
equal. -/
def Outcome (root t : Node) : Option (ℕ × ℕ) → Prop
  | none => Balanced t ∧ t.height + 1 = root.height
  | some h => t.height = root.height ∧ (Balanced t ↔ h.1 = h.2)

/-- A node above the one whose subtree `s` has become `t`; `o` is its other subtree. -/
theorem Outcome.above {s t o root' : Node} {low : Option (ℕ × ℕ)} (h : Outcome s t low)
    (hso : s.height ≤ o.height + 1) (hos : o.height ≤ s.height + 1)
    (hroot : root.height = max s.height o.height + 1)
    (hroot' : root'.height = max t.height o.height + 1) (hbal : Balanced root' ↔ Balanced t ∧
    t.height ≤ o.height + 1 ∧ o.height ≤ t.height + 1) : Outcome root root'
    (low.or (if s.height ≤ o.height then some (s.height, o.height) else none)) := by
  cases low with
  | none =>
    obtain ⟨ht, hheight⟩ := h
    rw [none_or]
    split_ifs with hle
    all_goals
      simp only [Outcome, hbal, ht, true_and]
      omega
  | some p =>
    obtain ⟨hheight, hp⟩ := h
    simp only [some_or, Outcome, hbal, hroot, hroot', hheight, hso, hos, hp, and_true]

theorem Outcome.node_right {r : Node} {low : Option (ℕ × ℕ)}
    (hroot : Balanced (node data left right)) (h : Outcome right r low) (data' : ℤ) :
    Outcome (node data left right) (node data' left r)
    (low.or (if right.height ≤ left.height then some (right.height, left.height) else none)) := by
  obtain ⟨hl, _, hlr, hrl⟩ := hroot
  refine h.above hrl hlr (congrArg (· + 1) (max_comm _ _)) (congrArg (· + 1) (max_comm _ _)) ?_
  simp only [balanced_node, hl, true_and, and_comm]

/-- The node itself is taken out when it has at most one child. -/
theorem outcome_of_nil (d : ℤ) {t : Node} (ht : Balanced t) :
    Outcome (node d t nil) t none ∧ Outcome (node d nil t) t none := by
  simp only [Outcome, BinaryTree.height, ht, true_and]
  omega

theorem outcome_deleteNode : ∀ {root t : Node} {key : ℤ}, Sorted root → Balanced root →
    key ∈ keys root → deleteNode root key = some t → Outcome root t (lowest (path root key))
  | nil, _, _, _, _, hmem, _ => absurd hmem (notMem_zero _)
  | node data left right, t, key, hsorted, hbalanced, hmem, h => by
    obtain ⟨hl, hr, hld, hdr⟩ := sorted_node.mp hsorted
    rw [keys_node, mem_cons, mem_add] at hmem
    rw [deleteNode] at h
    rw [path]
    split_ifs at h ⊢ with hlt hgt hright hleft
    · have hmem' : key ∈ keys left := by
        rcases hmem with rfl | hmem | hmem
        · exact absurd hlt (lt_irrefl _)
        · exact hmem
        · exact absurd (hdr key hmem) (not_le.mpr hlt)
      obtain ⟨l, hdelete, ht⟩ := bind_eq_some_iff.mp h
      cases ht
      rw [lowest_cons]
      obtain ⟨hbl, hbr, hlr, hrl⟩ := hbalanced
      refine (outcome_deleteNode hl hbl hmem' hdelete).above hlr hrl rfl rfl ?_
      simp only [balanced_node, hbr, true_and]
    · have hmem' : key ∈ keys right := by
        rcases hmem with rfl | hmem | hmem
        · exact absurd hgt (lt_irrefl _)
        · exact absurd (hld key hmem) (not_le.mpr hgt)
        · exact hmem
      obtain ⟨r, hdelete, ht⟩ := bind_eq_some_iff.mp h
      cases ht
      rw [lowest_cons]
      exact (outcome_deleteNode hr hbalanced.2.1 hmem' hdelete).node_right hbalanced data
    · subst hright
      cases h
      exact (outcome_of_nil data hbalanced.1).1
    · subst hleft
      cases h
      exact (outcome_of_nil data hbalanced.2.1).2
    · obtain ⟨temp, htemp, hmin, _⟩ := minValue_spec hright hr
      rw [htemp, bind_eq_bind, bind_some] at h
      obtain ⟨r, hdelete, ht⟩ := bind_eq_some_iff.mp h
      cases ht
      rw [lowest_cons, htemp, getD_some]
      exact (outcome_deleteNode hr hbalanced.2.1 hmin hdelete).node_right hbalanced temp

/-- The result is a balanced search tree without one occurrence of the key if and only if the key is
not in the tree, or on the way to the node that is taken out the lowest node at which the way does
not go on in the higher subtree, if there is one, has two subtrees of the same height. -/
theorem deleteNode_balanced_iff (root : Node) (key : ℤ) (hsorted : Sorted root)
    (hbalanced : Balanced root) :
    (∃ t, deleteNode root key = some t ∧ Sorted t ∧ Balanced t ∧ keys t = (keys root).erase key) ↔
      (key ∈ keys root → ∀ h, lowest (path root key) = some h → h.1 = h.2) := by
  obtain ⟨t, ht, hsorted', hkeys⟩ := deleteNode_spec root key hsorted
  have hiff : Balanced t ↔ (key ∈ keys root → ∀ h, lowest (path root key) = some h → h.1 = h.2) := by
    by_cases hmem : key ∈ keys root
    · have houtcome := outcome_deleteNode hsorted hbalanced hmem ht
      cases hlow : lowest (path root key) with
      | none =>
        rw [hlow] at houtcome
        simp [houtcome.1]
      | some h =>
        rw [hlow] at houtcome
        simp [houtcome.2, hmem]
    · rw [deleteNode_of_not_mem hmem] at ht
      cases ht
      simp [hbalanced, hmem]
  rw [← hiff]
  constructor
  · rintro ⟨t', ht', _, hbal, _⟩
    obtain rfl := Option.some.inj (ht.symm.trans ht')
    exact hbal
  · exact fun hbal => ⟨t, ht, hsorted', hbal, hkeys⟩

theorem deleteNode_balanced_iff_example : Sorted (node 2 (node 1 nil nil) (node 3 nil nil)) ∧
      ∃ t, deleteNode (node 2 (node 1 nil nil) (node 3 nil nil)) 1 = some t ∧ Sorted t ∧
      Balanced t ∧ keys t = (keys (node 2 (node 1 nil nil) (node 3 nil nil))).erase 1 :=
  ⟨by decide, (deleteNode_balanced_iff _ _ (by decide) (by decide)).mpr (by decide)⟩

theorem deleteNode_unbalanced : Sorted (node 2 (node 1 nil nil) (node 3 nil (node 4 nil nil))) ∧
      Balanced (node 2 (node 1 nil nil) (node 3 nil (node 4 nil nil))) ∧
      deleteNode (node 2 (node 1 nil nil) (node 3 nil (node 4 nil nil))) 1 =
      some (node 2 nil (node 3 nil (node 4 nil nil))) ∧
      ¬Balanced (node (2 : ℤ) nil (node 3 nil (node 4 nil nil))) := by
  decide

end Code365.Algorithms.AvlTree
