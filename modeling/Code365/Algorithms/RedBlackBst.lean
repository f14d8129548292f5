import Code365.Lib.RedBlackTree

/-! # `RedBlackBST` (`algorithms/java/DataStructures/Trees/RedBlackBST.java`)

The nodes are objects in a heap with one map for each field.  A reference is the address of a node,
or `null`; the sentinel `nil` is the node at address 0, built while the field `nil` is still `null`,
so that its own links are `null`.  `none` as a result stands for a dereferenced `null`, or for a
loop or a recursion that has not ended after `fuel` passes.

The two halves of `fixTree` and of `deleteFixup`, and the two rotations, are mirror images; each is
one function of the side `d` that the first half names. -/

namespace Code365.Algorithms.RedBlackBst

open Function

open RedBlack

abbrev Ref := Option ℕ

/-- The sentinel. -/
def nilRef : Ref := some 0

structure Heap where
  key : ℕ → ℤ
  color : ℕ → Color
  /-- `left` and `right`. -/
  child : Side → ℕ → Ref
  p : ℕ → Ref
  root : Ref
  /-- The address of the next object. -/
  next : ℕ

namespace Heap

def setColor (h : Heap) (a : ℕ) (c : Color) : Heap := { h with color := update h.color a c }

def setChild (h : Heap) (d : Side) (a : ℕ) (r : Ref) : Heap :=
  { h with child := update h.child d (update (h.child d) a r) }

def setP (h : Heap) (a : ℕ) (r : Ref) : Heap := { h with p := update h.p a r }

def setRoot (h : Heap) (r : Ref) : Heap := { h with root := r }

/-- `new Node(key)`, at address `next`. -/
def newNode (h : Heap) (key : ℤ) : Heap :=
  { key := update h.key h.next key
    color := update h.color h.next .black
    child := fun d => update (h.child d) h.next nilRef
    p := update h.p h.next nilRef
    root := h.root
    next := h.next + 1 }

def empty : Heap :=
  { key := fun _ => -1, color := fun _ => .black, child := fun _ _ => none, p := fun _ => none,
    root := nilRef, next := 1 }

end Heap

/-! ### Searching -/

def findNode : ℕ → Heap → ℕ → Ref → Option Ref
  | 0, _, _, _ => none
  | fuel + 1, h, find, node =>
    if h.root = nilRef then some none
    else do
      let n ← node
      if h.key find < h.key n then
        if h.child .left n ≠ nilRef then findNode fuel h find (h.child .left n) else some none
      else if h.key find > h.key n then
        if h.child .right n ≠ nilRef then findNode fuel h find (h.child .right n) else some none
      else some node

def treeMinimum : ℕ → Heap → Ref → Option Ref
  | 0, _, _ => none
  | fuel + 1, h, subTreeRoot => do
    let s ← subTreeRoot
    if h.child .left s ≠ nilRef then treeMinimum fuel h (h.child .left s) else some subTreeRoot

/-! ### Rotations -/

/-- `if (node == parent.left) parent.left = r; else parent.right = r;` -/
def replaceChild (h : Heap) (parent node : ℕ) (r : Ref) : Heap :=
  if some node = h.child .left parent then h.setChild .left parent r else h.setChild .right parent r

/-- `rotateLeft` for the side `left`, `rotateRight` for the side `right`. -/
def rotate (d : Side) (h : Heap) (node : ℕ) : Option Heap :=
  if h.p node ≠ nilRef then do
    let parent ← h.p node
    let h := replaceChild h parent node (h.child d.other node)
    let right ← h.child d.other node
    let h := h.setP right (h.p node)
    let h := h.setP node (h.child d.other node)
    let h ← if h.child d right ≠ nilRef then
        (h.child d right).map fun left => h.setP left (some node) else some h
    let h := h.setChild d.other node (h.child d right)
    let parent ← h.p node
    return h.setChild d parent (some node)
  else do
    let root ← h.root
    let right ← h.child d.other root
    let h := h.setChild d.other root (h.child d right)
    let left ← h.child d right
    let h := h.setP left (some root)
    let h := h.setP root (some right)
    let h := h.setChild d right (some root)
    let h := h.setP right nilRef
    return h.setRoot (some right)

def rotateLeft : Heap → ℕ → Option Heap := rotate .left

def rotateRight : Heap → ℕ → Option Heap := rotate .right

/-! ### Insertion -/

/-- Whether `y != nil && y.color == R`. -/
def isRed (h : Heap) (y : Ref) : Option Bool :=
  if y = nilRef then some false else y.map fun y => h.color y = .red

/-- The rotation that `fixTree` makes if `node` is an inner grandchild. -/
def straighten (d : Side) (h : Heap) (node parent : ℕ) : Option (Heap × ℕ) :=
  if some node = h.child d.other parent then (rotate d h parent).map (·, parent) else some (h, node)

/-- The body of the loop of `fixTree` when `node.p` is the child of `node.p.p` on side `d`: the heap
and the new value of `node`. -/
def fixStep (d : Side) (h : Heap) (node : ℕ) : Option (Heap × ℕ) := do
  let parent ← h.p node
  let grand ← h.p parent
  let y := h.child d.other grand
  if ← isRed h y then
    let y ← y
    some (((h.setColor parent .black).setColor y .black).setColor grand .red, grand)
  else
    let (h, node) ← straighten d h node parent
    let parent ← h.p node
    let grand ← h.p parent
    let h ← rotate d.other ((h.setColor parent .black).setColor grand .red) grand
    some (h, node)

def fixTree : ℕ → Heap → ℕ → Option Heap
  | 0, _, _ => none
  | fuel + 1, h, node => do
    let parent ← h.p node
    if h.color parent = .red then
      let grand ← h.p parent
      let (h, node) ← if some parent = h.child .left grand then fixStep .left h node else fixStep .right h node
      fixTree fuel h node
    else
      let root ← h.root
      return h.setColor root .black

/-- The loop of `insert`. -/
def link : ℕ → Heap → ℕ → Ref → Option Heap
  | 0, _, _, _ => none
  | fuel + 1, h, node, temp => do
    let t ← temp
    let d : Side := if h.key node < h.key t then .left else .right
    if h.child d t = nilRef then return (h.setChild d t (some node)).setP node temp
    else link fuel h node (h.child d t)

def insert (fuel : ℕ) (h : Heap) (node : ℕ) : Option Heap :=
  if h.root = nilRef then some (((h.setRoot (some node)).setColor node .black).setP node nilRef)
  else do
    let h ← link fuel (h.setColor node .red) node h.root
    fixTree fuel h node

/-! ### Deletion -/

def transplant (h : Heap) (target : ℕ) (new : Ref) : Option Heap := do
  let h ← if h.p target = nilRef then some (h.setRoot new)
    else (h.p target).map fun parent => replaceChild h parent target new
  let new ← new
  return h.setP new (h.p target)

/-- `if (w.color == R) { .. }`: the heap and `w`. -/
def lowerRed (d : Side) (h : Heap) (x parent w : ℕ) : Option (Heap × ℕ) :=
  if h.color w = .red then do
    let h ← rotate d ((h.setColor w .black).setColor parent .red) parent
    let parent ← h.p x
    let w ← h.child d.other parent
    some (h, w)
  else some (h, w)

/-- `else if (w.right.color == B) { .. }`: the heap and `w`. -/
def raiseNear (d : Side) (h : Heap) (x w near far : ℕ) : Option (Heap × ℕ) :=
  if h.color far = .black then do
    let h ← rotate d.other ((h.setColor near .black).setColor w .red) w
    let parent ← h.p x
    let w ← h.child d.other parent
    some (h, w)
  else some (h, w)

/-- The body of the loop of `deleteFixup` when `x` is the child of `x.p` on side `d`: the heap and
the new value of `x`. -/
def fixupStep (d : Side) (h : Heap) (x : ℕ) : Option (Heap × Ref) := do
  let parent ← h.p x
  let w ← h.child d.other parent
  let (h, w) ← lowerRed d h x parent w
  let near ← h.child d w
  let far ← h.child d.other w
  if h.color near = .black ∧ h.color far = .black then
    some (h.setColor w .red, h.p x)
  else
    let (h, w) ← raiseNear d h x w near far
    let far ← h.child d.other w
    if h.color far = .red then
      let parent ← h.p x
      let h ← rotate d (((h.setColor w (h.color parent)).setColor parent .black).setColor far .black) parent
      some (h, h.root)
    else some (h, some x)

def deleteFixup : ℕ → Heap → Ref → Option Heap
  | 0, _, _ => none
  | fuel + 1, h, x => do
    let a ← x
    if x ≠ h.root ∧ h.color a = .black then
      let parent ← h.p a
      let (h, x) ← if x = h.child .left parent then fixupStep .left h a else fixupStep .right h a
      deleteFixup fuel h x
    else return h.setColor a .black

/-- `delete` takes `y`, whose left child is `nil`, out of its place below `z`. -/
def takeOut (h : Heap) (z y : ℕ) : Option Heap :=
  if h.p y = some z then (h.child .right y).map fun x => h.setP x (some y)
  else do
    let h ← transplant h y (h.child .right y)
    let h := h.setChild .right y (h.child .right z)
    let right ← h.child .right y
    some (h.setP right (some y))

/-- `delete` puts `y` in the place of `z`. -/
def putIn (h : Heap) (z y : ℕ) : Option Heap := do
  let h ← transplant h z (some y)
  let h := h.setChild .left y (h.child .left z)
  let left ← h.child .left y
  let h := h.setP left (some y)
  some (h.setColor y (h.color z))

/-- What `delete` does once it has found `z`: the heap, `yorigcolor` and `x`. -/
def unlink (fuel : ℕ) (h : Heap) (z : ℕ) : Option (Heap × Color × Ref) :=
  if h.child .left z = nilRef then (transplant h z (h.child .right z)).map (·, h.color z, h.child .right z)
  else if h.child .right z = nilRef then (transplant h z (h.child .left z)).map (·, h.color z, h.child .left z)
  else do
    let y ← (← treeMinimum fuel h (h.child .right z))
    let taken ← takeOut h z y
    let h' ← putIn taken z y
    some (h', h.color y, h.child .right y)

def delete (fuel : ℕ) (h : Heap) (z : ℕ) : Option (Heap × Bool) := do
  match ← findNode fuel h z h.root with
  | none => return (h, false)
  | some z =>
    let (h, yorigcolor, x) ← unlink fuel h z
    if yorigcolor = .black then
      let h ← deleteFixup fuel h x
      return (h, true)
    else return (h, true)

/-! ### Calls -/

inductive Op where
  | insert (key : ℤ)
  | delete (key : ℤ)
deriving DecidableEq, Repr

/-- A call with a new node: the heap, and the result of a `delete`. -/
def call (fuel : ℕ) (h : Heap) : Op → Option (Heap × List Bool)
  | .insert key => (insert fuel (h.newNode key) h.next).map (·, [])
  | .delete key => (delete fuel (h.newNode key) h.next).map fun r => (r.1, [r.2])

/-- The calls one after the other: the heap, and the results of the `delete`s. -/
def calls (fuel : ℕ) : Heap → List Op → Option (Heap × List Bool)
  | h, [] => some (h, [])
  | h, op :: ops => do
    let (h, r) ← call fuel h op
    let (h, rs) ← calls fuel h ops
    return (h, r ++ rs)

end Code365.Algorithms.RedBlackBst
