import Code365.Lib.RedBlackTree

/-! # `BinarySearchTree` (`algorithms/python/data_structures/binary tree/binary_search_tree.py`)

The nodes are objects in a heap with one map for each attribute.  `none` as a result stands for a
loop that has not ended after as many passes as there are objects, or for an attribute of `None`.

`Rep h fs t` says that the subtree `t` lies in the heap below the frames `fs`; the trees and the
frames are those of `Lib/RedBlackTree`, whose colours play no part here.  `alwaysSet_iff` says when
the tree is a set of labels: `__reassignNodes` never changes `root`. -/

namespace Code365.Algorithms.BinarySearchTree

open Multiset Function RedBlack

abbrev Ref := Option ℕ

structure Heap where
  label : ℕ → ℤ
  /-- `left` and `right`. -/
  child : Side → ℕ → Ref
  parent : ℕ → Ref
  root : Ref
  /-- The address of the next object. -/
  next : ℕ

namespace Heap

def setLabel (h : Heap) (a : ℕ) (label : ℤ) : Heap := { h with label := update h.label a label }

/-- `setLeft` and `setRight`. -/
def setChild (h : Heap) (d : Side) (a : ℕ) (r : Ref) : Heap :=
  { h with child := update h.child d (update (h.child d) a r) }

def setParent (h : Heap) (a : ℕ) (r : Ref) : Heap := { h with parent := update h.parent a r }

/-- `Node(label, None)`, at address `next`. -/
def newNode (h : Heap) (label : ℤ) : Heap :=
  { label := update h.label h.next label
    child := fun d => update (h.child d) h.next none
    parent := update h.parent h.next none
    root := h.root
    next := h.next + 1 }

def empty : Heap :=
  { label := fun _ => 0, child := fun _ _ => none, parent := fun _ => none, root := none, next := 0 }

end Heap

/-- The side on which a search for `label` goes on. -/
def sideOf (label here : ℤ) : Side := if label < here then .left else .right

/-- The loop of `insert`: the last node. -/
def descend : ℕ → Heap → ℤ → ℕ → Option ℕ
  | 0, _, _, _ => none
  | fuel + 1, h, label, curr =>
    match h.child (sideOf label (h.label curr)) curr with
    | none => some curr
    | some next => descend fuel h label next

def insert (h : Heap) (label : ℤ) : Option Heap :=
  match h.root with
  | none => some { h.newNode label with root := some h.next }
  | some root => do
    let parent ← descend (h.next + 1) (h.newNode label) label root
    let side := sideOf label ((h.newNode label).label parent)
    return ((h.newNode label).setChild side parent (some h.next)).setParent h.next (some parent)

/-- The loop of `getNode`. -/
def search : ℕ → Heap → ℤ → Ref → Option Ref
  | 0, _, _, _ => none
  | _ + 1, _, _, none => some none
  | fuel + 1, h, label, some curr =>
    if h.label curr = label then some (some curr)
    else search fuel h label (h.child (sideOf label (h.label curr)) curr)

def getNode (h : Heap) (label : ℤ) : Option Ref := search (h.next + 1) h label h.root

/-- The loop of `getMax`. -/
def rightmost : ℕ → Heap → ℕ → Option ℕ
  | 0, _, _ => none
  | fuel + 1, h, curr =>
    match h.child .right curr with
    | none => some curr
    | some next => rightmost fuel h next

def getMax (h : Heap) (root : Ref) : Option Ref :=
  let curr := if root = none then h.root else root
  if h.root = none then some curr
  else do
    let curr ← curr
    let last ← rightmost (h.next + 1) h curr
    return some last

def reassignNodes (h : Heap) (node : ℕ) (newChildren : Ref) : Heap :=
  let h := match newChildren with
    | none => h
    | some new => h.setParent new (h.parent node)
  match h.parent node with
  | none => h
  | some parent =>
    if some node = h.child .right parent then h.setChild .right parent newChildren
    else h.setChild .left parent newChildren

/-- `delete`, which calls itself once if the node has two children. -/
def deleteWith : ℕ → Heap → ℤ → Option Heap
  | 0, _, _ => none
  | fuel + 1, h, label =>
    if h.root = none then some h
    else do
      match ← getNode h label with
      | none => return h
      | some node =>
        match h.child .left node, h.child .right node with
        | none, none => return reassignNodes h node none
        | none, some right => return reassignNodes h node (some right)
        | some left, none => return reassignNodes h node (some left)
        | some left, some _ =>
          let tmpNode ← (← getMax h (some left))
          let h ← deleteWith fuel h (h.label tmpNode)
          return h.setLabel node (h.label tmpNode)

def delete (h : Heap) (label : ℤ) : Option Heap := deleteWith (h.next + 1) h label

inductive Call where
  | insert (label : ℤ)
  | delete (label : ℤ)
deriving DecidableEq, Repr

def call (h : Heap) : Call → Option Heap
  | .insert label => insert h label
  | .delete label => delete h label

/-- The heap after some calls on an empty tree. -/
def afterCalls (calls : List Call) : Option Heap := calls.foldlM call Heap.empty

/-! ### Trees in the heap -/

open RedBlack.Tree

abbrev Node := Tree ℕ ℤ

abbrev Path := List (Frame ℕ ℤ)

def ref : Node → Ref
  | .nil => none
  | .node a _ _ _ _ => some a

/-- The node above a position. -/
def above : Path → Ref
  | [] => none
  | f :: _ => some f.addr

def Own (h : Heap) : Node → Ref → Prop
  | .nil, _ => True
  | .node a _ k l r, up => h.label a = k ∧ h.parent a = up ∧ h.child .left a = ref l ∧
      h.child .right a = ref r ∧ Own h l (some a) ∧ Own h r (some a)

def OwnFrames (h : Heap) : Path → Ref → Prop
  | [], hole => h.root = hole
  | f :: fs, hole => h.label f.addr = f.key ∧ h.parent f.addr = above fs ∧
      h.child f.side f.addr = hole ∧ h.child f.side.other f.addr = ref f.sibling ∧
      Own h f.sibling (some f.addr) ∧ OwnFrames h fs (some f.addr)

structure Rep (h : Heap) (fs : Path) (t : Node) : Prop where
  own : Own h t (above fs)
  frames : OwnFrames h fs (ref t)
  nodup : (t.addrs + frameAddrs fs).Nodup
  below : ∀ a ∈ t.addrs + frameAddrs fs, a < h.next

/-- The attributes of the node at `a` are the same. -/
structure SameAt (h h' : Heap) (a : ℕ) : Prop where
  label : h'.label a = h.label a
  parent : h'.parent a = h.parent a
  child : ∀ d, h'.child d a = h.child d a

variable {h h' : Heap} {fs gs : Path} {t t' l r : Node} {f : Frame ℕ ℤ} {d : Side} {a b : ℕ}
  {c : Color} {k label : ℤ}
  {up : Ref} {x y : Node} {fuel : ℕ}

@[simp] theorem ref_join (d : Side) (a : ℕ) (c : Color) (k : ℤ) (x y : Node) :
    ref (join d a c k x y) = some a := by
  cases d with
  | left => rfl
  | right => rfl

theorem own_join : Own h (join d a c k x y) up ↔ h.label a = k ∧ h.parent a = up ∧
    h.child d a = ref x ∧ h.child d.other a = ref y ∧ Own h x (some a) ∧ Own h y (some a) := by
  cases d with
  | left => rfl
  | right =>
    simp only [Tree.join, Own, Side.other]
    tauto

theorem rep_cons : Rep h (f :: fs) t ↔ Rep h fs (f.fill t) := by
  have haddrs : t.addrs + frameAddrs (f :: fs) = (f.fill t).addrs + frameAddrs fs := by
    rw [Frame.fill, addrs_join, frameAddrs, cons_add, add_cons, add_assoc]
  constructor
  · rintro ⟨hown, ⟨hk, hp, hx, hy, hsib, hfs⟩, hnodup, hbelow⟩
    rw [haddrs] at hnodup hbelow
    refine ⟨own_join.mpr ⟨hk, hp, hx, hy, hown, hsib⟩, ?_, hnodup, hbelow⟩
    rw [Frame.fill, ref_join]
    exact hfs
  · rintro ⟨hown, hfs, hnodup, hbelow⟩
    obtain ⟨hk, hp, hx, hy, hown, hsib⟩ := own_join.mp hown
    rw [← haddrs] at hnodup hbelow
    rw [Frame.fill, ref_join] at hfs
    exact ⟨hown, ⟨hk, hp, hx, hy, hsib, hfs⟩, hnodup, hbelow⟩

theorem rep_plug : ∀ {fs : Path} {t : Node}, Rep h fs t ↔ Rep h [] (plug fs t)
  | [], _ => Iff.rfl
  | _ :: _, _ => rep_cons.trans rep_plug

theorem Own.congr :
    ∀ {t : Node} {up : Ref}, Own h t up → (∀ a ∈ t.addrs, SameAt h h' a) → Own h' t up
  | .nil, _, _, _ => trivial
  | .node a c k l r, up, ⟨hk, hp, hl, hr, hol, hor⟩, hsame => by
    have ha := hsame a (mem_cons_self ..)
    refine ⟨ha.label.trans hk, ha.parent.trans hp, (ha.child _).trans hl, (ha.child _).trans hr, ?_, ?_⟩
    · exact hol.congr fun b hb => hsame b (mem_cons_of_mem (mem_add.mpr (.inl hb)))
    · exact hor.congr fun b hb => hsame b (mem_cons_of_mem (mem_add.mpr (.inr hb)))

theorem OwnFrames.congr : ∀ {fs : Path} {hole : Ref}, OwnFrames h fs hole → h'.root = h.root →
    (∀ a ∈ frameAddrs fs, SameAt h h' a) → OwnFrames h' fs hole
  | [], _, hfs, hroot, _ => hroot.trans hfs
  | f :: fs, hole, ⟨hk, hp, hx, hy, hsib, hfs⟩, hroot, hsame => by
    have ha := hsame f.addr (mem_cons_self ..)
    refine ⟨ha.label.trans hk, ha.parent.trans hp, (ha.child _).trans hx, (ha.child _).trans hy, ?_, ?_⟩
    · exact hsib.congr fun b hb => hsame b (mem_cons_of_mem (mem_add.mpr (.inl hb)))
    · exact hfs.congr hroot fun b hb => hsame b (mem_cons_of_mem (mem_add.mpr (.inr hb)))

/-- Another subtree below the frames: only the link to it is different in them. -/
theorem Rep.replace (hr : Rep h (f :: fs) t) (hroot : h'.root = h.root)
    (hsame : ∀ b ∈ frameAddrs (f :: fs), b ≠ f.addr → SameAt h h' b)
    (hlabel : h'.label f.addr = h.label f.addr) (hparent : h'.parent f.addr = h.parent f.addr)
    (hchild : h'.child f.side f.addr = ref t')
    (hother : h'.child f.side.other f.addr = h.child f.side.other f.addr)
    (hown : Own h' t' (some f.addr)) (hnodup : (t'.addrs + frameAddrs (f :: fs)).Nodup)
    (hbelow : ∀ a ∈ t'.addrs + frameAddrs (f :: fs), a < h'.next) : Rep h' (f :: fs) t' := by
  obtain ⟨hk, hp, hx, hy, hsib, hfs⟩ := hr.frames
  have hnot : f.addr ∉ f.sibling.addrs + frameAddrs fs :=
    (nodup_cons.mp (nodup_of_le (Multiset.le_add_left ..) hnodup)).1
  have hne : ∀ b ∈ f.sibling.addrs + frameAddrs fs, b ≠ f.addr := fun b hb he => hnot (he ▸ hb)
  refine ⟨hown, ⟨hlabel.trans hk, hparent.trans hp, hchild, hother.trans hy, ?_, ?_⟩, hnodup, hbelow⟩
  · refine hsib.congr fun b hb => ?_
    have hb : b ∈ f.sibling.addrs + frameAddrs fs := mem_add.mpr (.inl hb)
    exact hsame b (mem_cons_of_mem hb) (hne b hb)
  · refine hfs.congr hroot fun b hb => ?_
    have hb : b ∈ f.sibling.addrs + frameAddrs fs := mem_add.mpr (.inr hb)
    exact hsame b (mem_cons_of_mem hb) (hne b hb)

end Code365.Algorithms.BinarySearchTree
