import Mathlib

/-! # Binary trees

The order in which a tree is read from left to right (`inorder`), the collection of its values
(`keys`), search trees that may hold a value several times (`Sorted`) and trees in which the heights
of two siblings differ by at most one (`Balanced`). -/

namespace Code365.BinaryTrees

open BinaryTree

variable {α : Type*}

def inorder : BinaryTree α → List α
  | nil => []
  | node a l r => inorder l ++ a :: inorder r

@[simp] theorem inorder_nil : inorder (nil : BinaryTree α) = [] := rfl

@[simp] theorem inorder_node (a : α) (l r : BinaryTree α) :
    inorder (node a l r) = inorder l ++ a :: inorder r := rfl

/-- The values in a tree, each as often as it occurs. -/
def keys (t : BinaryTree α) : Multiset α := inorder t

@[simp] theorem keys_nil : keys (nil : BinaryTree α) = 0 := rfl

@[simp] theorem keys_node (a : α) (l r : BinaryTree α) :
    keys (node a l r) = a ::ₘ (keys l + keys r) := by
  rw [keys, keys, keys, inorder_node, ← Multiset.coe_add, ← Multiset.cons_coe, Multiset.add_cons]

theorem mem_keys {t : BinaryTree α} {a : α} : a ∈ keys t ↔ a ∈ inorder t := Iff.rfl

/-- The values do not go down from left to right. -/
def Sorted [LE α] (t : BinaryTree α) : Prop := (inorder t).Pairwise (· ≤ ·)

theorem sorted_node [Preorder α] {a : α} {l r : BinaryTree α} :
    Sorted (node a l r) ↔ Sorted l ∧ Sorted r ∧ (∀ b ∈ keys l, b ≤ a) ∧ ∀ b ∈ keys r, a ≤ b := by
  simp only [Sorted, inorder_node, List.pairwise_append, List.pairwise_cons, List.mem_cons, mem_keys]
  constructor
  · rintro ⟨hl, ⟨har, hr⟩, hlr⟩
    exact ⟨hl, hr, fun b hb => hlr b hb a (.inl rfl), har⟩
  · rintro ⟨hl, hr, hla, har⟩
    refine ⟨hl, ⟨har, hr⟩, ?_⟩
    rintro b hb c (rfl | hc)
    · exact hla b hb
    · exact (hla b hb).trans (har c hc)

def Balanced : BinaryTree α → Prop
  | nil => True
  | node _ l r => Balanced l ∧ Balanced r ∧ l.height ≤ r.height + 1 ∧ r.height ≤ l.height + 1

theorem balanced_node {a : α} {l r : BinaryTree α} : Balanced (node a l r) ↔ Balanced l ∧
    Balanced r ∧ l.height ≤ r.height + 1 ∧ r.height ≤ l.height + 1 := Iff.rfl

instance decidableBalanced : ∀ t : BinaryTree α, Decidable (Balanced t)
  | nil => isTrue trivial
  | node _ l r =>
    haveI := decidableBalanced l
    haveI := decidableBalanced r
    inferInstanceAs (Decidable (_ ∧ _ ∧ _ ∧ _))

instance decidableSorted [LE α] [DecidableLE α] (t : BinaryTree α) : Decidable (Sorted t) :=
  inferInstanceAs (Decidable ((inorder t).Pairwise (· ≤ ·)))

theorem height_pos {t : BinaryTree α} (ht : 0 < t.height) : ∃ a l r, t = node a l r := by
  cases t with
  | nil => exact absurd ht (lt_irrefl 0)
  | node a l r => exact ⟨a, l, r, rfl⟩

end Code365.BinaryTrees
