import Code365.Lib.Forest
import Code365.Lib.While

/-! # `UnionFind` (`algorithms/python/data_structures/union_find/union_find.py`)

The elements are `0` to `size`.  The list `root` always has elements as its entries, so it is a
function from elements to elements here, and an index is never out of range.  `_root` calls itself
until it comes to a root; the number of calls is bounded by `fuel` here, and the interpreter's own
limit on nested calls is not modelled.

`Forest.Represents` gives every element its root; the calls keep it, and the roots of two elements
are the same exactly when the unions so far relate the elements (`Decides`).  For the depth the
weights have to be ranks (`Forest.Ranked`).  A union of two elements of one set adds one to the
weight of their root, which then may be no rank any more. -/

namespace Code365.Algorithms

structure UnionFind (size : ℕ) where
  root : Fin (size + 1) → Fin (size + 1)
  weight : Fin (size + 1) → ℕ

namespace UnionFind

open Except Function Relation Forest

inductive Error where
  | valueError (msg : String)
  | recursionError
deriving DecidableEq, Repr

/-- Every set has only one element. -/
def singletons (size : ℕ) : UnionFind size := { root := fun i => i, weight := fun _ => 0 }

def init (size : ℤ) : Except Error (UnionFind size.toNat) :=
  if size ≤ 0 then .error (.valueError "size should be greater than 0")
  else .ok (singletons size.toNat)

def validateElementRange (size : ℕ) (u : ℤ) (elementName : String) : Except Error (Fin (size + 1)) :=
  if h : u < 0 ∨ u > size then
    .error (.valueError s!"element {elementName} with value {u} should be in range [0~{size}]")
  else .ok ⟨u.toNat, by omega⟩

section Model

variable {size : ℕ}

/-- `_root`, with the list `root` after it. -/
def rootOf : ℕ → (Fin (size + 1) → Fin (size + 1)) → Fin (size + 1) →
    Except Error (Fin (size + 1) × (Fin (size + 1) → Fin (size + 1)))
  | 0, _, _ => .error .recursionError
  | fuel + 1, root, u =>
    if u ≠ root u then do
      let (r, root) ← rootOf fuel root (root u)
      let root := update root u r
      return (root u, root)
    else return (root u, root)

/-- The end of `union`: one of the two roots is sent to the other. -/
def linkRoots (root : Fin (size + 1) → Fin (size + 1)) (weight : Fin (size + 1) → ℕ)
    (rootu rootv : Fin (size + 1)) : UnionFind size :=
  if weight rootu ≥ weight rootv then
    { root := update root rootv rootu
      weight := if weight rootu = weight rootv then update weight rootu (weight rootu + 1) else weight }
  else { root := update root rootu rootv, weight }

def union (s : UnionFind size) (u v : ℤ) : Except Error (UnionFind size) := do
  let u ← validateElementRange size u "u"
  let v ← validateElementRange size v "v"
  if u = v then return s
  else
    let (rootu, root) ← rootOf (size + 1) s.root u
    let (rootv, root) ← rootOf (size + 1) root v
    return linkRoots root s.weight rootu rootv

def sameSet (s : UnionFind size) (u v : ℤ) : Except Error (Bool × UnionFind size) := do
  let u ← validateElementRange size u "u"
  let v ← validateElementRange size v "v"
  let (rootu, root) ← rootOf (size + 1) s.root u
  let (rootv, root) ← rootOf (size + 1) root v
  return (rootu = rootv, { s with root })

/-- A call with elements of the structure. -/
inductive Call (size : ℕ) where
  | union (u v : Fin (size + 1))
  | sameSet (u v : Fin (size + 1))
deriving DecidableEq, Repr

def call (s : UnionFind size) : Call size → Except Error (UnionFind size)
  | .union u v => union s u v
  | .sameSet u v => do
    let (_, s) ← sameSet s u v
    return s

end Model

/-! ### One call -/

variable {size : ℕ} {s s' : UnionFind size} {root : Fin (size + 1) → Fin (size + 1)} {u v : Fin (size + 1)}
  {ρ : Fin (size + 1) → Fin (size + 1)}

theorem validateElementRange_coe (u : Fin (size + 1)) (name : String) :
    validateElementRange size u name = .ok u := by
  have hrange : ¬ (((u : ℕ) : ℤ) < 0 ∨ ((u : ℕ) : ℤ) > size) := by omega
  rw [validateElementRange, dif_neg hrange]
  rfl

theorem rootOf_spec {n fuel : ℕ} {r : Fin (size + 1)} (h : Leads root n u r) (hfuel : n < fuel) :
    ∃ root', rootOf fuel root u = .ok (r, root') ∧ Shorter root root' := by
  apply h.climb (fun fuel u res => rootOf fuel root u = .ok res) _ _ hfuel
  · intro fuel r hr
    rw [rootOf, if_neg (not_not.mpr hr.symm), hr]
    rfl
  · intro fuel u r root' hu hrun
    rw [rootOf, if_pos (Ne.symm hu), hrun]
    simp [bind, Except.bind, pure, Except.pure]

theorem rootOf_twice (h : Represents s.root ρ) (u v : Fin (size + 1)) :
    ∃ root1 root2, rootOf (size + 1) s.root u = .ok (ρ u, root1) ∧
    rootOf (size + 1) root1 v = .ok (ρ v, root2) ∧ Shorter s.root root2 := by
  have hcard : Fintype.card (Fin (size + 1)) = size + 1 := Fintype.card_fin _
  obtain ⟨n, hu⟩ := h u
  obtain ⟨root1, hrun1, hshort1⟩ := rootOf_spec hu (hcard ▸ hu.lt_card)
  obtain ⟨m, hv⟩ := h.shorter hshort1 v
  obtain ⟨root2, hrun2, hshort2⟩ := rootOf_spec hv (hcard ▸ hv.lt_card)
  exact ⟨root1, root2, hrun1, hrun2, hshort1.trans hshort2⟩

theorem union_self (s : UnionFind size) (u : Fin (size + 1)) : union s u u = .ok s := by
  simp [union, validateElementRange_coe, bind, Except.bind, pure, Except.pure]

theorem union_spec (h : Represents s.root ρ) (huv : u ≠ v) :
    ∃ root, union s u v = .ok (linkRoots root s.weight (ρ u) (ρ v)) ∧ Shorter s.root root := by
  obtain ⟨root1, root2, hrun1, hrun2, hshort⟩ := rootOf_twice h u v
  refine ⟨root2, ?_, hshort⟩
  simp [union, validateElementRange_coe, bind, Except.bind, pure, Except.pure, huv, hrun1, hrun2]

theorem sameSet_spec (h : Represents s.root ρ) (u v : Fin (size + 1)) :
    ∃ root, sameSet s u v = .ok (decide (ρ u = ρ v), { s with root }) ∧ Shorter s.root root := by
  obtain ⟨root1, root2, hrun1, hrun2, hshort⟩ := rootOf_twice h u v
  refine ⟨root2, ?_, hshort⟩
  simp [sameSet, validateElementRange_coe, bind, Except.bind, pure, Except.pure, hrun1, hrun2]

theorem call_sameSet_spec (h : Represents s.root ρ) (u v : Fin (size + 1)) :
    ∃ root, call s (.sameSet u v) = .ok { s with root } ∧ Shorter s.root root := by
  obtain ⟨root, hrun, hshort⟩ := sameSet_spec h u v
  refine ⟨root, ?_, hshort⟩
  simp [call, hrun, bind, Except.bind, pure, Except.pure]

/-- The roots are the same exactly for the elements that `R` relates. -/
def Decides (s : UnionFind size) (R : Fin (size + 1) → Fin (size + 1) → Prop) : Prop :=
  ∃ ρ, Represents s.root ρ ∧ ∀ x y, ρ x = ρ y ↔ EqvGen R x y

theorem linkRoots_merges (h : Represents root ρ) (weight : Fin (size + 1) → ℕ)
    (u v : Fin (size + 1)) :
    ∃ ρ', Represents (linkRoots root weight (ρ u) (ρ v)).root ρ' ∧ Merges ρ ρ' u v := by
  have hu := h.isRoot u
  have hv := h.isRoot v
  by_cases he : ρ u = ρ v
  · -- the root is sent to itself
    refine ⟨ρ, ?_, merges_self he⟩
    have hroot : (linkRoots root weight (ρ u) (ρ v)).root = root := by
      rw [he, linkRoots, if_pos le_rfl]
      exact update_eq_self_iff.mpr hv.symm
    rw [hroot]
    exact h
  by_cases hw : weight (ρ u) ≥ weight (ρ v)
  · rw [linkRoots, if_pos hw]
    exact ⟨redirect ρ (ρ v) (ρ u), h.link hv hu (Ne.symm he), (merges_redirect ρ v u).symm⟩
  · rw [linkRoots, if_neg hw]
    exact ⟨redirect ρ (ρ u) (ρ v), h.link hu hv he, merges_redirect ρ u v⟩

theorem call_decides {R : Fin (size + 1) → Fin (size + 1) → Prop} (h : Decides s R)
    (c : Call size) : ∃ s', call s c = .ok s' ∧ Decides s' fun x y => R x y ∨ c = .union x y := by
  obtain ⟨ρ, hrep, hiff⟩ := h
  cases c with
  | union u v =>
    have hpair : (fun x y => R x y ∨ Call.union u v = .union x y) = fun x y => R x y ∨ x = u ∧ y = v := by
      simp only [Call.union.injEq, @eq_comm _ u, @eq_comm _ v]
    rw [hpair]
    by_cases huv : u = v
    · subst huv
      exact ⟨s, union_self s u, ρ, hrep, (merges_self rfl).eqvGen hiff⟩
    · obtain ⟨root, hrun, hshort⟩ := union_spec hrep huv
      obtain ⟨ρ', hrep', hmerge⟩ := linkRoots_merges (hrep.shorter hshort) s.weight u v
      exact ⟨_, hrun, ρ', hrep', hmerge.eqvGen hiff⟩
  | sameSet u v =>
    obtain ⟨root, hrun, hshort⟩ := call_sameSet_spec hrep u v
    have hsame : (fun x y => R x y ∨ Call.sameSet u v = .union x y) = R := by
      simp
    rw [hsame]
    exact ⟨_, hrun, ρ, hrep.shorter hshort, hiff⟩

/-! ### Sequences of calls -/

theorem calls_decide {R : Fin (size + 1) → Fin (size + 1) → Prop} (h : Decides s R)
    (cs : List (Call size)) :
    ∃ s', cs.foldlM call s = .ok s' ∧ Decides s' fun x y => R x y ∨ .union x y ∈ cs := by
  induction cs generalizing s R with
  | nil => exact ⟨s, rfl, by simpa using h⟩
  | cons c cs ih =>
    obtain ⟨s1, hcall, h1⟩ := call_decides h c
    obtain ⟨s', hcalls, h'⟩ := ih h1
    refine ⟨s', ?_, ?_⟩
    · rw [List.foldlM_cons, hcall]
      exact hcalls
    · simpa only [List.mem_cons, or_assoc, eq_comm] using h'

theorem singletons_decides : Decides (singletons size) fun _ _ => False :=
  ⟨fun x => x, fun _ => ⟨0, .root rfl⟩, Forest.eq_iff_eqvGen fun _ _ => not_false⟩

/-- Every call returns, and `same_set` tells whether the unions so far relate the two elements. -/
theorem sameSet_iff_united (size : ℤ) (hsize : 1 ≤ size) (cs : List (Call size.toNat)) :
    ∃ s0 s, init size = .ok s0 ∧ cs.foldlM call s0 = .ok s ∧ ∀ u v : Fin (size.toNat + 1), ∃ b s',
      sameSet s u v = .ok (b, s') ∧ (b = true ↔ EqvGen (fun x y => Call.union x y ∈ cs) u v) := by
  obtain ⟨s, hrun, ρ, hrep, hiff⟩ := calls_decide singletons_decides cs
  refine ⟨_, s, if_neg (by omega), hrun, fun u v => ?_⟩
  obtain ⟨root, hsame, _⟩ := sameSet_spec hrep u v
  refine ⟨_, _, hsame, ?_⟩
  rw [decide_eq_true_eq, hiff]
  simp only [false_or]

/-- The set that two elements are in after `union` is the set of both, and no other. -/
theorem sameSet_iff_united_two : ∃ s0 s, init 2 = .ok s0 ∧ [Call.union 0 2,
      .sameSet 1 2].foldlM call s0 = .ok s ∧ ∀ u v : Fin 3, ∃ b s', sameSet s u v = .ok (b, s') ∧
      (b = true ↔ EqvGen (fun x y => Call.union x y ∈ [Call.union 0 2, .sameSet 1 2]) u v) :=
  sameSet_iff_united 2 (by decide) [.union 0 2, .sameSet 1 2]

/-! ### The depth of the trees -/

/-- The depth of an element and the weight of a root are at most the logarithm of the number of
elements of the set. -/
structure Balanced (s : UnionFind size) : Prop where
  depth : ∀ d x r, Leads s.root d x r → 2 ^ d ≤ (tree s.root r).ncard
  weight : ∀ r, s.root r = r → 2 ^ s.weight r ≤ (tree s.root r).ncard

/-- If the call is a union of two elements of one set, the set has the elements for one more in the
weight of its root. -/
def Roomy (s : UnionFind size) : Call size → Prop
  | .union u v => u ≠ v → ∀ r, u ∈ tree s.root r → v ∈ tree s.root r →
      2 ^ (s.weight r + 1) ≤ (tree s.root r).ncard
  | .sameSet _ _ => True

theorem balanced_of_ranked (h : Ranked s.root s.weight) : Balanced s := by
  refine ⟨fun d x r hx => ?_, h.count⟩
  calc 2 ^ d ≤ 2 ^ s.weight r := Nat.pow_le_pow_right Nat.two_pos (h.depth d x r hx)
    _ ≤ (tree s.root r).ncard := h.count r hx.isRoot

theorem linkRoots_ranked {weight : Fin (size + 1) → ℕ} (h : Represents root ρ)
    (hr : Ranked root weight)
    (hroom : ρ u = ρ v → 2 ^ (weight (ρ u) + 1) ≤ (tree root (ρ u)).ncard) :
    Ranked (linkRoots root weight (ρ u) (ρ v)).root (linkRoots root weight (ρ u) (ρ v)).weight := by
  have hu := h.isRoot u
  have hv := h.isRoot v
  unfold linkRoots
  rcases lt_trichotomy (weight (ρ u)) (weight (ρ v)) with hw | hw | hw
  · rw [if_neg (not_le.mpr hw)]
    have hne : ρ u ≠ ρ v := fun he => hw.ne (congrArg weight he)
    exact hr.link h hu hv hne (fun _ _ => rfl) hw le_rfl (Nat.le_add_left _ _)
  · rw [if_pos hw.ge, if_pos hw]
    dsimp only
    by_cases he : ρ u = ρ v
    · rw [← he, update_eq_self_iff.mpr hu.symm]
      exact hr.grow (hroom he)
    refine hr.link h hv hu (Ne.symm he) (fun r hne => update_of_ne hne ..) ?_ ?_ ?_
    · rw [update_self]
      omega
    · rw [update_self]
      omega
    · rw [update_self, hw, pow_succ]
      omega
  · rw [if_pos hw.le, if_neg hw.ne']
    have hne : ρ v ≠ ρ u := fun he => hw.ne (congrArg weight he)
    exact hr.link h hv hu hne (fun _ _ => rfl) hw le_rfl (Nat.le_add_left _ _)

theorem call_ranked {c : Call size} (h : Represents s.root ρ) (hr : Ranked s.root s.weight)
    (hroom : Roomy s c) (hcall : call s c = .ok s') : Ranked s'.root s'.weight := by
  cases c with
  | union u v =>
    by_cases huv : u = v
    · subst huv
      obtain rfl : s = s' := ok.inj ((union_self s u).symm.trans hcall)
      exact hr
    · obtain ⟨root, hrun, hshort⟩ := union_spec h huv
      obtain rfl := ok.inj (hrun.symm.trans hcall)
      refine linkRoots_ranked (h.shorter hshort) (hr.shorter h hshort) fun he => ?_
      rw [h.tree_shorter hshort]
      exact hroom huv (ρ u) (h.mem_tree_iff.mpr rfl) (h.mem_tree_iff.mpr he.symm)
  | sameSet u v =>
    obtain ⟨root, hrun, hshort⟩ := call_sameSet_spec h u v
    obtain rfl := ok.inj (hrun.symm.trans hcall)
    exact hr.shorter h hshort

/-- A union in one set puts one on the weight of the root and changes no set. -/
theorem roomy_of_balanced {c : Call size} (h : Represents s.root ρ) (hcall : call s c = .ok s')
    (hbal : Balanced s') : Roomy s c := by
  cases c with
  | union u v =>
    intro huv r hu hv
    rw [h.mem_tree_iff] at hu hv
    obtain ⟨root, hrun, hshort⟩ := union_spec h huv
    obtain rfl := ok.inj (hrun.symm.trans hcall)
    have hroot := hshort.isRoot (h.isRoot u)
    rw [hu, hv] at hbal
    rw [hu] at hroot
    have hlink : linkRoots root s.weight r r = ⟨root, update s.weight r (s.weight r + 1)⟩ := by
      rw [linkRoots, if_pos le_rfl, if_pos rfl, update_eq_self_iff.mpr hroot.symm]
    rw [hlink] at hbal
    have hcount := hbal.weight r hroot
    dsimp only at hcount
    rwa [update_self, h.tree_shorter hshort] at hcount
  | sameSet => trivial

theorem ranked_singletons : Ranked (singletons size).root (singletons size).weight := by
  refine ⟨fun n x r hx => ?_, fun r hr => ?_⟩
  · cases hx with
    | root => exact Nat.zero_le _
    | step hx => exact absurd rfl hx
  · have hmem : r ∈ tree (singletons size).root r := ⟨0, .root hr⟩
    exact (Set.ncard_pos (Set.toFinite _)).mpr ⟨r, hmem⟩

/-- The bounds hold in all states exactly when every union of two elements of one set finds a set
large enough for the new weight of its root. -/
theorem balanced_iff_roomy (size : ℤ) (hsize : 1 ≤ size) (cs : List (Call size.toNat)) :
    ∃ s0, init size = .ok s0 ∧
      ((∀ done s, done <+: cs → done.foldlM call s0 = .ok s → Balanced s) ↔
        ∀ done c s, done ++ [c] <+: cs → done.foldlM call s0 = .ok s → Roomy s c) := by
  refine ⟨singletons size.toNat, if_neg (by omega), ?_, ?_⟩
  · intro hbal done c s hdone hrun
    obtain ⟨s1, hrun1, hdec⟩ := calls_decide singletons_decides done
    obtain rfl := Except.ok.inj (hrun.symm.trans hrun1)
    obtain ⟨s', hcall, _⟩ := call_decides hdec c
    obtain ⟨ρ, hrep, _⟩ := hdec
    refine roomy_of_balanced hrep hcall (hbal (done ++ [c]) s' hdone ?_)
    rw [foldlM_concat, hrun]
    exact hcall
  · intro hroom done s hdone hrun
    apply balanced_of_ranked
    induction done using List.reverseRecOn generalizing s with
    | nil =>
      cases hrun
      exact ranked_singletons
    | append_singleton done c ih =>
      obtain ⟨s1, hprev, ρ, hrep, _⟩ := calls_decide singletons_decides done
      rw [foldlM_concat, hprev] at hrun
      exact call_ranked hrep (ih s1 ((List.prefix_append _ _).trans hdone) hprev)
        (hroom done c s1 hdone hprev) hrun

/-- One union of two elements, and nothing in one set. -/
theorem balanced_iff_roomy_two : ∃ s0, init 2 = .ok s0 ∧
    ((∀ done s, done <+: [Call.union 0 1] → done.foldlM call s0 = .ok s → Balanced s) ↔
      ∀ done c s, done ++ [c] <+: [Call.union 0 1] → done.foldlM call s0 = .ok s → Roomy s c) :=
  balanced_iff_roomy 2 (by decide) [.union 0 1]

/-- The second `union(4, 5)` gives the root 4 the weight 2 for its two elements.  So the set of four
elements goes under it. -/
def heavyPair : List (Call 5) := [.union 0 1, .union 2 3, .union 2 0, .union 4 5, .union 4 5, .union 4 2]

theorem heavyPair_run :
    ∃ s, heavyPair.foldlM call (singletons 5) = .ok s ∧ Leads s.root 3 1 4 ∧ s.weight 4 = 3 :=
  ⟨_, rfl, .step (by decide) (.step (by decide) (.step (by decide) (.root (by decide)))), by decide⟩

theorem heavyPair_not_balanced : ∃ s0 s, init 5 = .ok s0 ∧ heavyPair.foldlM call s0 = .ok s ∧
    Leads s.root 3 1 4 ∧ s.weight 4 = 3 ∧ (tree s.root 4).ncard ≤ 6 ∧ ¬ Balanced s := by
  obtain ⟨s, hrun, hlead, hweight⟩ := heavyPair_run
  have hcard : (tree s.root 4).ncard ≤ 6 := (Set.ncard_le_card _).trans (by simp)
  refine ⟨singletons 5, s, rfl, hrun, hlead, hweight, hcard, fun hbal => ?_⟩
  have hdepth := hbal.depth 3 1 4 hlead
  omega

end UnionFind

end Code365.Algorithms
