import Mathlib

/-! # Red-black trees and positions in them

Binary trees whose nodes have an address, a colour and a key.  A position in a tree is a subtree
together with the frames above it, the innermost first; `plug` puts the tree together again.
`join d` builds a node from its child on the side `d` and the other one, so that a statement about
the two mirror images of an operation is made once.

`IsRB t n` says that no red node of `t` has a red child and that every path of `t` has `n` black
nodes; `Fits fs n` says that a tree with `n` black nodes on its paths fits below the frames `fs`
(`IsRB.plug`). -/

namespace Code365.RedBlack

open List Multiset

inductive Color where
  | red
  | black
deriving DecidableEq, Repr

theorem Color.eq_black {c : Color} (h : c ≠ .red) : c = .black := by
  cases c with
  | red => exact absurd rfl h
  | black => rfl

inductive Side where
  | left
  | right
deriving DecidableEq, Repr

def Side.other : Side → Side
  | .left => .right
  | .right => .left

@[simp] theorem Side.other_ne (d : Side) : d.other ≠ d := by cases d with
  | left => decide
  | right => decide

@[simp] theorem Side.ne_other (d : Side) : d ≠ d.other := d.other_ne.symm

variable {d : Side}

theorem Side.eq_other_of_ne {e : Side} (h : e ≠ d) : e = d.other := by
  revert h
  cases d <;> cases e <;> decide

variable {α κ : Type*}

inductive Tree (α κ : Type*) where
  | nil
  | node (a : α) (c : Color) (k : κ) (l r : Tree α κ)

namespace Tree

/-- The node with `x` on side `d` and `y` on the other one. -/
def join (d : Side) (a : α) (c : Color) (k : κ) (x y : Tree α κ) : Tree α κ :=
  match d with
  | .left => node a c k x y
  | .right => node a c k y x

def color : Tree α κ → Color
  | nil => .black
  | node _ c _ _ _ => c

/-- The tree with a black root. -/
def blacken : Tree α κ → Tree α κ
  | nil => nil
  | node a _ k l r => node a .black k l r

/-- The keys in order. -/
def keys : Tree α κ → List κ
  | nil => []
  | node _ _ k l r => l.keys ++ k :: r.keys

def addrs : Tree α κ → Multiset α
  | nil => 0
  | node a _ _ l r => a ::ₘ (l.addrs + r.addrs)

/-- The colours on the paths from the root down. -/
def paths : Tree α κ → List (List Color)
  | nil => [[]]
  | node _ c _ l r => (l.paths ++ r.paths).map (c :: ·)

/-- No red node has a red child. -/
def NoRedRed : Tree α κ → Prop
  | nil => True
  | node _ c _ l r => (c = .red → l.color = .black ∧ r.color = .black) ∧ l.NoRedRed ∧ r.NoRedRed

theorem join_other (d : Side) (a : α) (c : Color) (k : κ) (x y : Tree α κ) :
    join d.other a c k x y = join d a c k y x := by
  cases d with
  | left => rfl
  | right => rfl

theorem exists_join (d : Side) {t : Tree α κ} (h : t ≠ nil) :
    ∃ a c k x y, t = join d a c k x y := by
  cases t with
  | nil => exact absurd rfl h
  | node a c k l r =>
    cases d with
    | left => exact ⟨a, c, k, l, r, rfl⟩
    | right => exact ⟨a, c, k, r, l, rfl⟩

theorem join_ne_nil (d : Side) (a : α) (c : Color) (k : κ) (x y : Tree α κ) :
    join d a c k x y ≠ nil := by
  cases d with
  | left => exact nofun
  | right => exact nofun

@[simp] theorem color_join (d : Side) (a : α) (c : Color) (k : κ) (x y : Tree α κ) :
    (join d a c k x y).color = c := by
  cases d with
  | left => rfl
  | right => rfl

theorem ne_nil_of_red {t : Tree α κ} (h : t.color = .red) : t ≠ nil := by
  rintro rfl
  cases h

theorem exists_join_red (d : Side) {t : Tree α κ} (h : t.color = .red) :
    ∃ a k x y, t = join d a .red k x y := by
  obtain ⟨a, c, k, x, y, rfl⟩ := exists_join d (ne_nil_of_red h)
  obtain rfl : c = .red := (color_join ..).symm.trans h
  exact ⟨a, k, x, y, rfl⟩

@[simp] theorem addrs_join (d : Side) (a : α) (c : Color) (k : κ) (x y : Tree α κ) :
    (join d a c k x y).addrs = a ::ₘ (x.addrs + y.addrs) := by
  cases d with
  | left => rfl
  | right => exact congrArg (a ::ₘ ·) (add_comm _ _)

theorem blacken_join (d : Side) (a : α) (c : Color) (k : κ) (x y : Tree α κ) :
    (join d a c k x y).blacken = join d a .black k x y := by
  cases d with
  | left => rfl
  | right => rfl

theorem blacken_of_black {t : Tree α κ} (h : t.color = .black) : t.blacken = t := by
  cases t with
  | nil => rfl
  | node a c k l r =>
    obtain rfl : c = .black := h
    rfl

theorem color_blacken (t : Tree α κ) : t.blacken.color = .black := by
  cases t with
  | nil => rfl
  | node a c k l r => rfl

theorem keys_blacken (t : Tree α κ) : t.blacken.keys = t.keys := by
  cases t with
  | nil => rfl
  | node a c k l r => rfl

theorem keys_join_congr {a b : α} {c c' : Color} {k : κ} {x x' y y' : Tree α κ}
    (hx : x.keys = x'.keys) (hy : y.keys = y'.keys) :
    (join d a c k x y).keys = (join d b c' k x' y').keys := by
  cases d with
  | left | right => simp only [Tree.join, Tree.keys, hx, hy]

theorem keys_rotate (d : Side) (a b : α) (c c' e e' : Color) (k k' : κ) (x y z : Tree α κ) :
    (join d b e k' (join d a e' k x y) z).keys = (join d a c k x (join d b c' k' y z)).keys := by
  cases d with
  | left | right => simp only [Tree.join, Tree.keys, append_assoc, cons_append]

theorem addrs_rotate (d : Side) (a b : α) (c c' e e' : Color) (k k' : κ) (x y z : Tree α κ) :
    (join d b e k' (join d a e' k x y) z).addrs = (join d a c k x (join d b c' k' y z)).addrs := by
  simp only [addrs_join, cons_add, add_cons, add_assoc]
  exact cons_swap ..

theorem card_addrs : ∀ t : Tree α κ, Multiset.card t.addrs = t.keys.length
  | nil => rfl
  | node a c k l r => by
    rw [addrs, card_cons, card_add, card_addrs l, card_addrs r, Tree.keys, length_append,
      length_cons, add_assoc]

end Tree

open RedBlack.Tree

/-! ### The red-black property -/

/-- How many black nodes a node adds to a path. -/
def Color.weight : Color → ℕ
  | .red => 0
  | .black => 1

/-- No red node has a red child, and every path has `n` black nodes. -/
inductive IsRB : Tree α κ → ℕ → Prop
  | nil : IsRB Tree.nil 0
  | red {a : α} {k : κ} {l r : Tree α κ} {n : ℕ} : IsRB l n → IsRB r n → l.color = .black → r.color = .black →
      IsRB (.node a .red k l r) n
  | black {a : α} {k : κ} {l r : Tree α κ} {n : ℕ} : IsRB l n → IsRB r n → IsRB (.node a .black k l r) (n + 1)

variable {n : ℕ}

theorem isRB_join_red_iff {a : α} {k : κ} {x y : Tree α κ} :
    IsRB (join d a .red k x y) n ↔ IsRB x n ∧ IsRB y n ∧ x.color = .black ∧ y.color = .black := by
  cases d with
  | left | right =>
    constructor
    · rintro (_ | ⟨_, _, _, _⟩)
      and_intros <;> assumption
    · rintro ⟨hx, hy, hcx, hcy⟩
      constructor <;> assumption

theorem isRB_join_black_iff {a : α} {k : κ} {x y : Tree α κ} :
    IsRB (join d a .black k x y) n ↔ ∃ m, n = m + 1 ∧ IsRB x m ∧ IsRB y m := by
  cases d with
  | left | right =>
    constructor
    · rintro (_ | _ | ⟨_, _⟩)
      exact ⟨_, rfl, by assumption, by assumption⟩
    · rintro ⟨m, rfl, hx, hy⟩
      constructor <;> assumption

theorem isRB_join_black_succ {a : α} {k : κ} {x y : Tree α κ} :
    IsRB (join d a .black k x y) (n + 1) ↔ IsRB x n ∧ IsRB y n := by
  rw [isRB_join_black_iff]
  constructor
  · rintro ⟨m, hm, hx, hy⟩
    obtain rfl : n = m := by omega
    exact ⟨hx, hy⟩
  · exact fun h => ⟨n, rfl, h⟩

/-- The children of a node have as many black nodes on their paths, but for the node. -/
theorem IsRB.of_join {a : α} {c : Color} {k : κ} {x y : Tree α κ} (h : IsRB (join d a c k x y) n) :
    ∃ m, n = m + c.weight ∧ IsRB x m ∧ IsRB y m ∧
    (c = .red → x.color = .black ∧ y.color = .black) := by
  cases c with
  | red =>
    obtain ⟨hx, hy, hcx, hcy⟩ := isRB_join_red_iff.mp h
    exact ⟨n, rfl, hx, hy, fun _ => ⟨hcx, hcy⟩⟩
  | black =>
    obtain ⟨m, rfl, hx, hy⟩ := isRB_join_black_iff.mp h
    exact ⟨m, rfl, hx, hy, nofun⟩

theorem IsRB.join {a : α} {c : Color} {k : κ} {x y : Tree α κ} (hx : IsRB x n) (hy : IsRB y n)
    (hc : c = .red → x.color = .black ∧ y.color = .black) :
    IsRB (join d a c k x y) (n + c.weight) := by
  cases c with
  | red =>
    obtain ⟨hcx, hcy⟩ := hc rfl
    exact isRB_join_red_iff.mpr ⟨hx, hy, hcx, hcy⟩
  | black => exact isRB_join_black_succ.mpr ⟨hx, hy⟩

variable {t : Tree α κ}

theorem IsRB.ne_nil (h : IsRB t (n + 1)) : t ≠ .nil := by
  rintro rfl
  cases h

theorem IsRB.blacken (h : IsRB t n) : ∃ m, IsRB t.blacken m := by
  cases h with
  | nil => exact ⟨0, .nil⟩
  | red hl hr => exact ⟨n + 1, .black hl hr⟩
  | black hl hr => exact ⟨_, .black hl hr⟩

theorem IsRB.noRedRed (h : IsRB t n) : t.NoRedRed := by
  induction h with
  | nil => trivial
  | red _ _ hl hr ihl ihr => exact ⟨fun _ => ⟨hl, hr⟩, ihl, ihr⟩
  | black _ _ ihl ihr => exact ⟨nofun, ihl, ihr⟩

theorem IsRB.count_black (h : IsRB t n) : ∀ path ∈ t.paths, path.count .black = n := by
  induction h with
  | nil =>
    intro path hp
    rw [List.mem_singleton.mp hp]
    rfl
  | red _ _ _ _ ihl ihr =>
    intro path hp
    obtain ⟨rest, hrest, rfl⟩ := mem_map.mp hp
    rcases mem_append.mp hrest with hl | hr
    · exact ihl rest hl
    · exact ihr rest hr
  | black _ _ ihl ihr =>
    intro path hp
    obtain ⟨rest, hrest, rfl⟩ := mem_map.mp hp
    rw [List.count_cons_self]
    rcases mem_append.mp hrest with hl | hr
    · rw [ihl rest hl]
    · rw [ihr rest hr]

/-! ### Positions -/

/-- A node above a position: the side on which the position lies, and the subtree on the other
one. -/
structure Frame (α κ : Type*) where
  side : Side
  addr : α
  color : Color
  key : κ
  sibling : Tree α κ

def Frame.fill (f : Frame α κ) (t : Tree α κ) : Tree α κ := join f.side f.addr f.color f.key t f.sibling

/-- The whole tree. -/
def plug : List (Frame α κ) → Tree α κ → Tree α κ
  | [], t => t
  | f :: fs, t => plug fs (f.fill t)

def frameAddrs : List (Frame α κ) → Multiset α
  | [] => 0
  | f :: fs => f.addr ::ₘ (f.sibling.addrs + frameAddrs fs)

def before : List (Frame α κ) → List κ
  | [] => []
  | f :: fs => match f.side with
    | .left => before fs
    | .right => before fs ++ f.sibling.keys ++ [f.key]

def after : List (Frame α κ) → List κ
  | [] => []
  | f :: fs => match f.side with
    | .left => f.key :: f.sibling.keys ++ after fs
    | .right => after fs

/-- The colour above a position, black above the root. -/
def parentColor : List (Frame α κ) → Color
  | [] => .black
  | f :: _ => f.color

theorem keys_plug :
    ∀ (fs : List (Frame α κ)) (t : Tree α κ), (plug fs t).keys = before fs ++ t.keys ++ after fs
  | [], t => by simp [plug, before, after]
  | f :: fs, t => by
    rw [plug, keys_plug fs]
    cases h : f.side <;> simp [Frame.fill, Tree.join, h, Tree.keys, before, after]

theorem keys_plug_congr {fs : List (Frame α κ)} {t' : Tree α κ} (h : t.keys = t'.keys) :
    (plug fs t).keys = (plug fs t').keys := by
  rw [keys_plug, keys_plug, h]

theorem addrs_plug :
    ∀ (fs : List (Frame α κ)) (t : Tree α κ), (plug fs t).addrs = t.addrs + frameAddrs fs
  | [], t => (add_zero _).symm
  | f :: fs, t => by
    rw [plug, addrs_plug fs, Frame.fill, addrs_join, frameAddrs, cons_add, add_cons, add_assoc]

/-- Without the node at the position, whose child takes its place. -/
theorem addrs_plug_node (fs : List (Frame α κ)) (a : α) (c : Color) (k : κ) (x : Tree α κ) :
    (plug fs (node a c k .nil x)).addrs = a ::ₘ (plug fs x).addrs := by
  rw [addrs_plug, addrs_plug, addrs, addrs, zero_add, cons_add]

theorem plug_append (gs fs : List (Frame α κ)) (t : Tree α κ) :
    plug (gs ++ fs) t = plug fs (plug gs t) := by
  induction gs generalizing t with
  | nil => rfl
  | cons g gs ih => exact ih _

theorem before_append (gs fs : List (Frame α κ)) : before (gs ++ fs) = before fs ++ before gs := by
  induction gs with
  | nil => exact (append_nil _).symm
  | cons g gs ih => cases h : g.side <;> simp [before, h, ih]

theorem after_append (gs fs : List (Frame α κ)) : after (gs ++ fs) = after gs ++ after fs := by
  induction gs with
  | nil => rfl
  | cons f gs ih =>
    rw [cons_append, after, after, ih]
    cases f.side with
    | left => rw [append_assoc]
    | right => rfl

theorem frameAddrs_append (gs fs : List (Frame α κ)) :
    frameAddrs (gs ++ fs) = frameAddrs gs + frameAddrs fs := by
  induction gs with
  | nil => exact (zero_add _).symm
  | cons g gs ih => rw [cons_append, frameAddrs, frameAddrs, ih, cons_add, add_assoc]

theorem plug_ne_nil (ht : t ≠ .nil) (fs : List (Frame α κ)) : plug fs t ≠ .nil := by
  induction fs generalizing t with
  | nil => exact ht
  | cons f fs ih => exact ih (join_ne_nil _ _ _ _ _ _)

theorem length_le_card_frameAddrs :
    ∀ fs : List (Frame α κ), fs.length ≤ Multiset.card (frameAddrs fs)
  | [] => Nat.zero_le _
  | f :: fs => by
    have ih := length_le_card_frameAddrs fs
    rw [frameAddrs, card_cons, card_add, length_cons]
    omega

/-! ### Searching -/

/-- What holds of the keys before a position and of those after it. -/
structure Around (P Q : κ → Prop) (fs : List (Frame α κ)) : Prop where
  before : ∀ k ∈ before fs, P k
  after : ∀ k ∈ after fs, Q k

section Search

variable [Preorder κ] {P Q : κ → Prop} {fs : List (Frame α κ)} {a : α} {c : Color} {k : κ} {x y : Tree α κ}

theorem Around.left (h : Around P Q fs) (hs : (node a c k x y).keys.Pairwise (· ≤ ·))
    (hk : ∀ b, k ≤ b → Q b) : Around P Q (⟨.left, a, c, k, y⟩ :: fs) := by
  refine ⟨h.before, fun b hb => ?_⟩
  obtain ⟨_, hs, _⟩ := pairwise_append.mp hs
  rcases mem_append.mp hb with hb | hb
  · rcases mem_cons.mp hb with rfl | hb
    · exact hk _ le_rfl
    · exact hk b ((pairwise_cons.mp hs).1 b hb)
  · exact h.after b hb

theorem Around.right (h : Around P Q fs) (hs : (node a c k y x).keys.Pairwise (· ≤ ·))
    (hk : ∀ b ≤ k, P b) : Around P Q (⟨.right, a, c, k, y⟩ :: fs) := by
  refine ⟨fun b hb => ?_, h.after⟩
  obtain ⟨_, _, hs⟩ := pairwise_append.mp hs
  rcases mem_append.mp hb with hb | hb
  · rcases mem_append.mp hb with hb | hb
    · exact h.before b hb
    · exact hk b (hs b hb k (mem_cons_self ..))
  · rw [List.mem_singleton.mp hb]
    exact hk k le_rfl

theorem pairwise_of_plug (hs : (plug fs t).keys.Pairwise (· ≤ ·)) : t.keys.Pairwise (· ≤ ·) := by
  rw [keys_plug] at hs
  exact (pairwise_append.mp (pairwise_append.mp hs).1).2.1

theorem Around.notMem (h : Around (· < k) (k < ·) fs) : k ∉ (plug fs .nil).keys := by
  rw [keys_plug, Tree.keys, append_nil, mem_append, not_or]
  exact ⟨fun hb => lt_irrefl k (h.before k hb), fun ha => lt_irrefl k (h.after k ha)⟩

/-- A key between those before the position and those after it can be put there. -/
theorem Around.pairwise (h : Around (· ≤ k) (k ≤ ·) fs)
    (hs : (plug fs .nil).keys.Pairwise (· ≤ ·)) :
    (plug fs (node a c k .nil .nil)).keys.Pairwise (· ≤ ·) := by
  rw [keys_plug] at hs ⊢
  simp only [Tree.keys, append_nil, nil_append, append_assoc, singleton_append] at hs ⊢
  obtain ⟨hb, ha, hba⟩ := pairwise_append.mp hs
  refine pairwise_append.mpr ⟨hb, pairwise_cons.mpr ⟨h.after, ha⟩, fun b hb' e he => ?_⟩
  rcases mem_cons.mp he with rfl | he
  · exact h.before b hb'
  · exact hba b hb' e he

end Search

theorem keys_plug_singleton (fs : List (Frame α κ)) (a : α) (c : Color) (k : κ) :
    ((plug fs (node a c k .nil .nil)).keys : Multiset κ) = k ::ₘ (plug fs .nil).keys := by
  rw [keys_plug, keys_plug]
  simp only [Tree.keys, append_nil, nil_append, append_assoc, singleton_append]
  exact coe_eq_coe.mpr perm_middle

/-! ### Fitting trees -/

/-- A tree with `n` black nodes on its paths fits below the frames; the topmost frame is black. -/
def Fits : List (Frame α κ) → ℕ → Prop
  | [], _ => True
  | f :: fs, n => IsRB f.sibling n ∧
      (f.color = .red → f.sibling.color = .black ∧ fs ≠ [] ∧ parentColor fs = .black) ∧
      Fits fs (n + f.color.weight)

theorem Fits.congr_frame {gs fs : List (Frame α κ)} {a b : α} {c : Color} {k k' : κ} {s : Tree α κ}
    (h : Fits (gs ++ ⟨d, a, c, k, s⟩ :: fs) n) : Fits (gs ++ ⟨d, b, c, k', s⟩ :: fs) n := by
  induction gs generalizing n with
  | nil => exact h
  | cons g gs ih =>
    obtain ⟨hsib, hred, hfits⟩ := h
    refine ⟨hsib, fun hg => ?_, ih hfits⟩
    obtain ⟨hs, _, hp⟩ := hred hg
    refine ⟨hs, by simp, ?_⟩
    cases gs with
    | nil => exact hp
    | cons g' gs => exact hp

theorem Fits.of_red {fs : List (Frame α κ)} (h : Fits fs n) (hred : parentColor fs = .red) :
    ∃ f g gs, fs = f :: g :: gs ∧ f.color = .red ∧ g.color = .black := by
  cases fs with
  | nil => cases hred
  | cons f fs =>
    obtain ⟨_, hf, _⟩ := h
    obtain ⟨_, hne, hg⟩ := hf hred
    cases fs with
    | nil => exact absurd rfl hne
    | cons g gs => exact ⟨f, g, gs, rfl, hred, hg⟩

/-- What is put at a fitting position makes a red-black tree, unless it is red below a red node. -/
theorem IsRB.plug : ∀ {fs : List (Frame α κ)} {t : Tree α κ} {n : ℕ}, IsRB t n → Fits fs n →
    (t.color = .black ∨ parentColor fs = .black) → (fs = [] → t.color = .black) →
    (∃ m, IsRB (plug fs t) m) ∧ (RedBlack.plug fs t).color = .black
  | [], t, n, h, _, _, hroot => ⟨⟨n, h⟩, hroot rfl⟩
  | f :: fs, t, n, h, ⟨hsib, hred, hfits⟩, hc, _ => by
    have hfill : IsRB (f.fill t) (n + f.color.weight) := by
      refine IsRB.join h hsib fun hf => ⟨?_, (hred hf).1⟩
      rcases hc with hc | hc
      · exact hc
      · rw [parentColor, hf] at hc
        cases hc
    have hcolor : (f.fill t).color = f.color := color_join ..
    apply hfill.plug hfits
    · rw [hcolor]
      cases hf : f.color with
      | red => exact .inr (hred hf).2.2
      | black => exact .inl rfl
    · intro hnil
      rw [hcolor]
      cases hf : f.color with
      | red => exact absurd hnil (hred hf).2.1
      | black => rfl

/-- A position in a red-black tree. -/
structure At (fs : List (Frame α κ)) (t : Tree α κ) (n : ℕ) : Prop where
  isRB : IsRB t n
  fits : Fits fs n
  color : t.color = .black ∨ parentColor fs = .black
  root : fs = [] → t.color = .black

theorem At.down {fs : List (Frame α κ)} {a : α} {c : Color} {k : κ} {x y : Tree α κ}
    (h : At fs (join d a c k x y) n) : ∃ m, n = m + c.weight ∧ At (⟨d, a, c, k, y⟩ :: fs) x m := by
  obtain ⟨m, rfl, hx, hy, hc⟩ := h.isRB.of_join
  have hcolor := h.color
  have hroot := h.root
  rw [color_join] at hcolor hroot
  refine ⟨m, rfl, hx, ⟨hy, fun hred => ⟨(hc hred).2, ?_, ?_⟩, h.fits⟩, ?_, nofun⟩
  · intro hnil
    rw [hroot hnil] at hred
    cases hred
  · rcases hcolor with hb | hb
    · rw [hb] at hred
      cases hred
    · exact hb
  · cases c with
    | red => exact .inl (hc rfl).1
    | black => exact .inr rfl

theorem At.of_plug {fs gs : List (Frame α κ)} (h : At gs (plug fs t) n) :
    ∃ m, At (fs ++ gs) t m := by
  induction fs generalizing t with
  | nil => exact ⟨n, h⟩
  | cons f fs ih =>
    obtain ⟨m, hm⟩ := ih h
    obtain ⟨m', _, hm'⟩ := hm.down
    exact ⟨m', hm'⟩

theorem IsRB.at_root (h : IsRB t n) (hc : t.color = .black) : At [] t n :=
  ⟨h, trivial, .inl hc, fun _ => hc⟩

end Code365.RedBlack
