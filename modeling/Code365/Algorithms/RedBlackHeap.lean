import Code365.Algorithms.RedBlackBst

/-! # Trees in the heap

`Own h t par` says that the heap holds the tree `t` with the node at address `par` as the parent of
its root, and `Rep h fs t` that it holds the tree with `t` at the position `fs`, each node at an
address of its own.  A position is moved by `rep_cons` and `rep_append`; `Rep.setColor` and
`rotate_spec` say what a colour and a rotation do there. -/

namespace Code365.Algorithms.RedBlackBst

open Multiset RedBlack RedBlack.Tree

abbrev Node := Tree ℕ ℤ

abbrev Path := List (Frame ℕ ℤ)

/-! ### Reading and writing fields -/

namespace Heap

variable (h : Heap) (a b : ℕ) (r : Ref) (c : Color) (d e : Side)

@[simp] theorem key_setColor : (h.setColor a c).key = h.key := rfl
@[simp] theorem child_setColor : (h.setColor a c).child = h.child := rfl
@[simp] theorem p_setColor : (h.setColor a c).p = h.p := rfl
@[simp] theorem root_setColor : (h.setColor a c).root = h.root := rfl
@[simp] theorem next_setColor : (h.setColor a c).next = h.next := rfl

@[simp] theorem color_setColor : (h.setColor a c).color b = if b = a then c else h.color b := by
  exact Function.update_apply ..

@[simp] theorem key_setP : (h.setP a r).key = h.key := rfl
@[simp] theorem color_setP : (h.setP a r).color = h.color := rfl
@[simp] theorem child_setP : (h.setP a r).child = h.child := rfl
@[simp] theorem root_setP : (h.setP a r).root = h.root := rfl
@[simp] theorem next_setP : (h.setP a r).next = h.next := rfl

@[simp] theorem p_setP : (h.setP a r).p b = if b = a then r else h.p b := by
  exact Function.update_apply ..

@[simp] theorem key_setChild : (h.setChild d a r).key = h.key := rfl
@[simp] theorem color_setChild : (h.setChild d a r).color = h.color := rfl
@[simp] theorem p_setChild : (h.setChild d a r).p = h.p := rfl
@[simp] theorem root_setChild : (h.setChild d a r).root = h.root := rfl
@[simp] theorem next_setChild : (h.setChild d a r).next = h.next := rfl

@[simp] theorem child_setChild :
    (h.setChild d a r).child e b = if e = d ∧ b = a then r else h.child e b := by
  unfold setChild
  by_cases hd : e = d
  · subst hd
    simp [Function.update_apply]
  · simp [hd]

@[simp] theorem key_setRoot : (h.setRoot r).key = h.key := rfl
@[simp] theorem color_setRoot : (h.setRoot r).color = h.color := rfl
@[simp] theorem child_setRoot : (h.setRoot r).child = h.child := rfl
@[simp] theorem p_setRoot : (h.setRoot r).p = h.p := rfl
@[simp] theorem root_setRoot : (h.setRoot r).root = r := rfl
@[simp] theorem next_setRoot : (h.setRoot r).next = h.next := rfl

end Heap

/-- The fields of the node at `a` are the same. -/
structure SameAt (h h' : Heap) (a : ℕ) : Prop where
  key : h'.key a = h.key a
  color : h'.color a = h.color a
  p : h'.p a = h.p a
  child : ∀ d, h'.child d a = h.child d a

/-! ### Trees and frames -/

/-- The address of the root, that of the sentinel for an empty tree. -/
def addr : Node → ℕ
  | .nil => 0
  | .node a _ _ _ _ => a

/-- The address above a position. -/
def parent : Path → ℕ
  | [] => 0
  | f :: _ => f.addr

def Own (h : Heap) : Node → ℕ → Prop
  | .nil, _ => True
  | .node a c k l r, par => h.key a = k ∧ h.color a = c ∧ h.p a = some par ∧ h.child .left a = some (addr l) ∧
      h.child .right a = some (addr r) ∧ Own h l a ∧ Own h r a

def OwnFrames (h : Heap) : Path → ℕ → Prop
  | [], hole => h.root = some hole
  | f :: fs, hole => h.key f.addr = f.key ∧ h.color f.addr = f.color ∧ h.p f.addr = some (parent fs) ∧
      h.child f.side f.addr = some hole ∧ h.child f.side.other f.addr = some (addr f.sibling) ∧
      Own h f.sibling f.addr ∧ OwnFrames h fs f.addr

structure Rep (h : Heap) (fs : Path) (t : Node) : Prop where
  own : Own h t (parent fs)
  frames : OwnFrames h fs (addr t)
  nodup : (0 ::ₘ (t.addrs + frameAddrs fs)).Nodup
  below : ∀ a ∈ 0 ::ₘ (t.addrs + frameAddrs fs), a < h.next
  black : h.color 0 = .black

variable {h h' : Heap} {fs : Path} {t : Node} {f : Frame ℕ ℤ} {d : Side} {a b par n m : ℕ}
  {c c' : Color} {k k' : ℤ}
  {x y z : Node}

@[simp] theorem addr_join (d : Side) (a : ℕ) (c : Color) (k : ℤ) (x y : Node) :
    addr (join d a c k x y) = a := by
  cases d with
  | left => rfl
  | right => rfl

theorem own_join : Own h (join d a c k x y) par ↔ h.key a = k ∧ h.color a = c ∧ h.p a = some par ∧
    h.child d a = some (addr x) ∧ h.child d.other a = some (addr y) ∧ Own h x a ∧ Own h y a := by
  cases d with
  | left => rfl
  | right =>
    simp only [Tree.join, Own, Side.other]
    tauto

theorem addr_mem (ht : t ≠ .nil) : addr t ∈ t.addrs := by
  cases t with
  | nil => exact absurd rfl ht
  | node a c k l r => exact mem_cons_self ..

theorem rep_cons : Rep h (f :: fs) t ↔ Rep h fs (f.fill t) := by
  have haddrs : t.addrs + frameAddrs (f :: fs) = (f.fill t).addrs + frameAddrs fs := by
    rw [Frame.fill, addrs_join, frameAddrs, cons_add, add_cons, add_assoc]
  constructor
  · rintro ⟨hown, ⟨hk, hc, hp, hx, hy, hsib, hfs⟩, hnodup, hbelow, hblack⟩
    rw [haddrs] at hnodup hbelow
    refine ⟨own_join.mpr ⟨hk, hc, hp, hx, hy, hown, hsib⟩, ?_, hnodup, hbelow, hblack⟩
    rw [Frame.fill, addr_join]
    exact hfs
  · rintro ⟨hown, hfs, hnodup, hbelow, hblack⟩
    obtain ⟨hk, hc, hp, hx, hy, hown, hsib⟩ := own_join.mp hown
    rw [← haddrs] at hnodup hbelow
    rw [Frame.fill, addr_join] at hfs
    exact ⟨hown, ⟨hk, hc, hp, hx, hy, hsib, hfs⟩, hnodup, hbelow, hblack⟩

theorem rep_plug : ∀ {fs : Path} {t : Node}, Rep h fs t ↔ Rep h [] (plug fs t)
  | [], _ => Iff.rfl
  | _ :: _, _ => rep_cons.trans rep_plug

theorem rep_append : ∀ {gs : Path} {t : Node}, Rep h (gs ++ fs) t ↔ Rep h fs (plug gs t)
  | [], _ => Iff.rfl
  | _ :: _, _ => rep_cons.trans rep_append

theorem Own.congr :
    ∀ {t : Node} {par : ℕ}, Own h t par → (∀ a ∈ t.addrs, SameAt h h' a) → Own h' t par
  | .nil, _, _, _ => trivial
  | .node a c k l r, par, ⟨hk, hc, hp, hl, hr, hol, hor⟩, hsame => by
    have ha := hsame a (mem_cons_self ..)
    refine ⟨ha.key.trans hk, ha.color.trans hc, ha.p.trans hp, (ha.child _).trans hl,
      (ha.child _).trans hr, ?_, ?_⟩
    · exact hol.congr fun b hb => hsame b (mem_cons_of_mem (mem_add.mpr (.inl hb)))
    · exact hor.congr fun b hb => hsame b (mem_cons_of_mem (mem_add.mpr (.inr hb)))

theorem OwnFrames.congr : ∀ {fs : Path} {hole : ℕ}, OwnFrames h fs hole → h'.root = h.root →
    (∀ a ∈ frameAddrs fs, SameAt h h' a) → OwnFrames h' fs hole
  | [], _, hfs, hroot, _ => hroot.trans hfs
  | f :: fs, hole, ⟨hk, hc, hp, hx, hy, hsib, hfs⟩, hroot, hsame => by
    have ha := hsame f.addr (mem_cons_self ..)
    refine ⟨ha.key.trans hk, ha.color.trans hc, ha.p.trans hp, (ha.child _).trans hx,
      (ha.child _).trans hy, ?_, ?_⟩
    · exact hsib.congr fun b hb => hsame b (mem_cons_of_mem (mem_add.mpr (.inl hb)))
    · exact hfs.congr hroot fun b hb => hsame b (mem_cons_of_mem (mem_add.mpr (.inr hb)))

theorem Rep.congr (hr : Rep h fs t) (hroot : h'.root = h.root) (hnext : h.next ≤ h'.next)
    (hsame : ∀ a ∈ 0 ::ₘ (t.addrs + frameAddrs fs), SameAt h h' a) : Rep h' fs t where
  own := hr.own.congr fun a ha => hsame a (mem_cons_of_mem (mem_add.mpr (.inl ha)))
  frames := hr.frames.congr hroot fun a ha => hsame a (mem_cons_of_mem (mem_add.mpr (.inr ha)))
  nodup := hr.nodup
  below a ha := (hr.below a ha).trans_le hnext
  black := (hsame 0 (mem_cons_self ..)).color.trans hr.black

/-! ### Addresses -/

/-- The addresses of a node, its two subtrees and the frames are different, and none is that of the
sentinel. -/
structure Apart (fs : Path) (a : ℕ) (x y : Node) : Prop where
  ne_zero : a ≠ 0
  left : ∀ b ∈ x.addrs, b ≠ a ∧ b ≠ 0 ∧ b ∉ y.addrs ∧ b ∉ frameAddrs fs
  right : ∀ b ∈ y.addrs, b ≠ a ∧ b ≠ 0 ∧ b ∉ x.addrs ∧ b ∉ frameAddrs fs
  frames : ∀ b ∈ frameAddrs fs, b ≠ a ∧ b ≠ 0 ∧ b ∉ x.addrs ∧ b ∉ y.addrs

theorem Rep.apart (hr : Rep h fs (join d a c k x y)) : Apart fs a x y := by
  have hn := hr.nodup
  rw [addrs_join, cons_add] at hn
  simp only [nodup_cons, nodup_add, mem_cons, mem_add,
    disjoint_left, not_or] at hn
  obtain ⟨⟨h0a, ⟨h0x, h0y⟩, h0f⟩, ⟨⟨hax, hay⟩, haf⟩, ⟨_, _, hxy⟩, _, hxyf⟩ := hn
  refine ⟨Ne.symm h0a, fun b hb => ⟨?_, ?_, hxy hb, hxyf (.inl hb)⟩,
    fun b hb => ⟨?_, ?_, fun hx => hxy hx hb, hxyf (.inr hb)⟩,
    fun b hb => ⟨?_, ?_, fun hx => hxyf (.inl hx) hb, fun hy => hxyf (.inr hy) hb⟩⟩
  all_goals
    rintro rfl
    contradiction

theorem Rep.nodup_addrs (hr : Rep h fs t) : t.addrs.Nodup :=
  nodup_of_le ((Multiset.le_add_right ..).trans (le_cons_self ..)) hr.nodup

theorem Rep.nodup_frameAddrs (hr : Rep h fs t) : (frameAddrs fs).Nodup :=
  nodup_of_le ((Multiset.le_add_left ..).trans (le_cons_self ..)) hr.nodup

theorem Rep.frames_apart (hr : Rep h fs t) (hb : b ∈ frameAddrs fs) : b ≠ 0 ∧ b ∉ t.addrs := by
  obtain ⟨hnot, hn⟩ := nodup_cons.mp hr.nodup
  obtain ⟨_, _, hdisj⟩ := nodup_add.mp hn
  exact ⟨fun he => hnot (mem_add.mpr (.inr (he ▸ hb))), fun ht => disjoint_left.mp hdisj ht hb⟩

theorem Rep.down (hr : Rep h fs (join d a c k x y)) :
    Rep h (⟨d, a, c, k, y⟩ :: fs) x := rep_cons.mpr hr

theorem Rep.down_other (hr : Rep h fs (join d a c k x y)) :
    Rep h (⟨d.other, a, c, k, x⟩ :: fs) y := by
  rw [← join_other] at hr
  exact hr.down

/-! ### One field -/

theorem sameAt_setColor (hb : b ≠ a) : SameAt h (h.setColor a c) b where
  key := rfl
  color := by rw [Heap.color_setColor, if_neg hb]
  p := rfl
  child _ := rfl

theorem sameAt_setP {r : Ref} (hb : b ≠ a) : SameAt h (h.setP a r) b where
  key := rfl
  color := rfl
  p := by rw [Heap.p_setP, if_neg hb]
  child _ := rfl

theorem sameAt_setChild {r : Ref} (hb : b ≠ a) : SameAt h (h.setChild d a r) b where
  key := rfl
  color := rfl
  p := rfl
  child e := by rw [Heap.child_setChild, if_neg fun he => hb he.2]

theorem SameAt.setP {r : Ref} (hb : SameAt h h' b) : SameAt (h.setP a r) (h'.setP a r) b where
  key := hb.key
  color := hb.color
  p := by rw [Heap.p_setP, Heap.p_setP, hb.p]
  child := hb.child

/-- The hole below the frames gets another tree. -/
def setHole (h : Heap) (fs : Path) (r : ℕ) : Heap :=
  match fs with
  | [] => h.setRoot (some r)
  | f :: _ => h.setChild f.side f.addr (some r)

theorem sameAt_setHole {r : ℕ} (hb : b ∉ frameAddrs fs) : SameAt h (setHole h fs r) b := by
  cases fs with
  | nil => exact ⟨rfl, rfl, rfl, fun _ => rfl⟩
  | cons f fs => exact sameAt_setChild fun he => hb (he ▸ mem_cons_self ..)

theorem OwnFrames.setHole {hole r : ℕ} (hf : OwnFrames h fs hole) (hn : (frameAddrs fs).Nodup) :
    OwnFrames (setHole h fs r) fs r := by
  cases fs with
  | nil => rfl
  | cons f fs =>
    obtain ⟨hk, hc, hp, _, hy, hsib, hfs⟩ := hf
    obtain ⟨hnot, _⟩ := nodup_cons.mp hn
    have hsame : ∀ b ∈ f.sibling.addrs + frameAddrs fs, SameAt h (RedBlackBst.setHole h (f :: fs) r) b :=
      fun b hb => sameAt_setChild fun he => hnot (he ▸ hb)
    refine ⟨hk, hc, hp, ?_, ?_, ?_, ?_⟩
    · simp [RedBlackBst.setHole]
    · simp only [RedBlackBst.setHole, Heap.child_setChild, Side.other_ne, false_and, if_false]
      exact hy
    · exact hsib.congr fun b hb => hsame b (mem_add.mpr (.inl hb))
    · exact hfs.congr rfl fun b hb => hsame b (mem_add.mpr (.inr hb))

theorem Own.reparent {q : ℕ} (ht : Own h t par) (hn : t.addrs.Nodup)
    (hsame : ∀ b ∈ t.addrs, SameAt (h.setP (addr t) (some q)) h' b) : Own h' t q := by
  refine Own.congr ?_ hsame
  cases t with
  | nil => trivial
  | node a c k l r =>
    obtain ⟨hk, hc, _, hl, hr, hol, hor⟩ := ht
    obtain ⟨hnot, _⟩ := nodup_cons.mp hn
    refine ⟨hk, hc, by simp [addr], hl, hr, ?_, ?_⟩
    · exact hol.congr fun b hb => sameAt_setP fun he : b = a => hnot (he ▸ mem_add.mpr (.inl hb))
    · exact hor.congr fun b hb => sameAt_setP fun he : b = a => hnot (he ▸ mem_add.mpr (.inr hb))

theorem Rep.p_addr (hr : Rep h fs t) (ht : t ≠ .nil) : h.p (addr t) = some (parent fs) := by
  cases t with
  | nil => exact absurd rfl ht
  | node a c k l r => exact hr.own.2.2.1

theorem Rep.color_addr (hr : Rep h fs t) : h.color (addr t) = t.color := by
  cases t with
  | nil => exact hr.black
  | node a c k l r => exact hr.own.2.1

theorem Rep.color_parent (hr : Rep h fs t) : h.color (parent fs) = parentColor fs := by
  cases fs with
  | nil => exact hr.black
  | cons f fs => exact hr.frames.2.1

theorem Rep.root (hr : Rep h fs t) : h.root = some (addr (plug fs t)) := (rep_plug.mp hr).frames

theorem Rep.setColor (hr : Rep h fs (join d a c k x y)) (c' : Color) :
    Rep (h.setColor a c') fs (join d a c' k x y) := by
  obtain ⟨hk, _, hp, hcx, hcy, hx, hy⟩ := own_join.mp hr.own
  have hap := hr.apart
  refine ⟨own_join.mpr ⟨hk, ?_, hp, hcx, hcy, ?_, ?_⟩, ?_, ?_, ?_, ?_⟩
  · rw [Heap.color_setColor, if_pos rfl]
  · exact hx.congr fun b hb => sameAt_setColor (hap.left b hb).1
  · exact hy.congr fun b hb => sameAt_setColor (hap.right b hb).1
  · have hfs := hr.frames
    rw [addr_join] at hfs ⊢
    exact hfs.congr rfl fun b hb => sameAt_setColor (hap.frames b hb).1
  · have hn := hr.nodup
    rw [addrs_join] at hn ⊢
    exact hn
  · have hb := hr.below
    rw [addrs_join] at hb ⊢
    exact hb
  · rw [Heap.color_setColor, if_neg hap.ne_zero.symm]
    exact hr.black

theorem Rep.setBlack (hr : Rep h fs t) : Rep (h.setColor (addr t) .black) fs t.blacken := by
  cases t with
  | nil =>
    obtain ⟨hzero, _⟩ := nodup_cons.mp hr.nodup
    have hne : ∀ b ∈ frameAddrs fs, b ≠ 0 := fun b hb he => hzero (he ▸ mem_add.mpr (.inr hb))
    exact ⟨trivial, hr.frames.congr rfl fun b hb => sameAt_setColor (hne b hb), hr.nodup,
      hr.below, by simp [addr]⟩
  | node a c k l r => exact Rep.setColor (d := .left) hr .black

/-! ### Rotations -/

theorem ne_addr (h0 : b ≠ 0) (hb : b ∉ t.addrs) : b ≠ addr t := by
  cases t with
  | nil => exact h0
  | node a c k l r => exact fun he => hb (he ▸ mem_cons_self ..)

/-- How the code tells on which side of its parent a node is. -/
theorem OwnFrames.eq_child_iff {hole : ℕ} (hf : OwnFrames h (f :: fs) hole)
    (hne : hole ≠ addr f.sibling) (d : Side) : some hole = h.child d f.addr ↔ f.side = d := by
  obtain ⟨_, _, _, hhole, hsib, _, _⟩ := hf
  by_cases hd : d = f.side
  · rw [hd, hhole]
    exact ⟨fun _ => rfl, fun _ => rfl⟩
  · rw [Side.eq_other_of_ne hd, hsib]
    exact ⟨fun he => absurd (Option.some.inj he) hne, fun he => absurd he f.side.ne_other⟩

theorem Rep.addr_ne_sibling (hr : Rep h (f :: fs) t) (hne : t ≠ .nil ∨ f.sibling ≠ .nil) :
    addr t ≠ addr f.sibling := by
  have hap := (rep_cons.mp hr).apart
  rcases hne with ht | hs
  · obtain ⟨_, h0, hb, _⟩ := hap.left _ (addr_mem ht)
    exact ne_addr h0 hb
  · obtain ⟨_, h0, hb, _⟩ := hap.right _ (addr_mem hs)
    exact (ne_addr h0 hb).symm

theorem replaceChild_eq {hole : ℕ} {r : Ref} (hf : OwnFrames h (f :: fs) hole)
    (hne : hole ≠ addr f.sibling) : replaceChild h f.addr hole r = h.setChild f.side f.addr r := by
  unfold replaceChild
  cases hs : f.side with
  | left => rw [if_pos ((hf.eq_child_iff hne _).mpr hs)]
  | right =>
    rw [if_neg]
    intro he
    rw [hf.eq_child_iff hne, hs] at he
    cases he

/-- The links after a rotation: those of the two nodes, the parent of the tree between them and the
hole. -/
structure Rotated (h h' : Heap) (fs : Path) (d : Side) (n m : ℕ) (x y z : Node) : Prop where
  key : h'.key = h.key
  color : h'.color = h.color
  next : h'.next = h.next
  root : h'.root = (setHole h fs m).root
  child : ∀ e b, b ≠ n → b ≠ m → h'.child e b = (setHole h fs m).child e b
  p : ∀ b, b ≠ n → b ≠ m → b ≠ addr y → h'.p b = h.p b
  pn : h'.p n = some m
  pm : h'.p m = some (parent fs)
  py : y ≠ .nil → h'.p (addr y) = some n
  nx : h'.child d n = some (addr x)
  ny : h'.child d.other n = some (addr y)
  mn : h'.child d m = some n
  mz : h'.child d.other m = some (addr z)

theorem setHole_fields (h : Heap) (fs : Path) (r : ℕ) :
    (setHole h fs r).key = h.key ∧ (setHole h fs r).color = h.color ∧ (setHole h fs r).p = h.p ∧
    (setHole h fs r).next = h.next := by
  cases fs with
  | nil | cons f fs => exact ⟨rfl, rfl, rfl, rfl⟩

/-- Away from the nodes of the rotation only the hole has changed. -/
theorem Rotated.sameAt_setHole (hrot : Rotated h h' fs d n m x y z) (hn : b ≠ n) (hm : b ≠ m)
    (hy : b ≠ addr y) : SameAt (setHole h fs m) h' b := by
  obtain ⟨hkey, hcolor, hp, _⟩ := setHole_fields h fs m
  refine ⟨?_, ?_, ?_, fun e => hrot.child e b hn hm⟩
  · rw [hrot.key, hkey]
  · rw [hrot.color, hcolor]
  · rw [hrot.p b hn hm hy, hp]

theorem SameAt.trans {h'' : Heap} (h1 : SameAt h h' a) (h2 : SameAt h' h'' a) : SameAt h h'' a :=
  ⟨h2.key.trans h1.key, h2.color.trans h1.color, h2.p.trans h1.p, fun e => (h2.child e).trans (h1.child e)⟩

theorem Rotated.rep (hrot : Rotated h h' fs d n m x y z)
    (hr : Rep h fs (join d n c k x (join d m c' k' y z))) :
    Rep h' fs (join d m c' k' (join d n c k x y) z) := by
  have hout := hr.apart
  have hin := hr.down_other.apart
  obtain ⟨hkn, hcn, _, _, _, hx, hm⟩ := own_join.mp hr.own
  obtain ⟨hkm, hcm, _, _, _, hy, hz⟩ := own_join.mp hm
  -- a node of `x` or `z`, or of the frames, is none of those of the rotation
  have hxs : ∀ b ∈ x.addrs, SameAt h h' b := by
    intro b hb
    obtain ⟨hbn, hb0, hbm, hbf⟩ := hout.left b hb
    rw [addrs_join, mem_cons, mem_add, not_or, not_or] at hbm
    exact (RedBlackBst.sameAt_setHole hbf).trans (hrot.sameAt_setHole hbn hbm.1 (ne_addr hb0 hbm.2.1))
  have hzs : ∀ b ∈ z.addrs, SameAt h h' b := by
    intro b hb
    obtain ⟨hbm, hb0, hby, hbf⟩ := hin.right b hb
    rw [frameAddrs, mem_cons, mem_add, not_or, not_or] at hbf
    exact (RedBlackBst.sameAt_setHole hbf.2.2).trans (hrot.sameAt_setHole hbf.1 hbm (ne_addr hb0 hby))
  have hfs : ∀ b ∈ frameAddrs fs, SameAt (setHole h fs m) h' b := by
    intro b hb
    obtain ⟨hbn, hb0, _, hbm⟩ := hout.frames b hb
    rw [addrs_join, mem_cons, mem_add, not_or, not_or] at hbm
    exact hrot.sameAt_setHole hbn hbm.1 (ne_addr hb0 hbm.2.1)
  have hys : ∀ b ∈ y.addrs, b ≠ n ∧ b ≠ m ∧ b ∉ frameAddrs fs := by
    intro b hb
    obtain ⟨hbm, hb0, hbz, hbf⟩ := hin.left b hb
    rw [frameAddrs, mem_cons, mem_add, not_or, not_or] at hbf
    exact ⟨hbf.1, hbm, hbf.2.2⟩
  have haddrs := addrs_rotate d n m c c' c' c k k' x y z
  refine ⟨own_join.mpr ⟨?_, ?_, hrot.pm, ?_, hrot.mz,
    own_join.mpr ⟨?_, ?_, hrot.pn, hrot.nx, hrot.ny, ?_, ?_⟩, ?_⟩, ?_, ?_, ?_, ?_⟩
  · rw [hrot.key]
    exact hkm
  · rw [hrot.color]
    exact hcm
  · rw [addr_join]
    exact hrot.mn
  · rw [hrot.key]
    exact hkn
  · rw [hrot.color]
    exact hcn
  · exact hx.congr hxs
  · refine hy.reparent hr.down_other.down.nodup_addrs fun b hb => ?_
    obtain ⟨hbn, hbm, hbf⟩ := hys b hb
    refine ⟨congrFun hrot.key b, congrFun hrot.color b, ?_, fun e => ?_⟩
    · rw [Heap.p_setP]
      split_ifs with hbr
      · rw [hbr, hrot.py fun hnil => by simp [hnil, addrs] at hb]
      · exact hrot.p b hbn hbm hbr
    · rw [hrot.child e b hbn hbm]
      exact (RedBlackBst.sameAt_setHole hbf).child e
  · exact hz.congr hzs
  · rw [addr_join]
    exact (hr.frames.setHole hr.nodup_frameAddrs).congr hrot.root hfs
  · rw [haddrs]
    exact hr.nodup
  · rw [haddrs, hrot.next]
    exact hr.below
  · rw [hrot.color]
    exact hr.black

/-- The addresses that a rotation compares. -/
structure Distinct (fs : Path) (n m : ℕ) (y : Node) : Prop where
  n_ne_zero : n ≠ 0
  m_ne_zero : m ≠ 0
  n_ne_m : n ≠ m
  y_ne_n : addr y ≠ n
  y_ne_m : addr y ≠ m
  y_eq_zero : addr y = 0 ↔ y = .nil
  parent_ne_n : parent fs ≠ n
  parent_ne_m : parent fs ≠ m
  parent_eq_zero : parent fs = 0 ↔ fs = []

theorem parent_mem (hfs : fs ≠ []) : parent fs ∈ frameAddrs fs := by
  cases fs with
  | nil => exact absurd rfl hfs
  | cons f fs => exact mem_cons_self ..

theorem ne_parent (h0 : b ≠ 0) (hb : b ∉ frameAddrs fs) : b ≠ parent fs := by
  by_cases hfs : fs = []
  · rw [hfs]
    exact h0
  · exact fun he => hb (he ▸ parent_mem hfs)

theorem addr_plug_mem (f : Frame ℕ ℤ) (fs : Path) (t : Node) :
    addr (plug (f :: fs) t) ∈ frameAddrs (f :: fs) := by
  induction fs generalizing f t with
  | nil =>
    rw [plug, plug, Frame.fill, addr_join]
    exact mem_cons_self ..
  | cons g fs ih => exact mem_cons_of_mem (mem_add.mpr (.inr (ih g _)))

theorem Rep.addr_ne_root (hr : Rep h (f :: fs) t) : addr t ≠ addr (plug (f :: fs) t) := by
  obtain ⟨h0, hb⟩ := hr.frames_apart (addr_plug_mem f fs t)
  exact (ne_addr h0 hb).symm

theorem Rep.addr_eq_zero (hr : Rep h fs t) : addr t = 0 ↔ t = .nil := by
  constructor
  · intro h0
    by_contra ht
    obtain ⟨hnot, _⟩ := nodup_cons.mp hr.nodup
    exact hnot (mem_add.mpr (.inl (h0 ▸ addr_mem ht)))
  · rintro rfl
    rfl

theorem Rep.ref_eq_nilRef (hr : Rep h fs t) : some (addr t) = nilRef ↔ t = .nil :=
  ⟨fun he => hr.addr_eq_zero.mp (Option.some.inj he), fun ht => congrArg some (hr.addr_eq_zero.mpr ht)⟩

theorem Rep.parent_eq_zero (hr : Rep h fs t) : parent fs = 0 ↔ fs = [] := by
  constructor
  · intro h0
    by_contra hfs
    obtain ⟨hnot, _⟩ := nodup_cons.mp hr.nodup
    exact hnot (mem_add.mpr (.inr (h0 ▸ parent_mem hfs)))
  · rintro rfl
    rfl

theorem Rep.distinct (hr : Rep h fs (join d n c k x (join d m c' k' y z))) : Distinct fs n m y := by
  have hout := hr.apart
  have hin := hr.down_other.apart
  have hm := hout.right m (by rw [addrs_join]; exact mem_cons_self ..)
  have hy : ∀ b, b ≠ 0 → b ∉ y.addrs → addr y ≠ b := fun b h0 hb => (ne_addr h0 hb).symm
  have hmem : ∀ {b}, b ∈ y.addrs → b ∈ (join d m c' k' y z).addrs := by
    intro b hb
    rw [addrs_join]
    exact mem_cons_of_mem (mem_add.mpr (.inl hb))
  exact
    { n_ne_zero := hout.ne_zero
      m_ne_zero := hin.ne_zero
      n_ne_m := hm.1.symm
      y_ne_n := hy n hout.ne_zero fun hb => (hout.right n (hmem hb)).1 rfl
      y_ne_m := hy m hin.ne_zero fun hb => (hin.left m hb).1 rfl
      y_eq_zero := hr.down_other.down.addr_eq_zero
      parent_ne_n := (ne_parent hout.ne_zero fun hb => (hout.frames n hb).1 rfl).symm
      parent_ne_m := (ne_parent hin.ne_zero hm.2.2.2).symm
      parent_eq_zero := hr.parent_eq_zero }

/-- A rotation sets the hole and the three parents, and then the two children. -/
theorem rotated_setChild {g : Heap} (hr : Rep h fs (join d n c k x (join d m c' k' y z)))
    (hkey : g.key = h.key) (hcolor : g.color = h.color) (hnext : g.next = h.next)
    (hroot : g.root = (setHole h fs m).root) (hchild : g.child = (setHole h fs m).child)
    (hp : ∀ b, b ≠ n → b ≠ m → b ≠ addr y → g.p b = h.p b) (hpn : g.p n = some m)
    (hpm : g.p m = some (parent fs)) (hpy : y ≠ .nil → g.p (addr y) = some n) :
    Rotated h ((g.setChild d.other n (some (addr y))).setChild d m (some n)) fs d n m x y z := by
  obtain ⟨_, _, _, hnx, _, _, hm⟩ := own_join.mp hr.own
  obtain ⟨_, _, _, _, hmz, _, _⟩ := own_join.mp hm
  have hout := hr.apart
  have hin := hr.down_other.apart
  have hmn := hr.distinct.n_ne_m
  have hnf : n ∉ frameAddrs fs := fun hb => (hout.frames n hb).1 rfl
  have hmf : m ∉ frameAddrs fs := fun hb =>
    (hin.frames m (mem_cons_of_mem (mem_add.mpr (.inr hb)))).1 rfl
  refine ⟨hkey, hcolor, hnext, hroot, fun e b hbn hbm => ?_, hp, hpn, hpm, hpy, ?_, ?_, ?_, ?_⟩
  · simp [hbn, hbm, hchild]
  · simp only [Heap.child_setChild, hmn, and_false, if_false, Side.ne_other, false_and, hchild]
    exact ((sameAt_setHole hnf).child d).trans hnx
  · simp [hmn]
  · simp
  · simp only [Heap.child_setChild, hmn.symm, and_false, if_false, Side.other_ne, false_and, hchild]
    exact ((sameAt_setHole hmf).child _).trans hmz

theorem rotate_below (hr : Rep h (f :: fs) (join d n c k x (join d m c' k' y z))) :
    ∃ h', rotate d h n = some h' ∧ Rotated h h' (f :: fs) d n m x y z ∧ h'.p 0 = h.p 0 := by
  obtain ⟨hn0, hm0, hnm, hyn, hym, hy0, hfn, hfm, hf0⟩ := hr.distinct
  obtain ⟨_, _, hpn, _, hcn, _, hm⟩ := own_join.mp hr.own
  obtain ⟨_, _, _, hmy, _, _, _⟩ := own_join.mp hm
  have hreplace :=
    replaceChild_eq (r := some m) hr.frames (hr.addr_ne_sibling (.inl (join_ne_nil _ _ _ _ _ _)))
  rw [addr_join] at hcn hreplace
  simp only [parent] at hpn hfn hfm hf0
  by_cases hy : y = .nil
  · refine ⟨_, ?_, rotated_setChild (g := ((setHole h (f :: fs) m).setP m (some f.addr)).setP n
      (some m)) hr rfl rfl rfl rfl rfl ?_ ?_ ?_ ?_, ?_⟩
    · simp [rotate, hpn, hcn, hreplace, nilRef, hf0, hfn.symm, hfm.symm, hmy, hy0.mpr hy, setHole]
    · intro b hbn hbm _
      simp [hbn, hbm, setHole]
    · simp
    · simp [hnm.symm, parent]
    · exact fun hne => absurd hy hne
    · simp [hn0.symm, hm0.symm, setHole]
  · have hya := mt hy0.mp hy
    refine ⟨_, ?_, rotated_setChild (g := (((setHole h (f :: fs) m).setP m (some f.addr)).setP n
      (some m)).setP (addr y) (some n)) hr rfl rfl rfl rfl rfl ?_ ?_ ?_ ?_, ?_⟩
    · simp [rotate, hpn, hcn, hreplace, nilRef, hf0, hfn.symm, hfm.symm, hmy, hya, hyn.symm, setHole]
    · intro b hbn hbm hby
      simp [hbn, hbm, hby, setHole]
    · simp [hyn.symm]
    · simp [hym.symm, hnm.symm, parent]
    · simp
    · simp [hn0.symm, hm0.symm, Ne.symm hya, setHole]

theorem rotate_root (hr : Rep h [] (join d n c k x (join d m c' k' y z))) :
    ∃ h', rotate d h n = some h' ∧ Rotated h h' [] d n m x y z ∧ (y ≠ .nil → h'.p 0 = h.p 0) := by
  obtain ⟨hn0, hm0, hnm, hyn, hym, hy0, _, _, _⟩ := hr.distinct
  obtain ⟨_, _, hpn, _, hcn, _, hm⟩ := own_join.mp hr.own
  obtain ⟨_, _, _, hmy, _, _, _⟩ := own_join.mp hm
  have hroot : h.root = some (addr (join d n c k x (join d m c' k' y z))) := hr.frames
  refine ⟨_, ?_, rotated_setChild (g := (((setHole h [] m).setP (addr y) (some n)).setP n
    (some m)).setP m nilRef) hr rfl rfl rfl rfl rfl ?_ ?_ ?_ ?_, ?_⟩
  · simp [rotate, hpn, hroot, hcn, nilRef, parent, hmy]
    rfl
  · intro b hbn hbm hby
    simp [hbn, hbm, hby, setHole]
  · simp [hnm]
  · simp [parent, nilRef]
  · simp [hyn, hym]
  · intro hy
    simp [hn0.symm, hm0.symm, Ne.symm (mt hy0.mp hy), setHole]

theorem rotate_spec (hr : Rep h fs (join d n c k x (join d m c' k' y z))) :
    ∃ h', rotate d h n = some h' ∧ Rep h' fs (join d m c' k' (join d n c k x y) z) ∧
    (fs ≠ [] ∨ y ≠ .nil → h'.p 0 = h.p 0) ∧ h'.next = h.next := by
  cases fs with
  | nil =>
    obtain ⟨h', hrun, hrot, hp⟩ := rotate_root hr
    refine ⟨h', hrun, hrot.rep hr, fun hor => hp ?_, hrot.next⟩
    rcases hor with hne | hy
    · exact absurd rfl hne
    · exact hy
  | cons f fs =>
    obtain ⟨h', hrun, hrot, hp⟩ := rotate_below hr
    exact ⟨h', hrun, hrot.rep hr, fun _ => hp, hrot.next⟩

end Code365.Algorithms.RedBlackBst
