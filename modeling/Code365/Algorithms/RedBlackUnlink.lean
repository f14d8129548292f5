import Code365.Algorithms.RedBlackInsert

/-! # Taking a node out of a `RedBlackBST`

`delete` finds a node with the key (`findNode_spec`) and unlinks it; where the node has two
children, the first node after it takes its place.  What is left is a tree at a position that lacks
at most the black node unlinked (`unlink_spec`); the sentinel, when it is that tree, has the node
above it as its parent. -/

namespace Code365.Algorithms.RedBlackBst

open Multiset RedBlack RedBlack.Tree

variable {h : Heap} {fs gs : Path} {t x l r : Node} {d : Side} {a z y fuel n : ℕ} {c cy : Color} {k ky : ℤ}

/-! ### Searching -/

/-- What `findNode` returns: a node with the key `k` of the tree `t`, or `null` if there is none. -/
def Found (k : ℤ) (t : Node) (found : Option Ref) : Prop :=
  (found = some none ∧ k ∉ t.keys) ∨ ∃ gs z c l r, found = some (some z) ∧ plug gs (.node z c k l r) = t

theorem findNode_spec (hk : h.key a = k) (hr : Rep h fs t) (ht : t ≠ .nil)
    (hs : (plug fs t).keys.Pairwise (· ≤ ·)) (haround : Around (· < k) (k < ·) fs)
    (hfuel : card t.addrs ≤ fuel) : Found k (plug fs t) (findNode fuel h a (some (addr t))) := by
  induction fuel generalizing fs t with
  | zero =>
    have hpos := card_pos_iff_exists_mem.mpr ⟨_, addr_mem ht⟩
    omega
  | succ fuel ih =>
    have hroot : h.root ≠ nilRef := by
      rw [hr.root, Ne, (rep_plug.mp hr).ref_eq_nilRef]
      exact plug_ne_nil ht fs
    obtain ⟨b, c, kb, l, r, rfl⟩ := exists_join .left ht
    obtain ⟨hkb, _⟩ := own_join.mp hr.own
    have hsorted := pairwise_of_plug hs
    -- the search goes on with the child on side `d`, if there is one
    have hgo : ∀ d x y, join .left b c kb l r = join d b c kb x y →
      Around (· < k) (k < ·) (⟨d, b, c, kb, y⟩ :: fs) → Found k (plug fs (join .left b c kb l r))
          (if h.child d b ≠ nilRef then findNode fuel h a (h.child d b) else some none) := by
      intro d x y hjoin hdown
      rw [hjoin] at hr hs hfuel ⊢
      obtain ⟨_, _, _, hchild, _⟩ := own_join.mp hr.own
      rw [addrs_join, card_cons, card_add] at hfuel
      rw [hchild]
      by_cases hx : x = .nil
      · subst hx
        exact .inl ⟨if_neg (not_not.mpr rfl), hdown.notMem⟩
      · rw [if_pos (mt hr.down.ref_eq_nilRef.mp hx)]
        exact ih hr.down hx hs hdown (by omega)
    rcases lt_trichotomy k kb with hlt | heq | hgt
    · have hgo := hgo .left l r rfl (haround.left hsorted fun _ hb => hlt.trans_le hb)
      simpa [findNode, hroot, hk, hkb, hlt] using hgo
    · subst heq
      refine .inr ⟨fs, b, c, l, r, ?_, rfl⟩
      simp [findNode, hroot, hk, hkb]
    · have hgo := hgo .right r l rfl (haround.right hsorted fun _ hb => hb.trans_lt hgt)
      simpa [findNode, hroot, hk, hkb, hgt, hgt.not_gt] using hgo

/-- `treeMinimum` reaches the node with the first key. -/
theorem treeMinimum_spec {par : ℕ} (ho : Own h t par) (h0 : 0 ∉ t.addrs) (ht : t ≠ .nil)
    (hfuel : card t.addrs ≤ fuel) : ∃ gs y c k x, treeMinimum fuel h (some (addr t)) =
    some (some y) ∧ plug gs (.node y c k .nil x) = t ∧ before gs = [] := by
  induction t generalizing par fuel with
  | nil => exact absurd rfl ht
  | node a c k l r ihl _ =>
    obtain ⟨_, _, _, hl, _, hol, _⟩ := ho
    rw [addrs, card_cons, card_add] at hfuel
    rw [addrs, mem_cons, mem_add, not_or, not_or] at h0
    obtain ⟨fuel, rfl⟩ : ∃ n, fuel = n + 1 := ⟨fuel - 1, by omega⟩
    by_cases hnil : l = .nil
    · subst hnil
      have hl : h.child .left a = nilRef := hl
      exact ⟨[], a, c, k, r, by simp [treeMinimum, addr, hl], rfl, rfl⟩
    have hle : card l.addrs ≤ fuel := by omega
    obtain ⟨gs, y, c', k', x, hrun, hplug, hbefore⟩ := ihl hol h0.2.1 hnil hle
    refine ⟨gs ++ [⟨.left, a, c, k, r⟩], y, c', k', x, ?_, ?_, ?_⟩
    · have hl0 : some (addr l) ≠ nilRef := fun he => h0.2.1 (Option.some.inj he ▸ addr_mem hnil)
      simp [treeMinimum, show addr (.node a c k l r) = a from rfl, hl0, hl, hrun]
    · rw [plug_append, hplug]
      rfl
    · rw [before_append, hbefore]
      rfl

/-! ### One node for another -/

theorem transplant_eq {hole r : ℕ} (hf : OwnFrames h fs hole) (hp : h.p hole = some (parent fs))
    (h0 : hole ≠ 0) (hfs : hole ∉ frameAddrs fs) (hzero : 0 ∉ frameAddrs fs) :
    transplant h hole (some r) = some ((setHole h fs r).setP r (some (parent fs))) := by
  cases fs with
  | nil =>
    simp [transplant, hp, setHole, parent, nilRef]
  | cons f fs =>
    rw [frameAddrs, mem_cons, mem_add, not_or, not_or] at hfs
    have hne : f.addr ≠ 0 := fun he => hzero (he ▸ mem_cons_self ..)
    have hreplace := replaceChild_eq (r := some r) hf (ne_addr h0 hfs.2.1)
    simp [transplant, hp, nilRef, hne, hreplace, setHole, parent]

theorem Rep.transplant (hr : Rep h fs (join d z c k .nil x)) :
    Rep ((setHole h fs (addr x)).setP (addr x) (some (parent fs))) fs x := by
  obtain ⟨_, hcolor, _, hnext⟩ := setHole_fields h fs (addr x)
  obtain ⟨_, _, _, _, _, _, hx⟩ := own_join.mp hr.own
  have hap := hr.apart
  have hle : 0 ::ₘ (x.addrs + frameAddrs fs) ≤ 0 ::ₘ ((join d z c k .nil x).addrs + frameAddrs fs) := by
    rw [addrs_join, addrs, zero_add, cons_add]
    exact cons_le_cons 0 (le_cons_self ..)
  refine ⟨hx.reparent hr.down_other.nodup_addrs fun b hb =>
    (sameAt_setHole (hap.right b hb).2.2.2).setP, ?_, ?_, ?_, ?_⟩
  · refine (hr.frames.setHole hr.nodup_frameAddrs).congr rfl fun b hb => sameAt_setP ?_
    obtain ⟨_, h0, _, hbx⟩ := hap.frames b hb
    exact ne_addr h0 hbx
  · exact nodup_of_le hle hr.nodup
  · intro b hb
    rw [Heap.next_setP, hnext]
    exact hr.below b (mem_of_le hle hb)
  · rw [Heap.color_setP, hcolor]
    exact hr.black

/-! ### The first node after another -/

/-- The node at `y` has been taken out from below the one at `z`: its right tree is what `r` was
without it. -/
structure Taken (h : Heap) (fs : Path) (z : ℕ) (c : Color) (l : Node) (y : ℕ) (ky : ℤ) (r : Node) : Prop where
  frames : OwnFrames h fs z
  p : h.p z = some (parent fs)
  color : h.color z = c
  child : h.child .left z = some (addr l)
  left : Own h l z
  key : h.key y = ky
  right : h.child .right y = some (addr r)
  own : Own h r y
  nodup : (0 ::ₘ z ::ₘ y ::ₘ (l.addrs + r.addrs + frameAddrs fs)).Nodup
  below : ∀ a ∈ 0 ::ₘ z ::ₘ y ::ₘ (l.addrs + r.addrs + frameAddrs fs), a < h.next
  black : h.color 0 = .black

/-- The addresses of the two nodes, the two trees and the frames are different. -/
structure Spread (fs : Path) (z y : ℕ) (l r : Node) : Prop where
  z_ne_zero : z ≠ 0
  y_ne_zero : y ≠ 0
  y_ne_z : y ≠ z
  left : ∀ b ∈ l.addrs, b ≠ 0 ∧ b ≠ z ∧ b ≠ y ∧ b ∉ r.addrs ∧ b ∉ frameAddrs fs
  right : ∀ b ∈ r.addrs, b ≠ 0 ∧ b ≠ z ∧ b ≠ y ∧ b ∉ l.addrs ∧ b ∉ frameAddrs fs
  frames : ∀ b ∈ frameAddrs fs, b ≠ 0 ∧ b ≠ z ∧ b ≠ y ∧ b ∉ l.addrs ∧ b ∉ r.addrs
  nodup_left : l.addrs.Nodup
  nodup_right : r.addrs.Nodup
  nodup_frames : (frameAddrs fs).Nodup

theorem spread_of_nodup (hn : (0 ::ₘ z ::ₘ y ::ₘ (l.addrs + r.addrs + frameAddrs fs)).Nodup) :
    Spread fs z y l r := by
  simp only [nodup_cons, nodup_add, mem_cons, mem_add, disjoint_left, not_or]
    at hn
  obtain ⟨⟨h0z, h0y, ⟨h0l, h0r⟩, h0f⟩, ⟨hzy, ⟨hzl, hzr⟩, hzf⟩, ⟨⟨hyl, hyr⟩, hyf⟩, ⟨hl, hr, hlr⟩,
    hf, hlrf⟩ := hn
  refine ⟨Ne.symm h0z, Ne.symm h0y, Ne.symm hzy, fun b hb => ⟨?_, ?_, ?_, hlr hb, hlrf (.inl hb)⟩,
    fun b hb => ⟨?_, ?_, ?_, fun hb' => hlr hb' hb, hlrf (.inr hb)⟩,
    fun b hb => ⟨?_, ?_, ?_, fun hb' => hlrf (.inl hb') hb, fun hb' => hlrf (.inr hb') hb⟩, hl, hr, hf⟩
  all_goals
    rintro rfl
    contradiction

/-- The heap with `y` below the frames and `l` as its left tree. -/
def placed (h : Heap) (fs : Path) (y : ℕ) (c : Color) (l : Node) : Heap :=
  ((((setHole h fs y).setP y (some (parent fs))).setChild .left y (some (addr l))).setP (addr l)
    (some y)).setColor y c

theorem sameAt_placed {b : ℕ} (hy : b ≠ y) (hl : b ≠ addr l) :
    SameAt (setHole h fs y) (placed h fs y c l) b :=
  (((sameAt_setP hy).trans (sameAt_setChild hy)).trans (sameAt_setP hl)).trans (sameAt_setColor hy)

theorem Taken.rep (ht : Taken h fs z c l y ky r) (hl : l ≠ .nil) :
    Rep (placed h fs y c l) fs (.node y c ky l r) := by
  obtain ⟨_, hy0, _, hleft, hright, hframes, hnl, _, hnf⟩ := spread_of_nodup ht.nodup
  obtain ⟨hkey, hcolor, _, hnext⟩ := setHole_fields h fs y
  have hly : y ≠ addr l := fun he => (hleft y (he ▸ addr_mem hl)).2.2.1 rfl
  have hyf : y ∉ frameAddrs fs := fun hb => (hframes y hb).2.2.1 rfl
  have hle : 0 ::ₘ ((node y c ky l r).addrs + frameAddrs fs) ≤ 0 ::ₘ z ::ₘ y ::ₘ
    (l.addrs + r.addrs + frameAddrs fs) := by
    rw [addrs, cons_add]
    exact cons_le_cons 0 (le_cons_self ..)
  refine ⟨⟨(congrFun hkey y).trans ht.key, ?_, ?_, ?_, ?_, ?_, ?_⟩, ?_, ?_, ?_, ?_⟩
  · simp [placed]
  · simp [placed, hly]
  · simp [placed]
  · exact ((sameAt_setHole hyf).child _).trans ht.right
  · refine ht.left.reparent hnl fun b hb => ?_
    obtain ⟨_, _, hby, _, hbf⟩ := hleft b hb
    refine SameAt.trans (SameAt.setP ?_) (sameAt_setColor hby)
    exact ((sameAt_setHole hbf).trans (sameAt_setP hby)).trans (sameAt_setChild hby)
  · refine ht.own.congr fun b hb => ?_
    obtain ⟨hb0, _, hby, hbl, hbf⟩ := hright b hb
    exact (sameAt_setHole hbf).trans (sameAt_placed hby (ne_addr hb0 hbl))
  · refine (ht.frames.setHole hnf).congr rfl fun b hb => ?_
    obtain ⟨hb0, _, hby, hbl, _⟩ := hframes b hb
    exact sameAt_placed hby (ne_addr hb0 hbl)
  · exact nodup_of_le hle ht.nodup
  · intro b hb
    exact (ht.below b (mem_of_le hle hb)).trans_eq hnext.symm
  · simp [placed, hy0.symm, hcolor, ht.black]

theorem putIn_spec (ht : Taken h fs z c l y ky r) : putIn h z y = some (placed h fs y c l) := by
  obtain ⟨hz0, _, _, _, _, hframes, _⟩ := spread_of_nodup ht.nodup
  obtain ⟨_, hcolor, _, _⟩ := setHole_fields h fs y
  have hzf : z ∉ frameAddrs fs := fun hb => (hframes z hb).2.1 rfl
  have htrans := transplant_eq (r := y) ht.frames ht.p hz0 hzf fun hb => (hframes 0 hb).1 rfl
  have hzl : (setHole h fs y).child .left z = some (addr l) := ((sameAt_setHole hzf).child _).trans ht.child
  have hzc : (setHole h fs y).color z = c := by rw [hcolor, ht.color]
  simp [putIn, htrans, hzl, hzc, placed]

/-- The heap in which `r` has been made the right tree of `y`. -/
structure Relinked (h h' : Heap) (y : ℕ) (r : Node) : Prop where
  key : h'.key = h.key
  color : h'.color = h.color
  next : h'.next = h.next
  root : h'.root = h.root
  child : ∀ e b, b ≠ y → h'.child e b = h.child e b
  p : ∀ b, b ≠ addr r → h'.p b = h.p b
  right : h'.child .right y = some (addr r)
  pr : h'.p (addr r) = some y

theorem Relinked.taken {h' : Heap} {q : ℕ} (hlink : Relinked h h' y r) (hf : OwnFrames h fs z)
    (hp : h.p z = some (parent fs)) (hc : h.color z = c) (hl : h.child .left z = some (addr l))
    (hol : Own h l z) (hor : Own h r q) (hk : h.key y = ky) (h0 : h.color 0 = .black)
    (hn : (0 ::ₘ z ::ₘ y ::ₘ (l.addrs + r.addrs + frameAddrs fs)).Nodup)
    (hbelow : ∀ a ∈ 0 ::ₘ z ::ₘ y ::ₘ (l.addrs + r.addrs + frameAddrs fs), a < h.next) :
    Taken h' fs z c l y ky r := by
  obtain ⟨hz0, _, hyz, hleft, hright, hframes, _, hnr, _⟩ := spread_of_nodup hn
  have hsame : ∀ b, b ≠ y → b ≠ addr r → SameAt h h' b := fun b hby hbr =>
    ⟨congrFun hlink.key b, congrFun hlink.color b, hlink.p b hbr, fun e => hlink.child e b hby⟩
  have hz := hsame z hyz.symm (ne_addr hz0 fun hb => (hright z hb).2.1 rfl)
  refine ⟨hf.congr hlink.root fun b hb => ?_, hz.p.trans hp, hz.color.trans hc, (hz.child _).trans hl,
    hol.congr fun b hb => ?_, (congrFun hlink.key y).trans hk, hlink.right, ?_, hn, ?_, ?_⟩
  · obtain ⟨hb0, _, hby, _, hbr⟩ := hframes b hb
    exact hsame b hby (ne_addr hb0 hbr)
  · obtain ⟨hb0, _, hby, hbr, _⟩ := hleft b hb
    exact hsame b hby (ne_addr hb0 hbr)
  · refine hor.reparent hnr fun b hb => ⟨congrFun hlink.key b, congrFun hlink.color b, ?_, fun e => ?_⟩
    · rw [Heap.p_setP]
      split_ifs with hbr
      · rw [hbr, hlink.pr]
      · exact hlink.p b hbr
    · exact hlink.child e b (hright b hb).2.2.1
  · rw [hlink.next]
    exact hbelow
  · rw [hlink.color]
    exact h0

theorem addrs_taken (fs gs : Path) (z y : ℕ) (c cy : Color) (k ky : ℤ) (l x : Node) :
    (node z c k l (plug gs (.node y cy ky .nil x))).addrs + frameAddrs fs = z ::ₘ y ::ₘ
    (l.addrs + (plug gs x).addrs + frameAddrs fs) := by
  rw [addrs, addrs_plug_node, add_cons, cons_add, cons_add]

theorem takeOut_child (hr : Rep h fs (.node z c k l (.node y cy ky .nil x))) :
    ∃ h', takeOut h z y = some h' ∧ Taken h' fs z c l y ky x ∧ h'.p (addr x) = some y := by
  obtain ⟨_, hc, hp, hl, _, hol, hk, _, hpy, _, hx, _, hox⟩ := hr.own
  have haddrs := addrs_taken fs [] z y c cy k ky l x
  have hlink : Relinked h (h.setP (addr x) (some y)) y x := by
    refine ⟨rfl, rfl, rfl, rfl, fun _ _ _ => rfl, fun b hb => ?_, hx, ?_⟩
    · rw [Heap.p_setP, if_neg hb]
    · rw [Heap.p_setP, if_pos rfl]
  refine ⟨_, ?_, hlink.taken hr.frames hp hc hl hol hox hk hr.black (haddrs ▸ hr.nodup) (haddrs ▸
    hr.below), hlink.pr⟩
  simp [takeOut, hpy, hx]

theorem takeOut_below {g : Frame ℕ ℤ}
    (hr : Rep h fs (.node z c k l (plug (g :: gs) (.node y cy ky .nil x)))) : ∃ h', takeOut h z y =
    some h' ∧ Taken h' fs z c l y ky (plug (g :: gs) x) ∧ h'.p (addr x) = some g.addr := by
  have haddrs := addrs_taken fs (g :: gs) z y c cy k ky l x
  have hn := hr.nodup
  have hbelow := hr.below
  rw [haddrs] at hn hbelow
  have hr' : Rep h (g :: gs ++ ⟨.right, z, c, k, l⟩ :: fs) (.node y cy ky .nil x) :=
    rep_append.mpr (Rep.down hr)
  have hap := Rep.apart (d := .left) hr'
  obtain ⟨hky, _, hpy, _, hxy, _, _⟩ := hr'.own
  have hyf : y ∉ frameAddrs (g :: gs ++ ⟨.right, z, c, k, l⟩ :: fs) := fun hb => (hap.frames y hb).1 rfl
  have htrans := transplant_eq (r := addr x) hr'.frames hpy hap.ne_zero hyf fun hb => (hap.frames 0 hb).2.1 rfl
  -- the heap without `y`
  obtain ⟨e, he⟩ : ∃ e, e = (setHole h (g :: gs ++ ⟨.right, z, c, k, l⟩ :: fs) (addr x)).setP
    (addr x) (some g.addr) := ⟨_, rfl⟩
  have hre : Rep e (g :: gs ++ ⟨.right, z, c, k, l⟩ :: fs) x := by
    rw [he]
    exact Rep.transplant (d := .left) hr'
  have htrans : transplant h y (some (addr x)) = some e := by
    rw [he]
    exact htrans
  have hke : e.key y = ky := by
    rw [he, Heap.key_setP, (setHole_fields ..).1, hky]
  have hne : e.next = h.next := by
    rw [he, Heap.next_setP, (setHole_fields ..).2.2.2]
  have hpe : e.p (addr x) = some g.addr := by
    rw [he, Heap.p_setP, if_pos rfl]
  have hre := rep_cons.mp (rep_append.mp hre)
  obtain ⟨_, hc, hp, hl, hrz, hol, hor⟩ := hre.own
  have hlink : Relinked e ((e.setChild .right y (some (addr (plug (g :: gs) x)))).setP
    (addr (plug (g :: gs) x)) (some y)) y
      (plug (g :: gs) x) := by
    refine ⟨rfl, rfl, rfl, rfl, fun d b hb => ?_, fun b hb => ?_, ?_, ?_⟩
    · simp [hb]
    · simp [hb]
    · simp
    · simp
  refine ⟨_, ?_, hlink.taken hre.frames hp hc hl hol hor hke hre.black hn (hne ▸ hbelow),
    (hlink.p _ ?_).trans hpe⟩
  · have hgz : g.addr ≠ z := by
      refine ((Rep.apart (d := .left) hr).right g.addr ?_).1
      rw [addrs_plug]
      exact mem_add.mpr (.inr (mem_cons_self ..))
    have hpy : h.p y = some g.addr := hpy
    simp [takeOut, hpy, hgz, hxy, htrans, hrz]
  · have hmem : addr (plug (g :: gs) x) ∈ frameAddrs (g :: gs ++ ⟨.right, z, c, k, l⟩ :: fs) := by
      rw [frameAddrs_append]
      exact mem_add.mpr (.inl (addr_plug_mem g gs x))
    obtain ⟨_, h0, _, hbx⟩ := hap.frames _ hmem
    exact (ne_addr h0 hbx).symm

theorem takeOut_spec (hr : Rep h fs (.node z c k l (plug gs (.node y cy ky .nil x)))) :
    ∃ h', takeOut h z y = some h' ∧ Taken h' fs z c l y ky (plug gs x) ∧
    h'.p (addr x) = some (parent (gs ++ ⟨.right, y, c, ky, l⟩ :: fs)) := by
  cases gs with
  | nil => exact takeOut_child hr
  | cons g gs => exact takeOut_below hr

/-! ### Unlinking -/

/-- The position left when a node of colour `c` has been unlinked. -/
structure Unlinked (h : Heap) (fs : Path) (x : Node) (n : ℕ) (c : Color) : Prop where
  rep : Rep h fs x
  p : h.p (addr x) = some (parent fs)
  isRB : IsRB x n
  fits : Fits fs (n + c.weight)
  red : c = .red → x.color = .black

theorem transplant_spec (hr : Rep h fs (join d z c k .nil x))
    (hat : At fs (join d z c k .nil x) n) :
    ∃ h' m, transplant h z (some (addr x)) = some h' ∧ Unlinked h' fs x m c := by
  obtain ⟨m, rfl, _, hx, hred⟩ := hat.isRB.of_join
  obtain ⟨_, _, hp, _⟩ := own_join.mp hr.own
  have hap := hr.apart
  have hfs := hr.frames
  rw [addr_join] at hfs
  refine ⟨_, m, transplant_eq hfs hp hap.ne_zero (fun hb => (hap.frames z hb).1 rfl) (fun hb =>
    (hap.frames 0 hb).2.1 rfl), hr.transplant, ?_, hx, hat.fits, fun hc => (hred hc).2⟩
  rw [Heap.p_setP, if_pos rfl]

theorem takeOut_putIn (hr : Rep h fs (.node z c k l (plug gs (.node y cy ky .nil x))))
    (hat : At fs (.node z c k l (plug gs (.node y cy ky .nil x))) n) (hl : l ≠ .nil) :
    ∃ h' h'' m, takeOut h z y = some h' ∧ putIn h' z y = some h'' ∧
    Unlinked h'' (gs ++ ⟨.right, y, c, ky, l⟩ :: fs) x m cy := by
  obtain ⟨h', hout, htaken, hp⟩ := takeOut_spec hr
  obtain ⟨_, _, hdown⟩ := At.down (d := .right) hat
  obtain ⟨_, hat'⟩ := hdown.of_plug
  obtain ⟨m, rfl, _, hx, hred⟩ := IsRB.of_join (d := .left) hat'.isRB
  refine ⟨h', _, m, hout, putIn_spec htaken, ⟨rep_append.mpr (Rep.down (htaken.rep hl)), ?_, hx,
    hat'.fits.congr_frame, fun hc => (hred hc).2⟩⟩
  obtain ⟨_, hy0, _, hleft, hright, _⟩ := spread_of_nodup htaken.nodup
  have hmem : ∀ b ∈ x.addrs, b ∈ (plug gs x).addrs := by
    intro b hb
    rw [addrs_plug]
    exact mem_add.mpr (.inl hb)
  obtain ⟨hl0, _, _, hlx, _⟩ := hleft _ (addr_mem hl)
  have hxy : y ≠ addr x := ne_addr hy0 fun hb => (hright y (hmem y hb)).2.2.1 rfl
  have hxl : addr l ≠ addr x := ne_addr hl0 fun hb => hlx (hmem _ hb)
  rw [(sameAt_placed hxy.symm hxl.symm).p, (setHole_fields ..).2.2.1]
  exact hp

theorem unlink_spec (hr : Rep h fs (.node z c k l r)) (hat : At fs (.node z c k l r) n)
    (hfuel : card r.addrs ≤ fuel) :
    ∃ h' fs' x m c' A B, unlink fuel h z = some (h', c', some (addr x)) ∧ Unlinked h' fs' x m c' ∧
    (plug fs (.node z c k l r)).keys = A ++ k :: B ∧ (plug fs' x).keys = A ++ B := by
  obtain ⟨_, hc, _, hcl, hcr, hol, hor⟩ := hr.own
  by_cases hl : l = .nil
  · subst hl
    obtain ⟨h', m, hrun, hun⟩ := transplant_spec (d := .left) hr hat
    refine ⟨h', fs, r, m, c, before fs, r.keys ++ after fs, ?_, hun, ?_, ?_⟩
    · have hcl : h.child .left z = nilRef := hcl
      simp [unlink, hcl, hcr, hc, hrun]
    · simp [keys_plug, Tree.keys]
    · simp [keys_plug]
  · have hl0 := mt (Rep.down (d := .left) hr).ref_eq_nilRef.mp hl
    by_cases hrn : r = .nil
    · subst hrn
      obtain ⟨h', m, hrun, hun⟩ := transplant_spec (d := .right) hr hat
      refine ⟨h', fs, l, m, c, before fs ++ l.keys, after fs, ?_, hun, ?_, ?_⟩
      · have hcr : h.child .right z = nilRef := hcr
        simp [unlink, hcl, hl0, hcr, hc, hrun]
      · simp [keys_plug, Tree.keys]
      · simp [keys_plug]
    · have hr0 := mt (Rep.down (d := .right) hr).ref_eq_nilRef.mp hrn
      have h0 : 0 ∉ r.addrs := fun hb => ((Rep.apart (d := .left) hr).right 0 hb).2.1 rfl
      obtain ⟨gs, y, cy, ky, x, hmin, rfl, hbefore⟩ := treeMinimum_spec hor h0 hrn hfuel
      obtain ⟨h', h'', m, hout, hput, hun⟩ := takeOut_putIn hr hat hl
      have hy : h.color y = cy ∧ h.child .right y = some (addr x) := by
        have hy := (rep_append.mpr (Rep.down (d := .right) hr)).own
        exact ⟨hy.2.1, hy.2.2.2.2.1⟩
      refine ⟨h'', _, x, m, cy, before fs ++ l.keys, ky :: (x.keys ++ after gs) ++ after fs, ?_, hun, ?_, ?_⟩
      · simp [unlink, hcl, hl0, hcr, hr0, hmin, hout, hput, hy]
      · simp [keys_plug, Tree.keys, hbefore]
      · simp [keys_plug, Tree.keys, plug_append, plug, Frame.fill, Tree.join, hbefore]

end Code365.Algorithms.RedBlackBst
