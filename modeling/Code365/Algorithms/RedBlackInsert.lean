import Code365.Algorithms.RedBlackHeap

/-! # Insertion into a `RedBlackBST`

`fixTree` works at a position whose tree is red and fits (`Hot`); a pass of its loop moves the
position up and keeps the keys (`fixStep_spec`), and the loop leaves a red-black tree
(`fixTree_spec`). -/

namespace Code365.Algorithms.RedBlackBst

open Multiset RedBlack RedBlack.Tree

variable {h : Heap} {fs : Path} {t : Node} {f g : Frame ℕ ℤ} {d : Side} {n fuel a : ℕ} {k : ℤ}

/-- The heap holds the red-black tree `t`. -/
structure Holds (h : Heap) (t : Node) : Prop where
  rep : Rep h [] t
  isRB : ∃ n, IsRB t n
  color : t.color = .black

/-- A red tree, possibly below a red node, and otherwise a red-black tree. -/
structure Hot (h : Heap) (fs : Path) (t : Node) (n : ℕ) : Prop where
  rep : Rep h fs t
  isRB : IsRB t n
  red : t.color = .red
  fits : Fits fs n

/-! ### A pass of the loop -/

theorem isRed_eq (hr : Rep h fs t) : isRed h (some (addr t)) = some (decide (t.color = .red)) := by
  unfold isRed nilRef
  by_cases ht : t = .nil
  · subst ht
    rfl
  · rw [if_neg fun he => ht (hr.addr_eq_zero.mp (Option.some.inj he)), Option.map_some, hr.color_addr]

section

variable (hh : Hot h (f :: g :: fs) t n)

include hh

/-- Below a red uncle two nodes become black and the one above them red. -/
theorem fixStep_of_red (hf : f.color = .red) (hg : g.color = .black)
    (hu : g.sibling.color = .red) : ∃ h' t', fixStep g.side h (addr t) = some (h', addr t') ∧
    Hot h' fs t' (n + 1) ∧ t'.keys = (g.fill (f.fill t)).keys := by
  obtain ⟨e, p, cf, kf, s⟩ := f
  obtain ⟨d, q, cg, kg, u⟩ := g
  obtain rfl : cf = .red := hf
  obtain rfl : cg = .black := hg
  obtain ⟨v, ku, l, r, rfl⟩ := exists_join_red d hu
  obtain ⟨hrep, hrb, hred, ⟨hs, _, hu, _, hfits⟩⟩ := hh
  obtain ⟨hl, hr, _, _⟩ := isRB_join_red_iff.mp hu
  have hp := hrep.p_addr (ne_nil_of_red hred)
  obtain ⟨_, _, hpp, _, _, _, _, _, _, _, hcu, _, _⟩ := hrep.frames
  have hv := isRed_eq (rep_cons.mp (rep_cons.mp hrep)).down_other
  rw [color_join, addr_join] at hv
  have h1 := rep_cons.mp ((rep_cons.mp hrep).setColor .black)
  have h2 := rep_cons.mp (h1.down_other.setColor .black)
  refine ⟨_, _, ?_, ⟨h2.setColor .red, ?_, color_join .., hfits⟩, ?_⟩
  · simp only [parent] at hp hpp
    simp [fixStep, hp, hpp, hcu, hv]
  · refine isRB_join_red_iff.mpr ⟨?_, ?_, color_join .., color_join ..⟩
    · exact isRB_join_black_succ.mpr ⟨hl, hr⟩
    · exact isRB_join_black_succ.mpr ⟨hrb, hs⟩
  · simp only [Frame.fill, join_other]
    exact keys_join_congr (keys_join_congr rfl rfl) (keys_join_congr rfl rfl)

/-- An inner grandchild and its parent change places. -/
theorem straighten_spec (hf : f.color = .red) (d : Side) :
    ∃ h' f' t', straighten d h (addr t) f.addr = some (h', addr t') ∧ Hot h' (f' :: g :: fs) t' n ∧
    f'.side = d ∧ f'.color = .red ∧ (f'.fill t').keys = (f.fill t).keys := by
  have ht := ne_nil_of_red hh.red
  have hside := hh.rep.frames.eq_child_iff (hh.rep.addr_ne_sibling (.inl ht)) d.other
  unfold straighten
  by_cases hd : f.side = d
  · rw [if_neg]
    · exact ⟨h, f, t, rfl, hh, hd, hf, rfl⟩
    · rw [hside, hd]
      exact d.ne_other
  rw [if_pos (hside.mpr (Side.eq_other_of_ne hd))]
  obtain ⟨e, p, cf, kf, s⟩ := f
  obtain rfl : cf = .red := hf
  obtain rfl : e = d.other := Side.eq_other_of_ne hd
  obtain ⟨a, k, y, z, rfl⟩ := exists_join_red d hh.red
  obtain ⟨hrep, hrb, hred, ⟨hs, hblack, hfits⟩⟩ := hh
  obtain ⟨hy, hz, hcy, hcz⟩ := isRB_join_red_iff.mp hrb
  obtain ⟨hcs, hfs⟩ := hblack rfl
  have hrep := rep_cons.mp hrep
  simp only [Frame.fill, join_other] at hrep
  obtain ⟨h', hrun, hrep', _, _⟩ := rotate_spec hrep
  refine ⟨h', ⟨d, a, .red, k, z⟩, join d p .red kf s y, ?_,
    ⟨rep_cons.mpr hrep', ?_, color_join .., ?_⟩, rfl, rfl, ?_⟩
  · rw [hrun, addr_join]
    rfl
  · exact isRB_join_red_iff.mpr ⟨hs, hy, hcs, hcy⟩
  · exact ⟨hz, fun _ => ⟨hcz, hfs⟩, hfits⟩
  · simp only [Frame.fill, join_other]
    exact keys_rotate ..

theorem rotate_grand (hside : f.side = g.side) (hf : f.color = .red)
    (hg : g.color = .black) (hu : g.sibling.color = .black) :
    ∃ h' f', rotate g.side.other ((h.setColor f.addr .black).setColor g.addr .red) g.addr =
    some h' ∧ Hot h' (f' :: fs) t n ∧ (f'.fill t).keys = (g.fill (f.fill t)).keys := by
  obtain ⟨e, p, cf, kf, s⟩ := f
  obtain ⟨d, q, cg, kg, u⟩ := g
  obtain rfl : e = d := hside
  obtain rfl : cf = .red := hf
  obtain rfl : cg = .black := hg
  obtain ⟨hrep, hrb, hred, ⟨hs, hblack, hu', _, hfits⟩⟩ := hh
  obtain ⟨hcs, _⟩ := hblack rfl
  have hrep := (rep_cons.mp ((rep_cons.mp hrep).setColor .black)).setColor .red
  rw [← join_other, ← join_other e p] at hrep
  obtain ⟨h', hrun, hrep', _, _⟩ := rotate_spec hrep
  rw [join_other] at hrep'
  refine ⟨h', _, hrun, ⟨hrep'.down, hrb, hred, ⟨?_, nofun, hfits⟩⟩, ?_⟩
  · exact isRB_join_red_iff.mpr ⟨hu', hs, hu, hcs⟩
  · simp only [Frame.fill, join_other]
    exact (keys_rotate ..).symm

theorem fixStep_spec (hf : f.color = .red) (hg : g.color = .black) :
    ∃ h' fs' t' m, fixStep g.side h (addr t) = some (h', addr t') ∧ Hot h' fs' t' m ∧
    fs'.length ≤ fs.length + 1 ∧ (plug fs' t').keys = (plug (f :: g :: fs) t).keys := by
  by_cases hu : g.sibling.color = .red
  · obtain ⟨h', t', hrun, hh', hkeys⟩ := fixStep_of_red hh hf hg hu
    exact ⟨h', fs, t', _, hrun, hh', Nat.le_succ _, keys_plug_congr hkeys⟩
  obtain ⟨h1, f', t', hstraight, hh1, hside, hf', hkeys⟩ := straighten_spec hh hf g.side
  obtain ⟨h', f'', hrun, hh', hkeys'⟩ := rotate_grand hh1 hside hf' hg (Color.eq_black hu)
  refine ⟨h', f'' :: fs, t', n, ?_, hh', le_rfl, keys_plug_congr (hkeys'.trans (keys_join_congr hkeys rfl))⟩
  have hp := hh.rep.p_addr (ne_nil_of_red hh.red)
  have hp1 := hh1.rep.p_addr (ne_nil_of_red hh1.red)
  obtain ⟨_, _, hpp, _, _, _, _, _, _, _, hcu, _, _⟩ := hh.rep.frames
  obtain ⟨_, _, hpp1, _⟩ := hh1.rep.frames
  have hv := isRed_eq (rep_cons.mp (rep_cons.mp hh.rep)).down_other
  simp only [parent] at hp hpp hp1 hpp1
  simp [fixStep, hp, hpp, hcu, hv, hu, hstraight, hp1, hpp1, hrun]

end

/-! ### The loop -/

theorem Hot.blacken (hh : Hot h fs t n) (hblack : parentColor fs = .black) :
    Holds (h.setColor (addr (plug fs t)) .black) (plug fs t).blacken := by
  refine ⟨(rep_plug.mp hh.rep).setBlack, ?_, color_blacken _⟩
  by_cases hfs : fs = []
  · subst hfs
    exact hh.isRB.blacken
  · obtain ⟨⟨m, hm⟩, _⟩ := hh.isRB.plug hh.fits (.inr hblack) fun hnil => absurd hnil hfs
    exact hm.blacken

theorem fixTree_spec (hh : Hot h fs t n) (hfuel : fs.length < fuel) :
    ∃ h' t', fixTree fuel h (addr t) = some h' ∧ Holds h' t' ∧ t'.keys = (plug fs t).keys := by
  induction fuel generalizing h fs t n with
  | zero => omega
  | succ fuel ih =>
    have hp := hh.rep.p_addr (ne_nil_of_red hh.red)
    have hcolor := hh.rep.color_parent
    by_cases hred : parentColor fs = .red
    · obtain ⟨f, g, gs, rfl, hf, hg⟩ := hh.fits.of_red hred
      obtain ⟨h', fs', t', m, hstep, hh', hlen, hkeys⟩ := fixStep_spec hh hf hg
      rw [List.length_cons, List.length_cons] at hfuel
      obtain ⟨h'', t'', hrun, hh'', hkeys'⟩ := ih hh' (by omega)
      refine ⟨h'', t'', ?_, hh'', hkeys'.trans hkeys⟩
      have hgrand := rep_cons.mp hh.rep
      have hside := hgrand.frames.eq_child_iff (hgrand.addr_ne_sibling (.inl (join_ne_nil _ _ _ _ _ _))) .left
      have hpp := hgrand.p_addr (join_ne_nil _ _ _ _ _ _)
      simp only [Frame.fill, addr_join, parent] at hp hpp hside hcolor
      cases hs : g.side with
      | left | right =>
        rw [hs] at hstep
        simp [fixTree, hp, hcolor, hred, hpp, hside, hs, hstep, hrun]
    · have hblack := Color.eq_black hred
      refine ⟨_, _, ?_, hh.blacken hblack, keys_blacken _⟩
      rw [hblack] at hcolor
      simp [fixTree, hp, hcolor, hh.rep.root]

/-! ### The new node -/

theorem sameAt_newNode (ha : a ≠ h.next) : SameAt h (h.newNode k) a := by
  refine ⟨?_, ?_, ?_, fun d => ?_⟩
  all_goals exact Function.update_of_ne ha _ _

/-- A new node, which is not in the tree yet. -/
structure Fresh (h : Heap) (a : ℕ) (c : Color) (k : ℤ) : Prop where
  key : h.key a = k
  color : h.color a = c
  child : ∀ d, h.child d a = nilRef
  below : a < h.next

theorem fresh_newNode (h : Heap) (c : Color) (k : ℤ) :
    Fresh ((h.newNode k).setColor h.next c) h.next c k where
  key := Function.update_self ..
  color := by simp
  child d := Function.update_self ..
  below := Nat.lt_succ_self _

theorem Rep.newNode (hr : Rep h [] t) (k : ℤ) : Rep (h.newNode k) [] t :=
  hr.congr rfl (Nat.le_succ _) fun a ha => sameAt_newNode (ne_of_lt (hr.below a ha))

theorem Rep.newNode_setColor (hr : Rep h [] t) (c : Color) (k : ℤ) :
    Rep ((h.newNode k).setColor h.next c) [] t :=
  (hr.newNode k).congr rfl le_rfl fun a ha => sameAt_setColor (ne_of_lt (hr.below a ha))

theorem Rep.attach {c : Color} (hr : Rep h fs .nil) (hnew : Fresh h a c k)
    (ha : a ∉ 0 ::ₘ frameAddrs fs) :
    Rep ((setHole h fs a).setP a (some (parent fs))) fs (.node a c k .nil .nil) := by
  obtain ⟨hkey, hcolor, hp, hnext⟩ := setHole_fields h fs a
  rw [mem_cons, not_or] at ha
  obtain ⟨ha0, haf⟩ := ha
  obtain ⟨h0, hn⟩ := nodup_cons.mp hr.nodup
  have hfs : OwnFrames ((setHole h fs a).setP a (some (parent fs))) fs a :=
    (hr.frames.setHole hr.nodup_frameAddrs).congr rfl fun b hb => sameAt_setP fun he => haf (he ▸ hb)
  have hchild : ∀ d, (setHole h fs a).child d a = nilRef := fun d =>
    ((sameAt_setHole haf).child d).trans (hnew.child d)
  refine ⟨⟨?_, ?_, ?_, hchild _, hchild _, trivial, trivial⟩, hfs, ?_, ?_, ?_⟩
  · rw [Heap.key_setP, hkey]
    exact hnew.key
  · rw [Heap.color_setP, hcolor]
    exact hnew.color
  · simp
  · simp only [addrs, zero_add] at h0 hn
    simp only [addrs, add_zero, singleton_add, cons_zero, nodup_cons, mem_cons, not_or]
    exact ⟨⟨Ne.symm ha0, h0⟩, haf, hn⟩
  · have hbelow := hr.below
    simp only [addrs, zero_add, add_zero, singleton_add, cons_zero, mem_cons, Heap.next_setP, hnext]
      at hbelow ⊢
    rintro b (rfl | rfl | hb)
    · exact hbelow 0 (.inl rfl)
    · exact hnew.below
    · exact hbelow b (.inr hb)
  · rw [Heap.color_setP, hcolor]
    exact hr.black

/-! ### Descending -/

theorem exists_around {b : ℕ} {c : Color} {kb : ℤ} {l r : Node}
    (hs : (node b c kb l r).keys.Pairwise (· ≤ ·)) (haround : Around (· ≤ k) (k < ·) fs) :
    ∃ d x y, node b c kb l r = join d b c kb x y ∧ (if k < kb then Side.left else Side.right) = d ∧
    Around (· ≤ k) (k < ·) (⟨d, b, c, kb, y⟩ :: fs) := by
  by_cases hlt : k < kb
  · exact ⟨.left, l, r, rfl, if_pos hlt, haround.left hs fun _ hb => hlt.trans_le hb⟩
  · exact ⟨.right, r, l, rfl, if_neg hlt, haround.right hs fun _ hb => hb.trans (not_lt.mp hlt)⟩

/-- `insert` puts the node after the keys up to its own. -/
theorem link_spec (hk : h.key a = k) (hr : Rep h fs t) (ht : t ≠ .nil)
    (hs : (plug fs t).keys.Pairwise (· ≤ ·)) (haround : Around (· ≤ k) (k < ·) fs)
    (hfuel : Multiset.card t.addrs ≤ fuel) : ∃ fs', plug fs' .nil = plug fs t ∧ fs' ≠ [] ∧
    link fuel h a (some (addr t)) = some ((setHole h fs' a).setP a (some (parent fs'))) ∧
    Around (· ≤ k) (k < ·) fs' := by
  induction fuel generalizing fs t with
  | zero =>
    have hpos := card_pos_iff_exists_mem.mpr ⟨_, addr_mem ht⟩
    omega
  | succ fuel ih =>
    obtain ⟨b, c, kb, l, r, rfl⟩ := exists_join .left ht
    obtain ⟨d, x, y, hjoin, hd, haround'⟩ := exists_around (pairwise_of_plug hs) haround
    rw [show join .left b c kb l r = node b c kb l r from rfl, hjoin] at hr hs hfuel ⊢
    obtain ⟨hkb, _, _, hchild, _⟩ := own_join.mp hr.own
    have hx := hr.down.addr_eq_zero
    rw [addrs_join, card_cons, card_add] at hfuel
    by_cases hnil : x = .nil
    · subst hnil
      refine ⟨⟨d, b, c, kb, y⟩ :: fs, rfl, nofun, ?_, haround'⟩
      have hchild : h.child d b = nilRef := hchild
      simp [link, hk, hkb, hd, hchild, setHole, parent]
    · obtain ⟨fs', hplug, hne, hrun, hfs'⟩ := ih hr.down hnil hs haround' (by omega)
      refine ⟨fs', hplug, hne, ?_, hfs'⟩
      rw [← hrun]
      simp [link, hk, hkb, hd, hchild, nilRef, hx, hnil]

/-! ### The call -/

theorem Holds.next_notMem (hh : Holds h t) (hplug : plug fs .nil = t) :
    h.next ∉ 0 ::ₘ frameAddrs fs := by
  intro hmem
  have haddrs := addrs_plug fs (.nil : Node)
  rw [hplug] at haddrs
  have hbelow := hh.rep.below h.next
  rw [haddrs] at hbelow
  simp only [addrs, frameAddrs, zero_add, add_zero] at hbelow
  exact absurd (hbelow hmem) (lt_irrefl _)

theorem insert_nil (hh : Holds h .nil) : ∃ h', insert fuel (h.newNode k) h.next = some h' ∧
    Holds h' (.node h.next .black k .nil .nil) := by
  have hroot : (h.newNode k).root = nilRef := hh.rep.root
  refine ⟨_, ?_, (hh.rep.newNode_setColor .black k).attach (fresh_newNode ..) (hh.next_notMem rfl),
    ⟨1, .black .nil .nil⟩, rfl⟩
  rw [insert, if_pos hroot]
  rfl

theorem insert_spec (hh : Holds h t) (hs : t.keys.Pairwise (· ≤ ·)) (hfuel : t.keys.length < fuel) :
    ∃ h' t', insert fuel (h.newNode k) h.next = some h' ∧ Holds h' t' ∧ t'.keys.Pairwise (· ≤ ·) ∧
    (t'.keys : Multiset ℤ) = k ::ₘ t.keys := by
  by_cases ht : t = .nil
  · subst ht
    obtain ⟨h', hrun, hh'⟩ := insert_nil hh
    exact ⟨h', _, hrun, hh', List.pairwise_singleton .., rfl⟩
  have hr := hh.rep.newNode_setColor .red k
  have hnew := fresh_newNode h .red k
  have hcard : Multiset.card t.addrs < fuel := (card_addrs t).trans_lt hfuel
  obtain ⟨fs, hplug, hne, hlink, haround⟩ :=
    link_spec hnew.key hr ht hs ⟨List.forall_mem_nil _, List.forall_mem_nil _⟩ hcard.le
  obtain ⟨n, hn⟩ := hh.isRB
  subst hplug
  obtain ⟨m, hm⟩ := (hn.at_root hh.color).of_plug
  rw [List.append_nil] at hm
  cases hm.isRB
  have hot : Hot _ fs _ 0 :=
    ⟨(rep_plug.mpr hr).attach hnew (hh.next_notMem rfl), .red .nil .nil rfl rfl, rfl, hm.fits⟩
  rw [addrs_plug, addrs, zero_add] at hcard
  obtain ⟨h', t', hfix, hh', hkeys⟩ := fixTree_spec hot ((length_le_card_frameAddrs fs).trans_lt hcard)
  refine ⟨h', t', ?_, hh', ?_, ?_⟩
  · have hroot := hr.root
    have h0 := mt hr.addr_eq_zero.mp ht
    simp only [plug, Heap.root_setColor] at hroot hlink h0
    simp [insert, hroot, nilRef, h0, hlink]
    exact hfix
  · rw [hkeys]
    exact Around.pairwise ⟨haround.before, fun b hb => (haround.after b hb).le⟩ hs
  · rw [hkeys]
    exact keys_plug_singleton ..

end Code365.Algorithms.RedBlackBst
