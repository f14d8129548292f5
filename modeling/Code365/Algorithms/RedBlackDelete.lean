import Code365.Algorithms.RedBlackUnlink

/-! # Deletion from a `RedBlackBST`

`deleteFixup` works at a position whose tree is black and has one black node too few on its paths
(`Short`).  A pass of its loop moves the position up or ends the loop (`fixupStep_spec`), and the
loop leaves a red-black tree (`deleteFixup_spec`).

The tree stays a red-black tree with the keys in order whatever is called (`calls_spec`). -/

namespace Code365.Algorithms.RedBlackBst

open Multiset List RedBlack RedBlack.Tree

variable {h : Heap} {fs : Path} {t x near far : Node} {f : Frame ℕ ℤ} {d : Side} {q w n fuel : ℕ}
  {c : Color} {k kq kw : ℤ}

/-- A black tree with one black node too few. -/
structure Short (h : Heap) (fs : Path) (t : Node) (n : ℕ) : Prop where
  rep : Rep h fs t
  p : h.p (addr t) = some (parent fs)
  color : t.color = .black
  isRB : IsRB t n
  fits : Fits fs (n + 1)

/-- A tree that only has to be made black. -/
structure Done (h : Heap) (fs : Path) (t : Node) : Prop where
  rep : Rep h fs t
  fits : ∃ m, IsRB t.blacken m ∧ Fits fs m
  stop : t.color = .red ∨ fs = []

theorem Rep.p_of_zero {h₀ : Heap} (hr : Rep h fs t) (hp : h₀.p (addr t) = some (parent fs))
    (h0 : h.p 0 = h₀.p 0) : h.p (addr t) = some (parent fs) := by
  by_cases ht : t = .nil
  · subst ht
    exact h0.trans hp
  · exact hr.p_addr ht

/-! ### A pass of the loop -/

/-- A red sibling is rotated up, so that the sibling is black. -/
theorem lowerRed_spec (hs : Short h (f :: fs) t n) :
    ∃ h' f' fs', lowerRed f.side h (addr t) f.addr (addr f.sibling) = some (h', addr f'.sibling) ∧
    Short h' (f' :: fs') t n ∧ f'.side = f.side ∧ f'.sibling.color = .black ∧
    (plug (f' :: fs') t).keys = (plug (f :: fs) t).keys ∧
    (f'.color = .red ∨ fs'.length = fs.length) := by
  have hcolor := (rep_cons.mp hs.rep).down_other.color_addr
  unfold lowerRed
  by_cases hred : f.sibling.color = .red
  · rw [if_pos (hcolor.trans hred)]
    obtain ⟨d, q, c, kq, s⟩ := f
    obtain ⟨w, kw, near, far, rfl⟩ := exists_join_red d hred
    obtain ⟨hrep, hp, hblack, hrb, hsib, hc, hfits⟩ := hs
    obtain rfl : c = .black := by
      refine Color.eq_black fun hred => ?_
      obtain ⟨hblack, _⟩ := hc hred
      rw [color_join] at hblack
      cases hblack
    obtain ⟨hnear, hfar, hcnear, _⟩ := isRB_join_red_iff.mp hsib
    have hrep := rep_cons.mp ((rep_cons.mp hrep).down_other.setColor .black)
    simp only [Frame.fill, join_other] at hrep
    obtain ⟨h', hrun, hrep', hp0, _⟩ := rotate_spec (hrep.setColor .red)
    have hrep' : Rep h' (⟨d, q, .red, kq, near⟩ :: ⟨d, w, .black, kw, far⟩ :: fs) t :=
      rep_cons.mpr (rep_cons.mpr hrep')
    have hp' : h'.p (addr t) = some q := hrep'.p_of_zero hp (hp0 (.inr hnear.ne_nil))
    obtain ⟨_, _, _, _, hchild, _⟩ := hrep'.frames
    refine ⟨h', _, _, ?_, ⟨hrep', hp', hblack, hrb, ⟨hnear, fun _ => ⟨hcnear, cons_ne_nil _ _, rfl⟩, hfar,
      fun hred => Color.noConfusion hred, hfits⟩⟩, rfl, hcnear, ?_, .inl rfl⟩
    · simp [hrun, hp', hchild]
    · exact keys_plug_congr (keys_rotate ..)
  · rw [if_neg (hcolor ▸ hred)]
    exact ⟨h, f, fs, rfl, hs, rfl, Color.eq_black hred, rfl, .inr rfl⟩

/-- With two black children the sibling becomes red, and the parent is short. -/
theorem Short.recolor (hs : Short h (⟨d, q, c, kq, join d w .black kw near far⟩ :: fs) t n)
    (hnear : near.color = .black) (hfar : far.color = .black) : ∃ t', addr t' = q ∧
    t'.keys = (join d q c kq t (join d w .black kw near far)).keys ∧ (c = .black →
    Short (h.setColor w .red) fs t' (n + 1)) ∧ (c = .red → Done (h.setColor w .red) fs t') := by
  obtain ⟨hrep, _, hblack, hrb, hsib, _, hfits⟩ := hs
  obtain ⟨hn, hf⟩ := isRB_join_black_succ.mp hsib
  have hrep := rep_cons.mp ((rep_cons.mp hrep).down_other.setColor .red)
  simp only [Frame.fill, join_other] at hrep
  have hw : IsRB (join d w .red kw near far) n := isRB_join_red_iff.mpr ⟨hn, hf, hnear, hfar⟩
  refine ⟨join d q c kq t (join d w .red kw near far), addr_join ..,
    keys_join_congr rfl (keys_join_congr rfl rfl), ?_, ?_⟩
  · rintro rfl
    exact ⟨hrep, hrep.p_addr (join_ne_nil _ _ _ _ _ _), color_join ..,
      isRB_join_black_succ.mpr ⟨hrb, hw⟩, hfits⟩
  · rintro rfl
    refine ⟨hrep, ⟨n + 1, ?_, hfits⟩, .inl (color_join ..)⟩
    rw [blacken_join]
    exact isRB_join_black_succ.mpr ⟨hrb, hw⟩

/-- A red near child is rotated up, so that the far child is red. -/
theorem raiseNear_spec (hs : Short h (⟨d, q, c, kq, join d w .black kw near far⟩ :: fs) t n)
    (hne : ¬(near.color = .black ∧ far.color = .black)) :
    ∃ h' w' kw' near' far', raiseNear d h (addr t) w (addr near) (addr far) = some (h', w') ∧
    Short h' (⟨d, q, c, kq, join d w' .black kw' near' far'⟩ :: fs) t n ∧ far'.color = .red ∧
    (join d w' .black kw' near' far').keys = (join d w .black kw near far).keys := by
  have hS : Rep h (⟨d.other, q, c, kq, t⟩ :: fs) (join d w .black kw near far) :=
    (rep_cons.mp hs.rep).down_other
  have hcolor := hS.down_other.color_addr
  unfold raiseNear
  by_cases hfar : far.color = .black
  · rw [if_pos (hcolor.trans hfar)]
    have hred : near.color = .red := by
      by_contra hnear
      exact hne ⟨Color.eq_black hnear, hfar⟩
    obtain ⟨v, kv, a, b, rfl⟩ := exists_join_red d hred
    obtain ⟨_, hp, hblack, hrb, hsib, hc, hfits⟩ := hs
    obtain ⟨hn, hf⟩ := isRB_join_black_succ.mp hsib
    obtain ⟨ha, hb, _, hcb⟩ := isRB_join_red_iff.mp hn
    have hrep := (rep_cons.mp (hS.down.setColor .black)).setColor .red
    rw [← join_other d w, ← join_other d v] at hrep
    obtain ⟨h', hrun, hrep', hp0, _⟩ := rotate_spec hrep
    have hrep' := rep_cons.mp hrep'
    simp only [Frame.fill, join_other] at hrep'
    have hrep' := hrep'.down
    have hp' : h'.p (addr t) = some q := hrep'.p_of_zero hp (hp0 (.inl (cons_ne_nil _ _)))
    obtain ⟨_, _, _, _, hchild, _⟩ := hrep'.frames
    refine ⟨h', v, kv, a, join d w .red kw b far, ?_, ⟨hrep', hp', hblack, hrb, ?_, ?_, hfits⟩,
      color_join .., ?_⟩
    · simp [hrun, hp', hchild]
    · exact isRB_join_black_succ.mpr ⟨ha, isRB_join_red_iff.mpr ⟨hb, hf, hcb, hfar⟩⟩
    · exact fun hred => ⟨color_join .., (hc hred).2⟩
    · exact (keys_rotate ..).symm
  · rw [if_neg (hcolor ▸ hfar)]
    refine ⟨h, w, kw, near, far, rfl, hs, ?_, rfl⟩
    by_contra hred
    exact hfar (Color.eq_black hred)

/-- The last rotation, with a red far child, leaves a red-black tree. -/
theorem Short.rotate (hs : Short h (⟨d, q, c, kq, join d w .black kw near far⟩ :: fs) t n)
    (hred : far.color = .red) : ∃ h' t', rotate d
    (((h.setColor w (h.color q)).setColor q .black).setColor (addr far) .black) q = some h' ∧
    Done h' [] t' ∧ t'.keys = (plug fs (join d q c kq t (join d w .black kw near far))).keys := by
  obtain ⟨v, kv, a, b, rfl⟩ := exists_join_red d hred
  obtain ⟨hrep, _, _, hrb, hsib, hc, hfits⟩ := hs
  obtain ⟨hn, hf⟩ := isRB_join_black_succ.mp hsib
  obtain ⟨ha, hb, _, _⟩ := isRB_join_red_iff.mp hf
  have hcq : h.color q = c := hrep.frames.2.1
  have h1 := rep_cons.mp ((rep_cons.mp hrep).down_other.setColor c)
  have h2 := h1.setColor .black
  simp only [join_other] at h2
  have h3 := rep_cons.mp (rep_cons.mp (h2.down_other.down_other.setColor .black))
  simp only [Frame.fill, join_other] at h3
  obtain ⟨h', hrun, hrep', _, _⟩ := rotate_spec h3
  have hq : IsRB (join d q .black kq t near) (n + 1) := isRB_join_black_succ.mpr ⟨hrb, hn⟩
  have hv : IsRB (join d v .black kv a b) (n + 1) := isRB_join_black_succ.mpr ⟨ha, hb⟩
  have hfits' : Fits (⟨d, w, c, kw, join d v .black kv a b⟩ :: fs) (n + 1) :=
    ⟨hv, fun hred => ⟨color_join .., (hc hred).2⟩, hfits⟩
  obtain ⟨⟨m, hm⟩, hcolor⟩ := hq.plug hfits' (.inl (color_join ..)) fun _ => color_join ..
  refine ⟨h', _, ?_, ⟨rep_plug.mp hrep', ⟨m, ?_, trivial⟩, .inr rfl⟩, keys_plug_congr ?_⟩
  · rw [hcq, addr_join]
    exact hrun
  · rw [blacken_of_black]
    · exact hm
    · exact hcolor
  · apply (keys_rotate d q w c .black c .black kq kw t near _).trans
    exact keys_join_congr rfl (keys_join_congr rfl (keys_join_congr rfl rfl))

theorem fixupStep_spec (hs : Short h (f :: fs) t n) :
    ∃ h' fs' t', fixupStep f.side h (addr t) = some (h', some (addr t')) ∧
    ((∃ m, Short h' fs' t' m ∧ fs'.length ≤ fs.length) ∨ Done h' fs' t') ∧
    (plug fs' t').keys = (plug (f :: fs) t).keys := by
  obtain ⟨h1, f', gs, hlower, hs1, hside, hblack, hkeys, hlen⟩ := lowerRed_spec hs
  have hp : h.p (addr t) = some f.addr := hs.p
  have hp1 : h1.p (addr t) = some f'.addr := hs1.p
  obtain ⟨_, _, _, _, hw, _⟩ := hs.rep.frames
  obtain ⟨d, q, c, kq, s⟩ := f'
  obtain rfl : d = f.side := hside
  obtain ⟨w, cw, kw, near, far, rfl⟩ := exists_join f.side hs1.fits.1.ne_nil
  obtain rfl : cw = .black := (color_join ..).symm.trans hblack
  have hS := (rep_cons.mp hs1.rep).down_other
  obtain ⟨_, _, _, hn, hf, _⟩ := own_join.mp hS.own
  have hcn := hS.down.color_addr
  have hcf := hS.down_other.color_addr
  by_cases hboth : near.color = .black ∧ far.color = .black
  · obtain ⟨t', hq, hkeys', hshort, hdone⟩ := hs1.recolor hboth.1 hboth.2
    refine ⟨h1.setColor w .red, gs, t', ?_, ?_, (keys_plug_congr hkeys').trans hkeys⟩
    · simp [fixupStep, hp, hw, hlower, hn, hf, hcn, hcf, hboth, hp1, hq]
    · by_cases hc : c = .red
      · exact .inr (hdone hc)
      · refine .inl ⟨_, hshort (Color.eq_black hc), ?_⟩
        rcases hlen with hred | hlen
        · exact absurd hred hc
        · exact hlen.le
  · obtain ⟨h2, w', kw', near', far', hraise, hs2, hred, hkeys2⟩ := raiseNear_spec hs1 hboth
    obtain ⟨h', t', hrun, hdone, hkeys'⟩ := hs2.rotate hred
    refine ⟨h', [], t', ?_, .inr hdone, ?_⟩
    · have hp2 : h2.p (addr t) = some q := hs2.p
      have hS2 := (rep_cons.mp hs2.rep).down_other
      obtain ⟨_, _, _, _, hf2, _⟩ := own_join.mp hS2.own
      have hcf2 := hS2.down_other.color_addr
      simp [fixupStep, hp, hw, hlower, hn, hf, hcn, hcf, hboth, hraise, hf2, hcf2, hred, hp2, hrun,
        hdone.rep.root, plug]
    · exact (hkeys'.trans (keys_plug_congr (keys_join_congr rfl hkeys2))).trans hkeys

/-! ### The loop -/

theorem Done.holds (hd : Done h fs t) : Holds (h.setColor (addr t) .black) (plug fs t.blacken) := by
  obtain ⟨m, hm, hfits⟩ := hd.fits
  obtain ⟨hrb, hcolor⟩ := hm.plug hfits (.inl (color_blacken t)) fun _ => color_blacken t
  exact ⟨rep_plug.mp hd.rep.setBlack, hrb, hcolor⟩

theorem deleteFixup_of_done (hd : Done h fs t) (hfuel : 0 < fuel) :
    deleteFixup fuel h (some (addr t)) = some (h.setColor (addr t) .black) := by
  obtain ⟨fuel, rfl⟩ : ∃ m, fuel = m + 1 := ⟨fuel - 1, by omega⟩
  rcases hd.stop with hred | rfl
  · simp [deleteFixup, hd.rep.color_addr, hred]
  · simp [deleteFixup, hd.rep.root, plug]

theorem Short.done (hs : Short h [] t n) : Done h [] t :=
  ⟨hs.rep, ⟨n, (blacken_of_black hs.color).symm ▸ hs.isRB, trivial⟩, .inr rfl⟩

theorem deleteFixup_spec (hs : Short h fs t n) (hfuel : fs.length < fuel) : ∃ h' t',
    deleteFixup fuel h (some (addr t)) = some h' ∧ Holds h' t' ∧ t'.keys = (plug fs t).keys := by
  induction fuel generalizing h fs t n with
  | zero => omega
  | succ fuel ih =>
    cases fs with
    | nil => exact ⟨_, _, deleteFixup_of_done hs.done hfuel, hs.done.holds, keys_blacken t⟩
    | cons f fs =>
      rw [length_cons] at hfuel
      obtain ⟨h', fs', t', hstep, hnext, hkeys⟩ := fixupStep_spec hs
      have hrest : ∃ h'' t'', deleteFixup fuel h' (some (addr t')) = some h'' ∧ Holds h'' t'' ∧
          t''.keys = (plug fs' t').keys := by
        rcases hnext with ⟨m, hs', hlen⟩ | hd
        · exact ih hs' (by omega)
        · exact ⟨_, _, deleteFixup_of_done hd (by omega), hd.holds, keys_plug_congr (keys_blacken t')⟩
      obtain ⟨h'', t'', hrun, hh, hkeys'⟩ := hrest
      refine ⟨h'', t'', ?_, hh, hkeys'.trans hkeys⟩
      have hroot : some (addr t) ≠ h.root := hs.rep.root ▸ fun he => hs.rep.addr_ne_root (Option.some.inj he)
      have hcolor := hs.rep.color_addr.trans hs.color
      have hp : h.p (addr t) = some f.addr := hs.p
      have hside := hs.rep.frames.eq_child_iff (hs.rep.addr_ne_sibling (.inr hs.fits.1.ne_nil)) .left
      cases hd : f.side with
      | left | right =>
        rw [hd] at hstep
        simp [deleteFixup, hroot, hcolor, hp, hside, hd, hstep, hrun]

/-! ### The call -/

theorem Unlinked.holds (hu : Unlinked h fs x n .red) : Holds h (plug fs x) := by
  obtain ⟨hrb, hcolor⟩ := hu.isRB.plug hu.fits (.inl (hu.red rfl)) fun _ => hu.red rfl
  exact ⟨rep_plug.mp hu.rep, hrb, hcolor⟩

theorem Unlinked.deleteFixup (hu : Unlinked h fs x n .black) (hfuel : fs.length < fuel) : ∃ h' t',
    deleteFixup fuel h (some (addr x)) = some h' ∧ Holds h' t' ∧ t'.keys = (plug fs x).keys := by
  by_cases hx : x.color = .red
  · obtain ⟨a, k, l, r, rfl⟩ := exists_join_red .left hx
    obtain ⟨hl, hr, _, _⟩ := isRB_join_red_iff.mp hu.isRB
    have hd : Done h fs (join .left a .red k l r) := ⟨hu.rep, ⟨n + 1, .black hl hr, hu.fits⟩, .inl hx⟩
    exact ⟨_, _, deleteFixup_of_done hd (by omega), hd.holds, keys_plug_congr (keys_blacken _)⟩
  · exact deleteFixup_spec ⟨hu.rep, hu.p, Color.eq_black hx, hu.isRB, hu.fits⟩ hfuel

theorem findNode_root (hh : Holds h t) (hs : t.keys.Pairwise (· ≤ ·))
    (hfuel : t.keys.length < fuel) :
    Found k t (findNode fuel (h.newNode k) h.next (h.newNode k).root) := by
  have hr := hh.rep.newNode k
  rw [hr.root, plug]
  by_cases ht : t = .nil
  · subst ht
    obtain ⟨fuel, rfl⟩ : ∃ m, fuel = m + 1 := ⟨fuel - 1, by omega⟩
    have hroot : (h.newNode k).root = nilRef := hr.root
    refine .inl ⟨?_, not_mem_nil⟩
    rw [findNode, if_pos hroot]
  · have hcard : card t.addrs < fuel := (card_addrs t).trans_lt hfuel
    exact findNode_spec (Function.update_self ..) hr ht hs ⟨forall_mem_nil _, forall_mem_nil _⟩ hcard.le

theorem delete_of_found {z : ℕ} {l r : Node} (hh : Holds h (plug fs (.node z c k l r)))
    (hfuel : (plug fs (.node z c k l r)).keys.length < fuel)
    (hfind : findNode fuel (h.newNode k) h.next (h.newNode k).root = some (some z)) :
    ∃ h' t' A B, delete fuel (h.newNode k) h.next = some (h', true) ∧ Holds h' t' ∧
    (plug fs (.node z c k l r)).keys = A ++ k :: B ∧ t'.keys = A ++ B := by
  obtain ⟨m, hm⟩ := hh.isRB
  obtain ⟨m', hat⟩ := (hm.at_root hh.color).of_plug
  rw [append_nil] at hat
  have hcard := card_addrs (plug fs (.node z c k l r))
  rw [addrs_plug, card_add, addrs, card_cons, card_add] at hcard
  obtain ⟨h', gs, x, n, c', A, B, hrun, hu, hA, hB⟩ := unlink_spec (rep_plug.mpr (hh.rep.newNode k)) hat
    (show card r.addrs ≤ fuel by omega)
  cases c' with
  | red =>
    refine ⟨h', _, A, B, ?_, hu.holds, hA, hB⟩
    simp [delete, hfind, hrun]
  | black =>
    have hlen : gs.length < fuel := by
      have hgs := length_le_card_frameAddrs gs
      have hcard := card_addrs (plug gs x)
      rw [addrs_plug, card_add, hB, length_append] at hcard
      rw [hA, length_append, length_cons] at hfuel
      omega
    obtain ⟨h'', t', hfix, hh', hkeys⟩ := hu.deleteFixup hlen
    refine ⟨h'', t', A, B, ?_, hh', hA, hkeys.trans hB⟩
    simp [delete, hfind, hrun, hfix]

theorem delete_spec (hh : Holds h t) (hs : t.keys.Pairwise (· ≤ ·)) (hfuel : t.keys.length < fuel) :
    ∃ h' t', delete fuel (h.newNode k) h.next = some (h', decide (k ∈ t.keys)) ∧ Holds h' t' ∧
    t'.keys.Pairwise (· ≤ ·) ∧ (t'.keys : Multiset ℤ) = (t.keys : Multiset ℤ).erase k := by
  rcases findNode_root (k := k) hh hs hfuel with ⟨hfind, hk⟩ | ⟨fs, z, c, l, r, hfind, rfl⟩
  · refine ⟨h.newNode k, t, ?_, ⟨hh.rep.newNode k, hh.isRB, hh.color⟩, hs, (erase_of_notMem hk).symm⟩
    simp [delete, hfind, hk]
  obtain ⟨h', t', A, B, hrun, hh', hA, hB⟩ := delete_of_found hh hfuel hfind
  have hmem : k ∈ A ++ k :: B := mem_append_right A (List.mem_cons_self ..)
  rw [hA] at hs ⊢
  rw [decide_eq_true hmem]
  refine ⟨h', t', hrun, hh', ?_, ?_⟩
  · rw [hB]
    exact hs.sublist ((sublist_cons_self k B).append_left A)
  · rw [hB, coe_eq_coe.mpr (perm_middle : (A ++ k :: B).Perm _), ← cons_coe, Multiset.erase_cons_head]

/-! ### Any calls -/

/-- The tree of a `RedBlackBST`: the links of its nodes agree, the keys are in order, the root is
black, no red node has a red child, and all paths have as many black nodes. -/
structure IsRedBlackBst (h : Heap) (t : Node) : Prop where
  root : h.root = some (addr t)
  links : Own h t 0
  nodup : (0 ::ₘ t.addrs).Nodup
  sorted : t.keys.Pairwise (· ≤ ·)
  black : t.color = .black
  noRedRed : t.NoRedRed
  height : ∃ n, ∀ path ∈ t.paths, path.count .black = n

theorem Holds.isRedBlackBst (hh : Holds h t) (hs : t.keys.Pairwise (· ≤ ·)) :
    IsRedBlackBst h t := by
  obtain ⟨n, hn⟩ := hh.isRB
  have hnodup := hh.rep.nodup
  rw [frameAddrs, add_zero] at hnodup
  exact ⟨hh.rep.root, hh.rep.own, hnodup, hs, hh.color, hn.noRedRed, n, hn.count_black⟩

/-- The keys after the calls, as a multiset, and what the `delete`s should return. -/
def expected : Multiset ℤ → List Op → Multiset ℤ × List Bool
  | s, [] => (s, [])
  | s, .insert key :: ops => expected (key ::ₘ s) ops
  | s, .delete key :: ops =>
      ((expected (s.erase key) ops).1, decide (key ∈ s) :: (expected (s.erase key) ops).2)

theorem call_spec (op : Op) (hh : Holds h t) (hs : t.keys.Pairwise (· ≤ ·))
    (hfuel : t.keys.length < fuel) : ∃ h' t' rs, call fuel h op = some (h', rs) ∧ Holds h' t' ∧
    t'.keys.Pairwise (· ≤ ·) ∧ t'.keys.length ≤ t.keys.length + 1 ∧ ∀ ops,
    expected t.keys (op :: ops) = ((expected t'.keys ops).1, rs ++ (expected t'.keys ops).2) := by
  cases op with
  | insert key =>
    obtain ⟨h', t', hrun, hh', hs', hkeys⟩ := insert_spec hh hs hfuel
    have hcard := congrArg card hkeys
    refine ⟨h', t', [], ?_, hh', hs', hcard.le, fun ops => ?_⟩
    · rw [call, hrun]
      rfl
    · rw [expected, hkeys]
      rfl
  | delete key =>
    obtain ⟨h', t', hrun, hh', hs', hkeys⟩ := delete_spec hh hs hfuel
    have hcard := card_le_card (erase_le key (t.keys : Multiset ℤ))
    rw [← hkeys, coe_card, coe_card] at hcard
    refine ⟨h', t', [decide (key ∈ t.keys)], ?_, hh', hs', by omega, fun ops => ?_⟩
    · rw [call, hrun]
      rfl
    · rw [expected, hkeys]
      rfl

theorem calls_from {ops : List Op} (hh : Holds h t) (hs : t.keys.Pairwise (· ≤ ·))
    (hfuel : t.keys.length + ops.length < fuel) :
    ∃ h' t', calls fuel h ops = some (h', (expected t.keys ops).2) ∧ Holds h' t' ∧
    t'.keys.Pairwise (· ≤ ·) ∧ (t'.keys : Multiset ℤ) = (expected t.keys ops).1 := by
  induction ops generalizing h t with
  | nil => exact ⟨h, t, rfl, hh, hs, rfl⟩
  | cons op ops ih =>
    rw [length_cons] at hfuel
    obtain ⟨h1, t1, rs, hcall, hh1, hs1, hlen, hexp⟩ := call_spec op hh hs (show t.keys.length < fuel by omega)
    obtain ⟨h', t', hcalls, hh', hs', hkeys⟩ := ih hh1 hs1 (by omega)
    refine ⟨h', t', ?_, hh', hs', ?_⟩
    · simp [calls, hcall, hcalls, hexp]
    · rw [hexp, hkeys]

theorem holds_empty : Holds .empty .nil := by
  refine ⟨⟨trivial, rfl, Multiset.nodup_singleton 0, ?_, rfl⟩, ⟨0, .nil⟩, rfl⟩
  intro a ha
  rw [show 0 ::ₘ ((RedBlack.Tree.nil : Node).addrs + frameAddrs []) = {0} from rfl,
    Multiset.mem_singleton] at ha
  rw [ha]
  exact Nat.one_pos

/-- Whatever is called on an empty tree, every call returns, no `null` is dereferenced, the
`delete`s return what they should, and the tree is a red-black tree with the keys that should be
there. -/
theorem calls_isRedBlackBst (ops : List Op) (fuel : ℕ) (hfuel : ops.length < fuel) :
    ∃ h t, calls fuel .empty ops = some (h, (expected 0 ops).2) ∧ IsRedBlackBst h t ∧
      (t.keys : Multiset ℤ) = (expected 0 ops).1 := by
  obtain ⟨h, t, hcalls, hh, hs, hkeys⟩ := calls_from holds_empty List.Pairwise.nil
    (show 0 + ops.length < fuel by omega)
  exact ⟨h, t, hcalls, hh.isRedBlackBst hs, hkeys⟩

theorem calls_isRedBlackBst_twice :
    ∃ h t, calls 6 .empty [.insert 2, .insert 7, .insert 2, .delete 2, .delete 5] =
      some (h, [true, false]) ∧ IsRedBlackBst h t ∧ (t.keys : Multiset ℤ) = {7, 2} :=
  calls_isRedBlackBst [.insert 2, .insert 7, .insert 2, .delete 2, .delete 5] 6 (by decide)

end Code365.Algorithms.RedBlackBst
