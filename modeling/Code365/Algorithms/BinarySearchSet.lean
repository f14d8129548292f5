import Code365.Algorithms.BinarySearchTree

/-! # The binary search tree as a set

Every call is followed on the tree that lies in the heap: the loops compute `lookup` and the node at
the right edge, `insert` hangs a leaf below the position where its search ends, and `delete` puts a
subtree in the place of its parent. Only at the root does nothing happen, because `__reassignNodes`
changes the parent and never `root`. -/

namespace Code365.Algorithms.BinarySearchTree

open Option Multiset List Function RedBlack RedBlack.Tree

variable {h h' : Heap} {fs gs : Path} {t t' l r : Node} {f : Frame ℕ ℤ} {d : Side} {a b : ℕ}
  {c : Color} {k label : ℤ}
  {up up' : Ref} {x y : Node} {fuel : ℕ} {S : Finset ℤ}

/-! ### Sorted trees -/

/-- The labels in order are strictly increasing. -/
def Sorted (t : Node) : Prop := t.keys.Pairwise (· < ·)

theorem sorted_node : Sorted (.node a c k l r) ↔
    Sorted l ∧ Sorted r ∧ (∀ b ∈ l.keys, b < k) ∧ (∀ b ∈ r.keys, k < b) := by
  rw [Sorted, Tree.keys, pairwise_append, pairwise_cons]
  constructor
  · rintro ⟨hl, ⟨hkr, hr⟩, hlr⟩
    exact ⟨hl, hr, fun b hb => hlr b hb k (mem_cons_self ..), hkr⟩
  · rintro ⟨hl, hr, hlk, hkr⟩
    refine ⟨hl, ⟨hkr, hr⟩, fun b hb e he => ?_⟩
    rcases mem_cons.mp he with rfl | he
    · exact hlk b hb
    · exact (hlk b hb).trans (hkr e he)

theorem Sorted.of_plug (hs : Sorted (plug fs t)) : Sorted t := by
  rw [Sorted, keys_plug] at hs
  exact (pairwise_append.mp (pairwise_append.mp hs).1).2.1

/-- The node that the search for `label` finds. -/
def lookup (label : ℤ) : Node → Ref
  | .nil => none
  | .node a _ k l r => if k = label then some a else if label < k then lookup label l else lookup label r

theorem lookup_isSome_iff (hs : Sorted t) : (lookup label t).isSome ↔ label ∈ t.keys := by
  induction t with
  | nil => simp [lookup, Tree.keys]
  | node a c k l r ihl ihr =>
    obtain ⟨hl, hr, hlk, hkr⟩ := sorted_node.mp hs
    rw [lookup, Tree.keys, mem_append, List.mem_cons]
    split_ifs with heq hlt
    · simp [heq]
    · have hnot : label ∉ r.keys := fun hm => absurd (hkr label hm) (by omega)
      rw [ihl hl]
      simp [hnot, Ne.symm heq]
    · have hnot : label ∉ l.keys := fun hm => absurd (hlk label hm) hlt
      rw [ihr hr]
      simp [hnot, Ne.symm heq]

theorem lookup_plug : ∀ {fs : Path} {t : Node}, Sorted (plug fs t) → label ∈ t.keys →
    lookup label (plug fs t) = lookup label t
  | [], _, _, _ => rfl
  | f :: fs, t, hs, hmem => by
    obtain ⟨d, a, c, k, y⟩ := f
    have hs : Sorted (plug fs (Frame.fill ⟨d, a, c, k, y⟩ t)) := hs
    have hfill := hs.of_plug
    cases d with
    | left =>
      obtain ⟨_, _, hlt, _⟩ := sorted_node.mp hfill
      have hlt : label < k := hlt label hmem
      apply (lookup_plug hs (mem_append.mpr (.inl hmem))).trans
      show (if k = label then _ else _) = _
      rw [if_neg hlt.ne', if_pos hlt]
    | right =>
      obtain ⟨_, _, _, hlt⟩ := sorted_node.mp hfill
      have hlt : k < label := hlt label hmem
      apply (lookup_plug hs (mem_append.mpr (.inr (mem_cons_of_mem _ hmem)))).trans
      show (if k = label then _ else _) = _
      rw [if_neg hlt.ne, if_neg hlt.not_gt]

theorem exists_plug (hmem : label ∈ t.keys) : ∃ fs a c l r, t = plug fs (.node a c label l r) := by
  induction t with
  | nil => cases hmem
  | node a c k l r ihl ihr =>
    rw [Tree.keys, mem_append, List.mem_cons] at hmem
    rcases hmem with hmem | rfl | hmem
    · obtain ⟨fs, b, c', x, y, hl⟩ := ihl hmem
      refine ⟨fs ++ [⟨.left, a, c, k, r⟩], b, c', x, y, ?_⟩
      rw [plug_append, ← hl]
      rfl
    · exact ⟨[], a, c, l, r, rfl⟩
    · obtain ⟨fs, b, c', x, y, hr⟩ := ihr hmem
      refine ⟨fs ++ [⟨.right, a, c, k, l⟩], b, c', x, y, ?_⟩
      rw [plug_append, ← hr]
      rfl

/-! ### The loops -/

theorem search_eq (hown : Own h t up) (hfuel : card t.addrs < fuel) :
    search fuel h label (ref t) = some (lookup label t) := by
  induction t generalizing fuel up with
  | nil =>
    obtain ⟨n, rfl⟩ : ∃ n, fuel = n + 1 := ⟨fuel - 1, by omega⟩
    rfl
  | node a c k l r ihl ihr =>
    obtain ⟨hk, _, hl, hr, hol, hor⟩ := hown
    rw [addrs, card_cons, card_add] at hfuel
    obtain ⟨n, rfl⟩ : ∃ n, fuel = n + 1 := ⟨fuel - 1, by omega⟩
    rw [ref, search, lookup, hk, sideOf]
    split_ifs
    · rfl
    · rw [hl]
      exact ihl hol (by omega)
    · rw [hr]
      exact ihr hor (by omega)

theorem rightmost_spec (hown : Own h (.node a c k l r) up)
    (hfuel : card (Tree.addrs (.node a c k l r)) < fuel) : ∃ gs b e m x, .node a c k l r =
    plug gs (.node b e m x .nil) ∧ after gs = [] ∧ rightmost fuel h a = some b := by
  induction r generalizing a c k l fuel up with
  | nil =>
    obtain ⟨_, _, _, hr, _⟩ := hown
    obtain ⟨n, rfl⟩ : ∃ n, fuel = n + 1 := ⟨fuel - 1, by omega⟩
    refine ⟨[], a, c, k, l, rfl, rfl, ?_⟩
    rw [rightmost, hr]
    rfl
  | node b c' k' l' r' _ ih =>
    obtain ⟨_, _, _, hr, _, hor⟩ := hown
    rw [addrs, card_cons, card_add] at hfuel
    obtain ⟨n, rfl⟩ : ∃ n, fuel = n + 1 := ⟨fuel - 1, by omega⟩
    have hlt : card (Tree.addrs (.node b c' k' l' r')) < n := by omega
    obtain ⟨gs, b', e, m, x, heq, hafter, hrun⟩ := ih hor hlt
    refine ⟨gs ++ [⟨.right, a, c, k, l⟩], b', e, m, x, ?_, ?_, ?_⟩
    · rw [plug_append, ← heq]
      rfl
    · rw [after_append, hafter]
      rfl
    · rw [rightmost, hr]
      exact hrun

theorem descend_side (hr : Rep h fs (join d a c k x y)) (hd : sideOf label k = d)
    (haround : Around (· < label) (label < ·) (⟨d, a, c, k, y⟩ :: fs))
    (ih : ∀ {fs a c k l r}, Rep h fs (.node a c k l r) → x = .node a c k l r →
    Around (· < label) (label < ·) fs → ∃ f gs, descend fuel h label a = some f.addr ∧ f.side =
    sideOf label f.key ∧ Rep h (f :: gs) .nil ∧ plug (f :: gs) .nil = plug fs (.node a c k l r) ∧
    Around (· < label) (label < ·) (f :: gs)) : ∃ f gs, descend (fuel + 1) h label a = some f.addr ∧
    f.side = sideOf label f.key ∧ Rep h (f :: gs) .nil ∧ plug (f :: gs) .nil =
    plug fs (join d a c k x y) ∧ Around (· < label) (label < ·) (f :: gs) := by
  obtain ⟨hk, _, hx, _⟩ := own_join.mp hr.own
  have hdown : Rep h (⟨d, a, c, k, y⟩ :: fs) x := rep_cons.mpr hr
  rw [descend, hk, hd, hx]
  cases x with
  | nil => exact ⟨_, _, rfl, hd.symm, hdown, rfl, haround⟩
  | node a' c' k' l' r' => exact ih hdown rfl haround

/-- The loop of `insert` ends above the empty position of the label. -/
theorem descend_spec : ∀ {fuel fs a c k l r}, Rep h fs (.node a c k l r) →
    Sorted (.node a c k l r) → label ∉ Tree.keys (.node a c k l r) →
    card (Tree.addrs (.node a c k l r)) < fuel → Around (· < label) (label < ·) fs → ∃ f gs,
    descend fuel h label a = some f.addr ∧ f.side = sideOf label f.key ∧ Rep h (f :: gs) .nil ∧
    plug (f :: gs) .nil = plug fs (.node a c k l r) ∧ Around (· < label) (label < ·) (f :: gs)
  | 0, _, _, _, _, _, _, _, _, _, hfuel, _ => absurd hfuel (Nat.not_lt_zero _)
  | fuel + 1, fs, a, c, k, l, r, hr, hs, hnot, hfuel, haround => by
    have hle : (Tree.keys (.node a c k l r)).Pairwise (· ≤ ·) := hs.imp le_of_lt
    obtain ⟨hsl, hsr, _, _⟩ := sorted_node.mp hs
    rw [addrs, card_cons, card_add] at hfuel
    rw [Tree.keys, mem_append, List.mem_cons, not_or, not_or] at hnot
    obtain ⟨hnl, hne, hnr⟩ := hnot
    by_cases hlt : label < k
    · have haround := haround.left hle fun b hb => hlt.trans_le hb
      apply descend_side hr (if_pos hlt) haround
      rintro _ _ _ _ _ _ hx rfl haround
      exact descend_spec hx hsl hnl (by omega) haround
    · have haround := haround.right hle fun b hb => hb.trans_lt (by omega)
      apply descend_side hr (if_neg hlt) haround
      rintro _ _ _ _ _ _ hx rfl haround
      exact descend_spec hx hsr hnr (by omega) haround

theorem Rep.card_le (hr : Rep h fs t) : card t.addrs ≤ h.next := by
  have hnodup : t.addrs.Nodup := nodup_of_le (Multiset.le_add_right ..) hr.nodup
  have hsub : (⟨t.addrs, hnodup⟩ : Finset ℕ) ⊆ Finset.range h.next := by
    intro a ha
    exact Finset.mem_range.mpr (hr.below a (mem_add.mpr (.inl ha)))
  have hcard := Finset.card_le_card hsub
  rwa [Finset.card_range] at hcard

theorem getNode_eq (hr : Rep h [] t) : getNode h label = some (lookup label t) := by
  have hroot : h.root = ref t := hr.frames
  rw [getNode, hroot]
  exact search_eq hr.own (Nat.lt_succ_of_le hr.card_le)

/-! ### Insertion -/

theorem sameAt_newNode (hb : b ≠ h.next) (label : ℤ) : SameAt h (h.newNode label) b where
  label := update_of_ne hb ..
  parent := update_of_ne hb ..
  child _ := update_of_ne hb ..

theorem Rep.newNode (hr : Rep h [] t) (label : ℤ) : Rep (h.newNode label) [] t := by
  refine ⟨hr.own.congr fun b hb => ?_, hr.frames,
    hr.nodup, fun b hb => (hr.below b hb).trans (Nat.lt_succ_self _)⟩
  exact sameAt_newNode (hr.below b (mem_add.mpr (.inl hb))).ne label

theorem child_setChild (h : Heap) (d e : Side) (a b : ℕ) (r : Ref) :
    (h.setChild d a r).child e b = if e = d ∧ b = a then r else h.child e b := by
  unfold Heap.setChild
  by_cases hd : e = d
  · subst hd
    simp [update_apply]
  · simp [hd]

theorem parent_setParent (h : Heap) (a b : ℕ) (r : Ref) :
    (h.setParent a r).parent b = if b = a then r else h.parent b := update_apply ..

/-- `h` with `t` hung below the frame `f`. -/
def hang (h : Heap) (f : Frame ℕ ℤ) (t : Node) : Heap :=
  (match ref t with
    | none => h
    | some a => h.setParent a (some f.addr)).setChild f.side f.addr (ref t)

theorem hang_eq (h : Heap) (f : Frame ℕ ℤ) (t : Node) :
    (hang h f t).label = h.label ∧ (hang h f t).root = h.root ∧ (hang h f t).next = h.next ∧
    (∀ d b, (hang h f t).child d b = if d = f.side ∧ b = f.addr then ref t else h.child d b) ∧
    (∀ b, (hang h f t).parent b = if some b = ref t then some f.addr else h.parent b) := by
  unfold hang
  cases hr : ref t with
  | none => exact ⟨rfl, rfl, rfl, fun d b => child_setChild .., fun b => rfl⟩
  | some a =>
    refine ⟨rfl, rfl, rfl, fun d b => child_setChild .., fun b => ?_⟩
    simp only [some.injEq]
    exact parent_setParent ..

theorem sameAt_hang (hb : b ≠ f.addr) (hr : some b ≠ ref t) : SameAt h (hang h f t) b := by
  obtain ⟨hlabel, _, _, hchild, hparent⟩ := hang_eq h f t
  refine ⟨congrFun hlabel b, ?_, fun d => ?_⟩
  · rw [hparent, if_neg hr]
  · rw [hchild, if_neg fun he => hb he.2]

theorem Own.hang (hown : Own h t up) (hnodup : t.addrs.Nodup) (hf : f.addr ∉ t.addrs) :
    Own (hang h f t) t (some f.addr) := by
  cases t with
  | nil => trivial
  | node a c k l r =>
    obtain ⟨hk, _, hl, hr, hol, hor⟩ := hown
    obtain ⟨hlabel, _, _, hchild, hparent⟩ := hang_eq h f (.node a c k l r)
    obtain ⟨hnot, _⟩ := nodup_cons.mp hnodup
    have ha : a ≠ f.addr := fun he => hf (he ▸ mem_cons_self ..)
    have hsame : ∀ b ∈ l.addrs + r.addrs, SameAt h (BinarySearchTree.hang h f (.node a c k l r)) b := by
      intro b hb
      apply sameAt_hang
      · exact fun he => hf (he ▸ mem_cons_of_mem hb)
      · exact fun he => hnot (some.inj he ▸ hb)
    refine ⟨(congrFun hlabel a).trans hk, ?_, ?_, ?_, ?_, ?_⟩
    · rw [hparent, ref, if_pos rfl]
    · rw [hchild, if_neg fun he => ha he.2, hl]
    · rw [hchild, if_neg fun he => ha he.2, hr]
    · exact hol.congr fun b hb => hsame b (mem_add.mpr (.inl hb))
    · exact hor.congr fun b hb => hsame b (mem_add.mpr (.inr hb))

theorem ref_mem (ht : ref t = some a) : a ∈ t.addrs := by
  cases t with
  | nil => cases ht
  | node b c k l r =>
    cases ht
    exact mem_cons_self ..

/-- A tree of the heap, wherever it hung before, hangs below the frame. -/
theorem Rep.hang (hr : Rep h (f :: fs) t) (hown : Own h t' up)
    (hnodup : (t'.addrs + frameAddrs (f :: fs)).Nodup)
    (hbelow : ∀ a ∈ t'.addrs + frameAddrs (f :: fs), a < h.next) :
    Rep (hang h f t') (f :: fs) t' := by
  obtain ⟨hlabel, hroot, hnext, hchild, hparent⟩ := hang_eq h f t'
  obtain ⟨hnd, _, hdisj⟩ := nodup_add.mp hnodup
  have hmem : f.addr ∈ frameAddrs (f :: fs) := mem_cons_self ..
  have hout : ∀ b ∈ frameAddrs (f :: fs), some b ≠ ref t' := fun b hb he =>
    disjoint_left.mp hdisj (ref_mem he.symm) hb
  refine hr.replace hroot (fun b hb hne =>
    sameAt_hang hne (hout b hb)) (congrFun hlabel _) ?_ ?_ ?_ ?_ hnodup ?_
  · rw [hparent, if_neg (hout _ hmem)]
  · rw [hchild, if_pos ⟨rfl, rfl⟩]
  · rw [hchild, if_neg fun he => f.side.other_ne he.1]
  · exact hown.hang hnd fun hf => disjoint_left.mp hdisj hf hmem
  · rwa [hnext]

theorem Sorted.leaf (hs : Sorted (plug fs .nil)) (haround : Around (· < k) (k < ·) fs) :
    Sorted (plug fs (.node a c k .nil .nil)) := by
  rw [Sorted, keys_plug, Tree.keys, append_nil] at hs
  obtain ⟨hb, ha, hlt⟩ := pairwise_append.mp hs
  rw [Sorted, keys_plug]
  simp only [Tree.keys, nil_append, append_assoc, singleton_append]
  refine pairwise_append.mpr ⟨hb, pairwise_cons.mpr ⟨haround.after, ha⟩, fun x hx y hy => ?_⟩
  rcases mem_cons.mp hy with rfl | hy
  · exact haround.before x hx
  · exact hlt x hx y hy

theorem mem_keys_leaf (x : ℤ) :
    x ∈ (plug fs (.node a c k .nil .nil)).keys ↔ x = k ∨ x ∈ (plug fs .nil).keys := by
  rw [keys_plug, keys_plug]
  simp only [Tree.keys, nil_append, append_nil, mem_append, List.mem_singleton]
  tauto

theorem own_newNode (h : Heap) (label : ℤ) :
    Own (h.newNode label) (.node h.next .black label .nil .nil) none :=
  ⟨update_self .., update_self .., update_self .., update_self .., trivial, trivial⟩

theorem nodup_newNode (fs : List (Frame ℕ ℤ)) {n : ℕ} (hnodup : (frameAddrs fs).Nodup)
    (hlt : ∀ b ∈ frameAddrs fs, b < n) :
    (Tree.addrs (.node n .black label .nil .nil : Node) + frameAddrs fs).Nodup := by
  refine nodup_add.mpr ⟨Multiset.nodup_singleton _, hnodup, ?_⟩
  rw [Multiset.disjoint_left]
  intro b hb hf
  rw [Multiset.mem_singleton.mp hb] at hf
  exact lt_irrefl _ (hlt _ hf)

theorem below_newNode (fs : List (Frame ℕ ℤ)) {n : ℕ} (hlt : ∀ b ∈ frameAddrs fs, b < n) :
    ∀ b ∈ Tree.addrs (.node n .black label .nil .nil : Node) + frameAddrs fs, b < n + 1 := by
  intro b hb
  rcases mem_add.mp hb with hb | hb
  · rw [Multiset.mem_singleton.mp hb]
    exact Nat.lt_succ_self _
  · exact (hlt b hb).trans (Nat.lt_succ_self _)

theorem insert_spec (hr : Rep h [] t) (hs : Sorted t) (hnot : label ∉ t.keys) :
    ∃ h' t', insert h label = some h' ∧ Rep h' [] t' ∧ Sorted t' ∧ ∀ x, x ∈ t'.keys ↔ x = label ∨
    x ∈ t.keys := by
  have hroot : h.root = ref t := hr.frames
  have hnew := own_newNode h label
  cases t with
  | nil =>
    refine ⟨{ h.newNode label with root := some h.next }, .node h.next .black label .nil .nil, ?_,
      ⟨?_, rfl, ?_, ?_⟩, ?_, ?_⟩
    · rw [insert, hroot]
      rfl
    · exact hnew.congr fun _ _ => ⟨rfl, rfl, fun _ => rfl⟩
    · exact nodup_newNode [] nodup_zero nofun
    · exact below_newNode [] nofun
    · exact pairwise_singleton ..
    · simp [Tree.keys]
  | node a c k l r =>
    have hcard : card (Tree.addrs (.node a c k l r)) < h.next + 1 := Nat.lt_succ_of_le hr.card_le
    obtain ⟨f, gs, hrun, hside, hpos, hplug, haround⟩ := descend_spec (hr.newNode label) hs hnot hcard
      ⟨fun b hb => (not_mem_nil hb).elim, fun b hb => (not_mem_nil hb).elim⟩
    have haddrs : frameAddrs (f :: gs) = Tree.addrs (.node a c k l r) := by
      have haddrs := congrArg Tree.addrs hplug
      rwa [addrs_plug, addrs, zero_add] at haddrs
    have hlt : ∀ b ∈ frameAddrs (f :: gs), b < h.next := by
      rw [haddrs]
      exact fun b hb => hr.below b (mem_add.mpr (.inl hb))
    have hnodup := nodup_of_le (Multiset.le_add_left ..) hpos.nodup
    refine ⟨hang (h.newNode label) f (.node h.next .black label .nil .nil),
      plug (f :: gs) (.node h.next .black label .nil .nil), ?_,
      rep_plug.mp (hpos.hang hnew (nodup_newNode _ hnodup hlt) (below_newNode _ hlt)), ?_, ?_⟩
    · obtain ⟨hk, _⟩ := hpos.frames
      rw [insert, hroot]
      show (descend (h.next + 1) (h.newNode label) label a).bind _ = _
      rw [hrun, bind_some, hk, ← hside]
      rfl
    · apply Sorted.leaf _ haround
      rwa [hplug]
    · intro x
      rw [mem_keys_leaf, hplug]
      rfl

/-! ### Deletion -/

/-- Below a frame, `__reassignNodes` hangs the new children in the place of the node. -/
theorem reassignNodes_eq (hr : Rep h (f :: fs) (.node a c k l r)) (hx : ref x ≠ some a) :
    reassignNodes h a (ref x) = hang h f x := by
  have hparent : h.parent a = some f.addr := hr.own.2.1
  obtain ⟨_, _, hhole, hother, _⟩ := hr.frames
  have hnot : a ∉ f.sibling.addrs := by
    have hdisj := (nodup_add.mp hr.nodup).2.2
    intro ha
    exact disjoint_left.mp hdisj (mem_cons_self ..)
      (mem_cons_of_mem (mem_add.mpr (.inl ha)))
  have hright : some a = h.child .right f.addr ↔ f.side = .right := by
    cases hs : f.side with
    | left =>
      rw [hs] at hother
      refine iff_of_false ?_ (by decide)
      rw [show h.child .right f.addr = ref f.sibling from hother]
      exact fun he => hnot (ref_mem he.symm)
    | right =>
      rw [hs] at hhole
      exact iff_of_true hhole.symm rfl
  have hset :
      ∀ g : Heap, g.child = h.child → (if some a = g.child .right f.addr then g.setChild .right f.addr
      (ref x) else g.setChild .left f.addr (ref x)) = g.setChild f.side f.addr (ref x) := by
    intro g hg
    rw [hg]
    by_cases hs : f.side = .right
    · rw [if_pos (hright.mpr hs), hs]
    · rw [if_neg (mt hright.mp hs), Side.eq_other_of_ne hs]
      rfl
  unfold reassignNodes hang
  cases hrx : ref x with
  | none =>
    rw [hrx] at hset
    simp only [hparent]
    exact hset h rfl
  | some b =>
    rw [hrx] at hset hx
    have hab : a ≠ b := fun he => hx (congrArg some he.symm)
    simp only [hparent, parent_setParent, if_neg hab]
    exact hset _ rfl

theorem Rep.reassignNodes (hr : Rep h (f :: fs) (.node a c k l r)) (hx : x = .nil ∨ x = l ∨ x = r) :
    Rep (reassignNodes h a (ref x)) (f :: fs) x ∧ (reassignNodes h a (ref x)).label = h.label ∧
    (reassignNodes h a (ref x)).next = h.next := by
  obtain ⟨_, _, _, _, hol, hor⟩ := hr.own
  have hnot : a ∉ l.addrs + r.addrs :=
    (Multiset.nodup_cons.mp (nodup_of_le (Multiset.le_add_right ..) hr.nodup)).1
  have hle : x.addrs ≤ l.addrs + r.addrs := by
    rcases hx with rfl | rfl | rfl
    · exact zero_le _
    · exact Multiset.le_add_right ..
    · exact Multiset.le_add_left ..
  have hown : ∃ up, Own h x up := by
    rcases hx with rfl | rfl | rfl
    · exact ⟨none, trivial⟩
    · exact ⟨_, hol⟩
    · exact ⟨_, hor⟩
  obtain ⟨up, hown⟩ := hown
  have hall : x.addrs + frameAddrs (f :: fs) ≤ Tree.addrs (.node a c k l r) + frameAddrs (f :: fs) :=
    Multiset.add_le_add_right (hle.trans (le_cons_self ..))
  rw [reassignNodes_eq hr fun he => hnot (mem_of_le hle (ref_mem he))]
  obtain ⟨hlabel, _, hnext, _⟩ := hang_eq h f x
  refine ⟨hr.hang hown (nodup_of_le hall hr.nodup) ?_, hlabel, hnext⟩
  exact fun b hb => hr.below b (mem_of_le hall hb)

theorem Rep.setLabel (hr : Rep h fs (.node a c k l r)) (label : ℤ) :
    Rep (h.setLabel a label) fs (.node a c label l r) := by
  obtain ⟨_, hp, hl, hright, hol, hor⟩ := hr.own
  obtain ⟨hnd, _, hdisj⟩ := nodup_add.mp hr.nodup
  have hnot := (nodup_cons.mp hnd).1
  have hsame : ∀ b, b ≠ a → SameAt h (h.setLabel a label) b := fun b hb =>
    ⟨update_of_ne hb .., rfl, fun _ => rfl⟩
  refine ⟨⟨update_self .., hp, hl, hright, ?_, ?_⟩, ?_, hr.nodup, hr.below⟩
  · exact hol.congr fun b hb => hsame b fun he => hnot (he ▸ mem_add.mpr (.inl hb))
  · exact hor.congr fun b hb => hsame b fun he => hnot (he ▸ mem_add.mpr (.inr hb))
  · refine hr.frames.congr rfl fun b hb => hsame b fun he => ?_
    exact disjoint_left.mp hdisj (mem_cons_self ..) (he ▸ hb)

theorem Rep.root_ne_none (hr : Rep h fs (.node a c k l r)) : h.root ≠ none := by
  have hroot : h.root = ref (plug fs (.node a c k l r)) := (rep_plug.mp hr).frames
  rw [hroot]
  cases hp : plug fs (.node a c k l r) with
  | nil => exact absurd hp (plug_ne_nil (t := .node a c k l r) nofun fs)
  | node => exact nofun

theorem Rep.getNode (hr : Rep h fs (.node a c label l r))
    (hs : Sorted (plug fs (.node a c label l r))) : getNode h label = some (some a) := by
  rw [getNode_eq (rep_plug.mp hr), lookup_plug hs (mem_append.mpr (.inr (mem_cons_self ..))),
    lookup, if_pos rfl]

theorem deleteWith_eq (fuel : ℕ) (hroot : h.root ≠ none)
    (hget : BinarySearchTree.getNode h label = some (some a)) {r : Ref}
    (hr : h.child .left a = none ∧ r = h.child .right a ∨ h.child .right a = none ∧
    r = h.child .left a) : deleteWith (fuel + 1) h label = some (reassignNodes h a r) := by
  rcases hr with ⟨hl, hr⟩ | ⟨hr, hl⟩
  · cases r with
    | none | some right => simp [deleteWith, hroot, hget, hl, ← hr]
  · cases r with
    | none | some left => simp [deleteWith, hroot, hget, hr, ← hl]

/-- Below a frame the child takes the place of the node. -/
theorem deleteWith_spec (fuel : ℕ) (hr : Rep h (f :: fs) (.node a c label l r))
    (hs : Sorted (plug (f :: fs) (.node a c label l r)))
    (hx : l = .nil ∧ x = r ∨ r = .nil ∧ x = l) : ∃ h', deleteWith (fuel + 1) h label = some h' ∧
    Rep h' (f :: fs) x ∧ h'.label = h.label ∧ h'.next = h.next := by
  obtain ⟨_, _, hl, hright, _⟩ := hr.own
  have hmem : x = .nil ∨ x = l ∨ x = r := by tauto
  refine ⟨reassignNodes h a (ref x), deleteWith_eq fuel hr.root_ne_none (hr.getNode hs) ?_,
    hr.reassignNodes hmem⟩
  rw [hl, hright]
  rcases hx with ⟨rfl, rfl⟩ | ⟨rfl, rfl⟩
  · exact .inl ⟨rfl, rfl⟩
  · exact .inr ⟨rfl, rfl⟩

theorem getMax_eq (hroot : h.root ≠ none) (hrun : rightmost (h.next + 1) h a = some b) :
    getMax h (some a) = some (some b) := by
  rw [getMax, if_neg hroot, if_neg (some_ne_none a)]
  show (rightmost (h.next + 1) h a).bind _ = _
  rw [hrun]
  rfl

theorem deleteWith_both (fuel : ℕ) (hr : Rep h fs (.node a c label l r))
    (hs : Sorted (plug fs (.node a c label l r))) (hl : l ≠ .nil) (hright : r ≠ .nil) :
    ∃ h' gs b e m y, deleteWith (fuel + 2) h label = some h' ∧ l = plug gs (.node b e m y .nil) ∧
    after gs = [] ∧ Rep h' fs (.node a c m (plug gs y) r) := by
  obtain ⟨_, _, hcl, hcr, hol, _⟩ := hr.own
  have hget := hr.getNode hs
  cases l with
  | nil => exact absurd rfl hl
  | node a' c' k' l' r' =>
    have hcard : card (Tree.addrs (.node a' c' k' l' r')) < h.next + 1 := by
      have hle := hr.card_le
      rw [addrs, card_cons, card_add] at hle
      omega
    obtain ⟨gs, b, e, m, y, hplug, hafter, hrun⟩ := rightmost_spec hol hcard
    have hwhole : ∀ t, plug (gs ++ ⟨.left, a, c, label, r⟩ :: fs) t =
        plug fs (.node a c label (plug gs t) r) := by
      intro t
      rw [plug_append]
      rfl
    have hpos : Rep h (gs ++ ⟨.left, a, c, label, r⟩ :: fs) (.node b e m y .nil) := by
      rw [rep_plug, hwhole, ← hplug, ← rep_plug]
      exact hr
    rw [hplug, ← hwhole] at hs
    obtain ⟨f', fs', hfs⟩ : ∃ f' fs', gs ++ ⟨.left, a, c, label, r⟩ :: fs = f' :: fs' := by
      cases gs with
      | nil | cons g gs => exact ⟨_, _, rfl⟩
    rw [hfs] at hpos hs
    obtain ⟨h1, hdelete, hr1, hlabel, _⟩ := deleteWith_spec fuel hpos hs (.inr ⟨rfl, rfl⟩)
    have hm : h.label b = m := hpos.own.1
    rw [← hfs, rep_plug, hwhole, ← rep_plug] at hr1
    refine ⟨h1.setLabel a m, gs, b, e, m, y, ?_, hplug, hafter, hr1.setLabel m⟩
    have hmax := getMax_eq hr.root_ne_none hrun
    have htwo : ∃ b', h.child .right a = some b' := by
      rw [hcr]
      cases r with
      | nil => exact absurd rfl hright
      | node b' => exact ⟨b', rfl⟩
    obtain ⟨b', hcr⟩ := htwo
    rw [deleteWith, if_neg hr.root_ne_none, hget]
    simp only [bind_eq_bind, bind_some, hcl, hcr, ref, hmax, hm, hdelete, hlabel]
    rfl

/-- The root has the label, and a child is missing: `delete` leaves it in the tree. -/
def RootKept (h : Heap) (label : ℤ) : Prop :=
  ∃ a, h.root = some a ∧ h.label a = label ∧ (h.child .left a = none ∨ h.child .right a = none)

theorem sorted_removed (before after : List ℤ) {old new : List ℤ}
    (hold : old = before ++ label :: after) (hnew : new = before ++ after)
    (hs : old.Pairwise (· < ·)) : new.Pairwise (· < ·) ∧ ∀ x, x ∈ new ↔ x ≠ label ∧ x ∈ old := by
  subst hold hnew
  refine ⟨hs.sublist (List.Sublist.append_left (sublist_cons_self ..) _), fun x => ?_⟩
  obtain ⟨_, hc, hlt⟩ := pairwise_append.mp hs
  have hb : label ∉ before := fun hm => lt_irrefl _ (hlt label hm label (mem_cons_self ..))
  have ha : label ∉ after := fun hm => lt_irrefl _ ((pairwise_cons.mp hc).1 label hm)
  rw [mem_append, mem_append, List.mem_cons]
  constructor
  · intro hx
    refine ⟨?_, hx.imp_right .inr⟩
    rintro rfl
    exact hx.elim hb ha
  · rintro ⟨hne, hx⟩
    exact hx.imp_right fun hx => hx.resolve_left hne

theorem delete_absent (hr : Rep h [] t) (hs : Sorted t) (hnot : label ∉ t.keys) :
    delete h label = some h := by
  have hnone : lookup label t = none := by
    rw [← lookup_isSome_iff hs, isSome_iff_ne_none, not_not] at hnot
    exact hnot
  rw [delete, deleteWith, getNode_eq hr, hnone]
  split_ifs
  · rfl
  · rfl

theorem delete_spec (hr : Rep h [] t) (hs : Sorted t) (hkept : ¬ RootKept h label) :
    ∃ h' t', delete h label = some h' ∧ Rep h' [] t' ∧ Sorted t' ∧ ∀ x, x ∈ t'.keys ↔ x ≠ label ∧
    x ∈ t.keys := by
  by_cases hmem : label ∈ t.keys
  · obtain ⟨fs, a, c, l, r, rfl⟩ := exists_plug hmem
    have hpos := rep_plug.mpr hr
    by_cases hboth : l ≠ .nil ∧ r ≠ .nil
    · obtain ⟨n, hn⟩ : ∃ n, h.next = n + 1 := by
        have hlt := hpos.below a (mem_add.mpr (.inl (mem_cons_self ..)))
        exact ⟨h.next - 1, by omega⟩
      obtain ⟨h', gs, b, e, m, y, hrun, rfl, hafter, hr'⟩ := deleteWith_both n hpos hs hboth.1 hboth.2
      refine ⟨h', _, ?_, rep_plug.mp hr', ?_⟩
      · rw [delete, hn]
        exact hrun
      · apply sorted_removed (before fs ++ before gs ++ y.keys ++ [m]) (r.keys ++ after fs) _ _ hs
        · simp [keys_plug, Tree.keys, hafter]
        · simp [keys_plug, Tree.keys, hafter]
    · obtain ⟨x, hx⟩ : ∃ x, l = .nil ∧ x = r ∨ r = .nil ∧ x = l := by
        by_cases hl : l = .nil
        · exact ⟨r, .inl ⟨hl, rfl⟩⟩
        · exact ⟨l, .inr ⟨by tauto, rfl⟩⟩
      cases fs with
      | nil =>
        obtain ⟨hk, _, hl, hright, _⟩ := hpos.own
        refine absurd ⟨a, hpos.frames, hk, ?_⟩ hkept
        rw [hl, hright]
        rcases hx with ⟨rfl, _⟩ | ⟨rfl, _⟩
        · exact .inl rfl
        · exact .inr rfl
      | cons f fs =>
        obtain ⟨h', hrun, hr', _⟩ := deleteWith_spec h.next hpos hs hx
        refine ⟨h', _, hrun, rep_plug.mp hr', ?_⟩
        apply sorted_removed (before (f :: fs) ++ l.keys) (r.keys ++ after (f :: fs)) _ _ hs
        · simp [keys_plug, Tree.keys]
        · rcases hx with ⟨rfl, rfl⟩ | ⟨rfl, rfl⟩
          · simp [keys_plug, Tree.keys]
          · simp [keys_plug, Tree.keys]
  · refine ⟨h, t, delete_absent hr hs hmem, hr, hs, fun x => ?_⟩
    constructor
    · exact fun hx => ⟨fun he => hmem (he ▸ hx), hx⟩
    · exact And.right

/-! ### Calls -/

/-- The labels that were inserted and not deleted since. -/
def present (calls : List Call) : Finset ℤ :=
  calls.foldl (fun labels c => match c with
    | .insert label => Insert.insert label labels
    | .delete label => labels.erase label) ∅

/-- The heap has a tree: the labels in order are strictly increasing, every parent link agrees with
the child link, and `getNode` finds exactly the labels of `S`. -/
def IsSet (h : Heap) (S : Finset ℤ) : Prop :=
  (∃ t, Rep h [] t ∧ Sorted t) ∧ ∀ label, ∃ node, getNode h label = some node ∧ (node ≠ none ↔ label ∈ S)

/-- No call fails, and after each of them the tree is the set of the labels that should be there. -/
def AlwaysSet (calls : List Call) : Prop :=
  ∀ p q, calls = p ++ q → ∃ h, afterCalls p = some h ∧ IsSet h (present p)

theorem present_insert (calls : List Call) (label : ℤ) :
    present (calls ++ [.insert label]) = Insert.insert label (present calls) := by
  rw [present, foldl_append]
  rfl

theorem present_delete (calls : List Call) (label : ℤ) :
    present (calls ++ [.delete label]) = (present calls).erase label := by
  rw [present, foldl_append]
  rfl

theorem afterCalls_append {p : List Call} (hp : afterCalls p = some h) (c : Call) :
    afterCalls (p ++ [c]) = call h c := by
  rw [afterCalls, foldlM_append]
  show (afterCalls p).bind _ = _
  rw [hp]
  exact bind_fun_some _

/-- The tree with the labels of `S`. -/
def Keeps (h : Heap) (S : Finset ℤ) : Prop := ∃ t, Rep h [] t ∧ Sorted t ∧ ∀ x, x ∈ t.keys ↔ x ∈ S

theorem Keeps.isSet (hk : Keeps h S) : IsSet h S := by
  obtain ⟨t, hr, hs, hkeys⟩ := hk
  refine ⟨⟨t, hr, hs⟩, fun label => ⟨lookup label t, getNode_eq hr, ?_⟩⟩
  rw [← hkeys, ← lookup_isSome_iff hs, isSome_iff_ne_none]

theorem keeps_empty : Keeps Heap.empty ∅ := by
  refine ⟨.nil, ⟨trivial, rfl, nodup_zero, fun a ha => (notMem_zero a ha).elim⟩, List.Pairwise.nil, ?_⟩
  simp [Tree.keys]

theorem Keeps.insert (hk : Keeps h S) (hnot : label ∉ S) :
    ∃ h', insert h label = some h' ∧ Keeps h' (Insert.insert label S) := by
  obtain ⟨t, hr, hs, hkeys⟩ := hk
  obtain ⟨h', t', hrun, hr', hs', hkeys'⟩ := insert_spec hr hs (mt (hkeys label).mp hnot)
  refine ⟨h', hrun, t', hr', hs', fun x => ?_⟩
  rw [hkeys', hkeys, Finset.mem_insert]

theorem Keeps.delete (hk : Keeps h S) (hkept : ¬ RootKept h label) :
    ∃ h', delete h label = some h' ∧ Keeps h' (S.erase label) := by
  obtain ⟨t, hr, hs, hkeys⟩ := hk
  obtain ⟨h', t', hrun, hr', hs', hkeys'⟩ := delete_spec hr hs hkept
  refine ⟨h', hrun, t', hr', hs', fun x => ?_⟩
  rw [hkeys', hkeys, Finset.mem_erase]

theorem getNode_root (hroot : h.root = some a) (hlabel : h.label a = label) :
    getNode h label = some (some a) := by
  rw [getNode, hroot, search, if_pos hlabel]

theorem reassignNodes_root (h : Heap) (a : ℕ) (r : Ref) :
    (reassignNodes h a r).root = h.root ∧ (reassignNodes h a r).label = h.label := by
  unfold reassignNodes
  cases r
  all_goals
    dsimp only
    split
    · exact ⟨rfl, rfl⟩
    · split_ifs
      · exact ⟨rfl, rfl⟩
      · exact ⟨rfl, rfl⟩

theorem RootKept.delete (hkept : RootKept h label) (hdelete : delete h label = some h') :
    ∃ node, getNode h' label = some (some node) := by
  obtain ⟨a, hroot, hlabel, hchild⟩ := hkept
  have hne : h.root ≠ none := by
    rw [hroot]
    exact some_ne_none a
  obtain ⟨r, hr⟩ : ∃ r, h.child .left a = none ∧ r = h.child .right a ∨ h.child .right a = none ∧
      r = h.child .left a := by
    rcases hchild with hc | hc
    · exact ⟨_, .inl ⟨hc, rfl⟩⟩
    · exact ⟨_, .inr ⟨hc, rfl⟩⟩
  rw [BinarySearchTree.delete, deleteWith_eq _ hne (getNode_root hroot hlabel) hr] at hdelete
  obtain rfl := some.inj hdelete
  obtain ⟨hroot', hlabel'⟩ := reassignNodes_root h a r
  exact ⟨a, getNode_root (hroot'.trans hroot) ((congrFun hlabel' a).trans hlabel)⟩

/-- Every inserted label is new. -/
def Fresh (calls : List Call) : Prop := ∀ p label q, calls = p ++ .insert label :: q → label ∉ present p

/-- For calls that insert new labels only: the tree is always the set of the labels that should be
there exactly when no `delete` is called with the label of a root that has less than two
children. -/
theorem alwaysSet_iff (calls : List Call) (hfresh : Fresh calls) : AlwaysSet calls ↔ ∀ p label q,
      calls = p ++ .delete label :: q → ∀ h, afterCalls p = some h → ¬ RootKept h label := by
  constructor
  · intro hset p label q hcalls h hp hkept
    obtain ⟨h', hp', _, hget⟩ := hset (p ++ [.delete label]) q (by rw [hcalls, append_assoc]; rfl)
    rw [afterCalls_append hp] at hp'
    obtain ⟨a, ha⟩ := hkept.delete hp'
    obtain ⟨node, hnode, hiff⟩ := hget label
    rw [ha] at hnode
    cases hnode
    have hmem := hiff.mp (Option.some_ne_none a)
    rw [present_delete] at hmem
    exact Finset.notMem_erase _ _ hmem
  · intro hspared p q hcalls
    suffices hk : ∃ h, afterCalls p = some h ∧ Keeps h (present p) by
      obtain ⟨h, hp, hk⟩ := hk
      exact ⟨h, hp, hk.isSet⟩
    induction p using List.reverseRecOn generalizing q with
    | nil => exact ⟨Heap.empty, rfl, keeps_empty⟩
    | append_singleton p c ih =>
      rw [append_assoc, singleton_append] at hcalls
      obtain ⟨h, hp, hk⟩ := ih _ hcalls
      rw [afterCalls_append hp]
      cases c with
      | insert label =>
        rw [present_insert]
        exact hk.insert (hfresh p label q hcalls)
      | delete label =>
        rw [present_delete]
        exact hk.delete (hspared p label q hcalls h hp)

/-- Two labels, and the second one deleted. -/
def twoLabels : List Call := [.insert 2, .insert 1, .delete 1]

theorem alwaysSet_twoLabels : AlwaysSet twoLabels := by
  have hfresh : Fresh twoLabels := by
    intro p label q h
    rcases p with _ | ⟨_, _ | ⟨_, _ | ⟨_, _⟩⟩⟩
    all_goals simp [twoLabels] at h
    · exact Finset.notMem_empty _
    · obtain ⟨rfl, rfl, rfl⟩ := h
      decide
  apply (alwaysSet_iff twoLabels hfresh).mpr
  intro p label q h
  rcases p with _ | ⟨_, _ | ⟨_, _ | ⟨_, _⟩⟩⟩
  all_goals simp [twoLabels] at h
  obtain ⟨rfl, rfl, rfl, rfl⟩ := h
  intro h hp hkept
  cases hp
  obtain ⟨a, ha, hl, _⟩ := hkept
  cases ha
  exact absurd hl (by decide)

/-- A root that is deleted is found afterwards. -/
theorem rootOnly_not_alwaysSet : ¬ AlwaysSet [.insert 5, .delete 5] := by
  intro hset
  obtain ⟨h, hp, _, hget⟩ := hset _ [] (append_nil _).symm
  cases hp
  obtain ⟨node, hnode, hiff⟩ := hget 5
  cases hnode
  exact absurd (hiff.mp (by decide)) (by decide)

end Code365.Algorithms.BinarySearchTree
