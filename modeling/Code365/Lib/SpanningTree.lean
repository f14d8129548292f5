import Code365.Lib.Forest

/-! # Spanning trees

A graph is a list of pairs of vertices; the same pair may occur more than once.  Two vertices are
joined if there is a way from one to the other along pairs in either direction, and `classes` counts
the classes of joined vertices.  A pair that joins two classes makes one of them, so that the number
of pairs and the number of classes of a graph without cycles add up to the number of vertices
(`acyclic_iff`).

A list of edges in which the ends of every edge of a graph are joined by edges that are no heavier
is of least weight among the spanning trees (`sum_le_of_greedy`): up to any weight it has at least
as many edges as a spanning tree. -/

namespace Code365.SpanningTree

open List Relation

variable {α : Type*} {L L' A B : List (α × α)} {u v x y : α}

def Joins (L : List (α × α)) : α → α → Prop := EqvGen fun x y => (x, y) ∈ L

theorem Joins.of_mem (h : (x, y) ∈ L) : Joins L x y := .rel _ _ h

theorem Joins.mono (h : Joins L x y) (hL : ∀ p ∈ L, Joins L' p.1 p.2) : Joins L' x y := by
  induction h with
  | rel x y hxy => exact hL _ hxy
  | refl x => exact .refl x
  | symm x y _ ih => exact ih.symm _ _
  | trans x y z _ _ ih ih' => exact ih.trans _ _ _ ih'

theorem Joins.of_subset (h : Joins L x y) (hL : L ⊆ L') :
    Joins L' x y := h.mono fun _ hp => .of_mem (hL hp)

/-! ### The number of classes -/

noncomputable def classes (L : List (α × α)) : ℕ := Nat.card (Quotient (EqvGen.setoid fun x y => (x, y) ∈ L))

/-- The values of a function that tells the classes apart are as many as the classes. -/
theorem card_range_eq {ρ : α → α} (h : ∀ x y, ρ x = ρ y ↔ Joins L x y) :
    Nat.card (Set.range ρ) = classes L := by
  have hker : Setoid.ker ρ = EqvGen.setoid fun x y => (x, y) ∈ L := Setoid.ext h
  rw [classes, ← hker]
  exact (Nat.card_congr (Setoid.quotientKerEquivRange ρ)).symm

theorem exists_represents (L : List (α × α)) : ∃ ρ : α → α, ∀ x y, ρ x = ρ y ↔ Joins L x y := by
  refine ⟨fun x => (Quotient.mk (EqvGen.setoid fun x y => (x, y) ∈ L) x).out, fun x y => ?_⟩
  rw [Quotient.out_inj]
  exact Quotient.eq

theorem classes_nil : classes ([] : List (α × α)) = Nat.card α := by
  have hself : ∀ x y : α, id x = id y ↔ Joins [] x y := Forest.eq_iff_eqvGen fun _ _ => not_mem_nil
  rw [← card_range_eq hself, Set.range_id]
  exact Nat.card_congr (Equiv.Set.univ α)

variable [Finite α]

theorem classes_pos [Nonempty α] (L : List (α × α)) : 0 < classes L := by
  have hne : Nonempty (Quotient (EqvGen.setoid fun x y => (x, y) ∈ L)) :=
    ⟨Quotient.mk _ (Classical.arbitrary α)⟩
  exact Nat.card_pos

theorem classes_mono (hL : ∀ p ∈ L, Joins L' p.1 p.2) : classes L' ≤ classes L := by
  apply Nat.card_le_card_of_surjective (Quotient.map id fun x y (h : Joins L x y) =>
    (h.mono hL : Joins L' x y))
  intro q
  induction q using Quotient.inductionOn with
  | h x => exact ⟨Quotient.mk _ x, rfl⟩

theorem classes_eq (hL : ∀ p ∈ L, Joins L' p.1 p.2) (hL' : ∀ p ∈ L', Joins L p.1 p.2) :
    classes L = classes L' :=
  le_antisymm (classes_mono hL') (classes_mono hL)

theorem classes_perm (h : L.Perm L') : classes L = classes L' :=
  classes_eq (fun _ hp => .of_mem (h.subset hp)) fun _ hp => .of_mem (h.symm.subset hp)

theorem classes_cons_of_joins (h : Joins L u v) : classes ((u, v) :: L) = classes L := by
  refine classes_eq (fun p hp => ?_) fun p hp => .of_mem (mem_cons_of_mem _ hp)
  rcases mem_cons.mp hp with rfl | hp
  · exact h
  · exact .of_mem hp

/-- A pair that is not joined makes one class of two. -/
theorem classes_cons_of_not_joins (h : ¬ Joins L u v) : classes ((u, v) :: L) + 1 = classes L := by
  classical
  obtain ⟨ρ, hρ⟩ := exists_represents L
  have hne : ρ u ≠ ρ v := fun he => h ((hρ u v).mp he)
  have hρ' : ∀ x y, Forest.redirect ρ (ρ u) (ρ v) x = Forest.redirect ρ (ρ u) (ρ v) y ↔
      Joins ((u, v) :: L) x y := by
    intro x y
    rw [(Forest.merges_redirect ρ u v).eqvGen hρ, Joins]
    have hrel : (fun x y => (x, y) ∈ L ∨ x = u ∧ y = v) = fun x y => (x, y) ∈ (u, v) :: L := by
      funext x y
      rw [mem_cons, Prod.mk.injEq, or_comm]
    rw [hrel]
  have hrange : Set.range ρ = insert (ρ u) (Set.range (Forest.redirect ρ (ρ u) (ρ v))) := by
    ext z
    constructor
    · rintro ⟨x, rfl⟩
      by_cases hx : ρ x = ρ u
      · exact .inl hx
      · exact .inr ⟨x, if_neg hx⟩
    · rintro (rfl | ⟨x, rfl⟩)
      · exact ⟨u, rfl⟩
      · unfold Forest.redirect
        split_ifs
        · exact ⟨v, rfl⟩
        · exact ⟨x, rfl⟩
  have hnotMem : ρ u ∉ Set.range (Forest.redirect ρ (ρ u) (ρ v)) := by
    rintro ⟨x, hx⟩
    unfold Forest.redirect at hx
    split_ifs at hx with hxu
    · exact hne hx.symm
    · exact hxu hx
  rw [← card_range_eq hρ, ← card_range_eq hρ', hrange, Nat.card_coe_set_eq, Nat.card_coe_set_eq,
    Set.ncard_insert_of_notMem hnotMem (Set.toFinite _)]

theorem classes_le_cons (p : α × α) (L : List (α × α)) : classes L ≤ classes (p :: L) + 1 := by
  by_cases h : Joins L p.1 p.2
  · exact (classes_cons_of_joins h).symm.le.trans (Nat.le_succ _)
  · exact (classes_cons_of_not_joins h).ge

theorem classes_le_append (A B : List (α × α)) : classes A ≤ B.length + classes (B ++ A) := by
  induction B with
  | nil => rw [nil_append, length_nil, zero_add]
  | cons p B ih =>
    have := classes_le_cons p (B ++ A)
    rw [length_cons, cons_append]
    omega

theorem card_le_length_add_classes (L : List (α × α)) : Nat.card α ≤ L.length + classes L := by
  have hle := classes_le_append [] L
  rwa [append_nil, classes_nil] at hle

/-! ### Trees -/

/-- No pair lies on a cycle. -/
def Acyclic (L : List (α × α)) : Prop := ∀ A p B, L = A ++ p :: B → ¬ Joins (A ++ B) p.1 p.2

theorem Acyclic.length_add_classes (h : Acyclic L) : L.length + classes L = Nat.card α := by
  induction L with
  | nil => rw [classes_nil, length_nil, zero_add]
  | cons p L ih =>
    have hrest : Acyclic L := by
      rintro A q B rfl hjoined
      exact h (p :: A) q B rfl (hjoined.of_subset (subset_cons_self _ _))
    have hcount : classes (p :: L) + 1 = classes L := classes_cons_of_not_joins (h [] p L rfl)
    have := ih hrest
    rw [length_cons]
    omega

theorem acyclic_iff : Acyclic L ↔ L.length + classes L = Nat.card α := by
  refine ⟨Acyclic.length_add_classes, ?_⟩
  rintro hcount A p B rfl hjoined
  have hperm : (A ++ p :: B).Perm (p :: (A ++ B)) := perm_middle
  have hle := card_le_length_add_classes (A ++ B)
  rw [classes_perm hperm, classes_cons_of_joins hjoined, hperm.length_eq, length_cons] at hcount
  omega

theorem Acyclic.sublist (h : Acyclic L) (hL : L'.Sublist L) : Acyclic L' := by
  obtain ⟨B, hB⟩ := hL.exists_perm_append
  have hperm : L.Perm (B ++ L') := hB.trans perm_append_comm
  have hcount := h.length_add_classes
  rw [classes_perm hperm, hperm.length_eq, length_append] at hcount
  have hle := classes_le_append L' B
  have hge := card_le_length_add_classes L'
  exact acyclic_iff.mpr (by omega)

def Connected (L : List (α × α)) : Prop := ∀ x y, Joins L x y

omit [Finite α] in
theorem connected_iff [Nonempty α] : Connected L ↔ classes L = 1 := by
  rw [classes, Nat.card_eq_one_iff_unique]
  constructor
  · intro h
    refine ⟨⟨fun q r => ?_⟩, ⟨Quotient.mk _ (Classical.arbitrary α)⟩⟩
    induction q, r using Quotient.inductionOn₂ with
    | h x y => exact Quotient.sound (h x y)
  · rintro ⟨⟨h⟩, _⟩ x y
    exact Quotient.exact (h (Quotient.mk _ x) (Quotient.mk _ y))

structure IsTree (L : List (α × α)) : Prop where
  connected : Connected L
  acyclic : Acyclic L

theorem IsTree.length_add_one [Nonempty α] (h : IsTree L) : L.length + 1 = Nat.card α := by
  rw [← connected_iff.mp h.connected]
  exact h.acyclic.length_add_classes

/-! ### Least weight -/

variable {M : Type*} [AddCommMonoid M] [LinearOrder M] [IsOrderedAddMonoid M]

omit [AddCommMonoid M] [IsOrderedAddMonoid M] in
theorem exists_perm_cons_max {l : List M} (hl : l ≠ []) :
    ∃ m l', l.Perm (m :: l') ∧ ∀ x ∈ l', x ≤ m := by
  have hperm := perm_insertionSort (· ≥ ·) l
  have hsorted := pairwise_insertionSort (· ≥ ·) l
  cases hsort : l.insertionSort (· ≥ ·) with
  | nil =>
    rw [hsort] at hperm
    exact absurd hperm.symm.eq_nil hl
  | cons m l' =>
    rw [hsort] at hperm hsorted
    exact ⟨m, l', hperm.symm, (pairwise_cons.mp hsorted).1⟩

/-- If up to any bound one list has as many entries as another, its sum is no greater. -/
theorem sum_le_of_countP : ∀ {n : ℕ} {K T : List M}, K.length = n → T.length = n →
    (∀ w, T.countP (· ≤ w) ≤ K.countP (· ≤ w)) → K.sum ≤ T.sum
  | 0, K, T, hK, hT, _ => by
    rw [length_eq_zero_iff.mp hK, length_eq_zero_iff.mp hT]
  | n + 1, K, T, hK, hT, hcount => by
    obtain ⟨k, K', hpermK, hk⟩ := exists_perm_cons_max (ne_nil_of_length_eq_add_one hK)
    obtain ⟨t, T', hpermT, ht⟩ := exists_perm_cons_max (ne_nil_of_length_eq_add_one hT)
    have hlenK : K'.length = n := Nat.succ.inj (hpermK.length_eq.symm.trans hK)
    have hlenT : T'.length = n := Nat.succ.inj (hpermT.length_eq.symm.trans hT)
    have hcount' : ∀ w, (t :: T').countP (· ≤ w) ≤ (k :: K').countP (· ≤ w) := by
      intro w
      rw [← hpermK.countP_eq, ← hpermT.countP_eq]
      exact hcount w
    have hkt : k ≤ t := by
      have hall : (t :: T').countP (· ≤ t) = (t :: T').length := by
        simpa using ht
      have hallK : (k :: K').countP (· ≤ t) = (k :: K').length := by
        apply le_antisymm countP_le_length
        rw [length_cons, hlenK, ← hlenT, ← length_cons, ← hall]
        exact hcount' t
      simpa using countP_eq_length.mp hallK k mem_cons_self
    -- without the two greatest entries the counts compare as before
    have hrest : ∀ w, T'.countP (· ≤ w) ≤ K'.countP (· ≤ w) := by
      intro w
      have hw := hcount' w
      by_cases htw : t ≤ w
      · simpa [htw, hkt.trans htw] using hw
      by_cases hkw : k ≤ w
      · have hallK : K'.countP (· ≤ w) = K'.length := by
          rw [countP_eq_length]
          intro x hx
          simpa using (hk x hx).trans hkw
        rw [hallK, hlenK, ← hlenT]
        exact countP_le_length
      · simpa [htw, hkw] using hw
    rw [hpermK.sum_eq, hpermT.sum_eq, sum_cons, sum_cons]
    exact add_le_add hkt (sum_le_of_countP hlenK hlenT hrest)

/-- A greedy choice `K` of edges weighs no more than a graph `T` without cycles that has as many
edges. -/
theorem sum_le_of_greedy {ι : Type*} (ends : ι → α × α) (weight : ι → M) {K T : List ι}
    (hlen : K.length = T.length) (hT : Acyclic (T.map ends)) (hgreedy : ∀ e ∈ T,
    Joins ((K.filter fun k => weight k ≤ weight e).map ends) (ends e).1 (ends e).2) :
    (K.map weight).sum ≤ (T.map weight).sum := by
  apply sum_le_of_countP (K.length_map weight) ((T.length_map weight).trans hlen.symm)
  intro w
  rw [countP_map, countP_map, countP_eq_length_filter, countP_eq_length_filter]
  have hcountT := (hT.sublist ((filter_sublist (p := fun e => weight e ≤ w)).map ends)).length_add_classes
  have hcountK := card_le_length_add_classes ((K.filter fun e => weight e ≤ w).map ends)
  have hclasses : classes ((K.filter fun e => weight e ≤ w).map ends) ≤
      classes ((T.filter fun e => weight e ≤ w).map ends) := by
    apply classes_mono
    intro p hp
    obtain ⟨e, he, rfl⟩ := mem_map.mp hp
    obtain ⟨he, hew⟩ := mem_filter.mp he
    refine (hgreedy e he).of_subset (map_subset _ fun k hk => ?_)
    obtain ⟨hk, hke⟩ := mem_filter.mp hk
    exact mem_filter.mpr ⟨hk, by simpa using le_trans (by simpa using hke) (by simpa using hew)⟩
  rw [length_map] at hcountT hcountK
  change (T.filter fun e => weight e ≤ w).length ≤ (K.filter fun e => weight e ≤ w).length
  omega

end Code365.SpanningTree
