import Mathlib

/-! # Cut vertices and depth-first search

`Part adj U x` is what can be reached from `x` through vertices of `U`.  A cut vertex is one whose
removal leaves more connected components (`card_components_lt_iff`).  `Below l A r B v` follows a
depth-first search over adjacency lists `l` from `r` down to `v`: `B` is `A` with the vertices on
the way, and the search goes from a vertex to the first neighbour in each part of what is left.  The
vertices below `v` are `Part Bᶜ v`; all others stay connected with `r` when `v` is removed
(`Below.mem_part_compl`), so that only the edges out of the parts below `v` decide whether `v` is a
cut vertex (`Below.cutVertex_iff`). -/

namespace Code365.DepthFirst

open Set Relation

section parts

variable {α : Type*} {adj : α → α → Prop} {U W : Set α} {u v w x y : α}

/-- What can be reached from `x` through vertices of `U`. -/
def Part (adj : α → α → Prop) (U : Set α) (x : α) : Set α :=
  {y | ReflTransGen (fun a b => adj a b ∧ b ∈ U) x y}

theorem self_mem_part : x ∈ Part adj U x := ReflTransGen.refl

theorem part_tail (hv : v ∈ Part adj U u) (hvw : adj v w) (hw : w ∈ U) : w ∈ Part adj U u :=
  ReflTransGen.tail hv ⟨hvw, hw⟩

theorem part_head (huv : adj u v) (hv : v ∈ U) (hw : w ∈ Part adj U v) : w ∈ Part adj U u :=
  ReflTransGen.head ⟨huv, hv⟩ hw

theorem part_trans (hv : v ∈ Part adj U u) (hw : w ∈ Part adj U v) : w ∈ Part adj U u :=
  ReflTransGen.trans hv hw

/-- A property of `x` that is kept along the edges inside `U` holds all over the part. -/
theorem part_induction {P : α → Prop} (hx : P x) (hstep : ∀ a b, a ∈ Part adj U x → P a → adj a b →
    b ∈ U → P b) (hy : y ∈ Part adj U x) : P y := by
  induction hy with
  | refl => exact hx
  | tail ha hab ih => exact hstep _ _ ha ih hab.1 hab.2

theorem eq_or_mem_of_part (hy : y ∈ Part adj U x) : y = x ∨ y ∈ U :=
  part_induction (P := fun y => y = x ∨ y ∈ U) (.inl rfl) (fun _ _ _ _ _ hb => .inr hb) hy

theorem mem_of_part (hx : x ∈ U) (hy : y ∈ Part adj U x) : y ∈ U := by
  rcases eq_or_mem_of_part hy with rfl | hy
  · exact hx
  · exact hy

theorem part_subset (h : ∀ y ∈ Part adj U x, y ≠ x → y ∈ W) : Part adj U x ⊆ Part adj W x := by
  intro y hy
  refine part_induction self_mem_part ?_ hy
  intro a b ha haW hab hb
  by_cases hbx : b = x
  · rw [hbx]
    exact self_mem_part
  · exact part_tail haW hab (h b (part_tail ha hab hb) hbx)

theorem part_mono (h : U ⊆ W) : Part adj U x ⊆ Part adj W x :=
  part_subset fun _ hy hne => h ((eq_or_mem_of_part hy).resolve_left hne)

theorem part_avoids (hv : v ∉ Part adj U x) : Part adj U x ⊆ Part adj {v}ᶜ x :=
  part_subset fun _ hy _ hyv => hv (hyv ▸ hy)

/-- What is reached from `x` is `x` itself or is reached from a neighbour without coming back to
`x`. -/
theorem part_cases (hy : y ∈ Part adj U x) :
    y = x ∨ ∃ c, adj x c ∧ c ∈ U \ {x} ∧ y ∈ Part adj (U \ {x}) c := by
  refine part_induction (P := fun y => y = x ∨ ∃ c, adj x c ∧ c ∈ U \ {x} ∧
    y ∈ Part adj (U \ {x}) c) (.inl rfl) ?_ hy
  intro a b _ ha hab hb
  by_cases hbx : b = x
  · exact .inl hbx
  · right
    rcases ha with rfl | ⟨c, hxc, hc, hac⟩
    · exact ⟨b, hab, ⟨hb, hbx⟩, self_mem_part⟩
    · exact ⟨c, hxc, hc, part_tail hac hab ⟨hb, hbx⟩⟩

section symm

variable (hsymm : ∀ x y, adj x y → adj y x)
include hsymm

theorem part_symm (hx : x ∈ U) (hy : y ∈ Part adj U x) : x ∈ Part adj U y := by
  refine part_induction (P := fun y => x ∈ Part adj U y) self_mem_part ?_ hy
  intro a b ha hxa hab _
  exact part_head (hsymm a b hab) (mem_of_part hx ha) hxa

theorem part_eq_of_mem (hx : x ∈ U) (hy : y ∈ Part adj U x) : Part adj U y = Part adj U x := by
  ext z
  exact ⟨part_trans hy, part_trans (part_symm hsymm hx hy)⟩

end symm

end parts

/-! ### Cut vertices -/

/-- Two other vertices are connected only through `v`. -/
def CutVertex {α : Type*} (adj : α → α → Prop) (v : α) : Prop :=
  ∃ x y, x ≠ v ∧ y ≠ v ∧ y ∈ Part adj Set.univ x ∧ y ∉ Part adj {v}ᶜ x

/-- A cut vertex has neighbours in more than one part of the rest. -/
theorem cutVertex_root_iff {α : Type*} {adj : α → α → Prop} {r : α}
    (hsymm : ∀ x y, adj x y → adj y x) :
    CutVertex adj r ↔ ∃ c, adj r c ∧ ∃ d, adj r d ∧ c ≠ r ∧ d ≠ r ∧ d ∉ Part adj {r}ᶜ c := by
  have hdiff : (univ \ {r} : Set α) = {r}ᶜ := (compl_eq_univ_sdiff {r}).symm
  constructor
  · rintro ⟨x, y, hx, hy, hxy, hnot⟩
    have hxr : r ∈ Part adj univ x := by
      by_contra hr
      exact hnot (part_avoids hr hxy)
    have hrx := part_symm hsymm (mem_univ x) hxr
    obtain hrx' | ⟨c, hrc, hc, hxc⟩ := part_cases hrx
    · exact absurd hrx' hx
    obtain hry' | ⟨d, hrd, hd, hyd⟩ := part_cases (part_trans hrx hxy)
    · exact absurd hry' hy
    rw [hdiff] at hc hxc hd hyd
    refine ⟨c, hrc, d, hrd, hc, hd, ?_⟩
    intro hdc
    exact hnot (part_trans (part_symm hsymm hc hxc) (part_trans hdc hyd))
  · rintro ⟨c, hrc, d, hrd, hc, hd, hnot⟩
    refine ⟨c, d, hc, hd, ?_, hnot⟩
    have hcr : r ∈ Part adj univ c := part_head (hsymm r c hrc) (mem_univ r) self_mem_part
    exact part_tail hcr hrd (mem_univ d)

section components

variable {V : Type*} {G : SimpleGraph V} {v : V}

theorem reachable_iff_part {x y : V} : G.Reachable x y ↔ y ∈ Part G.Adj univ x := by
  rw [SimpleGraph.reachable_iff_reflTransGen]
  simp [Part]

theorem reachable_induce_iff_part {U : Set V} {x y : U} :
    (G.induce U).Reachable x y ↔ (y : V) ∈ Part G.Adj U x := by
  rw [SimpleGraph.reachable_iff_reflTransGen]
  constructor
  · intro h
    induction h with
    | refl => exact self_mem_part
    | tail _ hab ih => exact part_tail ih hab (Subtype.prop _)
  · intro h
    have hlift : ∃ hy : (y : V) ∈ U, ReflTransGen (G.induce U).Adj x ⟨y, hy⟩ := by
      refine part_induction (P := fun z =>
        ∃ hz : z ∈ U, ReflTransGen (G.induce U).Adj x ⟨z, hz⟩) ⟨x.2, ReflTransGen.refl⟩ ?_ h
      rintro a b _ ⟨ha, hxa⟩ hab hb
      exact ⟨hb, hxa.tail hab⟩
    exact hlift.2

/-- The components after the removal of `v`, as parts of those before. -/
def intoComponents (G : SimpleGraph V) (v : V) : (G.induce {v}ᶜ).ConnectedComponent → G.ConnectedComponent :=
  SimpleGraph.ConnectedComponent.map (SimpleGraph.Embedding.induce {v}ᶜ).toHom

theorem not_injective_intoComponents_iff :
    ¬ Function.Injective (intoComponents G v) ↔ CutVertex G.Adj v := by
  constructor
  · intro h
    simp only [Function.Injective, not_forall] at h
    obtain ⟨c, d, hcd, hne⟩ := h
    obtain ⟨x, rfl⟩ := Quot.exists_rep c
    obtain ⟨y, rfl⟩ := Quot.exists_rep d
    refine ⟨x, y, x.2, y.2, reachable_iff_part.mp (SimpleGraph.ConnectedComponent.exact hcd), ?_⟩
    intro hxy
    exact hne (SimpleGraph.ConnectedComponent.sound (reachable_induce_iff_part.mpr hxy))
  · rintro ⟨x, y, hx, hy, hxy, hnot⟩ hinj
    have heq : intoComponents G v ((G.induce {v}ᶜ).connectedComponentMk ⟨x, hx⟩) =
        intoComponents G v ((G.induce {v}ᶜ).connectedComponentMk ⟨y, hy⟩) :=
      SimpleGraph.ConnectedComponent.sound (reachable_iff_part.mpr hxy)
    exact hnot (reachable_induce_iff_part.mp (SimpleGraph.ConnectedComponent.exact (hinj heq)))

theorem CutVertex.surjective_intoComponents (h : CutVertex G.Adj v) :
    Function.Surjective (intoComponents G v) := by
  -- a neighbour of `v` stays in its component
  obtain ⟨c, hvc, _, _, hc, _⟩ := (cutVertex_root_iff fun _ _ hxy => hxy.symm).mp h
  intro d
  obtain ⟨z, rfl⟩ := Quot.exists_rep d
  by_cases hz : z = v
  · subst hz
    exact ⟨(G.induce _).connectedComponentMk ⟨c, hc⟩, SimpleGraph.ConnectedComponent.sound hvc.symm.reachable⟩
  · exact ⟨(G.induce _).connectedComponentMk ⟨z, hz⟩, rfl⟩

/-- The cut vertices are those whose removal leaves more connected components. -/
theorem card_components_lt_iff [Finite V] : Nat.card G.ConnectedComponent <
    Nat.card (G.induce {v}ᶜ).ConnectedComponent ↔ CutVertex G.Adj v := by
  constructor
  · intro hlt
    rw [← not_injective_intoComponents_iff]
    intro hinj
    have hle := Nat.card_le_card_of_injective _ hinj
    omega
  · intro h
    by_contra hle
    have hbij := h.surjective_intoComponents.bijective_of_nat_card_le (not_lt.mp hle)
    exact not_injective_intoComponents_iff.mpr h hbij.1

end components

/-! ### The way down of a depth-first search -/

section descent

variable {α : Type*}

/-- `y` is in the adjacency list of `x`. -/
abbrev Listed (l : α → List α) (x y : α) : Prop := y ∈ l x

/-- A search that has come to `r` over the vertices of `A` comes from there to `v`, over those of
`B`. -/
inductive Below (l : α → List α) : Set α → α → Set α → α → Prop
  | self (A : Set α) (r : α) : Below l A r A r
  | child {A B : Set α} {r v c : α} {pre post : List α} : l r = pre ++ c :: post → c ∉ insert r A →
      (∀ x ∈ pre, x ∉ Part (Listed l) (insert r A)ᶜ c) → Below l (insert r A) c B v → Below l A r B v

variable {l : α → List α} {A B : Set α} {r v x y : α}

theorem compl_insert_eq : (insert r A)ᶜ = Aᶜ \ {r} := by
  ext x
  simp [and_comm]

namespace Below

section

variable (h : Below l A r B v)

include h

theorem subset : A ⊆ B := by
  induction h with
  | self => exact subset_rfl
  | child _ _ _ _ ih => exact (subset_insert _ _).trans ih

theorem not_mem (hr : r ∉ A) : v ∉ B := by
  induction h with
  | self => exact hr
  | child _ hc _ _ ih => exact ih hc

theorem mem_part : v ∈ Part (Listed l) Aᶜ r := by
  induction h with
  | self => exact self_mem_part
  | child hl hc _ _ ih =>
    refine part_head ?_ (fun hA => hc (mem_insert_of_mem _ hA)) (part_mono ?_ ih)
    · simp [Listed, hl]
    · exact compl_subset_compl.mpr (subset_insert _ _)

theorem trans {C : Set α} (h' : Below l B v C x) : Below l A r C x := by
  induction h with
  | self => exact h'
  | child hl hc hfirst _ ih => exact child hl hc hfirst (ih h')

theorem mem_of_ne (hne : v ≠ r) : r ∈ B := by
  cases h with
  | self => exact absurd rfl hne
  | child _ _ _ h => exact h.subset (mem_insert _ _)

end

theorem eq_of_self (h : Below l A r B r) : B = A := by
  cases h with
  | self => rfl
  | child _ hc _ h => exact absurd (mem_insert r A) (mem_of_part hc h.mem_part)

variable (hsymm : ∀ x y, y ∈ l x → x ∈ l y)
include hsymm

theorem exists_of_part [Finite α] (hr : r ∉ A) (hv : v ∈ Part (Listed l) Aᶜ r) :
    ∃ B, Below l A r B v := by
  -- by induction on what is left
  induction hn : (Aᶜ : Set α).ncard using Nat.strong_induction_on generalizing A r with
  | _ n ih =>
    obtain rfl | ⟨c, hrc, hc, hv⟩ := part_cases hv
    · exact ⟨A, self A v⟩
    rw [← compl_insert_eq] at hc hv
    obtain ⟨d, pre, post, hl, hd, hfirst⟩ : ∃ d pre post, l r = pre ++ d :: post ∧
        d ∈ Part (Listed l) (insert r A)ᶜ c ∧ ∀ x ∈ pre, x ∉ Part (Listed l) (insert r A)ᶜ c := by
      classical
      have hfind : ((l r).find? fun x => decide (x ∈ Part (Listed l) (insert r A)ᶜ c)).isSome := by
        rw [List.find?_isSome]
        exact ⟨c, hrc, by simpa using self_mem_part⟩
      obtain ⟨d, hd⟩ := Option.isSome_iff_exists.mp hfind
      obtain ⟨hdP, pre, post, hl, hpre⟩ := List.find?_eq_some_iff_append.mp hd
      exact ⟨d, pre, post, hl, by simpa using hdP, by simpa using hpre⟩
    have heq := part_eq_of_mem hsymm hc hd
    have hdA := mem_of_part hc hd
    have hlt : ((insert r A)ᶜ : Set α).ncard < n := by
      rw [← hn, compl_insert_eq]
      exact ncard_sdiff_singleton_lt_of_mem hr
    obtain ⟨B, hB⟩ := ih _ hlt hdA (by rwa [heq]) rfl
    exact ⟨B, child hl hdA (by rwa [heq]) hB⟩

/-- Without `v`, what is not below `v` is still connected with `r`. -/
theorem mem_part_compl (h : Below l A r B v) (hx : x ∈ Part (Listed l) Aᶜ r)
    (hnot : x ∉ Part (Listed l) Bᶜ v) : x ∈ Part (Listed l) {v}ᶜ r := by
  induction h with
  | self => exact absurd hx hnot
  | @child A B r v c pre post hl hc _ h ih =>
    have hrc : c ∈ l r := by simp [hl]
    obtain rfl | ⟨d, hrd, hd, hx⟩ := part_cases hx
    · exact self_mem_part
    rw [← compl_insert_eq] at hd hx
    by_cases hxc : x ∈ Part (Listed l) (insert r A)ᶜ c
    · have hcv : c ≠ v := by
        rintro rfl
        rw [h.eq_of_self] at hnot
        exact hnot hxc
      exact part_head hrc hcv (ih hxc hnot)
    · -- the part of `d` is another one than that of `v`
      have hvd : v ∉ Part (Listed l) (insert r A)ᶜ d := by
        intro hvd
        have hcd := (part_eq_of_mem hsymm hc h.mem_part).symm.trans (part_eq_of_mem hsymm hd hvd)
        rw [hcd] at hxc
        exact hxc hx
      have hdv : d ≠ v := fun hdv => hvd (hdv ▸ self_mem_part)
      exact part_head hrd hdv (part_avoids hvd hx)

/-- When every part below `v` has an edge to a vertex above `v`, nothing is cut off from `r`. -/
theorem stays_connected (h : Below l ∅ r A v)
    (hback : ∀ c ∈ l v, c ∉ insert v A → ∃ x ∈ Part (Listed l) (insert v A)ᶜ c, ∃ y ∈ l x, y ∈ A)
    (hx : x ∈ Part (Listed l) ∅ᶜ r) (hxv : x ≠ v) : x ∈ Part (Listed l) {v}ᶜ r := by
  by_cases hbelow : x ∈ Part (Listed l) Aᶜ v
  · obtain hxv' | ⟨c, hvc, hc, hxc⟩ := part_cases hbelow
    · exact absurd hxv' hxv
    rw [← compl_insert_eq] at hc hxc
    obtain ⟨a, ha, b, hab, hb⟩ := hback c hvc hc
    have hsub : ((insert v A)ᶜ : Set α) ⊆ {v}ᶜ := compl_subset_compl.mpr (by simp)
    have hxa : x ∈ Part (Listed l) {v}ᶜ a := by
      apply part_mono hsub
      rwa [part_eq_of_mem hsymm hc ha]
    have hbr : b ∈ Part (Listed l) ∅ᶜ r := by
      have hac : a ∈ Part (Listed l) ∅ᶜ c := part_mono (by simp) ha
      exact part_tail (part_trans (part_tail h.mem_part hvc (by simp)) hac) hab (by simp)
    have hbv : b ∉ Part (Listed l) Aᶜ v := by
      intro hbv
      rcases eq_or_mem_of_part hbv with rfl | hbA
      · exact h.not_mem (notMem_empty r) hb
      · exact hbA hb
    exact part_trans
      (part_tail (h.mem_part_compl hsymm hbr hbv) (hsymm a b hab) (hsub (mem_of_part hc ha))) hxa
  · exact h.mem_part_compl hsymm hx hbelow

/-- Below the root, `v` is a cut vertex when some part below it has no edge to the vertices above
`v`. -/
theorem cutVertex_iff (h : Below l ∅ r A v) (hne : v ≠ r) : CutVertex (Listed l) v ↔
    ∃ c ∈ l v, c ∉ insert v A ∧ ∀ x ∈ Part (Listed l) (insert v A)ᶜ c, ∀ y ∈ l x, y ∉ A := by
  have hv : v ∈ Part (Listed l) univ r := by
    rw [← compl_empty]
    exact h.mem_part
  constructor
  · rintro ⟨x, y, hx, hy, hxy, hnot⟩
    by_contra hno
    have hback : ∀ c ∈ l v, c ∉ insert v A → ∃ x ∈ Part (Listed l) (insert v A)ᶜ c, ∃ y ∈ l x, y ∈ A := by
      intro c hvc hc
      by_contra hall
      exact hno ⟨c, hvc, hc, fun a ha b hab hb => hall ⟨a, ha, b, hab, hb⟩⟩
    have hstay : ∀ z ∈ Part (Listed l) univ r, z ≠ v → z ∈ Part (Listed l) {v}ᶜ r :=
      fun z hz hzv => h.stays_connected hsymm hback (by rwa [compl_empty]) hzv
    apply hnot
    by_cases hxr : x ∈ Part (Listed l) univ r
    · exact part_trans (part_symm hsymm hne.symm (hstay x hxr hx)) (hstay y (part_trans hxr hxy) hy)
    · -- `v` is in another component
      refine part_avoids (fun hxv => ?_) hxy
      exact hxr (part_trans hv (part_symm hsymm (mem_univ x) hxv))
  · rintro ⟨c, hvc, hc, hout⟩
    have hcv : c ≠ v := fun hcv => hc (hcv ▸ mem_insert c A)
    refine ⟨c, r, hcv, hne.symm, ?_, ?_⟩
    · exact part_symm hsymm (mem_univ r) (part_tail hv hvc (mem_univ c))
    · intro hrc
      have hr : r ∈ Part (Listed l) (insert v A)ᶜ c := by
        refine part_induction self_mem_part ?_ hrc
        intro a b _ ha hab hb
        apply part_tail ha hab
        rintro (hbv | hbA)
        · exact hb hbv
        · exact hout a ha b hab hbA
      exact mem_of_part hc hr (mem_insert_of_mem v (h.mem_of_ne hne))

end Below

end descent

end Code365.DepthFirst
