import Mathlib

/-! # Strongly connected components, sinks first

The classes of mutual reachability of a directed graph, listed so that an edge leads into the class
it comes from or into one listed before.  A list that grows at its end by vertices that reach each
other, and whose other edges lead into what is listed already (`SinksFirst.append`), lists whole
classes (`SinksFirst.mem_iff`). -/

namespace Code365

open List Relation

variable {α : Type*} {edge : α → α → Prop}

/-- What holds of `x` and is kept along every edge holds of all that can be reached from `x`. -/
theorem of_reaches {P : α → Prop} (hP : ∀ x, P x → ∀ y, edge x y → P y) {x y : α} (hx : P x)
    (h : ReflTransGen edge x y) : P y := by
  induction h with
  | refl => exact hx
  | tail _ hyz ih => exact hP _ ih _ hyz

/-- The members of `cs` are disjoint lists of vertices that reach each other, and no edge leads from
one of them to a later one or out of `cs`. -/
structure SinksFirst (edge : α → α → Prop) (cs : List (List α)) : Prop where
  nodup : cs.flatten.Nodup
  ne_nil : ∀ c ∈ cs, c ≠ []
  reaches : ∀ c ∈ cs, ∀ x ∈ c, ∀ y ∈ c, ReflTransGen edge x y
  closed : ∀ x ∈ cs.flatten, ∀ y, edge x y → y ∈ cs.flatten
  order : cs.Pairwise fun a b => ∀ x ∈ a, ∀ y ∈ b, ¬ edge x y

namespace SinksFirst

variable {cs pre post : List (List α)}

theorem nil : SinksFirst edge [] :=
  ⟨nodup_nil, by simp, by simp, by simp, List.Pairwise.nil⟩

theorem append {c : List α} (h : SinksFirst edge cs) (hne : c ≠ []) (hnodup : c.Nodup)
    (hdisj : ∀ x ∈ c, x ∉ cs.flatten) (hreaches : ∀ x ∈ c, ∀ y ∈ c, ReflTransGen edge x y)
    (hedge : ∀ x ∈ c, ∀ y, edge x y → y ∈ c ∨ y ∈ cs.flatten) : SinksFirst edge (cs ++ [c]) := by
  have hflat : (cs ++ [c]).flatten = cs.flatten ++ c := by simp
  refine ⟨?_, ?_, ?_, ?_, ?_⟩
  · rw [hflat, nodup_append']
    exact ⟨h.nodup, hnodup, fun x hx hc => hdisj x hc hx⟩
  · exact forall_mem_append.mpr ⟨h.ne_nil, forall_mem_singleton.mpr hne⟩
  · exact forall_mem_append.mpr ⟨h.reaches, forall_mem_singleton.mpr hreaches⟩
  · intro x hx y hxy
    rw [hflat, mem_append] at hx ⊢
    rcases hx with hx | hx
    · exact .inl (h.closed x hx y hxy)
    · exact (hedge x hx y hxy).symm
  · rw [pairwise_append]
    refine ⟨h.order, pairwise_singleton _ _, ?_⟩
    intro a ha b hb x hx y hy hxy
    rw [mem_singleton.mp hb] at hy
    exact hdisj y hy (h.closed x (mem_flatten_of_mem ha hx) y hxy)

theorem closed_left (h : SinksFirst edge (pre ++ post)) :
    ∀ x ∈ pre.flatten, ∀ y, edge x y → y ∈ pre.flatten := by
  intro x hx y hxy
  have hy : y ∈ pre.flatten ++ post.flatten := by
    rw [← flatten_append]
    apply h.closed x _ y hxy
    rw [flatten_append]
    exact mem_append_left _ hx
  rcases mem_append.mp hy with hy | hy
  · exact hy
  · obtain ⟨a, ha, hxa⟩ := mem_flatten.mp hx
    obtain ⟨b, hb, hyb⟩ := mem_flatten.mp hy
    exact absurd hxy ((pairwise_append.mp h.order).2.2 a ha b hb x hxa y hyb)

/-- A member holds all that is reached from a vertex of it and reaches that vertex. -/
theorem mem_iff (h : SinksFirst edge cs) {c : List α} (hc : c ∈ cs) {x : α} (hx : x ∈ c) (y : α) :
    y ∈ c ↔ ReflTransGen edge x y ∧ ReflTransGen edge y x := by
  constructor
  · intro hy
    exact ⟨h.reaches c hc x hx y hy, h.reaches c hc y hy x hx⟩
  rintro ⟨hxy, hyx⟩
  obtain ⟨pre, post, rfl⟩ := append_of_mem hc
  have hpre : ∀ z ∈ pre.flatten, ∀ w, edge z w → w ∈ pre.flatten := h.closed_left
  have hupto : ∀ z ∈ (pre ++ [c]).flatten, ∀ w, edge z w → w ∈ (pre ++ [c]).flatten :=
    closed_left (by rw [append_assoc]; exact h)
  have hy : y ∈ (pre ++ [c]).flatten := of_reaches hupto (by simp [hx]) hxy
  rw [flatten_append, flatten_singleton, mem_append] at hy
  apply hy.resolve_left
  intro hy
  have hx' : x ∈ pre.flatten := of_reaches hpre hy hyx
  have hnodup := h.nodup
  rw [flatten_append, nodup_append'] at hnodup
  exact hnodup.2.2 hx' (by simp [hx])

end SinksFirst

end Code365
