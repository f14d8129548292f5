import Code365.Algorithms.HEncoder

/-! # `HEncoder.java`: no code without prefixes is shorter

The cost of the merging is the length of the compressed `feeder`.  The frequencies add up to the
length of `feeder`; their differences and sums stay in the range of `int`. -/

namespace Code365.Algorithms.HEncoder

open List Huffman

/-! ### The cost of a tree -/

namespace Node

theorem sum_words {f : Char → ℤ} : ∀ {n : Node}, n.Counts f →
    ∀ path : List Char, ((n.tree.words '0' '1' path).map fun p => f p.1 * (p.2.length : ℤ)).sum =
    n.cost + n.freq * path.length
  | leaf ch n, h, path => by
    obtain rfl : n = f ch := h
    simp [tree, CodeTree.words, cost, freq]
  | node n left right, h, path => by
    obtain ⟨rfl, hleft, hright⟩ := h
    rw [tree, CodeTree.words, map_append, sum_append, sum_words hleft, sum_words hright, cost, freq,
      length_append, length_append, length_singleton, length_singleton]
    push_cast
    ring

end Node

/-! ### The code -/

variable {feeder k : List Char} {root : Node}

theorem encoder_iff (hn : root.tree.leaves.Nodup) {c : Char} {w : List Char} :
    (mapsOf root).encoder c = some w ↔ (c, w) ∈ root.tree.words '0' '1' [] := by
  refine ⟨fun hw => ?_, encoder_eq hn⟩
  by_cases hc : c ∈ (root.tree.words '0' '1' []).map Prod.fst
  · obtain ⟨⟨c, v⟩, hmem, rfl⟩ := mem_map.mp hc
    obtain rfl : v = w := Option.some.inj ((encoder_eq hn hmem).symm.trans hw)
    exact hmem
  · rw [mapsOf, traverse_eq] at hw
    exact absurd ((putAll_of_notMem hc).symm.trans hw) (by simp)

theorem sum_map_eq_sum_count (hk : k.Nodup) (hmem : ∀ c, c ∈ k ↔ c ∈ feeder) (g : Char → ℕ) :
    ((feeder.map g).sum : ℤ) = (k.map fun c => (feeder.count c : ℤ) * (g c : ℤ)).sum := by
  have hset : feeder.toFinset = k.toFinset := by
    ext c
    rw [mem_toFinset, mem_toFinset, hmem]
  rw [Finset.sum_list_map_count, hset, sum_toFinset _ hk, Nat.cast_list_sum, map_map]
  congr 1

theorem length_compress (hn : root.tree.leaves.Nodup) (hmem : ∀ c, c ∈ root.tree.leaves ↔
    c ∈ feeder) (hcounts : root.Counts fun c => feeder.count c) :
    ((compress (mapsOf root) feeder).length : ℤ) = root.cost := by
  have hwords := Node.sum_words hcounts []
  rw [length_nil, Nat.cast_zero, mul_zero, add_zero] at hwords
  rw [compress_eq_flatMap, length_flatMap, sum_map_eq_sum_count hn hmem, ← hwords,
    ← CodeTree.map_fst_words '0' '1' root.tree [], map_map]
  congr 1
  apply map_congr_left
  rintro ⟨c, w⟩ hcw
  simp [encoder_eq hn hcw]

/-- The code words are words of `0` and `1` without prefixes, `compress` puts them one after the
other, and no other code without prefixes makes `feeder` shorter. -/
theorem compress_shortest (feeder k : List Char) (htwo : ∃ c ∈ feeder, ∃ d ∈ feeder, c ≠ d)
    (hk : IsKeySet (freqmap feeder) k) : ∃ maps, hEncoder k feeder = some maps ∧
      (∀ c, (maps.encoder c).isSome ↔ c ∈ feeder) ∧
      (∀ c w, maps.encoder c = some w → ∀ b ∈ w, b = '0' ∨ b = '1') ∧
      (∀ c d v w, maps.encoder c = some v → maps.encoder d = some w → v <+: w → c = d) ∧
      compress maps feeder = feeder.flatMap (fun ch => (maps.encoder ch).getD []) ∧
      ∀ code : Char → List Bool, (∀ c ∈ feeder, ∀ d ∈ feeder, code c <+: code d → c = d) →
        (compress maps feeder).length ≤ (feeder.flatMap code).length := by
  obtain ⟨c1, hc1, c2, hc2, hne⟩ := htwo
  have hkmem : ∀ c, c ∈ k ↔ c ∈ feeder := fun c => (hk.2 c).trans (isSome_freqmap feeder c)
  obtain ⟨root, ws, hrun, hperm, hcounts, hws, hmerging⟩ := hEncoder_spec (ne_nil_of_mem hc1) hk
  have hmem : ∀ c, c ∈ root.tree.leaves ↔ c ∈ feeder := fun c => hperm.mem_iff.trans (hkmem c)
  have hn : root.tree.leaves.Nodup := hperm.nodup_iff.mpr hk.1
  have hcoded : ∀ c, ((mapsOf root).encoder c).isSome ↔ c ∈ feeder := by
    intro c
    rw [← hmem, ← CodeTree.map_fst_words '0' '1' root.tree [], Option.isSome_iff_exists]
    constructor
    · rintro ⟨w, hw⟩
      exact mem_map_of_mem ((encoder_iff hn).mp hw)
    · intro hc
      obtain ⟨⟨c, w⟩, hcw, rfl⟩ := mem_map.mp hc
      exact ⟨w, encoder_eq hn hcw⟩
  refine ⟨mapsOf root, hrun, hcoded, fun c w hw b hb => ?_, fun c d v w hv hw hvw => ?_,
    ?_, fun code hfree => ?_⟩
  · exact (CodeTree.mem_of_mem_words ((encoder_iff hn).mp hw) hb).resolve_left not_mem_nil
  · exact (CodeTree.word_unique (by decide) ((encoder_iff hn).mp hv) ((encoder_iff hn).mp hw) hvw).1
  · rw [compress_eq_flatMap]
    apply flatMap_congr
    intro c hc
    obtain ⟨w, hw⟩ := Option.isSome_iff_exists.mp ((hcoded c).mpr hc)
    rw [hw, Option.getD_some, Option.getD_some]
  · have hnil : ∀ c ∈ k, code c ≠ [] := by
      intro c hc hcode
      have hall : ∀ d ∈ feeder, c = d := fun d hd =>
        hfree c ((hkmem c).mp hc) d hd (by rw [hcode]; exact nil_prefix)
      exact hne ((hall c1 hc1).symm.trans (hall c2 hc2))
    have hkraft : kraft (k.map fun c => (code c).length) ≤ 1 :=
      kraft_le_one hk.1 hnil fun c hc d hd => hfree c ((hkmem c).mp hc) d ((hkmem d).mp hd)
    have hnonneg : ∀ w ∈ ws, 0 ≤ w := by
      intro w hw
      obtain ⟨c, _, rfl⟩ := mem_map.mp (hws.subset hw)
      exact Int.natCast_nonneg _
    have hcost : root.cost ≤ cost (k.map fun c => ((feeder.count c : ℤ), (code c).length)) := by
      refine hmerging.le_cost hnonneg ?_ ?_
      · rw [map_map]
        exact hws.symm
      · rw [map_map]
        exact hkraft
    have hflat : ((feeder.flatMap code).length : ℤ) =
        cost (k.map fun c => ((feeder.count c : ℤ), (code c).length)) := by
      rw [length_flatMap, sum_map_eq_sum_count hk.1 hkmem, cost, map_map]
      rfl
    rw [← length_compress hn hmem hcounts, ← hflat] at hcost
    exact_mod_cast hcost

theorem compress_shortest_ab : (∃ c ∈ ['a', 'b'], ∃ d ∈ ['a', 'b'], c ≠ d) ∧ ∃ maps,
      hEncoder ['a', 'b'] ['a', 'b'] = some maps ∧ (∀ c, (maps.encoder c).isSome ↔ c ∈ ['a', 'b']) ∧
      (∀ c w, maps.encoder c = some w → ∀ b ∈ w, b = '0' ∨ b = '1') ∧
      (∀ c d v w, maps.encoder c = some v → maps.encoder d = some w → v <+: w → c = d) ∧
      compress maps ['a', 'b'] = ['a', 'b'].flatMap (fun ch => (maps.encoder ch).getD []) ∧
      ∀ code : Char → List Bool, (∀ c ∈ ['a', 'b'], ∀ d ∈ ['a', 'b'], code c <+: code d → c = d) →
      (compress maps ['a', 'b']).length ≤ (['a', 'b'].flatMap code).length := by
  have htwo : ∃ c ∈ ['a', 'b'], ∃ d ∈ ['a', 'b'], c ≠ d := ⟨'a', by simp, 'b', by simp, by decide⟩
  exact ⟨htwo, compress_shortest ['a', 'b'] ['a', 'b'] htwo isKeySet_ab⟩

end Code365.Algorithms.HEncoder
