import Code365.Lib.PrefixCode
import Code365.Lib.Huffman
import Code365.Lib.While
import Code365.Algorithms.GenericHeap

/-! # `HEncoder` (`algorithms/java/Compression/src/HEncoder.java`)

The constructor counts the characters of `feeder`, merges the forest of its distinct characters in a
heap down to one tree, and gives every leaf its path as its code.  `decompress` cuts the text at the
first code it finds.  The maps are functions to `Option`; the order of `freqmap.keySet()` is
whatever the hash map gives, so it is a parameter.  A `char` of Java is a unit of UTF-16 and here a
`Char`; the characters are only compared, so it does not matter that a surrogate is none.

The heap returns two trees of least frequency, so that the constructor merges the frequencies in the
way of `Huffman.Merging` (`hEncoder_spec`).  With one distinct character the tree is a leaf and its
code is empty: `compress` gives the empty text. -/

namespace Code365.Algorithms.HEncoder

open List Function BinaryHeap Huffman

/-- A node of the tree; a leaf has a character and no children. -/
inductive Node where
  | leaf (ch : Char) (freq : ℤ)
  | node (freq : ℤ) (left right : Node)
deriving DecidableEq, Repr

namespace Node

def freq : Node → ℤ
  | leaf _ freq => freq
  | node freq _ _ => freq

/-- `Nodecomparator.compare`. -/
def compare (o1 o2 : Node) : ℤ := o2.freq - o1.freq

def tree : Node → CodeTree Char
  | leaf ch _ => .leaf ch
  | node _ left right => .node left.tree right.tree

/-- The sum of the frequencies of all nodes that are not the root. -/
def cost : Node → ℤ
  | leaf _ _ => 0
  | node _ left right => left.freq + right.freq + (left.cost + right.cost)

/-- The frequencies of the leaves are `f`, and those of the other nodes are sums. -/
def Counts (f : Char → ℤ) : Node → Prop
  | leaf ch n => n = f ch
  | node n left right => n = left.freq + right.freq ∧ left.Counts f ∧ right.Counts f

end Node

/-! ### The constructor -/

def countChar (freqmap : Char → Option ℤ) (ch : Char) : Char → Option ℤ :=
  match freqmap ch with
  | some n => update freqmap ch (some (n + 1))
  | none => update freqmap ch (some 1)

def freqmap (feeder : List Char) : Char → Option ℤ := feeder.foldl countChar fun _ => none

/-- `new ArrayList<>(freqmap.keySet())`: the keys in some order. -/
def IsKeySet (map : Char → Option ℤ) (k : List Char) : Prop := k.Nodup ∧ ∀ c, c ∈ k ↔ (map c).isSome

/-- The heap of the leaves; a missing frequency cannot be unboxed. -/
def leafHeap (map : Char → Option ℤ) (k : List Char) : Option (List Node) :=
  k.foldlM (fun heap c => (map c).bind fun n => GenericHeap.add Node.compare heap (.leaf c n)) []

/-- `while (heap.size() != 1)`. -/
def mergeLoop : ℕ → List Node → Option (List Node)
  | 0, _ => none
  | fuel + 1, heap =>
    if heap.length = 1 then some heap
    else do
      let (n1, heap) ← GenericHeap.removeHP Node.compare heap
      let (n2, heap) ← GenericHeap.removeHP Node.compare heap
      mergeLoop fuel (← GenericHeap.add Node.compare heap (.node (n1.freq + n2.freq) n1 n2))

/-- The maps `encoder` and `decoder`. -/
structure Maps where
  encoder : Char → Option (List Char)
  decoder : List Char → Option Char

def Maps.put (maps : Maps) (ch : Char) (osf : List Char) : Maps where
  encoder := update maps.encoder ch (some osf)
  decoder := update maps.decoder osf (some ch)

def traverse : Node → List Char → Maps → Maps
  | .leaf ch _, osf, maps => maps.put ch osf
  | .node _ left right, osf, maps => traverse right (osf ++ ['1']) (traverse left (osf ++ ['0']) maps)

/-- The constructor with the key order `k`. -/
def hEncoder (k feeder : List Char) : Option Maps := do
  let heap ← leafHeap (freqmap feeder) k
  let heap ← mergeLoop (heap.length + 1) heap
  let (root, _) ← GenericHeap.removeHP Node.compare heap
  return traverse root [] { encoder := fun _ => none, decoder := fun _ => none }

/-! ### `compress` and `decompress` -/

/-- A character without a code gives the text `null`. -/
def compress (maps : Maps) (str : List Char) : List Char :=
  str.foldl (fun rv ch => rv ++ (maps.encoder ch).getD "null".toList) []

/-- A step of the loop of `decompress`; the variables are `s` and `code`. -/
def decompressStep (maps : Maps) (vars : List Char × List Char) (x : Char) : List Char × List Char :=
  if (maps.decoder (vars.2 ++ [x])).isSome then (vars.1 ++ (maps.decoder (vars.2 ++ [x])).toList, [])
  else (vars.1, vars.2 ++ [x])

def decompress (maps : Maps) (str : List Char) : List Char := (str.foldl (decompressStep maps) ([], [])).1

/-! ### The frequencies -/

theorem countChar_eq (map : Char → Option ℤ) (ch c : Char) :
    countChar map ch c = if c = ch then some ((map c).getD 0 + 1) else map c := by
  unfold countChar
  by_cases h : c = ch
  · subst h
    cases hc : map c <;> simp
  · cases hc : map ch <;> simp [h]

theorem freqmap_eq (feeder : List Char) (c : Char) :
    freqmap feeder c = if c ∈ feeder then some (feeder.count c : ℤ) else none := by
  have hfold : ∀ (feeder : List Char) (map : Char → Option ℤ), feeder.foldl countChar map c =
      if c ∈ feeder then some ((map c).getD 0 + feeder.count c) else map c := by
    intro feeder
    induction feeder with
    | nil => simp
    | cons ch feeder ih =>
      intro map
      rw [foldl_cons, ih, countChar_eq]
      by_cases h : c = ch
      · subst h
        by_cases hmem : c ∈ feeder
        · simp [hmem]
          ring
        · simp [hmem, count_eq_zero]
      · simp [h, Ne.symm h]
  rw [freqmap, hfold]
  simp

theorem isSome_freqmap (feeder : List Char) (c : Char) :
    (freqmap feeder c).isSome ↔ c ∈ feeder := by
  rw [freqmap_eq]
  split_ifs with hc <;> simp [hc]

theorem compares_freq : GenericHeap.Compares Node.compare Node.freq := by
  intro a b
  unfold Node.compare
  omega

/-! ### The constructor builds one tree -/

/-- The leaves of all trees of a heap. -/
def forestLeaves (heap : List Node) : List Char := heap.flatMap fun n => n.tree.leaves

theorem forestLeaves_perm {heap heap' : List Node} (h : heap.Perm heap') :
    (forestLeaves heap).Perm (forestLeaves heap') := h.flatMap_right _

/-- A heap of trees with the frequencies `f`. -/
structure Forest (f : Char → ℤ) (heap : List Node) : Prop where
  ordered : Ordered (GenericHeap.keys Node.freq heap)
  counts : ∀ n ∈ heap, n.Counts f

variable {f : Char → ℤ} {heap : List Node}

theorem leafHeap_spec {map : Char → Option ℤ} {k : List Char} (hmap : ∀ c ∈ k, map c = some (f c)) :
    ∃ heap, leafHeap map k = some heap ∧ heap.Perm (k.map fun c => .leaf c (f c)) ∧
    Ordered (GenericHeap.keys Node.freq heap) := by
  refine foldlM_induct (I := fun done heap => heap.Perm (done.map fun c => .leaf c (f c)) ∧
    Ordered (GenericHeap.keys Node.freq heap)) ⟨.refl _, GenericHeap.ordered_nil⟩ ?_
  rintro done c heap hc ⟨hperm, hord⟩
  obtain ⟨heap', hadd, hperm', hord'⟩ := GenericHeap.add_spec compares_freq hord (.leaf c (f c))
  rw [hmap c hc, map_append]
  exact ⟨heap', hadd, (hperm'.trans (hperm.cons _)).trans (perm_append_singleton _ _).symm, hord'⟩

/-- The loop merges least frequencies, and the costs of the trees grow by the costs of the
merging. -/
theorem mergeLoop_spec {fuel : ℕ} (h : Forest f heap) (hne : heap ≠ [])
    (hfuel : heap.length ≤ fuel) :
    ∃ root c, mergeLoop fuel heap = some [root] ∧ root.tree.leaves.Perm (forestLeaves heap) ∧
    root.Counts f ∧ Merging (heap.map Node.freq) c ∧ root.cost = (heap.map Node.cost).sum + c := by
  induction fuel generalizing heap with
  | zero => exact absurd (eq_nil_of_length_eq_zero (by omega)) hne
  | succ fuel ih =>
    unfold mergeLoop
    by_cases hone : heap.length = 1
    · obtain ⟨root, rfl⟩ := length_eq_one_iff.mp hone
      exact ⟨root, 0, if_pos rfl, by simp [forestLeaves], h.counts root mem_cons_self, .single _, by simp⟩
    -- two trees become one
    rw [if_neg hone]
    obtain ⟨n1, heap1, hrem1, hperm1, hord1, hleast1⟩ := GenericHeap.removeHP_spec compares_freq h.ordered hne
    have hlen1 := hperm1.length_eq
    rw [length_cons] at hlen1
    obtain ⟨n2, heap2, hrem2, hperm2, hord2, hleast2⟩ :=
      GenericHeap.removeHP_spec compares_freq hord1 (ne_nil_of_length_pos (by omega))
    obtain ⟨heap3, hadd, hperm3, hord3⟩ :=
      GenericHeap.add_spec compares_freq hord2 (.node (n1.freq + n2.freq) n1 n2)
    have hlen := (hperm2.cons n1).length_eq.trans hperm1.length_eq
    have hlen3 := hperm3.length_eq
    rw [length_cons, length_cons] at hlen
    rw [length_cons] at hlen3
    have hperm : heap.Perm (n1 :: n2 :: heap2) := hperm1.symm.trans (hperm2.symm.cons n1)
    have hcounts : ∀ n ∈ n1 :: n2 :: heap2, n.Counts f := fun n hn => h.counts n (hperm.symm.subset hn)
    have h3 : Forest f heap3 := by
      refine ⟨hord3, fun n hn => ?_⟩
      rcases mem_cons.mp (hperm3.subset hn) with rfl | hn
      · exact ⟨rfl, hcounts n1 (by simp), hcounts n2 (by simp)⟩
      · exact hcounts n (by simp [hn])
    obtain ⟨root, c, hrun, hleaves, hroot, hmerging, hcost⟩ :=
      ih h3 (ne_nil_of_length_pos (by omega)) (by omega)
    refine ⟨root, n1.freq + n2.freq + c, by simp [hrem1, hrem2, hadd, hrun], ?_, hroot,
      .step (hperm.map Node.freq) ?_ ?_ (hperm3.map Node.freq) hmerging, ?_⟩
    · have hmerged : (forestLeaves heap3).Perm (n1.tree.leaves ++ n2.tree.leaves ++ forestLeaves heap2) :=
        forestLeaves_perm hperm3
      rw [append_assoc] at hmerged
      exact (hleaves.trans hmerged).trans (forestLeaves_perm hperm.symm)
    · intro w hw
      obtain ⟨m, hm, rfl⟩ := mem_map.mp (show w ∈ (n2 :: heap2).map Node.freq from hw)
      exact hleast1 m (hperm.symm.subset (mem_cons_of_mem _ hm))
    · intro w hw
      obtain ⟨m, hm, rfl⟩ := mem_map.mp hw
      exact hleast2 m (hperm2.subset (mem_cons_of_mem _ hm))
    · rw [hcost, (hperm3.map Node.cost).sum_eq, (hperm.map Node.cost).sum_eq]
      simp only [map_cons, sum_cons, Node.cost]
      ring

/-! ### The maps hold the codes of the tree -/

theorem traverse_eq (n : Node) (osf : List Char) (maps : Maps) : traverse n osf maps =
    { encoder := putAll maps.encoder (n.tree.words '0' '1' osf)
      decoder := putAll maps.decoder ((n.tree.words '0' '1' osf).map Prod.swap) } := by
  induction n generalizing osf maps with
  | leaf ch freq => rfl
  | node freq left right ihl ihr =>
    rw [traverse, ihl, ihr]
    simp only [Node.tree, CodeTree.words, map_append, putAll_append]

/-- The maps after the traversal of a tree. -/
def mapsOf (root : Node) : Maps := traverse root [] { encoder := fun _ => none, decoder := fun _ => none }

variable {root : Node} {c : Char}

section

variable (hn : root.tree.leaves.Nodup)

include hn

theorem encoder_eq {w : List Char}
    (hm : (c, w) ∈ root.tree.words '0' '1' []) : (mapsOf root).encoder c = some w := by
  rw [mapsOf, traverse_eq]
  refine putAll_of_mem ?_ hm
  rwa [CodeTree.map_fst_words]

theorem decoder_iff {w : List Char} :
    (mapsOf root).decoder w = some c ↔ (c, w) ∈ root.tree.words '0' '1' [] := by
  have hkeys : ((root.tree.words '0' '1' []).map Prod.swap).map Prod.fst =
      (root.tree.words '0' '1' []).map Prod.snd := by
    simp [comp_def]
  have hnodup : (((root.tree.words '0' '1' []).map Prod.swap).map Prod.fst).Nodup := by
    rw [hkeys]
    exact CodeTree.nodup_words (by decide) hn
  have hput : ∀ {d : Char}, (d, w) ∈ root.tree.words '0' '1' [] → (mapsOf root).decoder w = some d := by
    intro d hd
    rw [mapsOf, traverse_eq]
    exact putAll_of_mem hnodup (mem_map_of_mem hd)
  refine ⟨fun hw => ?_, hput⟩
  by_cases hmem : w ∈ (root.tree.words '0' '1' []).map Prod.snd
  · obtain ⟨⟨d, w⟩, hd, rfl⟩ := mem_map.mp hmem
    obtain rfl : d = c := Option.some.inj ((hput hd).symm.trans hw)
    exact hd
  · rw [← hkeys] at hmem
    rw [mapsOf, traverse_eq] at hw
    exact absurd ((putAll_of_notMem hmem).symm.trans hw) (by simp)

theorem prefixFree_decoder : PrefixFree (mapsOf root).decoder := by
  intro v w hv hw hvw
  obtain ⟨a, ha⟩ := Option.isSome_iff_exists.mp hv
  obtain ⟨b, hb⟩ := Option.isSome_iff_exists.mp hw
  exact (CodeTree.word_unique (by decide) ((decoder_iff hn).mp ha) ((decoder_iff hn).mp hb) hvw).2

theorem exists_code (hc : c ∈ root.tree.leaves) :
    ∃ w, (mapsOf root).encoder c = some w ∧ (mapsOf root).decoder w = some c := by
  rw [← CodeTree.map_fst_words '0' '1' _ []] at hc
  obtain ⟨⟨c, w⟩, hm, rfl⟩ := mem_map.mp hc
  exact ⟨w, encoder_eq hn hm, (decoder_iff hn).mpr hm⟩

end

theorem compress_eq_flatMap (maps : Maps) (str : List Char) :
    compress maps str = str.flatMap fun ch => (maps.encoder ch).getD "null".toList := by
  rw [compress, foldl_append_eq_append, nil_append, flatMap_def]

theorem decompress_eq (maps : Maps) (str : List Char) :
    decompress maps str = (str.foldl (decodeSymbol maps.decoder) ([], [])).1 := by
  have hstep : decompressStep maps = decodeSymbol maps.decoder := by
    funext vars x
    unfold decompressStep decodeSymbol
    cases maps.decoder (vars.2 ++ [x]) <;> rfl
  rw [decompress, hstep]

theorem decompress_compress (hn : root.tree.leaves.Nodup) (hnode : (mapsOf root).decoder [] = none)
    {s : List Char} (hs : ∀ c ∈ s, c ∈ root.tree.leaves) :
    decompress (mapsOf root) (compress (mapsOf root) s) = s := by
  rw [compress_eq_flatMap, decompress_eq, decode_words (prefixFree_decoder hn) hnode, nil_append]
  intro c hc
  obtain ⟨w, henc, hdec⟩ := exists_code hn (hs c hc)
  rw [henc]
  exact hdec

theorem compress_leaf (c : Char) (freq : ℤ) {s : List Char} (hs : ∀ d ∈ s, d = c) :
    compress (mapsOf (.leaf c freq)) s = [] := by
  have hcode : (mapsOf (.leaf c freq)).encoder c = some [] := update_self ..
  rw [compress_eq_flatMap, flatMap_eq_nil_iff]
  intro d hd
  rw [hs d hd, hcode]
  rfl

/-- The constructor builds a tree with the characters of `feeder` as its leaves; its cost is that of
merging the frequencies. -/
theorem hEncoder_spec {k feeder : List Char} (hne : feeder ≠ [])
    (hk : IsKeySet (freqmap feeder) k) : ∃ root ws, hEncoder k feeder = some (mapsOf root) ∧
    root.tree.leaves.Perm k ∧ root.Counts (fun c => feeder.count c) ∧
    ws.Perm (k.map fun c => (feeder.count c : ℤ)) ∧ Merging ws root.cost := by
  obtain ⟨c, hc⟩ := exists_mem_of_ne_nil _ hne
  have hmem : ∀ c, c ∈ k ↔ c ∈ feeder := fun c => (hk.2 c).trans (isSome_freqmap feeder c)
  have hmap : ∀ c ∈ k, freqmap feeder c = some (feeder.count c : ℤ) := fun c hc => by
    rw [freqmap_eq, if_pos ((hmem c).mp hc)]
  obtain ⟨heap, hleaf, hperm, hord⟩ := leafHeap_spec hmap
  have hforest : Forest (fun c => feeder.count c) heap := by
    refine ⟨hord, fun n hn => ?_⟩
    obtain ⟨c, -, rfl⟩ := mem_map.mp (hperm.subset hn)
    rfl
  have hne' : heap ≠ [] := by
    rw [← length_pos_iff, hperm.length_eq, length_map]
    exact length_pos_of_mem ((hmem c).mpr hc)
  obtain ⟨root, c, hmerge, hleaves, hcounts, hmerging, hcost⟩ :=
    mergeLoop_spec hforest hne' (Nat.le_succ heap.length)
  have hrem : GenericHeap.removeHP Node.compare [root] = some (root, []) := rfl
  have hzero : (heap.map Node.cost).sum = 0 := by
    rw [(hperm.map Node.cost).sum_eq]
    simp [comp_def, Node.cost]
  rw [hzero, zero_add] at hcost
  refine ⟨root, heap.map Node.freq, ?_, ?_, hcounts, ?_, hcost ▸ hmerging⟩
  · simp [hEncoder, hleaf, hmerge, hrem, mapsOf]
  · simpa [forestLeaves, flatMap_map, Node.tree, CodeTree.leaves] using hleaves.trans (forestLeaves_perm hperm)
  · simpa [comp_def, Node.freq] using hperm.map Node.freq

/-- The round trip fails exactly for the texts that are not empty when `feeder` has one distinct
character. -/
theorem roundTrip_iff (feeder k s : List Char) (hne : feeder ≠ [])
    (hk : IsKeySet (freqmap feeder) k) (hs : ∀ c ∈ s, c ∈ feeder) :
    ∃ maps, hEncoder k feeder = some maps ∧
      (decompress maps (compress maps s) = s ↔ s = [] ∨ ∃ c ∈ feeder, ∃ d ∈ feeder, c ≠ d) := by
  obtain ⟨root, -, hrun, hperm, -⟩ := hEncoder_spec hne hk
  have hmem : ∀ c, c ∈ root.tree.leaves ↔ c ∈ feeder := fun c =>
    hperm.mem_iff.trans ((hk.2 c).trans (isSome_freqmap feeder c))
  have hn : root.tree.leaves.Nodup := hperm.nodup_iff.mpr hk.1
  refine ⟨mapsOf root, hrun, ?_, ?_⟩
  · intro hround
    by_contra hnot
    obtain ⟨hempty, hall⟩ := not_or.mp hnot
    cases root with
    | leaf ch freq =>
      have hone : ∀ d ∈ s, d = ch := fun d hd => mem_singleton.mp ((hmem d).mpr (hs d hd))
      rw [compress_leaf ch freq hone] at hround
      exact hempty hround.symm
    | node freq left right =>
      obtain ⟨c, hc⟩ := exists_mem_of_ne_nil _ left.tree.leaves_ne_nil
      obtain ⟨d, hd⟩ := exists_mem_of_ne_nil _ right.tree.leaves_ne_nil
      have hcd : c ≠ d := (nodup_append.mp hn).2.2 c hc d hd
      have hc' : c ∈ (Node.node freq left right).tree.leaves := mem_append_left _ hc
      have hd' : d ∈ (Node.node freq left right).tree.leaves := mem_append_right _ hd
      exact hall ⟨c, (hmem c).mp hc', d, (hmem d).mp hd', hcd⟩
  · rintro (rfl | ⟨c, hc, d, hd, hcd⟩)
    · rfl
    · cases root with
      | leaf ch freq =>
        have hc' := mem_singleton.mp ((hmem c).mpr hc)
        have hd' := mem_singleton.mp ((hmem d).mpr hd)
        exact absurd (hc'.trans hd'.symm) hcd
      | node freq left right =>
        refine decompress_compress hn ?_ fun c hc => (hmem c).mpr (hs c hc)
        rw [Option.eq_none_iff_forall_ne_some]
        exact fun c hdec => CodeTree.word_ne_nil ((decoder_iff hn).mp hdec) rfl

theorem isKeySet_ab : IsKeySet (freqmap ['a', 'b']) ['a', 'b'] :=
  ⟨by decide, fun c => (isSome_freqmap ['a', 'b'] c).symm⟩

theorem roundTrip_ab : ∃ maps, hEncoder ['a', 'b'] ['a', 'b'] = some maps ∧
    (decompress maps (compress maps ['b', 'a']) = ['b', 'a'] ↔
      ['b', 'a'] = [] ∨ ∃ c ∈ ['a', 'b'], ∃ d ∈ ['a', 'b'], c ≠ d) :=
  roundTrip_iff ['a', 'b'] ['a', 'b'] ['b', 'a'] (by decide) isKeySet_ab (by simp)

/-- With the one character `a` the code of `a` is empty. -/
theorem no_roundTrip_a : IsKeySet (freqmap ['a']) ['a'] ∧ ∃ maps, hEncoder ['a'] ['a'] = some maps ∧
    decompress maps (compress maps ['a']) = [] := by
  refine ⟨⟨by decide, fun c => (isSome_freqmap ['a'] c).symm⟩, mapsOf (.leaf 'a' 1), rfl, ?_⟩
  rfl

end Code365.Algorithms.HEncoder
