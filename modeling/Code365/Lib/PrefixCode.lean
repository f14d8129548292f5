import Mathlib

/-! # Prefix codes

The words of the leaves of a binary tree (`CodeTree.words`): the path to a leaf, in two symbols.  No
word is a proper prefix of another (`CodeTree.word_unique`), so a decoder that cuts the text as soon
as the symbols read so far are a word finds the words again (`decode_words`), unless the empty word
is one: the tree is a single leaf. -/

namespace Code365

open List

variable {α β : Type*} {a : α} {w : List β}

/-! ### Tables filled one entry at a time -/

/-- The entries put one after the other into a table. -/
def putAll [DecidableEq α] (table : α → Option β) (entries : List (α × β)) : α → Option β :=
  entries.foldl (fun table e => Function.update table e.1 (some e.2)) table

theorem putAll_append [DecidableEq α] (table : α → Option β) (es es' : List (α × β)) :
    putAll table (es ++ es') = putAll (putAll table es) es' := foldl_append

theorem putAll_of_notMem [DecidableEq α] {entries : List (α × β)} {table : α → Option β}
    (ha : a ∉ entries.map Prod.fst) : putAll table entries a = table a := by
  induction entries generalizing table with
  | nil => rfl
  | cons e entries ih =>
    obtain ⟨hne, hmem⟩ : a ≠ e.1 ∧ a ∉ entries.map Prod.fst := by simpa using ha
    exact (ih hmem).trans (Function.update_of_ne hne ..)

theorem putAll_of_mem [DecidableEq α] {entries : List (α × β)} {table : α → Option β} {b : β}
    (hn : (entries.map Prod.fst).Nodup) (hm : (a, b) ∈ entries) :
    putAll table entries a = some b := by
  induction entries generalizing table with
  | nil => cases hm
  | cons e entries ih =>
    obtain ⟨he, hn⟩ := nodup_cons.mp hn
    rcases mem_cons.mp hm with rfl | hm
    · exact (putAll_of_notMem he).trans (Function.update_self ..)
    · exact ih hn hm

/-! ### The words of a tree -/

inductive CodeTree (α : Type*) where
  | leaf (a : α)
  | node (left right : CodeTree α)

namespace CodeTree

def leaves : CodeTree α → List α
  | leaf a => [a]
  | node l r => l.leaves ++ r.leaves

theorem leaves_ne_nil : ∀ t : CodeTree α, t.leaves ≠ []
  | leaf _ => cons_ne_nil _ _
  | node l _ => append_ne_nil_of_left_ne_nil l.leaves_ne_nil _

/-- The leaves with their paths, which begin with `path`. -/
def words (zero one : β) : CodeTree α → List β → List (α × List β)
  | leaf a, path => [(a, path)]
  | node l r, path => l.words zero one (path ++ [zero]) ++ r.words zero one (path ++ [one])

variable {zero one : β} {t : CodeTree α} {path : List β}

theorem map_fst_words (zero one : β) (t : CodeTree α) (path : List β) :
    (t.words zero one path).map Prod.fst = t.leaves := by
  induction t generalizing path with
  | leaf a => rfl
  | node l r ihl ihr => rw [words, map_append, ihl, ihr, leaves]

theorem begins_of_mem_words (hm : (a, w) ∈ t.words zero one path) : path <+: w := by
  induction t generalizing path with
  | leaf b =>
    obtain ⟨-, rfl⟩ := Prod.mk.inj (mem_singleton.mp hm)
    exact prefix_refl _
  | node l r ihl ihr =>
    rcases mem_append.mp hm with hm | hm
    · exact (prefix_append _ _).trans (ihl hm)
    · exact (prefix_append _ _).trans (ihr hm)

theorem mem_of_mem_words (hm : (a, w) ∈ t.words zero one path) {b : β} (hb : b ∈ w) :
    b ∈ path ∨ b = zero ∨ b = one := by
  induction t generalizing path with
  | leaf c =>
    obtain ⟨-, rfl⟩ := Prod.mk.inj (mem_singleton.mp hm)
    exact .inl hb
  | node l r ihl ihr =>
    rcases mem_append.mp hm with hm | hm
    · simpa [or_assoc] using ihl hm
    · have h := ihr hm
      simp only [mem_append, mem_singleton] at h
      tauto

/-- No word begins with `path` followed by each of the symbols. -/
theorem zero_eq_one (h0 : path ++ [zero] <+: w) (h1 : path ++ [one] <+: w) : zero = one := by
  have hlen : (path ++ [zero]).length = (path ++ [one]).length := by simp
  have heq := (prefix_of_prefix_length_le h0 h1 hlen.le).eq_of_length hlen
  simpa using heq

theorem word_unique (h01 : zero ≠ one) {b : α} {v : List β} (hv : (a, v) ∈ t.words zero one path)
    (hw : (b, w) ∈ t.words zero one path) (hvw : v <+: w) : a = b ∧ v = w := by
  induction t generalizing path with
  | leaf c =>
    obtain ⟨rfl, rfl⟩ := Prod.mk.inj (mem_singleton.mp hv)
    obtain ⟨rfl, rfl⟩ := Prod.mk.inj (mem_singleton.mp hw)
    exact ⟨rfl, rfl⟩
  | node l r ihl ihr =>
    rcases mem_append.mp hv with hv | hv <;> rcases mem_append.mp hw with hw | hw
    · exact ihl hv hw
    · exact absurd (zero_eq_one ((begins_of_mem_words hv).trans hvw) (begins_of_mem_words hw)) h01
    · exact absurd (zero_eq_one (begins_of_mem_words hw) ((begins_of_mem_words hv).trans hvw)) h01
    · exact ihr hv hw

theorem nodup_words (h01 : zero ≠ one) (hn : t.leaves.Nodup) :
    ((t.words zero one path).map Prod.snd).Nodup := by
  have hwords : (t.words zero one path).Nodup := by
    rw [← map_fst_words zero one t path] at hn
    exact hn.of_map _
  apply (nodup_map_iff_inj_on hwords).mpr
  rintro ⟨a, v⟩ hv ⟨b, w⟩ hw (rfl : v = w)
  rw [(word_unique h01 hv hw (prefix_refl v)).1]

theorem word_ne_nil {l r : CodeTree α} (hm : (a, w) ∈ (node l r).words zero one []) : w ≠ [] := by
  rcases mem_append.mp hm with hm | hm
  · exact ((begins_of_mem_words hm).ne_nil (cons_ne_nil _ _))
  · exact ((begins_of_mem_words hm).ne_nil (cons_ne_nil _ _))

end CodeTree

/-! ### The decoder -/

/-- One symbol: `code` is what was read since the last word. -/
def decodeSymbol (dict : List β → Option α) (acc : List α × List β) (x : β) : List α × List β :=
  match dict (acc.2 ++ [x]) with
  | none => (acc.1, acc.2 ++ [x])
  | some a => (acc.1 ++ [a], [])

/-- No word is a proper prefix of another one. -/
def PrefixFree (dict : List β → Option α) : Prop :=
  ∀ v w, (dict v).isSome → (dict w).isSome → v <+: w → v = w

theorem decode_word {dict : List β → Option α} (hfree : PrefixFree dict) (out : List α) {v : List β}
    (hword : dict (v ++ w) = some a) (hne : w ≠ []) :
    w.foldl (decodeSymbol dict) (out, v) = (out ++ [a], []) := by
  induction w generalizing v with
  | nil => exact absurd rfl hne
  | cons x w ih =>
    rw [foldl_cons, decodeSymbol]
    by_cases hw : w = []
    · subst hw
      simp only [hword, foldl_nil]
    have hnone : dict (v ++ [x]) = none := by
      by_contra hsome
      have heq := hfree (v ++ [x]) (v ++ x :: w) (Option.isSome_iff_ne_none.mpr hsome) (by simp [hword])
        ⟨w, by simp⟩
      exact hw (by simpa using heq)
    simp only [hnone]
    exact ih (by simpa using hword) hw

theorem decode_words {dict : List β → Option α} (hfree : PrefixFree dict) (hnil : dict [] = none)
    {code : α → List β} : ∀ {as : List α} (out : List α), (∀ a ∈ as, dict (code a) = some a) →
    (as.flatMap code).foldl (decodeSymbol dict) (out, []) = (out ++ as, [])
  | [], out, _ => by simp
  | a :: as, out, h => by
    have hword : dict ([] ++ code a) = some a := h a (by simp)
    have hne : code a ≠ [] := by
      intro hempty
      rw [hempty, append_nil, hnil] at hword
      cases hword
    rw [flatMap_cons, foldl_append, decode_word hfree out hword hne,
      decode_words hfree hnil _ fun b hb => h b (by simp [hb]), append_assoc]
    rfl

end Code365
