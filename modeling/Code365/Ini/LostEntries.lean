import Code365.Ini.RoundTrip

/-! # Entries that the dump loses

The dump writes an entry only under the header of its section, and a dictionary without sections as
`section:name = value` lines without a header.  Every round of the loader adds at most one key with
a colon, a blank line or a header none (`colonKeys_step`): a dump loads to at most as many entries
as it has entry lines (`colonKeys_run`), so all keys come back only if every entry was written
(`listed_of_subset`). -/

namespace Code365.Ini

open List CString Text

def hasColon (key : List Char) : Bool := ':' ∈ key

/-! ### Counting keys -/

namespace Loader

variable {grow : ℕ → Option Lost} {st st' : Loader} {l : List Char}

/-- The keys with a colon that are in the dictionary. -/
def colonKeys (st : Loader) : ℕ := st.dict.keys.countP hasColon

/-- A line is being continued. -/
def pending (st : Loader) : ℕ := if st.line = [] then 0 else 1

/-- The section in force has no colon or is a key already. -/
def Settled (st : Loader) : Prop := ':' ∉ st.sec ∨ st.sec ∈ st.dict.keys

theorem pending_le (st : Loader) : st.pending ≤ 1 := by
  unfold pending
  split <;> omega

theorem colonKeys_set {dict : Dictionary} {key : List Char} {val : Option (List Char)}
    {sec line : List Char} {errs : ℤ} (h : dictionarySet grow st.dict key val = .ok dict) :
    colonKeys ⟨dict, sec, line, errs⟩ ≤ st.colonKeys + 1 := by
  have hc := countP_keys_set_le h hasColon
  have h1 : [key].countP hasColon ≤ 1 := countP_le_length
  unfold colonKeys
  split at hc <;> simp only <;> omega

theorem colonKeys_switch (hs : Settled st) {line : List Char} (h : st.switch grow line = .ok st') :
    Settled st' ∧ st'.colonKeys + st'.pending ≤ st.colonKeys + 1 := by
  obtain ⟨errs, rfl⟩ | ⟨sec, dict, -, hd, rfl⟩ | ⟨key, val, dict, -, -, hd, rfl⟩ := switch_cases h
  · refine ⟨hs, ?_⟩
    simp [colonKeys, pending]
  · refine ⟨.inr ((mem_keys_set_iff hd).mpr (.inl rfl)), ?_⟩
    exact colonKeys_set hd
  · refine ⟨hs.imp_right fun hk => (mem_keys_set_iff hd).mpr (.inr hk), ?_⟩
    exact colonKeys_set hd

/-- A round adds at most one key for a line that was kept or is new. -/
theorem colonKeys_step {piece : List Char} (hs : Settled st) (h : st.step grow piece = .ok st') :
    Settled st' ∧ st'.colonKeys + st'.pending ≤ st.colonKeys + 1 := by
  obtain ⟨b, -, ⟨-, rfl⟩ | ⟨-, hc⟩⟩ := step_cases h
  · refine ⟨hs, ?_⟩
    have := pending_le { st with line := (b.rdropWhile isspace).dropLast }
    simp only [colonKeys] at *
    omega
  · exact colonKeys_switch hs hc

/-- Blank lines and headers of sections. -/
def Silent (l : List Char) : Prop := l = [] ∨ ∃ sec, HeaderName sec ∧ ':' ∉ sec ∧ l = header sec

theorem colonKeys_silent (hl : st.line = []) (hs : Settled st) (hsec : HeaderName st.sec)
    (hq : Silent l) (h : st.step grow (l ++ ['\n']) = .ok st') :
    st'.colonKeys + st'.pending ≤ st.colonKeys := by
  obtain rfl | ⟨sec, hn, hc, rfl⟩ := hq
  · rw [step_line hl ⟨not_mem_nil, not_mem_nil⟩ (by decide) (by decide)] at h
    cases h
    simp [colonKeys, pending]
  rw [step_header hl hn] at h
  obtain ⟨dict, hd, rfl⟩ := store_eq_ok h
  have hcount := countP_keys_set_le hd hasColon
  have hzero : (if inForce st.sec sec ∈
      st.dict.keys then 0 else [inForce st.sec sec].countP hasColon) = 0 := by
    split
    · rfl
    next hk =>
      have hcol : ':' ∉ inForce st.sec sec := by
        rw [inForce_eq hsec] at hk ⊢
        split at hk
        next he =>
          rw [if_pos he]
          exact hs.resolve_right hk
        next he =>
          rw [if_neg he]
          exact hc
      simp [hasColon, hcol]
  rw [hzero] at hcount
  simpa [colonKeys, pending] using hcount

/-- A file loads to at most as many entries as it has lines that are neither blank nor headers. -/
theorem colonKeys_run {q : List Char → Bool} {d : Dictionary} :
    ∀ {ls : List (List Char)} {st : Loader}, (∀ l ∈ ls, '\n' ∉ l ∧ (q l = false → Silent l)) →
    Sound st → Settled st → st.run grow (ls.map (· ++ ['\n'])) = .ok d →
    d.keys.countP hasColon ≤ st.colonKeys + st.pending + ls.countP q
  | [], st, _, _, _, h => by
    obtain rfl := dict_of_run_nil h
    unfold colonKeys
    omega
  | l :: ls, st, hl, hs, hset, h => by
    obtain ⟨st', hst, h⟩ := run_cons_eq_ok h
    obtain ⟨hn, hq⟩ := hl l mem_cons_self
    obtain ⟨hset', hle⟩ := colonKeys_step hset hst
    have hs' := hs.step (by rwa [dropLast_concat]) hst
    have ih := colonKeys_run (fun l hm => hl l (mem_cons_of_mem _ hm)) hs' hset' h
    rw [countP_cons]
    by_cases hline : st.line = []
    · by_cases hql : q l
      · rw [if_pos hql]
        omega
      · have hsil := colonKeys_silent hline hset hs.sec (hq (by simpa using hql)) hst
        omega
    · have hp : st.pending = 1 := if_neg hline
      omega

end Loader

/-! ### Entries without a section -/

/-- The entries that the dump writes. -/
def listedEntries (d : Dictionary) : List Slot := (sections d).flatMap (entriesOf d)

theorem nodup_entries (d : Dictionary) : d.entries.Nodup := List.Nodup.of_map _ d.nodup

theorem mem_listedEntries_iff {d : Dictionary} {s : Slot} :
    s ∈ listedEntries d ↔ s ∈ d.entries ∧ ':' ∈ s.key ∧ sectionOf s.key ∈ sections d := by
  unfold listedEntries
  rw [mem_flatMap]
  constructor
  · rintro ⟨sec, hs, hm⟩
    obtain ⟨he, hk, rfl⟩ := (mem_entriesOf_iff (colon_notMem_of_mem_sections hs)).mp hm
    exact ⟨he, hk, hs⟩
  · rintro ⟨hm, hk, hs⟩
    exact ⟨_, hs, (mem_entriesOf_iff (colon_notMem_sectionOf _)).mpr ⟨hm, hk, rfl⟩⟩

theorem nodup_listedEntries (d : Dictionary) : (listedEntries d).Nodup := by
  unfold listedEntries
  rw [nodup_flatMap]
  refine ⟨fun sec _ => (nodup_entries d).filter _, ?_⟩
  have hnd : (sections d).Nodup := d.nodup.filter _
  apply hnd.imp_of_mem
  intro a b ha hb hne s hs hs'
  obtain ⟨-, -, rfl⟩ := (mem_entriesOf_iff (colon_notMem_of_mem_sections ha)).mp hs
  obtain ⟨-, -, he⟩ := (mem_entriesOf_iff (colon_notMem_of_mem_sections hb)).mp hs'
  exact hne he

/-- The lines of the dump that are neither blank nor headers of sections. -/
def noisy (d : Dictionary) (l : List Char) : Bool := l ≠ [] ∧ l ∉ (sections d).map header

theorem countP_noisy_le (d : Dictionary) : ∀ secs : List (List Char), secs ⊆ sections d →
    (secs.flatMap (sectionLines d)).countP (noisy d) ≤ (secs.flatMap (entriesOf d)).length
  | [], _ => by simp
  | sec :: secs, h => by
    have ih := countP_noisy_le d secs fun s hs => h (mem_cons_of_mem _ hs)
    have hm := h mem_cons_self
    rw [flatMap_cons, flatMap_cons, countP_append, length_append,
      sectionLines_eq (colon_notMem_of_mem_sections hm), countP_cons, countP_cons]
    have h0 : noisy d [] = false := by simp [noisy]
    have h1 : noisy d (header sec) = false := by
      have : header sec ∈ (sections d).map header := mem_map_of_mem hm
      simp [noisy, this]
    have h2 := countP_le_length (p := noisy d)
      (l := (entriesOf d sec).map slotLine)
    rw [length_map] at h2
    rw [h0, h1]
    simp only [Bool.false_eq_true, if_false]
    omega

/-- When all keys come back from the dump, every entry was written under its section. -/
theorem listed_of_subset {d d' : Dictionary} {grow : ℕ → Option Lost} (hne : sections d ≠ [])
    (hh : ∀ sec ∈ sections d, HeaderName sec) (hl : ∀ l ∈ dumpLines d, '\n' ∉ l)
    (hrun : Loader.init.run grow ((dumpLines d).map (· ++ ['\n'])) = .ok d')
    (hsub : ∀ k ∈ d.keys, ':' ∈ k → k ∈ d'.keys) :
    ∀ s ∈ d.entries, ':' ∈ s.key → sectionOf s.key ∈ sections d := by
  have hq : ∀ l ∈ dumpLines d, '\n' ∉ l ∧ (noisy d l = false → Loader.Silent l) := by
    intro l hm
    refine ⟨hl l hm, fun hn => ?_⟩
    by_cases hnil : l = []
    · exact .inl hnil
    · have hm : l ∈ (sections d).map header := by
        by_contra hc
        simp [noisy, hnil, hc] at hn
      obtain ⟨sec, hs, rfl⟩ := mem_map.mp hm
      exact .inr ⟨sec, hh sec hs, colon_notMem_of_mem_sections hs, rfl⟩
  have hcount := Loader.colonKeys_run hq Loader.sound_init (.inl not_mem_nil) hrun
  have hinit : Loader.init.colonKeys + Loader.init.pending = 0 := by
    simp [Loader.colonKeys, Loader.pending, Loader.init]
  have hlines : (dumpLines d).countP (noisy d) ≤ (listedEntries d).length := by
    rw [dumpLines_eq hne, countP_append]
    have := countP_noisy_le d (sections d) (fun _ h => h)
    have h0 : [([] : List Char)].countP (noisy d) = 0 := by simp [noisy]
    unfold listedEntries
    omega
  intro s hs hk
  by_contra hn
  -- the entry that was not written makes one key too many
  have hnd : (s :: listedEntries d).Nodup :=
    nodup_cons.mpr ⟨fun hm => hn (mem_listedEntries_iff.mp hm).2.2, nodup_listedEntries d⟩
  have hmem : ∀ e ∈ s :: listedEntries d, e ∈ d.entries ∧ ':' ∈ e.key := by
    intro e he
    obtain rfl | he := mem_cons.mp he
    · exact ⟨hs, hk⟩
    · obtain ⟨hm, hc, -⟩ := mem_listedEntries_iff.mp he
      exact ⟨hm, hc⟩
  have hkeys : ((s :: listedEntries d).map Slot.key).Nodup :=
    hnd.map_on fun a ha b hb he => Dictionary.eq_of_key_eq (hmem a ha).1 (hmem b hb).1 he
  have hsub' : (s :: listedEntries d).map Slot.key ⊆ d'.keys.filter hasColon := by
    intro k hm
    obtain ⟨e, he, rfl⟩ := mem_map.mp hm
    obtain ⟨hm, hc⟩ := hmem e he
    exact mem_filter.mpr ⟨hsub _ (mem_map_of_mem hm) hc, by simpa [hasColon] using hc⟩
  have hle := (hkeys.subperm hsub').length_le
  rw [length_map, length_cons, ← countP_eq_length_filter] at hle
  omega

end Code365.Ini
