import Code365.Ini.Settings
import Code365.Ini.NoSections
import Code365.Ini.Tame

/-! # A setting that was written is read back

`ReadYourWrite` is the law of the settings store: after `rj_set_int_conf` returned 0 the new value
is read, and every other entry has the value it had.  It needs every entry to have its section in
the file (`Sectioned`): the dump writes nothing else, so a new setting of a section that the file
does not have is lost although the call returns 0.  It holds when besides the lines of the
dump read back as the entries they were written for (`Plain`). -/

namespace Code365.Ini

open Option List CString Text

/-- The value that loading a file gives to a key. -/
def entryOf (content k : List Char) : Option (Option (List Char)) :=
  match iniparserLoad .fine content with
  | .ok d => dictionaryGet d k
  | .error _ => none

/-- The value is read back whatever the default, and every other entry is as before. -/
structure ReadYourWrite (content key : List Char) (val : Int32) (content' : List Char) : Prop where
  read : ∀ notfound, rjGetIntConf .fine content' key notfound = some val
  frame : ∀ k, ':' ∈ k → k ≠ strlwc key → entryOf content' k = entryOf content k

/-- The section of the key and of every entry of the file is a section of the file. -/
def Sectioned (ini : Dictionary) (key : List Char) : Prop :=
  ∀ k ∈ strlwc key :: ini.keys, ':' ∈ k → sectionOf k ∈ ini.keys

/-- The lines that the dump writes for the new setting and for the other entries read back as
these entries; a nameless section that has entries comes first. -/
structure Plain (ini : Dictionary) (key : List Char) (val : Int32) : Prop where
  target : Legible (nameOf (strlwc key)) (decimal val.toInt)
  others : ∀ s ∈ ini.entries, ':' ∈ s.key → s.key ≠ strlwc key → ∃ v, s.val = some v ∧ Legible (nameOf s.key) v
  nameless : ∀ k ∈ strlwc key :: ini.keys, ':' ∈ k → sectionOf k = [] → (sections ini).head? = some []

/-- No line that the dump writes for an entry of the file has the form of a header or ends with a
backslash. -/
def Tame (ini : Dictionary) : Prop := ∀ s ∈ ini.entries, ':' ∈ s.key → TameLine (slotLine s)

variable {o : Outcomes} {content key content' : List Char} {val : Int32} {ini d : Dictionary}

/-- A key of the form `section:name` keeps its colon, or its section overflows `keym`. -/
theorem colon_mem_strlwc (hk : ':' ∈ cstr key) (hs : strlwc key ∈ d.keys)
    (hd : iniparserDumpIni d = some content') : ':' ∈ strlwc key := by
  by_contra hc
  have hsec : strlwc key ∈ sections d := mem_sections_iff.mpr ⟨hs, hc⟩
  have hshort : ¬ ASCIILINESZ < (strlwc key).length + 1 := by
    intro hl
    unfold iniparserDumpIni at hd
    rw [if_pos ⟨_, hsec, hl⟩] at hd
    cases hd
  have hall : (cstr key).take ASCIILINESZ = cstr key := by
    apply take_of_length_le
    unfold strlwc at hshort
    rw [length_map, length_take] at hshort
    omega
  apply hc
  unfold strlwc
  rw [hall]
  exact mem_map.mpr ⟨':', hk, rfl⟩

theorem rjSetIntConf_eq_zero (hl : iniparserLoad o content = .ok ini)
    (h : rjSetIntConf o content key val = some (0, content')) :
    ∃ d, dictionarySet o.grow ini (strlwc key) (some (decimal val.toInt)) = .ok d ∧
    iniparserDumpIni d = some content' := by
  unfold rjSetIntConf at h
  rw [hl] at h
  simp only at h
  split at h
  · cases h
  split at h
  · cases h
  · cases h
  next d hs =>
    obtain ⟨text, ht, he⟩ := map_eq_some_iff.mp h
    cases he
    exact ⟨d, hs, ht⟩

theorem sections_set {grow : ℕ → Option Lost} {k : List Char} {v : Option (List Char)}
    (h : dictionarySet grow ini k v = .ok d) (hk : ':' ∈ k) : sections d = sections ini := by
  obtain ⟨-, rfl⟩ | ⟨e, he, hn, hed, rfl⟩ := dictionarySet_cases h
  · exact congrArg (List.filter _) (KeyedSlots.keys_replace (Slot.key_of k v) ini.slots)
  · have hkeys : e.keys = ini.keys := congrArg (List.map Slot.key) hed
    unfold sections
    rw [← hkeys]
    exact KeyedSlots.filter_keys_insert (by simp [Slot.of, hk]) e.slots

theorem clean_decimal (v : ℤ) : Clean (decimal v) := by
  constructor
  · exact fun hm => absurd (mem_decimal hm) (by decide)
  · exact fun hm => absurd (mem_decimal hm) (by decide)

section

variable (hl : iniparserLoad o content = .ok ini)

include hl

theorem slot_set {grow : ℕ → Option Lost}
    (h : dictionarySet grow ini (strlwc key) (some (decimal val.toInt)) = .ok d) {s : Slot}
    (hs : s ∈ d.entries) : s = Slot.of (strlwc key) (some (decimal val.toInt)) ∨ s ∈ ini.entries ∧
    s.key ≠ strlwc key ∧ s.Loaded := by
  obtain rfl | ⟨hm, hne⟩ := (mem_entries_set_iff h).mp hs
  · exact .inl rfl
  · exact .inr ⟨hm, hne, slot_loaded hl hm⟩

theorem headerName_of_loaded {sec : List Char}
    (hs : sec ∈ sections ini) : HeaderName sec := by
  obtain ⟨hk, hc⟩ := mem_sections_iff.mp hs
  obtain ⟨s, hm, rfl⟩ := mem_map.mp hk
  exact (slot_loaded hl hm).header hc

theorem dumpable_set
    (h : dictionarySet o.grow ini (strlwc key) (some (decimal val.toInt)) = .ok d)
    (hk : ':' ∈ strlwc key) (hsec : Sectioned ini key) (hp : Plain ini key val) : Dumpable d := by
  have hse := sections_set h hk
  have hin : ∀ s ∈ d.entries, s.key ∈ strlwc key :: ini.keys := by
    intro s hs
    obtain rfl | ⟨hm, -, -⟩ := slot_set hl h hs
    · exact mem_cons_self
    · exact mem_cons_of_mem _ (mem_map_of_mem hm)
  constructor
  case header => exact fun sec hs => headerName_of_loaded hl (hse ▸ hs)
  case short =>
    intro s hs
    obtain rfl | ⟨-, -, hload⟩ := slot_set hl h hs
    · exact length_strlwc_le key
    · exact hload.short
  case key_nul =>
    intro s hs
    obtain rfl | ⟨-, -, hload⟩ := slot_set hl h hs
    · exact nul_notMem_strlwc key
    · exact hload.clean.2
  case val_clean =>
    intro s hs v hv
    obtain rfl | ⟨-, -, hload⟩ := slot_set hl h hs
    · cases hv
      exact clean_decimal _
    · exact hload.val_clean v hv
  case legible =>
    intro s hs hc
    obtain rfl | ⟨hm, hne, -⟩ := slot_set hl h hs
    · exact ⟨_, rfl, hp.target⟩
    · exact hp.others s hm hc hne
  case listed =>
    intro s hs hc
    rw [hse, mem_sections_iff]
    exact ⟨hsec _ (hin s hs) hc, colon_notMem_sectionOf _⟩
  case nameless =>
    intro s hs hc he
    rw [hse]
    exact hp.nameless _ (hin s hs) hc he

end

theorem entryOf_of_load (h : iniparserLoad .fine content = .ok d) (k : List Char) :
    entryOf content k = dictionaryGet d k := by
  unfold entryOf
  rw [h]

/-- Enough for the law: every entry has its section and a line that reads back. -/
theorem readYourWrite_of_plain (hl : iniparserLoad o content = .ok ini)
    (h : rjSetIntConf o content key val = some (0, content')) (hkey : ':' ∈ cstr key)
    (hsec : Sectioned ini key) (hp : Plain ini key val) :
    ReadYourWrite content key val content' := by
  obtain ⟨d, hset, hdump⟩ := rjSetIntConf_eq_zero hl h
  have hk := colon_mem_strlwc hkey ((mem_keys_set_iff hset).mpr (.inl rfl)) hdump
  have hd := dumpable_set hl hset hk hsec hp
  have hne : sections d ≠ [] := by
    have hm := hd.listed (Slot.of (strlwc key) _) ((mem_entries_set_iff hset).mpr (.inl rfl)) hk
    exact ne_nil_of_mem hm
  obtain ⟨text, d', htext, hload, hget⟩ := load_dump hd hne
  obtain rfl : text = content' := some.inj (htext.symm.trans hdump)
  constructor
  · intro notfound
    have hg : iniparserGetstring d' key = some (some (decimal val.toInt)) := by
      unfold iniparserGetstring
      rw [hget _ hk, dictionaryGet_set hset, if_pos rfl]
    have hlo := val.le_toInt
    have hhi := val.toInt_lt
    unfold rjGetIntConf iniparserGetint
    simp only [hload, hg]
    rw [strtol_decimal (by omega) (by omega), Int32.ofInt_toInt]
  · intro k hc hne
    rw [entryOf_of_load hload, entryOf_of_load (load_fine hl), hget k hc, dictionaryGet_set hset, if_neg hne]

/-- A value that is read whatever the default comes from an entry of the file. -/
theorem exists_load_of_read (h : ∀ notfound, rjGetIntConf .fine content key notfound = some val) :
    ∃ d, iniparserLoad .fine content = .ok d ∧ strlwc key ∈ d.keys := by
  obtain ⟨other, hne⟩ : ∃ other : Int32, other ≠ val := by
    by_cases h0 : val = 0
    · exact ⟨1, by rw [h0]; decide⟩
    · exact ⟨0, Ne.symm h0⟩
  have h := h other
  unfold rjGetIntConf at h
  split at h
  · cases h
  · exact absurd (some.inj h) hne
  next d hl =>
    refine ⟨d, hl, ?_⟩
    unfold iniparserGetint iniparserGetstring at h
    split at h
    · exact absurd (some.inj h) hne
    · cases h
    next str hs =>
      rw [← dictionaryGet_isSome_iff, hs]
      rfl

/-- The dictionary `d` that a call dumped and the dictionary `d'` that the dump loads as, when the
law holds. -/
structure Reloaded (ini : Dictionary) (key : List Char) (val : Int32) (d d' : Dictionary) : Prop where
  set : dictionarySet (fun _ => none) ini (strlwc key) (some (decimal val.toInt)) = .ok d
  colon : ':' ∈ strlwc key
  newline : ∀ s ∈ d.entries, '\n' ∉ s.key ∧ ∀ v ∈ s.val, '\n' ∉ v
  run : Loader.init.run (fun _ => none) ((dumpLines d).map (· ++ ['\n'])) = .ok d'
  keys : ∀ k ∈ d.keys, ':' ∈ k → k ∈ d'.keys
  frame : ∀ k, ':' ∈ k → k ≠ strlwc key → dictionaryGet d' k = dictionaryGet d k

theorem exists_reloaded (hl : iniparserLoad o content = .ok ini)
    (h : rjSetIntConf o content key val = some (0, content')) (hkey : ':' ∈ cstr key)
    (hr : ReadYourWrite content key val content') : ∃ d d', Reloaded ini key val d d' := by
  obtain ⟨d, hset, hdump⟩ := rjSetIntConf_eq_zero hl h
  obtain ⟨d', hload, hlkey⟩ := exists_load_of_read hr.read
  have hframe : ∀ k, ':' ∈ k → k ≠ strlwc key → dictionaryGet d' k = dictionaryGet d k := by
    intro k hc he
    have hf := hr.frame k hc he
    rw [entryOf_of_load hload, entryOf_of_load (load_fine hl)] at hf
    rw [hf, dictionaryGet_set hset, if_neg he]
  have hnewline : ∀ s ∈ d.entries, '\n' ∉ s.key ∧ ∀ v ∈ s.val, '\n' ∉ v := by
    intro s hs
    obtain rfl | ⟨-, -, hs⟩ := slot_set hl hset hs
    · obtain ⟨s, hs, he⟩ := mem_map.mp hlkey
      refine ⟨?_, fun v hv => ?_⟩
      · rw [Slot.key_of, ← he]
        exact (slot_loaded hload hs).clean.1
      · cases hv
        exact (clean_decimal _).1
    · exact ⟨hs.clean.1, fun v hv => (hs.val_clean v hv).1⟩
  refine ⟨d, d', dictionarySet_of_ok hset, ?_, hnewline, ?_, fun k hm hc => ?_, hframe⟩
  · exact colon_mem_strlwc hkey ((mem_keys_set_iff hset).mpr (.inl rfl)) hdump
  · rw [← readLines_flatMap (newline_notMem_dumpLines hnewline)]
    unfold iniparserDumpIni at hdump
    split_ifs at hdump
    rw [some.inj hdump]
    exact hload
  · by_cases he : k = strlwc key
    · rwa [he]
    · rw [← dictionaryGet_isSome_iff, hframe k hc he, dictionaryGet_isSome_iff]
      exact hm

namespace Reloaded

variable {d' : Dictionary} (hr : Reloaded ini key val d d') (hl : iniparserLoad o content = .ok ini)
include hr hl

theorem keys_regular :
    ∀ k ∈ d.keys, k.map Char.toLower = k ∧ '\x00' ∉ k ∧ k.length ≤ ASCIILINESZ := by
  intro k hm
  obtain ⟨s, hs, rfl⟩ := mem_map.mp hm
  obtain rfl | ⟨-, -, hs⟩ := slot_set hl hr.set hs
  · exact ⟨map_toLower_strlwc key, nul_notMem_strlwc key, length_strlwc_le key⟩
  · exact ⟨hs.lower, hs.clean.2, hs.short⟩

theorem sections_ne_nil : sections d ≠ [] := by
  intro hnil
  refine not_subset_of_no_section hnil (ne_nil_of_mem ((mem_keys_set_iff hr.set).mpr (.inl rfl)))
    (fun k hm => ?_) hr.run fun k hm => hr.keys k hm ?_
  · refine ⟨?_, (hr.keys_regular hl k hm).2.2⟩
    obtain ⟨s, hs, rfl⟩ := mem_map.mp hm
    exact (hr.newline s hs).1
  · by_contra hc
    exact ne_nil_of_mem (mem_sections_iff.mpr ⟨hm, hc⟩) hnil

theorem header : ∀ sec ∈ sections d, HeaderName sec := by
  intro sec hs
  rw [sections_set hr.set hr.colon] at hs
  exact headerName_of_loaded hl hs

theorem listed : ∀ s ∈ d.entries, ':' ∈ s.key → sectionOf s.key ∈ sections d :=
  listed_of_subset (hr.sections_ne_nil hl) (hr.header hl) (newline_notMem_dumpLines hr.newline) hr.run hr.keys

/-- Needed for the law: the section of every entry is in the file. -/
theorem sectioned : Sectioned ini key := by
  intro k hm hc
  have hkd : k ∈ d.keys := (mem_keys_set_iff hr.set).mpr (mem_cons.mp hm)
  obtain ⟨s, hs, rfl⟩ := mem_map.mp hkd
  have hsec := hr.listed hl s hs hc
  rw [sections_set hr.set hr.colon] at hsec
  exact (mem_sections_iff.mp hsec).1

/-- Needed for the law in a tame file: the lines read back. -/
theorem plain (ht : Tame ini) : Plain ini key val := by
  have hd : TameDump d := by
    refine ⟨hr.header hl, hr.newline, fun s hs hc => ?_⟩
    obtain rfl | ⟨hm, -, -⟩ := slot_set hl hr.set hs
    · exact tameLine_decimal _ _
    · exact ht s hm hc
  have hne := hr.sections_ne_nil hl
  obtain ⟨hnameless, hreads⟩ := reads_of_subset hd hne (hr.keys_regular hl) hr.run hr.keys
  have hlegible : ∀ s ∈ d.entries, ':' ∈ s.key → ∀ v, s.val = some v →
      classify [] (strstrip (slotLine s)) = .lineValue (nameOf s.key) v → Legible (nameOf s.key) v := by
    intro s hs hc v hv hread
    have hline : slotLine s = entryLine (nameOf s.key) v := by simp [slotLine, hv]
    have hfit := (origin_of_run hd hne hr.run).1 s (mem_listedEntries_iff.mpr ⟨hs, hc, hr.listed hl s hs hc⟩)
    have hwhole := (hd.tame s hs hc).1
    rw [hline] at hread hfit hwhole
    exact ⟨hread, fun hn => (hr.newline s hs).1 (drop_subset _ _ hn), hwhole, hfit⟩
  have htarget : Slot.of (strlwc key) (some (decimal val.toInt)) ∈ d.entries :=
    (mem_entries_set_iff hr.set).mpr (.inl rfl)
  constructor
  case target =>
    obtain ⟨v, hread, -⟩ := hreads _ htarget hr.colon
    obtain rfl := value_entryLine_decimal (eq_notMem_of_classify hread) hread
    exact hlegible _ htarget hr.colon _ rfl hread
  case others =>
    intro s hs hc hne'
    have hsd : s ∈ d.entries := (mem_entries_set_iff hr.set).mpr (.inr ⟨hs, hne'⟩)
    obtain ⟨v, hread, hget⟩ := hreads s hsd hc
    have hval : dictionaryGet d s.key = some s.val := by
      rw [dictionaryGet_eq_some_iff, ← Slot.eq_of]
      exact hsd
    rw [hr.frame _ hc hne', hval, some.injEq] at hget
    exact ⟨v, hget, hlegible s hsd hc v hget hread⟩
  case nameless =>
    intro k hm hc he
    have hkd : k ∈ d.keys := (mem_keys_set_iff hr.set).mpr (mem_cons.mp hm)
    obtain ⟨s, hs, rfl⟩ := mem_map.mp hkd
    rw [← sections_set hr.set hr.colon]
    exact hnameless s hs hc he

end Reloaded

/-- A call that returned 0 has kept the law when the section of every entry is in the file and the
lines of the dump read back.  The first is needed in every file, the second in every file without
entries whose lines look like headers or are continued. -/
theorem readYourWrite_of_set (hl : iniparserLoad o content = .ok ini) (hkey : ':' ∈ cstr key)
    (h : rjSetIntConf o content key val = some (0, content')) :
    (Sectioned ini key ∧ Plain ini key val → ReadYourWrite content key val content') ∧
      (ReadYourWrite content key val content' → Sectioned ini key ∧
      (Tame ini → Plain ini key val)) := by
  constructor
  · rintro ⟨hsec, hp⟩
    exact readYourWrite_of_plain hl h hkey hsec hp
  · intro hr
    obtain ⟨d, d', hre⟩ := exists_reloaded hl h hkey hr
    exact ⟨hre.sectioned hl, hre.plain hl⟩

/-- A file with one setting. -/
def oneSetting : List Char := ['[', 'a', ']', '\n', 'x', ' ', '=', ' ', '1', '\n']

/-- What `oneSetting` loads as. -/
def oneEntry : Dictionary :=
  match iniparserLoad .fine oneSetting with
  | .ok d => d
  | .error _ => dictionaryNew 0

theorem load_oneSetting : iniparserLoad .fine oneSetting = .ok oneEntry := by
  have hok : (iniparserLoad .fine oneSetting).isOk := by decide +kernel
  unfold oneEntry
  split
  next hl => exact hl
  next hl =>
    rw [hl] at hok
    cases hok

theorem oneSetting_readYourWrite : ∃ content', rjSetIntConf .fine oneSetting ['a', ':', 'y'] 5 =
      some (0, content') ∧ ReadYourWrite oneSetting ['a', ':', 'y'] 5 content' := by
  have hset : rjSetIntConf .fine oneSetting ['a', ':', 'y'] 5 = some (0, ['\n'] ++ header ['a'] ++
      ['\n'] ++ entryLine ['x'] ['1'] ++ ['\n'] ++ entryLine ['y'] ['5'] ++ ['\n', '\n']) := by
    decide +kernel
  refine ⟨_, hset, (readYourWrite_of_set load_oneSetting (by decide) hset).1 ⟨?_, ?_, ?_, ?_⟩⟩
  · unfold Sectioned
    decide +kernel
  · constructor
    all_goals decide +kernel
  · have hall : ∀ s ∈ oneEntry.entries, ':' ∈ s.key → s.key = ['a', ':', 'x'] ∧ s.val = some ['1'] := by
      decide +kernel
    intro s hs hc _
    obtain ⟨hk, hv⟩ := hall s hs hc
    refine ⟨_, hv, ?_⟩
    rw [hk]
    constructor
    all_goals decide +kernel
  · decide +kernel

theorem oneSetting_setting_lost : ∃ content', rjSetIntConf .fine oneSetting ['b', ':', 'y'] 5 =
      some (0, content') ∧ ¬ ReadYourWrite oneSetting ['b', ':', 'y'] 5 content' := by
  refine ⟨['\n'] ++ header ['a'] ++ ['\n'] ++ entryLine ['x'] ['1'] ++ ['\n', '\n'], ?_, ?_⟩
  · decide +kernel
  · intro h
    have hread : rjGetIntConf .fine (['\n'] ++ header ['a'] ++ ['\n'] ++ entryLine ['x'] ['1'] ++
      ['\n', '\n']) ['b', ':', 'y'] 7 = some 7 := by decide +kernel
    exact absurd ((h.read 7).symm.trans hread) (by decide)

end Code365.Ini
