import Code365.Ini.Loader

/-! # Loading what the dump wrote

The dump writes the entries of each section under its header.  When every entry has a section in
the dictionary and the line of every entry reads back as the entry (`Legible`), loading the dump
gives every entry its value back (`load_dump`).  `Reading` is what holds between the rounds of the
loader over the lines of the dump; one lemma for each kind of line carries it along. -/

namespace Code365.Ini

open List CString Text

/-- The part of a key before its first colon. -/
def sectionOf (key : List Char) : List Char := key.takeWhile (· ≠ ':')

/-- The part of a key after its first colon. -/
def nameOf (key : List Char) : List Char := key.drop ((sectionOf key).length + 1)

/-- The line that the dump writes for an entry is one line, fits the buffer, and reads back as the
entry. -/
structure Legible (name val : List Char) : Prop where
  reads : iniparserLine [] (entryLine name val) = .lineValue name val
  newline : '\n' ∉ name
  whole : ¬ continued ((entryLine name val).rdropWhile isspace)
  fits : (entryLine name val).length < ASCIILINESZ - 1

variable {sec key : List Char}

theorem sectionOf_append (h : ':' ∉ sec) (name : List Char) :
    sectionOf (sec ++ ':' :: name) = sec := takeWhile_ne_append h name

theorem nameOf_append (h : ':' ∉ sec) (name : List Char) : nameOf (sec ++ ':' :: name) = name := by
  unfold nameOf
  rw [sectionOf_append h]
  simp

theorem colon_notMem_sectionOf (key : List Char) : ':' ∉ sectionOf key := fun h => by
  simpa using mem_takeWhile_imp h

theorem sectionOf_append_nameOf (h : ':' ∈ key) : sectionOf key ++ ':' :: nameOf key = key := by
  obtain ⟨sec, name, rfl, hs⟩ := eq_append_cons_of_mem h
  rw [sectionOf_append hs, nameOf_append hs]

theorem mem_sections_iff {d : Dictionary} : sec ∈ sections d ↔ sec ∈ d.keys ∧ ':' ∉ sec := by
  unfold sections
  simp

theorem colon_notMem_of_mem_sections {d : Dictionary} (h : sec ∈ sections d) :
    ':' ∉ sec := (mem_sections_iff.mp h).2

theorem isPrefixOf_iff_sectionOf (hs : ':' ∉ sec) :
    (sec ++ [':']).isPrefixOf key ↔ ':' ∈ key ∧ sectionOf key = sec := by
  rw [ isPrefixOf_iff_prefix]
  constructor
  · rintro ⟨name, rfl⟩
    rw [append_assoc]
    exact ⟨by simp, sectionOf_append hs name⟩
  · rintro ⟨hk, rfl⟩
    refine ⟨nameOf key, ?_⟩
    rw [append_assoc]
    exact sectionOf_append_nameOf hk

/-! ### The lines of the dump -/

theorem flatMap_range_getElem? {α β : Type*} (f : α → List β) (l : List α) :
    (List.range l.length).flatMap (fun i => ((l[i]?).map f).getD []) = l.flatMap f := by
  induction l with
  | nil => rfl
  | cons a l ih =>
    rw [length_cons, range_succ_eq_map, flatMap_cons, flatMap_map, flatMap_cons]
    simpa using ih

theorem dumpLines_eq {d : Dictionary} (h : sections d ≠ []) :
    dumpLines d = (sections d).flatMap (sectionLines d) ++ [[]] := by
  have hn : ¬ iniparserGetnsec d < 1 := by
    have := length_pos_of_ne_nil h
    unfold iniparserGetnsec
    omega
  unfold dumpLines
  rw [if_neg hn]
  congr 1
  exact flatMap_range_getElem? _ _

/-- The entries that the dump writes under a header. -/
def entriesOf (d : Dictionary) (sec : List Char) : List Slot :=
  d.entries.filter (fun s => (sec ++ [':']).isPrefixOf s.key)

theorem mem_entriesOf_iff {d : Dictionary} (hs : ':' ∉ sec) {s : Slot} :
    s ∈ entriesOf d sec ↔ s ∈ d.entries ∧ ':' ∈ s.key ∧ sectionOf s.key = sec := by
  unfold entriesOf
  rw [mem_filter, isPrefixOf_iff_sectionOf hs]

/-- The line that the dump writes for a slot under the header of its section. -/
def slotLine (s : Slot) : List Char := entryLine (nameOf s.key) (s.val.getD [])

theorem sectionLines_eq {d : Dictionary} (hs : ':' ∉ sec) :
    sectionLines d sec = [] :: header sec :: (entriesOf d sec).map slotLine := by
  refine congrArg _ (congrArg _ (map_congr_left fun s hm => ?_))
  obtain ⟨-, -, rfl⟩ := (mem_entriesOf_iff hs).mp hm
  rfl

/-! ### One line -/

namespace Loader

variable {grow : ℕ → Option Lost} {st : Loader}

theorem run_cons {st' : Loader} {piece : List Char} {pieces : List (List Char)}
    (h : st.step grow piece = .ok st') : st.run grow (piece :: pieces) = st'.run grow pieces := by
  conv_lhs => unfold run
  simp only [h]

theorem step_line {l : List Char} (hl : st.line = []) (hc : Clean l)
    (hs : l.length < ASCIILINESZ - 1) (hn : ¬ continued (l.rdropWhile isspace)) :
    st.step grow (l ++ ['\n']) = st.switch grow l := by
  have hb : st.buffer (l ++ ['\n']) = l ++ ['\n'] := by
    unfold buffer
    rw [hl, nil_append, take_of_length_le (by
      rw [length_append, length_singleton, length_nil]
      omega)]
    exact cstr_eq_self (by simpa using hc.2)
  have hlast : (l ++ ['\n']).getLast? = some '\n' := by simp
  unfold step
  simp only [hb, hlast, ne_eq, not_true_eq_false, if_false]
  rw [rdropWhile_concat_pos _ _ _ (by decide)]
  unfold receive
  rw [if_neg hn, switch_rdropWhile]

end Loader

theorem getLast?_header (sec : List Char) : (header sec).getLast? = some ']' := by
  unfold header
  rw [← cons_append, getLast?_concat]

theorem rdropWhile_header (sec : List Char) : (header sec).rdropWhile isspace = header sec := by
  rw [rdropWhile_eq_self_iff]
  intro hne
  have hlast := getLast?_header sec
  rw [getLast?_eq_some_getLast hne, Option.some.injEq] at hlast
  rw [hlast]
  decide

/-- The section in force after a header: its name, or what was in force before `[]`. -/
def inForce (sec0 sec : List Char) : List Char := if sec = [] then strlwc (strstrip sec0) else sec

theorem inForce_eq {sec0 : List Char} (h : HeaderName sec0) :
    inForce sec0 sec = if sec = [] then sec0 else sec := by
  unfold inForce
  rw [h.stripped, h.lower]

theorem classify_header (hs : HeaderName sec) (sec0 : List Char) :
    classify sec0 (strstrip (header sec)) = .lineSection (inForce sec0 sec) := by
  have hh : (header sec).head? = some '[' := rfl
  have hl := getLast?_header sec
  have hst : strstrip (header sec) = header sec := by
    apply strip_eq_self
    · simp [hh, isspace]
    · simp [hl, isspace]
  have htail : (header sec).tail.takeWhile (· ≠ ']') = sec := takeWhile_ne_append hs.bracket []
  rw [hst]
  unfold classify
  rw [if_neg (by simp [header]), if_neg (by simp [header]), if_pos ⟨hh, hl⟩]
  unfold scanSection scanSet inForce
  rw [htail]
  split
  · rfl
  · simp only [Option.map_some, Option.getD_some]
    rw [hs.stripped, hs.lower]

theorem Loader.step_header {grow : ℕ → Option Lost} {st : Loader} (hl : st.line = [])
    (hs : HeaderName sec) : st.step grow (header sec ++ ['\n']) =
    st.store grow (inForce st.sec sec) (inForce st.sec sec) none := by
  rw [Loader.step_line hl]
  · unfold Loader.switch iniparserLine
    rw [classify_header hs]
  · have hcl := hs.clean
    constructor
    · simpa [header] using hcl.1
    · simpa [header] using hcl.2
  · have hsh := hs.short
    simp only [header, length_cons, length_append]
    omega
  · rw [rdropWhile_header, continued, getLast?_header]
    decide

/-- The dump is being read: the entries with the keys `done` have their values, the others are not
there yet. -/
structure Reading (d : Dictionary) (done : List (List Char)) (st : Loader) : Prop where
  line : st.line = []
  errs : st.errs = 0
  colon : ':' ∉ st.sec
  get : ∀ k, ':' ∈ k → dictionaryGet st.dict k = if k ∈ done then dictionaryGet d k else none

section
variable {d : Dictionary} {done : List (List Char)} {st : Loader}

theorem reading_init (d : Dictionary) : Reading d [] Loader.init := by
  refine ⟨rfl, rfl, not_mem_nil, fun k _ => ?_⟩
  rw [if_neg not_mem_nil, ← Option.not_isSome_iff_eq_none, dictionaryGet_isSome_iff]
  simp [Loader.init]

theorem Reading.blank (h : Reading d done st) :
    st.step (fun _ => none) (([] : List Char) ++ ['\n']) = .ok st := by
  rw [Loader.step_line h.line ⟨not_mem_nil, not_mem_nil⟩ (by decide) (by decide)]
  have hs : ({ st with line := [] } : Loader) = st := by rw [← h.line]
  exact congrArg Except.ok hs

variable {sec v : List Char}

/-- The header of a section puts it in force; an empty name leaves what was in force. -/
theorem Reading.sectionHeader (h : Reading d done st) (hs : HeaderName sec) (hc : ':' ∉ sec) :
    ∃ st', st.step (fun _ => none) (header sec ++ ['\n']) = .ok st' ∧ Reading d done st' ∧
    (sec ≠ [] ∨ st.sec = [] → st'.sec = sec) := by
  have hcol : ':' ∉ inForce st.sec sec := by
    unfold inForce
    split
    · exact fun hm => h.colon (strstrip_subset _ (mem_strlwc (by decide) hm))
    · exact hc
  obtain ⟨dict, hd⟩ := exists_dictionarySet_ok st.dict (inForce st.sec sec) none
  refine ⟨⟨dict, inForce st.sec sec, [], 0⟩, ?_, ⟨rfl, rfl, hcol, fun k hm => ?_⟩, fun hin => ?_⟩
  · rw [Loader.step_header h.line hs]
    unfold Loader.store
    simp only [hd]
  · rw [dictionaryGet_set hd, if_neg (by rintro rfl; exact hcol hm)]
    exact h.get k hm
  · simp only [inForce]
    split
    next he =>
      rw [hin.resolve_left (not_not.mpr he), he]
      rfl
    · rfl

variable {s : Slot}

/-- The line of an entry under its section gives the entry its value. -/
theorem Reading.entry (h : Reading d done st) (hs : s ∈ d.entries) (hk : ':' ∈ s.key)
    (hsec : sectionOf s.key = st.sec) (hl : s.key.length ≤ ASCIILINESZ) (hv : s.val = some v)
    (hleg : Legible (nameOf s.key) v) (hc : Clean (entryLine (nameOf s.key) v)) :
    ∃ st', st.step (fun _ => none) (entryLine (nameOf s.key) v ++ ['\n']) = .ok st' ∧
    Reading d (done ++ [s.key]) st' ∧ st'.sec = st.sec := by
  have hkey := sectionOf_append_nameOf hk
  rw [hsec] at hkey
  obtain ⟨dict, hd⟩ := exists_dictionarySet_ok st.dict (st.sec ++ ':' :: nameOf s.key) (some v)
  have hlen : ¬ ASCIILINESZ < st.sec.length + 1 + (nameOf s.key).length := by
    rw [← hkey, length_append, length_cons] at hl
    omega
  refine ⟨⟨dict, st.sec, [], 0⟩, ?_, ⟨rfl, rfl, h.colon, fun k hk => ?_⟩, rfl⟩
  · rw [Loader.step_line h.line hc hleg.fits hleg.whole]
    have hr := classify_value_congr hleg.reads st.sec
    unfold Loader.switch iniparserLine Loader.store
    simp only [hr, if_neg hlen, hd]
  · rw [hkey] at hd
    rw [dictionaryGet_set hd]
    by_cases he : k = s.key
    · subst he
      rw [if_pos rfl, if_pos (by simp), eq_comm, dictionaryGet_eq_some_iff, ← hv, ← Slot.eq_of]
      exact hs
    · rw [if_neg he, h.get k hk]
      simp only [mem_append, mem_singleton, he, or_false]

/-! ### The whole dump -/

/-- A dictionary that its dump gives back: every entry has a section, its line is legible, and
entries of the nameless section come first. -/
structure Dumpable (d : Dictionary) : Prop where
  header : ∀ sec ∈ sections d, HeaderName sec
  short : ∀ s ∈ d.entries, s.key.length ≤ ASCIILINESZ
  key_nul : ∀ s ∈ d.entries, '\x00' ∉ s.key
  val_clean : ∀ s ∈ d.entries, ∀ v ∈ s.val, Clean v
  legible : ∀ s ∈ d.entries, ':' ∈ s.key → ∃ v, s.val = some v ∧ Legible (nameOf s.key) v
  listed : ∀ s ∈ d.entries, ':' ∈ s.key → sectionOf s.key ∈ sections d
  nameless : ∀ s ∈ d.entries, ':' ∈ s.key → sectionOf s.key = [] → (sections d).head? = some []

theorem clean_entryLine (hd : Dumpable d) (hs : s ∈ d.entries) (hv : s.val = some v)
    (hleg : Legible (nameOf s.key) v) : Clean (entryLine (nameOf s.key) v) := by
  have hname : Clean (nameOf s.key) :=
    ⟨hleg.newline, fun hn => hd.key_nul s hs (drop_subset _ _ hn)⟩
  have hpad : Clean (List.replicate (30 - (nameOf s.key).length) ' ') := by
    constructor
    · simp [mem_replicate]
    · simp [mem_replicate]
  have heq : Clean [' ', '=', ' '] := ⟨by decide, by decide⟩
  exact ((hname.append hpad).append heq).append (hd.val_clean s hs v hv)

theorem Reading.entries (hd : Dumpable d) (pieces : List (List Char)) :
    ∀ {es : List Slot} {done : List (List Char)} {st : Loader},
    (∀ s ∈ es, s ∈ d.entries ∧ ':' ∈ s.key ∧ sectionOf s.key = st.sec) → Reading d done st →
    ∃ st', st.run (fun _ => none) ((es.map slotLine).map (· ++ ['\n']) ++ pieces) =
    st'.run (fun _ => none) pieces ∧ Reading d (done ++ es.map Slot.key) st'
  | [], done, st, _, h => ⟨st, rfl, by rwa [map_nil, append_nil]⟩
  | s :: es, done, st, hes, h => by
    obtain ⟨hm, hk, hsec⟩ := hes s mem_cons_self
    obtain ⟨v, hv, hleg⟩ := hd.legible s hm hk
    obtain ⟨st1, hstep, h1, hsec1⟩ :=
      h.entry hm hk hsec (hd.short s hm) hv hleg (clean_entryLine hd hm hv hleg)
    obtain ⟨st', hrun, h'⟩ := Reading.entries hd pieces (fun s hs => hsec1 ▸ hes s (mem_cons_of_mem _ hs)) h1
    have hline : slotLine s = entryLine (nameOf s.key) v := by simp [slotLine, hv]
    refine ⟨st', ?_, by rwa [map_cons, append_cons]⟩
    rw [map_cons, map_cons, cons_append, hline, Loader.run_cons hstep, hrun]

theorem Reading.block (hd : Dumpable d) (hs : sec ∈ sections d) (h : Reading d done st)
    (hin : sec ≠ [] ∨ st.sec = [] ∨ entriesOf d sec = []) (pieces : List (List Char)) :
    ∃ st', st.run (fun _ => none) ((sectionLines d sec).map (· ++ ['\n']) ++ pieces) =
    st'.run (fun _ => none) pieces ∧ Reading d (done ++ (entriesOf d sec).map Slot.key) st' := by
  have hc := colon_notMem_of_mem_sections hs
  obtain ⟨st1, hstep, h1, hsec⟩ := h.sectionHeader (hd.header sec hs) hc
  have hes : ∀ s ∈ entriesOf d sec, s ∈ d.entries ∧ ':' ∈ s.key ∧ sectionOf s.key = st1.sec := by
    intro s hm
    obtain ⟨hm', hk, hse⟩ := (mem_entriesOf_iff hc).mp hm
    obtain hi | hi | hi := hin
    · exact ⟨hm', hk, hse.trans (hsec (.inl hi)).symm⟩
    · exact ⟨hm', hk, hse.trans (hsec (.inr hi)).symm⟩
    · rw [hi] at hm
      cases hm
  obtain ⟨st', hrun, h'⟩ := h1.entries hd pieces hes
  refine ⟨st', ?_, h'⟩
  rw [sectionLines_eq hc, map_cons, map_cons, cons_append, cons_append,
    Loader.run_cons h.blank, Loader.run_cons hstep, hrun]

theorem Reading.blocks (hd : Dumpable d) (pieces : List (List Char)) : ∀ {secs : List (List Char)}
    {done : List (List Char)} {st : Loader},
    (∀ sec ∈ secs, sec ∈ sections d ∧ (sec ≠ [] ∨ entriesOf d sec = [])) → Reading d done st →
    ∃ st', st.run (fun _ => none) ((secs.flatMap (sectionLines d)).map (· ++ ['\n']) ++ pieces) =
        st'.run (fun _ => none) pieces ∧
      Reading d (done ++ secs.flatMap fun sec => (entriesOf d sec).map Slot.key) st'
  | [], done, st, _, h => ⟨st, rfl, by rwa [flatMap_nil, append_nil]⟩
  | sec :: secs, done, st, hs, h => by
    obtain ⟨hm, hin⟩ := hs sec mem_cons_self
    obtain ⟨st1, hrun1, h1⟩ := h.block hd hm (hin.imp_right .inr)
      ((secs.flatMap (sectionLines d)).map (· ++ ['\n']) ++ pieces)
    obtain ⟨st', hrun, h'⟩ := Reading.blocks hd pieces (fun s hm => hs s (mem_cons_of_mem _ hm)) h1
    refine ⟨st', ?_, by rwa [flatMap_cons, ← append_assoc]⟩
    rw [flatMap_cons, map_append, append_assoc, hrun1, hrun]

theorem newline_notMem_slotLine (hk : '\n' ∉ s.key) (hv : ∀ v ∈ s.val, '\n' ∉ v) :
    '\n' ∉ slotLine s := by
  have hname : '\n' ∉ nameOf s.key := fun hn => hk (drop_subset _ _ hn)
  have hval : '\n' ∉ s.val.getD [] := by
    cases h : s.val with
    | none => simp
    | some v => simpa using hv v h
  simpa [slotLine, entryLine, pad30, mem_replicate] using ⟨hname, hval⟩

theorem newline_notMem_dumpLines (hd : ∀ s ∈ d.entries, '\n' ∉ s.key ∧ ∀ v ∈ s.val, '\n' ∉ v) :
    ∀ l ∈ dumpLines d, '\n' ∉ l := by
  intro l hl
  by_cases hne : sections d = []
  · unfold dumpLines iniparserGetnsec at hl
    rw [hne, if_pos (by decide), mem_map] at hl
    obtain ⟨s, hs, rfl⟩ := hl
    unfold bareLine
    cases hv : s.val with
    | none => simpa using (hd s hs).1
    | some v => simpa using ⟨(hd s hs).1, (hd s hs).2 v hv⟩
  · rw [dumpLines_eq hne, mem_append, mem_flatMap] at hl
    obtain ⟨sec, hs, hl⟩ | hl := hl
    · obtain ⟨hm, hc⟩ := mem_sections_iff.mp hs
      rw [sectionLines_eq hc, mem_cons, mem_cons, mem_map] at hl
      obtain rfl | rfl | ⟨s, hm, rfl⟩ := hl
      · exact not_mem_nil
      · obtain ⟨s, he, rfl⟩ := mem_map.mp hm
        simpa [header] using (hd s he).1
      · obtain ⟨hm, -, -⟩ := (mem_entriesOf_iff hc).mp hm
        exact newline_notMem_slotLine (hd s hm).1 (hd s hm).2
    · rw [mem_singleton.mp hl]
      exact not_mem_nil

theorem Dumpable.newline (hd : Dumpable d) :
    ∀ s ∈ d.entries, '\n' ∉ s.key ∧ ∀ v ∈ s.val, '\n' ∉ v := by
  intro s hs
  refine ⟨?_, fun v hv => (hd.val_clean s hs v hv).1⟩
  by_cases hc : ':' ∈ s.key
  · obtain ⟨v, -, hleg⟩ := hd.legible s hs hc
    have hsec := (hd.header _ (hd.listed s hs hc)).clean.1
    rw [← sectionOf_append_nameOf hc]
    simpa using ⟨hsec, hleg.newline⟩
  · exact (hd.header s.key (mem_sections_iff.mpr ⟨mem_map_of_mem hs, hc⟩)).clean.1

theorem iniparserDumpIni_of_dumpable (hd : Dumpable d) :
    iniparserDumpIni d = some ((dumpLines d).flatMap (fun line => line ++ ['\n'])) := by
  unfold iniparserDumpIni
  rw [if_neg]
  rintro ⟨s, hs, hl⟩
  have := (hd.header s hs).short
  omega

theorem named_of_mem_tail (hd : Dumpable d) {secs : List (List Char)}
    (hsec : sections d = sec :: secs) :
    ∀ s ∈ secs, s ∈ sections d ∧ (s ≠ [] ∨ entriesOf d s = []) := by
  intro s hs
  refine ⟨by simp [hsec, hs], ?_⟩
  by_contra hn
  push Not at hn
  obtain ⟨rfl, hes⟩ := hn
  obtain ⟨e, he⟩ := exists_mem_of_ne_nil _ hes
  obtain ⟨hm, hk, hs'⟩ := (mem_entriesOf_iff not_mem_nil).mp he
  have hhead := hd.nameless e hm hk hs'
  have hnd : (sections d).Nodup := d.nodup_keys.filter _
  rw [hsec, head?_cons, Option.some.injEq] at hhead
  rw [hsec, hhead] at hnd
  exact (nodup_cons.mp hnd).1 hs

/-- A dumpable dictionary is written without overflow, and the text loads to the same values of all
entries. -/
theorem load_dump (hd : Dumpable d) (hne : sections d ≠ []) :
    ∃ text d', iniparserDumpIni d = some text ∧ iniparserLoad .fine text = .ok d' ∧ ∀ k, ':' ∈ k →
    dictionaryGet d' k = dictionaryGet d k := by
  obtain ⟨sec, secs, hsec⟩ := exists_cons_of_ne_nil hne
  obtain ⟨st1, hrun1, h1⟩ := (reading_init d).block hd
    (show sec ∈ sections d by simp [hsec]) (.inr (.inl rfl))
    ((secs.flatMap (sectionLines d)).map (· ++ ['\n']) ++ [[] ++ ['\n']])
  obtain ⟨st', hrun, h'⟩ := h1.blocks hd [[] ++ ['\n']] (named_of_mem_tail hd hsec)
  refine ⟨_, st'.dict, iniparserDumpIni_of_dumpable hd, ?_, fun k hk => ?_⟩
  · have hl : iniparserLoad .fine ((dumpLines d).flatMap (fun line => line ++ ['\n'])) =
        Loader.init.run (fun _ => none) (readLines ((dumpLines d).flatMap (fun line => line ++ ['\n']))) := rfl
    rw [hl, readLines_flatMap (newline_notMem_dumpLines hd.newline), dumpLines_eq hne, hsec,
      flatMap_cons, append_assoc, map_append, map_append]
    apply (hrun1.trans hrun).trans
    rw [Loader.run_cons h'.blank]
    unfold Loader.run
    simp [h'.errs]
  · rw [h'.get k hk]
    split
    · rfl
    next hn =>
      symm
      rw [← Option.not_isSome_iff_eq_none, dictionaryGet_isSome_iff]
      intro hkey
      obtain ⟨s, hs, rfl⟩ := mem_map.mp hkey
      apply hn
      have hl := hd.listed s hs hk
      have he : s.key ∈ (entriesOf d (sectionOf s.key)).map Slot.key :=
        mem_map_of_mem ((mem_entriesOf_iff (colon_notMem_sectionOf _)).mpr ⟨hs, hk, rfl⟩)
      rw [hsec, mem_cons] at hl
      obtain hl | hl := hl
      · exact mem_append_left _ (hl ▸ he)
      · exact mem_append_right _ (mem_flatMap.mpr ⟨_, hl, he⟩)

end

end Code365.Ini
