import Code365.Ini.LostEntries

/-! # Dumps of single lines

When no line that the dump writes for an entry has the form of a header or ends with a backslash
(`Tame`), the loader evaluates the dump line by line under the header of its section, so that every
key it loads comes from the line of one entry (`Origin`).  If all keys come back, then, because
a key that is read is never longer than the key that was written, every line is read as the
key it was written for (`reads_of_subset`). -/

namespace Code365.Ini

open List CString Text

/-- The line of an entry is neither a header nor continued. -/
def TameLine (l : List Char) : Prop :=
  ¬ continued (l.rdropWhile isspace) ∧ ¬ ((strstrip l).head? = some '[' ∧ (strstrip l).getLast? = some ']')

namespace Loader

variable {grow : ℕ → Option Lost} {st st' : Loader}

/-- A single line that a successful load reads fits the buffer and is evaluated. -/
theorem run_line {l : List Char} {pieces : List (List Char)} {d : Dictionary} (hl : st.line = [])
    (hn : '\n' ∉ l) (hc : ¬ continued (l.rdropWhile isspace))
    (h : st.run grow ((l ++ ['\n']) :: pieces) = .ok d) : l.length < ASCIILINESZ - 1 ∧
    ∃ st', st.switch grow l = .ok st' ∧ st'.run grow pieces = .ok d := by
  obtain ⟨st', hs, hrest⟩ := run_cons_eq_ok h
  obtain ⟨b, hb, hcase⟩ := step_cases hs
  have hbl : b = l := by
    have hpre := st.buffer_prefix (l ++ ['\n'])
    rw [hb, hl, nil_append] at hpre
    obtain he | he := prefix_concat_iff.mp hpre
    · exact (append_left_inj _).mp he
    · exact absurd (he.subset (by simp)) hn
  subst hbl
  have hlen : (b ++ ['\n']).length ≤ ASCIILINESZ - 1 := by
    rw [← hb]
    apply ((takeWhile_sublist _).length_le).trans
    rw [hl, nil_append, length_take, length_nil]
    omega
  rw [length_append, length_singleton] at hlen
  obtain ⟨hc', -⟩ | ⟨-, hsw⟩ := hcase
  · exact absurd hc' hc
  · rw [switch_rdropWhile] at hsw
    exact ⟨by omega, st', hsw, hrest⟩

end Loader

/-- Where an entry of the reloaded file comes from: the line of an entry `f`, read under a section
`c`, which is the section of `f` unless that is nameless and not the first. -/
structure Origin (d : Dictionary) (c key val : List Char) (f : Slot) : Prop where
  mem : f ∈ d.entries
  colon : ':' ∈ f.key
  reads : classify [] (strstrip (slotLine f)) = .lineValue key val
  under : c = sectionOf f.key ∨ sectionOf f.key = [] ∧ (sections d).head? ≠ some []

/-- A dump of tame lines is being read. -/
structure Evaluating (d : Dictionary) (st : Loader) : Prop where
  line : st.line = []
  sec : HeaderName st.sec
  colon : ':' ∉ st.sec
  origin : ∀ x v, ':' ∈ x → dictionaryGet st.dict x = some v →
    ∃ c key val f, x = c ++ ':' :: key ∧ v = some val ∧ ':' ∉ c ∧
      (c = [] → (sections d).head? = some []) ∧ Origin d c key val f

section
variable {d d' : Dictionary} {st : Loader} {grow : ℕ → Option Lost}

theorem evaluating_init (d : Dictionary) : Evaluating d Loader.init := by
  refine ⟨rfl, Loader.sound_init.sec, not_mem_nil, fun x v _ h => ?_⟩
  have : x ∈ Loader.init.dict.keys := dictionaryGet_isSome_iff.mp (by rw [h]; rfl)
  simp [Loader.init] at this

theorem Evaluating.entry (h : Evaluating d st) {f : Slot} {st' : Loader} (hm : f ∈ d.entries)
    (hk : ':' ∈ f.key) (ht : TameLine (slotLine f))
    (hu : st.sec = sectionOf f.key ∨ sectionOf f.key = [] ∧ (sections d).head? ≠ some [])
    (hz : st.sec = [] → (sections d).head? = some []) (hs : st.switch grow (slotLine f) = .ok st') :
    Evaluating d st' ∧ st'.sec = st.sec := by
  obtain ⟨errs, rfl⟩ | ⟨sec, dict, hc, -, rfl⟩ | ⟨key, val, dict, hc, -, hd, rfl⟩ := Loader.switch_cases hs
  · exact ⟨⟨rfl, h.sec, h.colon, h.origin⟩, rfl⟩
  · exact absurd (section_of_classify hc).2 ht.2
  · refine ⟨⟨rfl, h.sec, h.colon, fun x v hx hv => ?_⟩, rfl⟩
    rw [dictionaryGet_set hd] at hv
    split at hv
    next he =>
      refine ⟨st.sec, key, val, f, he, (Option.some.inj hv).symm, h.colon, hz, ?_⟩
      exact ⟨hm, hk, classify_value_congr hc [], hu⟩
    · exact h.origin x v hx hv

theorem Evaluating.sectionHeader (h : Evaluating d st) {sec : List Char} {st' : Loader}
    (hn : HeaderName sec) (hc : ':' ∉ sec) (hs : st.switch grow (header sec) = .ok st') :
    Evaluating d st' ∧ st'.sec = if sec = [] then st.sec else sec := by
  unfold Loader.switch iniparserLine at hs
  rw [classify_header hn] at hs
  obtain ⟨dict, hd, rfl⟩ := Loader.store_eq_ok hs
  rw [inForce_eq h.sec] at hd ⊢
  have hforce : HeaderName (if sec = [] then st.sec else sec) ∧ ':' ∉ if sec = [] then st.sec else sec := by
    split
    · exact ⟨h.sec, h.colon⟩
    · exact ⟨hn, hc⟩
  refine ⟨⟨rfl, hforce.1, hforce.2, fun x v hx hv => ?_⟩, rfl⟩
  rw [dictionaryGet_set hd, if_neg] at hv
  · exact h.origin x v hx hv
  · rintro rfl
    exact hforce.2 hx

/-- What is asked of a dictionary whose dump is read line by line. -/
structure TameDump (d : Dictionary) : Prop where
  header : ∀ sec ∈ sections d, HeaderName sec
  newline : ∀ s ∈ d.entries, '\n' ∉ s.key ∧ ∀ v ∈ s.val, '\n' ∉ v
  tame : ∀ s ∈ d.entries, ':' ∈ s.key → TameLine (slotLine s)

theorem Evaluating.entries (hd : TameDump d) {pieces : List (List Char)} :
    ∀ {es : List Slot} {st : Loader}, (∀ f ∈ es, f ∈ d.entries ∧ ':' ∈ f.key ∧
    (st.sec = sectionOf f.key ∨ sectionOf f.key = [] ∧ (sections d).head? ≠ some [])) →
    (st.sec = [] → (sections d).head? = some []) → Evaluating d st →
    st.run grow ((es.map slotLine).map (· ++ ['\n']) ++ pieces) = .ok d' →
    (∀ f ∈ es, (slotLine f).length < ASCIILINESZ - 1) ∧ ∃ st', Evaluating d st' ∧ st'.sec = st.sec ∧
    st'.run grow pieces = .ok d'
  | [], st, _, _, h, hr => ⟨by simp, st, h, rfl, hr⟩
  | f :: es, st, hes, hz, h, hr => by
    obtain ⟨hm, hk, hu⟩ := hes f mem_cons_self
    have ht := hd.tame f hm hk
    obtain ⟨hlen, st1, hsw, hr1⟩ := Loader.run_line h.line
      (newline_notMem_slotLine (hd.newline f hm).1 (hd.newline f hm).2) ht.1 hr
    obtain ⟨h1, hsec⟩ := h.entry hm hk ht hu hz hsw
    obtain ⟨hfit, st', h', hsec', hr'⟩ := Evaluating.entries hd
      (fun g hg => hsec ▸ hes g (mem_cons_of_mem _ hg)) (hsec ▸ hz) h1 hr1
    refine ⟨fun g hg => ?_, st', h', hsec'.trans hsec, hr'⟩
    obtain rfl | hg := mem_cons.mp hg
    · exact hlen
    · exact hfit g hg

theorem Evaluating.block (hd : TameDump d) (h : Evaluating d st) {sec : List Char}
    (hs : sec ∈ sections d) (hin : sec = [] → st.sec = [] ∨ (sections d).head? ≠ some [])
    (hz : sec = [] → st.sec = [] → (sections d).head? = some []) {pieces : List (List Char)}
    (hr : st.run grow ((sectionLines d sec).map (· ++ ['\n']) ++ pieces) = .ok d') :
    (∀ f ∈ entriesOf d sec, (slotLine f).length < ASCIILINESZ - 1) ∧ ∃ st', Evaluating d st' ∧
    (st'.sec = [] → (sections d).head? = some []) ∧ st'.run grow pieces = .ok d' := by
  have hc := colon_notMem_of_mem_sections hs
  have hn := hd.header sec hs
  rw [sectionLines_eq hc, map_cons, map_cons, cons_append, cons_append] at hr
  obtain ⟨-, st1, hb, hr1⟩ := Loader.run_line h.line not_mem_nil (by decide) hr
  have hst : st1 = st := by
    cases hb
    rw [← h.line]
  subst hst
  have hcont : ¬ continued ((header sec).rdropWhile isspace) := by
    rw [rdropWhile_header, continued, getLast?_header]
    decide
  obtain ⟨-, st2, hh, hr2⟩ := Loader.run_line h.line (by simpa [Ini.header] using hn.clean.1) hcont hr1
  obtain ⟨h2, hsec⟩ := h.sectionHeader hn hc hh
  have hz2 : st2.sec = [] → (sections d).head? = some [] := by
    intro he
    rw [hsec] at he
    split at he
    next hnil => exact hz hnil he
    next hnil => exact absurd he hnil
  obtain ⟨hfit, st', h', hsec', hr'⟩ := Evaluating.entries hd (fun f hf => by
    obtain ⟨hm, hk, rfl⟩ := (mem_entriesOf_iff hc).mp hf
    refine ⟨hm, hk, ?_⟩
    rw [hsec]
    split
    next hnil =>
      obtain he | he := hin hnil
      · exact .inl (he.trans hnil.symm)
      · exact .inr ⟨hnil, he⟩
    · exact .inl rfl) hz2 h2 hr2
  exact ⟨hfit, st', h', hsec' ▸ hz2, hr'⟩

theorem Evaluating.blocks (hd : TameDump d) {pieces : List (List Char)} :
    ∀ {secs : List (List Char)} {st : Loader}, (∀ sec ∈ secs, sec ∈ sections d ∧
    (sec = [] → (sections d).head? ≠ some [])) → (st.sec = [] → (sections d).head? = some []) →
    Evaluating d st → st.run grow ((secs.flatMap (sectionLines d)).map (· ++ ['\n']) ++ pieces) =
    .ok d' → (∀ f ∈ secs.flatMap (entriesOf d), (slotLine f).length < ASCIILINESZ - 1) ∧
    ∃ st', Evaluating d st' ∧ st'.run grow pieces = .ok d'
  | [], st, _, _, h, hr => ⟨by simp, st, h, hr⟩
  | sec :: secs, st, hs, hz, h, hr => by
    obtain ⟨hm, hne⟩ := hs sec mem_cons_self
    rw [flatMap_cons, map_append, append_assoc] at hr
    obtain ⟨hfit, st1, h1, hz1, hr1⟩ := h.block hd hm (fun he => .inr (hne he)) (fun _ => hz) hr
    obtain ⟨hfits, st', h', hr'⟩ := Evaluating.blocks hd
      (fun s hm => hs s (mem_cons_of_mem _ hm)) hz1 h1 hr1
    refine ⟨fun f hf => ?_, st', h', hr'⟩
    rw [flatMap_cons, mem_append] at hf
    exact hf.elim (hfit f) (hfits f)

/-- A tame dump that loads has lines that fit, and every entry it loads to comes from a line. -/
theorem origin_of_run (hd : TameDump d) (hne : sections d ≠ [])
    (hr : Loader.init.run grow ((dumpLines d).map (· ++ ['\n'])) = .ok d') :
    (∀ f ∈ listedEntries d, (slotLine f).length < ASCIILINESZ - 1) ∧ ∀ x v, ':' ∈ x →
    dictionaryGet d' x = some v → ∃ c key val f, x = c ++ ':' :: key ∧ v = some val ∧ ':' ∉ c ∧
    (c = [] → (sections d).head? = some []) ∧ Origin d c key val f := by
  obtain ⟨sec, secs, hsec⟩ := exists_cons_of_ne_nil hne
  have hnd : (sections d).Nodup := d.nodup_keys.filter _
  have hhead : (sections d).head? = some sec := by rw [hsec, head?_cons]
  have hlater : ∀ s ∈ secs, s ∈ sections d ∧ (s = [] → (sections d).head? ≠ some []) := by
    intro s hs
    refine ⟨by simp [hsec, hs], ?_⟩
    rintro rfl he
    rw [hhead, Option.some.injEq] at he
    rw [hsec, he] at hnd
    exact (nodup_cons.mp hnd).1 hs
  rw [dumpLines_eq hne, hsec, flatMap_cons, append_assoc, map_append, map_append] at hr
  obtain ⟨hfit, st1, h1, hz1, hr1⟩ := (evaluating_init d).block hd (by simp [hsec])
    (fun _ => .inl rfl) (fun he _ => he ▸ hhead) hr
  obtain ⟨hfits, st2, h2, hr2⟩ := h1.blocks hd hlater hz1 hr1
  obtain ⟨-, st3, hb, hr3⟩ := Loader.run_line h2.line not_mem_nil (by decide) hr2
  have hst : st3.dict = d' := Loader.dict_of_run_nil hr3
  cases hb
  refine ⟨fun f hf => ?_, hst ▸ h2.origin⟩
  unfold listedEntries at hf
  rw [hsec, flatMap_cons, mem_append] at hf
  exact hf.elim (hfit f) (hfits f)

end

/-! ### The key of a line -/

theorem entryLine_eq (name val : List Char) :
    entryLine name val = (pad30 name ++ [' ']) ++ '=' :: ' ' :: val := by
  simp [entryLine]

theorem dropWhile_append_eq (w r : List Char) :
    (w ++ '=' :: r).dropWhile isspace = w.dropWhile isspace ++ '=' :: r := by
  rw [dropWhile_append]
  split
  next he => simp [List.isEmpty_iff.mp he, isspace]
  · rfl

theorem lineKey_strstrip {w : List Char} (r : List Char) (hw : '=' ∉ w) :
    lineKey (strstrip (w ++ '=' :: r)) = strlwc (strstrip w) := by
  have hpre : w.dropWhile isspace ++ ['='] <+: strstrip (w ++ '=' :: r) := by
    unfold strstrip strip
    rw [dropWhile_append_eq, append_cons _ '=' r]
    apply prefix_rdropWhile (prefix_append _ _)
    simp [isspace]
  unfold lineKey
  rw [takeWhile_eq_of_isPrefix hpre (c := '=') (by simp) (by simp),
    takeWhile_ne_append fun hc => hw (dropWhile_subset _ hc)]
  unfold strstrip
  rw [strip_dropWhile]

/-- The line of an entry is read with what its name has before the first `=`. -/
theorem lineKey_entryLine (name val : List Char) :
    lineKey (strstrip (entryLine name val)) = strlwc (strstrip (name.takeWhile (· ≠ '='))) := by
  by_cases he : '=' ∈ name
  · obtain ⟨a, b, rfl, ha⟩ := eq_append_cons_of_mem he
    have hl : entryLine (a ++ '=' :: b) val =
        a ++ '=' :: (b ++ List.replicate (30 - (a ++ '=' :: b).length) ' ' ++ [' ', '=', ' '] ++ val) := by
      simp [entryLine, pad30]
    rw [hl, lineKey_strstrip _ ha, takeWhile_ne_append ha]
  · have hw : '=' ∉ pad30 name ++ [' '] := by simp [pad30, he, mem_replicate]
    rw [entryLine_eq, lineKey_strstrip _ hw, takeWhile_ne_self he]
    unfold strstrip pad30
    rw [append_assoc, strip_append_spaces]
    intro c hc
    simp only [mem_append, mem_replicate, mem_singleton] at hc
    obtain ⟨-, rfl⟩ | rfl := hc <;> rfl

/-! ### Lines of numbers -/

theorem strstrip_entryLine_decimal (name : List Char) (v : ℤ) :
    ∃ w, strstrip (entryLine name (decimal v)) = w ++ '=' :: ' ' :: decimal v ∧
    ('=' ∉ name → '=' ∉ w) := by
  refine ⟨(pad30 name ++ [' ']).dropWhile isspace, ?_, fun hn hm => ?_⟩
  · unfold strstrip strip
    rw [entryLine_eq, dropWhile_append_eq, rdropWhile_eq_self_iff]
    intro hne
    have hlast : ((pad30 name ++ [' ']).dropWhile isspace ++ '=' :: ' ' :: decimal v).getLast hne =
        (decimal v).getLast (decimal_ne_nil v) := by
      rw [getLast_append_of_ne_nil _ (cons_ne_nil _ _), getLast_cons (cons_ne_nil _ _),
        getLast_cons (decimal_ne_nil v)]
    rw [hlast, isspace_of_mem_decimal (getLast_mem _)]
    exact Bool.false_ne_true
  · have := dropWhile_subset _ hm
    simp [pad30, mem_replicate, hn] at this

theorem scanKeyValue_append {quote w r : List Char} {p : Char → Bool} (hw : '=' ∉ w) :
    scanKeyValue quote p (w ++ '=' :: r) = if w = [] then none else match literal quote (r.dropWhile
    isspace) with | none => none | some rest => (scanSet p rest).map (fun r => (w, r.1)) := by
  unfold scanKeyValue scanSet
  rw [takeWhile_ne_append hw, dropWhile_ne_append hw]
  by_cases he : w = []
  · rw [if_pos he, if_pos he]
  · rw [if_neg he, if_neg he]
    rfl

/-! ### Numbers as values -/

section decimal

variable (v : ℤ) {w : List Char}

theorem dropWhile_blank_decimal : (' ' :: decimal v).dropWhile isspace = decimal v := by
  rw [dropWhile_cons_of_pos (by decide), dropWhile_eq_self_iff]
  intro hl
  rw [isspace_of_mem_decimal (getElem_mem _)]
  exact Bool.false_ne_true

theorem literal_decimal {q : Char} (hq : q ≠ '-') (hd : q.isDigit = false) :
    literal [q] (decimal v) = none := by
  obtain ⟨c, ds, hds⟩ := exists_cons_of_ne_nil (decimal_ne_nil v)
  have hc : q ≠ c := by
    rintro rfl
    obtain he | he := mem_decimal (v := v) (c := q) (by simp [hds])
    · exact hq he
    · simp [he] at hd
  simp [literal, hds, hc]

theorem scanSet_decimal :
    scanSet (fun c => decide (c ≠ ';' ∧ c ≠ '#')) (decimal v) = some (decimal v, []) := by
  have hall : ∀ c ∈ decimal v, decide (c ≠ ';' ∧ c ≠ '#') = true := by
    intro c hc
    rw [decide_eq_true_iff]
    exact ⟨ne_of_mem_decimal hc (by decide), ne_of_mem_decimal hc (by decide)⟩
  have happend := scanSet_append [] hall (decimal_ne_nil v) nofun
  rwa [append_nil] at happend

theorem scanKeyValue_decimal {q : Char} (hq : q ≠ '-') (hd : q.isDigit = false) (p : Char → Bool)
    (hw : '=' ∉ w) : scanKeyValue [q] p (w ++ '=' :: ' ' :: decimal v) = none := by
  rw [scanKeyValue_append hw, dropWhile_blank_decimal, literal_decimal v hq hd, ite_self]

theorem scanPlain_decimal (hw : '=' ∉ w) (hne : w ≠ []) :
    scanPlain (w ++ '=' :: ' ' :: decimal v) = some (w, decimal v) := by
  have hlit : literal [] (decimal v) = some (decimal v) := rfl
  unfold scanPlain
  rw [scanKeyValue_append hw, if_neg hne, dropWhile_blank_decimal]
  simp only [hlit, scanSet_decimal, Option.map_some]

theorem emptyQuotes_decimal : emptyQuotes (strstrip (decimal v)) = decimal v := by
  have hs : strstrip (decimal v) = decimal v := by
    apply strip_eq_self
    · intro c hc
      simp [isspace_of_mem_decimal (mem_of_head? hc)]
    · intro c hc
      simp [isspace_of_mem_decimal (mem_of_getLast? hc)]
  rw [hs]
  unfold emptyQuotes
  rw [if_neg]
  rintro (he | he)
  · exact ne_of_mem_decimal (v := v) (c := '"') (by simp [he]) (by decide) rfl
  · exact ne_of_mem_decimal (v := v) (c := '\'') (by simp [he]) (by decide) rfl

end decimal

theorem value_entryLine_decimal {name key val : List Char} {v : ℤ} (hn : '=' ∉ name)
    (h : classify [] (strstrip (entryLine name (decimal v))) = .lineValue key val) :
    val = decimal v := by
  obtain ⟨w, hline, hw⟩ := strstrip_entryLine_decimal name v
  have hw := hw hn
  rw [hline] at h
  obtain rfl | hne := eq_or_ne w []
  · cases h
  unfold classify at h
  rw [scanDouble, scanSingle, scanKeyValue_decimal v (by decide) (by decide) _ hw,
    scanKeyValue_decimal v (by decide) (by decide) _ hw, scanPlain_decimal v hw hne] at h
  simp only [Option.none_or, emptyQuotes_decimal] at h
  split_ifs at h
  cases h
  rfl

theorem tameLine_decimal (name : List Char) (v : ℤ) : TameLine (entryLine name (decimal v)) := by
  have hlast : ∀ w : List Char, (w ++ '=' :: ' ' :: decimal v).getLast? = (decimal v).getLast? := by
    intro w
    rw [getLast?_append_of_ne_nil _ (cons_ne_nil _ _), getLast?_cons_cons,
      getLast?_cons, getLast?_eq_getLast_of_ne_nil (decimal_ne_nil v)]
    rfl
  have hdigit : ∀ c, (decimal v).getLast? = some c → c ≠ '\\' ∧ c ≠ ']' := fun c hc =>
    ⟨ne_of_mem_decimal (mem_of_getLast? hc) (by decide), ne_of_mem_decimal (mem_of_getLast? hc) (by decide)⟩
  constructor
  · intro hc
    have hself : (entryLine name (decimal v)).rdropWhile isspace = entryLine name (decimal v) := by
      rw [rdropWhile_eq_self_iff]
      intro hne
      rw [isspace_of_mem_decimal]
      · exact Bool.false_ne_true
      · apply mem_of_getLast?
        rw [← hlast (pad30 name ++ [' ']), ← entryLine_eq, getLast?_eq_getLast_of_ne_nil]
    rw [hself, entryLine_eq] at hc
    exact (hdigit _ (hlast _ ▸ hc)).1 rfl
  · rintro ⟨-, hc⟩
    obtain ⟨w, hline, -⟩ := strstrip_entryLine_decimal name v
    rw [hline, hlast] at hc
    exact (hdigit _ hc).2 rfl

theorem eq_notMem_of_classify {sec line key val : List Char}
    (h : classify sec line = .lineValue key val) : '=' ∉ key := by
  intro hm
  rw [(value_of_classify h).1] at hm
  have ht := strstrip_subset _ (mem_strlwc (by decide) hm)
  simpa using mem_takeWhile_imp ht

/-! ### All keys come back -/

/-- The key that the line of an entry is read as, under the header of its section. -/
def rereadKey (k : List Char) : List Char :=
  sectionOf k ++ ':' :: strlwc (strstrip ((nameOf k).takeWhile (· ≠ '=')))

theorem length_strlwc_le_self (s : List Char) : (strlwc s).length ≤ s.length := by
  unfold strlwc
  rw [length_map, length_take]
  exact (Nat.min_le_right _ _).trans (takeWhile_sublist _).length_le

/-- Every step from a name to the name that is read can only make it shorter. -/
theorem length_reread_le (name : List Char) :
    (strlwc (strstrip (name.takeWhile (· ≠ '=')))).length ≤
    (strstrip (name.takeWhile (· ≠ '='))).length ∧ (strstrip (name.takeWhile (· ≠ '='))).length ≤
    (name.takeWhile (· ≠ '=')).length ∧ (name.takeWhile (· ≠ '=')).length ≤ name.length :=
  ⟨length_strlwc_le_self _, (strip_isInfix _).length_le, (takeWhile_sublist _).length_le⟩

variable {k : List Char}

theorem length_rereadKey_le (hk : ':' ∈ k) : (rereadKey k).length ≤ k.length := by
  obtain ⟨h1, h2, h3⟩ := length_reread_le (nameOf k)
  conv_rhs => rw [← sectionOf_append_nameOf hk]
  unfold rereadKey
  rw [length_append, length_append, length_cons, length_cons]
  omega

theorem rereadKey_eq_self (hk : ':' ∈ k) (hl : k.map Char.toLower = k) (hn : '\x00' ∉ k)
    (hs : k.length ≤ ASCIILINESZ) (he : (rereadKey k).length = k.length) : rereadKey k = k := by
  obtain ⟨h1, h2, h3⟩ := length_reread_le (nameOf k)
  have hlen : k.length = (sectionOf k).length + ((nameOf k).length + 1) := by
    conv_lhs => rw [← sectionOf_append_nameOf hk]
    rw [length_append, length_cons]
  unfold rereadKey at he
  rw [length_append, length_cons] at he
  have ht : (nameOf k).takeWhile (· ≠ '=') = nameOf k :=
    ( takeWhile_prefix _).eq_of_length (by omega)
  have hst : strstrip (nameOf k) = nameOf k := by
    rw [ht] at h1 h2 he
    exact (strip_isInfix (nameOf k)).eq_of_length (by unfold strstrip at *; omega)
  have hlow : (nameOf k).map Char.toLower = nameOf k := by
    unfold nameOf
    rw [map_drop, hl]
  have hnul : '\x00' ∉ nameOf k := fun hm => hn (drop_subset _ _ hm)
  have hlwc : strlwc (nameOf k) = nameOf k := by
    rw [strlwc_eq_map hnul (by omega), hlow]
  unfold rereadKey
  rw [ht, hst, hlwc, sectionOf_append_nameOf hk]

/-- A map of a finite set onto itself that increases no measure keeps it. -/
theorem measure_eq_of_subset_image {α : Type*} [DecidableEq α] {S : Finset α} {F : α → α}
    {m : α → ℕ} (hS : S ⊆ S.image F) (hm : ∀ a ∈ S, m (F a) ≤ m a) : ∀ a ∈ S, m (F a) = m a := by
  have himage : S.image F = S := (Finset.eq_of_subset_of_card_le hS Finset.card_image_le).symm
  have hinj : Set.InjOn F S := Finset.card_image_iff.mp (congrArg Finset.card himage)
  have hsum : ∑ a ∈ S, m (F a) = ∑ a ∈ S, m a := by
    rw [← Finset.sum_image hinj, himage]
  exact (Finset.sum_eq_sum_iff_of_le hm).mp hsum

/-- Keys that rereading maps onto themselves are not changed by it: it makes no key longer. -/
theorem rereadKey_eq_self_of_onto {keys : List (List Char)}
    (hkeys : ∀ k ∈ keys, k.map Char.toLower = k ∧ '\x00' ∉ k ∧ k.length ≤ ASCIILINESZ)
    (honto : ∀ k ∈ keys, ':' ∈ k → ∃ f ∈ keys, ':' ∈ f ∧ k = rereadKey f) (hk : k ∈ keys)
    (hc : ':' ∈ k) : rereadKey k = k := by
  have hmem : ∀ x, x ∈ (keys.filter hasColon).toFinset ↔ x ∈ keys ∧ ':' ∈ x := by
    simp [hasColon]
  have hS : (keys.filter hasColon).toFinset ⊆ (keys.filter hasColon).toFinset.image rereadKey := by
    intro x hx
    obtain ⟨hxk, hxc⟩ := (hmem x).mp hx
    obtain ⟨f, hf, hfc, he⟩ := honto x hxk hxc
    exact Finset.mem_image.mpr ⟨f, (hmem f).mpr ⟨hf, hfc⟩, he.symm⟩
  have hlen := measure_eq_of_subset_image hS fun x hx => length_rereadKey_le ((hmem x).mp hx).2
  obtain ⟨hlow, hnul, hshort⟩ := hkeys k hk
  exact rereadKey_eq_self hc hlow hnul hshort (hlen k ((hmem k).mpr ⟨hk, hc⟩))

theorem origin_of_subset {d d' : Dictionary} {grow : ℕ → Option Lost} (hd : TameDump d)
    (hne : sections d ≠ []) (hr : Loader.init.run grow ((dumpLines d).map (· ++ ['\n'])) = .ok d')
    (hsub : ∀ k ∈ d.keys, ':' ∈ k → k ∈ d'.keys) : ∀ s ∈ d.entries, ':' ∈ s.key →
    ∃ key val f, s.key = sectionOf s.key ++ ':' :: key ∧ dictionaryGet d' s.key = some (some val) ∧
    (sectionOf s.key = [] → (sections d).head? = some []) ∧
    Origin d (sectionOf s.key) key val f := by
  intro s hs hk
  obtain ⟨v, hv⟩ := Option.isSome_iff_exists.mp
    (dictionaryGet_isSome_iff.mpr (hsub s.key (mem_map_of_mem hs) hk))
  obtain ⟨c, key, val, f, hx, rfl, hc, hz, ho⟩ := (origin_of_run hd hne hr).2 s.key v hk hv
  have hsec : sectionOf s.key = c := by rw [hx, sectionOf_append hc]
  rw [hsec]
  exact ⟨key, val, f, hx, hv, hz, ho⟩

/-- When all keys come back from a tame dump, the line of every entry is read as its own key, and
the nameless section comes first if it has entries. -/
theorem reads_of_subset {d d' : Dictionary} {grow : ℕ → Option Lost} (hd : TameDump d)
    (hne : sections d ≠ []) (hkeys : ∀ k ∈ d.keys, k.map Char.toLower = k ∧ '\x00' ∉ k ∧
    k.length ≤ ASCIILINESZ) (hr : Loader.init.run grow ((dumpLines d).map (· ++ ['\n'])) = .ok d')
    (hsub : ∀ k ∈ d.keys, ':' ∈ k → k ∈ d'.keys) :
    (∀ s ∈ d.entries, ':' ∈ s.key → sectionOf s.key = [] → (sections d).head? = some []) ∧
    ∀ s ∈ d.entries, ':' ∈ s.key → ∃ val, classify [] (strstrip (slotLine s)) =
    .lineValue (nameOf s.key) val ∧ dictionaryGet d' s.key = some (some val) := by
  have horig := origin_of_subset hd hne hr hsub
  have hnameless : ∀ s ∈ d.entries, ':' ∈ s.key → sectionOf s.key = [] → (sections d).head? = some [] := by
    intro s hs hk
    obtain ⟨_, _, _, -, -, hz, -⟩ := horig s hs hk
    exact hz
  have hreread : ∀ s ∈ d.entries, ':' ∈ s.key → ∃ key val f, s.key = sectionOf s.key ++ ':' :: key ∧
      dictionaryGet d' s.key = some (some val) ∧ f ∈ d.entries ∧ ':' ∈ f.key ∧
      classify [] (strstrip (slotLine f)) = .lineValue key val ∧ s.key = rereadKey f.key := by
    intro s hs hk
    obtain ⟨key, val, f, hx, hv, -, ho⟩ := horig s hs hk
    refine ⟨key, val, f, hx, hv, ho.mem, ho.colon, ho.reads, ?_⟩
    have hsec : sectionOf s.key = sectionOf f.key := by
      obtain h | ⟨h, hn⟩ := ho.under
      · exact h
      · exact absurd (hnameless f ho.mem ho.colon h) hn
    have hkey := (value_of_classify ho.reads).1
    unfold slotLine at hkey
    rw [lineKey_entryLine] at hkey
    rw [hx, hsec, hkey]
    rfl
  have honto : ∀ k ∈ d.keys, ':' ∈ k → ∃ f ∈ d.keys, ':' ∈ f ∧ k = rereadKey f := by
    intro k hk hc
    obtain ⟨s, hs, rfl⟩ := mem_map.mp hk
    obtain ⟨_, _, f, -, -, hf, hfc, -, he⟩ := hreread s hs hc
    exact ⟨f.key, mem_map_of_mem hf, hfc, he⟩
  refine ⟨hnameless, fun s hs hk => ?_⟩
  obtain ⟨key, val, f, hx, hv, hf, hfc, hr, he⟩ := hreread s hs hk
  have hself := rereadKey_eq_self_of_onto hkeys honto (mem_map_of_mem hf) hfc
  obtain rfl : s = f := Dictionary.eq_of_key_eq hs hf (he.trans hself)
  have hname : nameOf s.key = key := by
    rw [hx, nameOf_append (colon_notMem_sectionOf _)]
  exact ⟨val, hname ▸ hr, hv⟩

end Code365.Ini
