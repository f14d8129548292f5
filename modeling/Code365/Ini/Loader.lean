import Code365.Ini.Parser

/-! # What the loader can put into a dictionary

`Loader.step_cases` and `Loader.switch_cases` say once what a round of the loop of `iniparser_load`
can do; `Loader.run_invariant` carries what every round preserves through a whole file.  From them:
a dictionary that was loaded holds only keys and values that are parts of lines, and its keys
without a colon are names that a header gives back (`slot_loaded`).  A load that succeeds does not
depend on how the dictionary grew (`load_fine`). -/

namespace Code365.Ini

open Except List Option CString Text

/-- No newline and no NUL. -/
def Clean (t : List Char) : Prop := '\n' ∉ t ∧ '\x00' ∉ t

/-- The name in a header `[name]`. -/
structure HeaderName (s : List Char) : Prop where
  stripped : strstrip s = s
  lower : strlwc s = s
  bracket : ']' ∉ s
  clean : Clean s
  short : s.length + 2 < ASCIILINESZ - 1

/-- What the loader guarantees of a slot. -/
structure Slot.Loaded (s : Slot) : Prop where
  short : s.key.length ≤ ASCIILINESZ
  lower : s.key.map Char.toLower = s.key
  clean : Clean s.key
  val_clean : ∀ v ∈ s.val, Clean v
  header : ':' ∉ s.key → HeaderName s.key

/-! ### Texts made of the characters of a line -/

variable {s t r sec key val : List Char}

theorem Clean.of_subset (h : Clean t) (hs : s ⊆ t) : Clean s :=
  ⟨fun hn => h.1 (hs hn), fun hn => h.2 (hs hn)⟩

theorem Clean.append (hs : Clean s) (ht : Clean t) : Clean (s ++ t) := by
  constructor
  · simpa using ⟨hs.1, ht.1⟩
  · simpa using ⟨hs.2, ht.2⟩

theorem strlwc_eq_map (hn : '\x00' ∉ s) (hl : s.length ≤ ASCIILINESZ) :
    strlwc s = s.map Char.toLower := by
  unfold strlwc
  rw [cstr_eq_self hn, take_of_length_le hl]

theorem length_strlwc_le (s : List Char) : (strlwc s).length ≤ ASCIILINESZ := by
  unfold strlwc
  rw [length_map, length_take]
  omega

theorem mem_strlwc {x : Char} (hx : x.isAlpha = false) (h : x ∈ strlwc s) : x ∈ s := by
  obtain ⟨c, hc, he⟩ := List.mem_map.mp h
  rw [toLower_eq_iff hx] at he
  subst he
  exact takeWhile_subset _ (take_subset _ _ hc)

theorem nul_notMem_strlwc (s : List Char) : '\x00' ∉ strlwc s := by
  intro h
  obtain ⟨c, hc, he⟩ := List.mem_map.mp h
  rw [toLower_eq_iff (by decide)] at he
  subst he
  exact nul_notMem_cstr s (take_subset _ _ hc)

theorem Clean.strlwc (h : Clean s) : Clean (strlwc s) :=
  ⟨fun hn => h.1 (mem_strlwc (by decide) hn), nul_notMem_strlwc s⟩

theorem strstrip_subset (s : List Char) : strstrip s ⊆ s := (strip_isInfix s).subset

theorem Clean.strstrip (h : Clean s) : Clean (strstrip s) := h.of_subset (strstrip_subset s)

theorem strip_map_toLower (s : List Char) :
    strip (s.map Char.toLower) = (strip s).map Char.toLower := by
  have h : isspace ∘ Char.toLower = isspace := funext isspace_toLower
  unfold strip List.rdropWhile
  rw [dropWhile_map, h, ← map_reverse, dropWhile_map, h, map_reverse]

theorem map_toLower_strlwc (s : List Char) : (strlwc s).map Char.toLower = strlwc s := by
  unfold strlwc
  rw [List.map_map]
  exact map_congr_left fun c _ => Char.toLower_toLower_eq_toLower c

theorem HeaderName.map_toLower (h : HeaderName s) : s.map Char.toLower = s := by
  rw [← h.lower]
  exact map_toLower_strlwc s

theorem HeaderName.loaded (hs : HeaderName s) : (Slot.of s none).Loaded := by
  have hshort := hs.short
  refine ⟨?_, hs.map_toLower, hs.clean, nofun, fun _ => hs⟩
  rw [Slot.key_of]
  omega

/-! ### Lines -/

theorem length_takeWhile_lt {x : Char} (h : x ∈ t) : (t.takeWhile (· ≠ x)).length < t.length := by
  refine lt_of_le_of_ne (takeWhile_sublist _).length_le fun he => ?_
  have hself := ( takeWhile_prefix (fun c => decide (c ≠ x))).eq_of_length he
  rw [← hself] at h
  simpa using mem_takeWhile_imp h

theorem headerName_strlwc (hs : strstrip r = r) (hb : ']' ∉ r) (hc : Clean r)
    (hl : r.length + 2 < ASCIILINESZ - 1) : HeaderName (strlwc r) := by
  have hm := strlwc_eq_map hc.2 (by omega)
  refine ⟨?_, ?_, fun hx => hb (mem_strlwc (by decide) hx), hc.strlwc, ?_⟩
  · rw [hm]
    exact (strip_map_toLower r).trans (congrArg _ hs)
  · rw [strlwc_eq_map (nul_notMem_strlwc r) (length_strlwc_le r), map_toLower_strlwc]
  · rw [hm, length_map]
    exact hl

/-- The name of a header is its text up to the first bracket, or the name in force. -/
theorem scanSection_headerName {line : List Char} (hs : HeaderName sec) (hc : Clean line)
    (hl : line.length < ASCIILINESZ - 1) (ho : line.head? = some '[')
    (hb : line.getLast? = some ']') : HeaderName (scanSection sec line) := by
  obtain ⟨t, rfl⟩ : ∃ t, line = '[' :: t := ⟨line.tail, (cons_head?_tail ho).symm⟩
  unfold scanSection scanSet
  rw [tail_cons]
  by_cases he : t.takeWhile (· ≠ ']') = []
  · rw [if_pos he]
    simp only [map_none, getD_none]
    rw [hs.stripped, hs.lower]
    exact hs
  rw [if_neg he]
  simp only [map_some, getD_some]
  have hbt : ']' ∈ t := by simpa using mem_of_getLast? hb
  have hsub := strstrip_subset (t.takeWhile (· ≠ ']'))
  have hlen := (strip_isInfix (t.takeWhile (· ≠ ']'))).length_le
  have hlt := length_takeWhile_lt hbt
  rw [length_cons] at hl
  refine headerName_strlwc (strip_strip _) (fun hm => ?_) (hc.of_subset fun c hm => ?_) ?_
  · simpa using mem_takeWhile_imp (hsub hm)
  · exact mem_cons_of_mem _ (takeWhile_subset _ (hsub hm))
  · unfold strstrip
    omega

theorem scanSet_eq_some {p : Char → Bool} {a b : List Char} (h : scanSet p s = some (a, b)) :
    a = s.takeWhile p ∧ b = s.dropWhile p := by
  unfold scanSet at h
  split_ifs at h
  cases h
  exact ⟨rfl, rfl⟩

theorem literal_subset {w : List Char} (h : literal w s = some r) : r ⊆ s := by
  unfold literal at h
  split_ifs at h
  cases h
  exact drop_subset _ _

theorem scanKeyValue_eq_some {quote line : List Char} {p : Char → Bool}
    (h : scanKeyValue quote p line = some (key, val)) :
    key = line.takeWhile (· ≠ '=') ∧ val ⊆ line := by
  unfold scanKeyValue at h
  split at h
  · cases h
  next k r hk =>
    obtain ⟨rfl, rfl⟩ := scanSet_eq_some hk
    split at h
    · cases h
    next r1 h1 =>
      split at h
      · cases h
      next r2 h2 =>
        obtain ⟨⟨v, r3⟩, hv, he⟩ := map_eq_some_iff.mp h
        obtain ⟨rfl, -⟩ := scanSet_eq_some hv
        cases he
        refine ⟨rfl, fun c hc => ?_⟩
        have hc2 := dropWhile_subset _ (literal_subset h2 (takeWhile_subset _ hc))
        exact dropWhile_subset _ (dropWhile_subset _ (literal_subset h1 hc2))

theorem scanBare_eq_some {line : List Char} (h : scanBare line = some (key, val)) :
    key = line.takeWhile (· ≠ '=') := by
  unfold scanBare at h
  split at h
  · cases h
  next k r hk =>
    obtain ⟨_, -, he⟩ := map_eq_some_iff.mp h
    cases he
    exact (scanSet_eq_some hk).1

theorem emptyQuotes_subset (v : List Char) : emptyQuotes v ⊆ v := by
  unfold emptyQuotes
  split
  · exact nil_subset _
  · exact fun _ h => h

/-- The key of a line: what stands before its first `=`, stripped and lowered. -/
def lineKey (line : List Char) : List Char := strlwc (strstrip (line.takeWhile (· ≠ '=')))

theorem or_eq_some_scan {line : List Char}
    (h : (scanDouble line).or ((scanSingle line).or (scanPlain line)) = some (key, val)) :
    key = line.takeWhile (· ≠ '=') ∧ val ⊆ line := by
  rw [or_eq_some_iff, or_eq_some_iff] at h
  obtain h | ⟨-, h | ⟨-, h⟩⟩ := h
  all_goals exact scanKeyValue_eq_some h

/-- What can be found in a line: nothing, a header, or a value under the key of the line. -/
theorem classify_cases (sec line : List Char) : classify sec line = .lineEmpty ∨
    classify sec line = .lineComment ∨ classify sec line = .lineError ∨ (classify sec line =
    .lineSection (scanSection sec line) ∧ line.head? = some '[' ∧ line.getLast? = some ']') ∨
    ∃ val, classify sec line = .lineValue (lineKey line) val ∧ val ⊆ line := by
  unfold classify
  split
  · exact .inl rfl
  split
  · exact .inr (.inl rfl)
  split
  next hb => exact .inr (.inr (.inr (.inl ⟨rfl, hb⟩)))
  split
  next key value h =>
    obtain ⟨rfl, hv⟩ := or_eq_some_scan h
    exact .inr (.inr (.inr (.inr ⟨_, rfl, fun c hm =>
      hv (strstrip_subset _ (emptyQuotes_subset _ hm))⟩)))
  · split
    next key value h =>
      have hk : key = line.takeWhile (· ≠ '=') := by
        rw [or_eq_some_iff] at h
        obtain h | ⟨-, h⟩ := h
        · exact (scanKeyValue_eq_some h).1
        · exact scanBare_eq_some h
      subst hk
      exact .inr (.inr (.inr (.inr ⟨_, rfl, nil_subset _⟩)))
    · exact .inr (.inr (.inl rfl))

theorem section_of_classify {line : List Char} (h : classify sec line = .lineSection s) :
    s = scanSection sec line ∧ line.head? = some '[' ∧ line.getLast? = some ']' := by
  obtain he | he | he | ⟨he, hb⟩ | ⟨_, he, -⟩ := classify_cases sec line
  all_goals rw [he] at h; cases h
  exact ⟨rfl, hb⟩

theorem value_of_classify {line : List Char} (h : classify sec line = .lineValue key val) :
    key = lineKey line ∧ val ⊆ line := by
  obtain he | he | he | ⟨he, -⟩ | ⟨_, he, hv⟩ := classify_cases sec line
  all_goals rw [he] at h; cases h
  exact ⟨rfl, hv⟩

theorem classify_value_congr {line : List Char} (h : classify sec line = .lineValue key val)
    (sec' : List Char) : classify sec' line = .lineValue key val := by
  unfold classify at h ⊢
  split_ifs at h ⊢
  exact h

/-! ### Rounds of the loop -/

namespace Loader

variable {grow : ℕ → Option Lost} {st st' : Loader} {piece line : List Char}

theorem store_eq_ok {val : Option (List Char)} (h : st.store grow sec key val = .ok st') :
    ∃ dict, dictionarySet grow st.dict key val = .ok dict ∧ st' = ⟨dict, sec, [], 0⟩ := by
  unfold store at h
  split at h
  next dict hd => exact ⟨dict, hd, (ok.inj h).symm⟩
  · cases h

/-- What a complete line can do: nothing but count an error, open a section, or store an entry. -/
theorem switch_cases (h : st.switch grow line = .ok st') :
    (∃ errs, st' = { st with line := [], errs := errs }) ∨
    (∃ sec dict, classify st.sec (strstrip line) = .lineSection sec ∧
      dictionarySet grow st.dict sec none = .ok dict ∧ st' = ⟨dict, sec, [], 0⟩) ∨
    ∃ key val dict, classify st.sec (strstrip line) = .lineValue key val ∧
      st.sec.length + 1 + key.length ≤ ASCIILINESZ ∧ dictionarySet grow st.dict (st.sec ++
      ':' :: key) (some val) = .ok dict ∧ st' = ⟨dict, st.sec, [], 0⟩ := by
  unfold switch iniparserLine at h
  split at h
  · exact .inl ⟨_, (ok.inj h).symm⟩
  · exact .inl ⟨_, (ok.inj h).symm⟩
  next sec hc =>
    obtain ⟨dict, hd, he⟩ := store_eq_ok h
    exact .inr (.inl ⟨sec, dict, hc, hd, he⟩)
  next key val hc =>
    split_ifs at h with hl
    obtain ⟨dict, hd, he⟩ := store_eq_ok h
    exact .inr (.inr ⟨key, val, dict, hc, by omega, hd, he⟩)
  · exact .inl ⟨_, (ok.inj h).symm⟩

theorem switch_rdropWhile (grow : ℕ → Option Lost) (st : Loader) (line : List Char) :
    st.switch grow (line.rdropWhile isspace) = st.switch grow line := by
  unfold switch iniparserLine strstrip
  rw [strip_rdropWhile]

/-- A round reads a line that ends with a newline, and keeps it or evaluates it. -/
theorem step_cases (h : st.step grow piece = .ok st') : ∃ b, st.buffer piece = b ++ ['\n'] ∧
    (continued (b.rdropWhile isspace) ∧ st' = { st with line := (b.rdropWhile isspace).dropLast } ∨
        ¬ continued (b.rdropWhile isspace) ∧ st.switch grow (b.rdropWhile isspace) = .ok st') := by
  unfold step at h
  split at h
  · cases h
  next last hl =>
    split_ifs at h with hn
    rw [not_not] at hn
    subst hn
    obtain ⟨b, hb⟩ := getLast?_eq_some_iff.mp hl
    rw [hb, rdropWhile_concat_pos _ _ _ (by decide)] at h
    refine ⟨b, hb, ?_⟩
    unfold receive at h
    split_ifs at h with hc
    · exact .inl ⟨hc, (ok.inj h).symm⟩
    · exact .inr ⟨hc, h⟩

theorem dict_of_run_nil {d : Dictionary} (h : st.run grow [] = .ok d) : st.dict = d := by
  unfold run at h
  split_ifs at h
  exact ok.inj h

theorem run_cons_eq_ok {pieces : List (List Char)} {d : Dictionary}
    (h : st.run grow (piece :: pieces) = .ok d) :
    ∃ st', st.step grow piece = .ok st' ∧ st'.run grow pieces = .ok d := by
  unfold run at h
  split at h
  · cases h
  next st' hs => exact ⟨st', hs, h⟩

/-- What every round over the pieces of a file preserves holds of the dictionary it loads as. -/
theorem run_invariant {P : Loader → Prop} {d : Dictionary} : ∀ {pieces : List (List Char)}
    {st : Loader}, (∀ st piece st', piece ∈ pieces → P st → st.step grow piece = .ok st' → P st') →
    P st → st.run grow pieces = .ok d → ∃ st', P st' ∧ st'.dict = d
  | [], st, _, hp, h => ⟨st, hp, dict_of_run_nil h⟩
  | piece :: pieces, st, hstep, hp, h => by
    obtain ⟨st', hs, h⟩ := run_cons_eq_ok h
    exact run_invariant (fun s p s' hm =>
      hstep s p s' (mem_cons_of_mem _ hm)) (hstep st piece st' mem_cons_self hp hs) h

/-- A round that succeeds does not depend on how the dictionary grew. -/
theorem step_fine (h : st.step grow piece = .ok st') : st.step (fun _ => none) piece = .ok st' := by
  obtain ⟨b, hb, hc⟩ := step_cases h
  have hl : (b ++ ['\n']).getLast? = some '\n' := by simp
  unfold step receive
  simp only [hb, hl, ne_eq, not_true_eq_false, if_false]
  rw [rdropWhile_concat_pos _ _ _ (by decide)]
  obtain ⟨hc, rfl⟩ | ⟨hc, hs⟩ := hc
  · rw [if_pos hc]
  rw [if_neg hc]
  unfold switch store at hs ⊢
  split at hs
  · exact hs
  · exact hs
  next sec hc =>
    split at hs
    next dict hd => simp only [dictionarySet_of_ok hd, hs]
    · cases hs
  next key val hc =>
    split_ifs at hs with hl
    split at hs
    next dict hd => simp only [dictionarySet_of_ok hd, hs, if_neg hl]
    · cases hs
  · exact hs

theorem run_fine {d : Dictionary} : ∀ {pieces : List (List Char)} {st : Loader},
    st.run grow pieces = .ok d → st.run (fun _ => none) pieces = .ok d
  | [], _, h => h
  | piece :: pieces, st, h => by
    obtain ⟨st', hs, h⟩ := run_cons_eq_ok h
    unfold run
    simp only [step_fine hs]
    exact run_fine h

/-! ### Loaded dictionaries -/

/-- What holds between two rounds. -/
structure Sound (st : Loader) : Prop where
  line_clean : Clean st.line
  line_short : st.line.length < ASCIILINESZ
  sec : HeaderName st.sec
  loaded : ∀ s ∈ st.dict.entries, s.Loaded

theorem sound_init : Sound init := by
  refine ⟨⟨by simp [init], by simp [init]⟩, by decide, ?_, ?_⟩
  · exact ⟨by decide, by decide, by simp [init], ⟨by simp [init], by simp [init]⟩, by decide⟩
  · simp [init, Dictionary.entries, dictionaryNew]

theorem buffer_prefix (st : Loader) (piece : List Char) : st.buffer piece <+: st.line ++ piece :=
  ( takeWhile_prefix _).trans ((prefix_append_right_inj _).mpr ( take_prefix _ _))

theorem clean_buffer (hs : Sound st) (hp : '\n' ∉ piece.dropLast) {b : List Char}
    (hb : st.buffer piece = b ++ ['\n']) : Clean b ∧ b.length < ASCIILINESZ - 1 := by
  have hpre : b ++ ['\n'] <+: st.line ++ piece.take (ASCIILINESZ - st.line.length - 1) := by
    rw [← hb]
    exact takeWhile_prefix _
  have hnul : '\x00' ∉ b ++ ['\n'] := by
    rw [← hb]
    exact nul_notMem_cstr _
  have hlen := hpre.length_le
  have hshort := hs.line_short
  rw [length_append, length_append, length_take, length_singleton] at hlen
  refine ⟨⟨fun hn => ?_, fun hn => hnul (mem_append_left _ hn)⟩, by omega⟩
  -- a newline inside the line would stand before the last character of the piece
  have hfull : b ++ ['\n'] <+: st.line ++ piece := hb ▸ st.buffer_prefix piece
  obtain rfl | hne := eq_or_ne piece []
  · rw [append_nil] at hfull
    exact hs.line_clean.1 (hfull.subset (by simp))
  rw [← dropLast_append_getLast hne, ← append_assoc] at hfull
  have hlen := hfull.length_le
  simp only [length_append, length_singleton] at hlen
  have hb : b <+: st.line ++ piece.dropLast :=
    prefix_of_prefix_length_le ((prefix_append _ _).trans hfull) (prefix_append _ _)
      (by rw [length_append]; omega)
  rcases mem_append.mp (hb.subset hn) with h | h
  · exact hs.line_clean.1 h
  · exact hp h

theorem loaded_set {d d' : Dictionary} {val : Option (List Char)}
    (hd : ∀ s ∈ d.entries, s.Loaded) (h : dictionarySet grow d key val = .ok d')
    (hs : (Slot.of key val).Loaded) : ∀ s ∈ d'.entries, s.Loaded := by
  intro s hm
  obtain rfl | ⟨hm, -⟩ := (mem_entries_set_iff h).mp hm
  · exact hs
  · exact hd s hm

theorem Sound.step (hs : Sound st) (hp : '\n' ∉ piece.dropLast) (h : st.step grow piece = .ok st') :
    Sound st' := by
  obtain ⟨b, hb, hc⟩ := step_cases h
  obtain ⟨hclean, hlen⟩ := clean_buffer hs hp hb
  have hpre : b.rdropWhile isspace <+: b := rdropWhile_prefix _ _
  have hline : Clean (b.rdropWhile isspace) := hclean.of_subset hpre.subset
  have hle := hpre.length_le
  obtain ⟨-, rfl⟩ | ⟨-, hc⟩ := hc
  · refine ⟨hline.of_subset (dropLast_subset _), ?_, hs.sec, hs.loaded⟩
    rw [length_dropLast]
    omega
  have hstrip : Clean (strstrip (b.rdropWhile isspace)) := hline.strstrip
  have hnil : Clean [] := ⟨not_mem_nil, not_mem_nil⟩
  have hzero : ([] : List Char).length < ASCIILINESZ := by decide
  obtain ⟨errs, rfl⟩ | ⟨sec, dict, hk, hd, rfl⟩ | ⟨key, val, dict, hk, hl, hd, rfl⟩ := switch_cases hc
  · exact ⟨hnil, hzero, hs.sec, hs.loaded⟩
  · obtain ⟨rfl, ho, hb⟩ := section_of_classify hk
    have hl := (strip_isInfix (b.rdropWhile isspace)).length_le
    have hsec := scanSection_headerName hs.sec hstrip (by unfold strstrip; omega) ho hb
    exact ⟨hnil, hzero, hsec, loaded_set hs.loaded hd hsec.loaded⟩
  · obtain ⟨rfl, hv⟩ := value_of_classify hk
    have hkey : Clean (lineKey (strstrip (b.rdropWhile isspace))) :=
      (hstrip.of_subset (takeWhile_subset _)).strstrip.strlwc
    have hcolon : Clean [':'] := ⟨by decide, by decide⟩
    refine ⟨hnil, hzero, hs.sec, loaded_set hs.loaded hd ⟨?_, ?_, ?_, ?_, ?_⟩⟩
    · simp only [Slot.of, length_append, length_cons]
      omega
    · simp only [Slot.of, map_append, map_cons, hs.sec.map_toLower, lineKey, map_toLower_strlwc]
      rfl
    · exact hs.sec.clean.append (hcolon.append hkey)
    · intro v hm
      cases hm
      exact hstrip.of_subset hv
    · exact fun hn => absurd (show ':' ∈ st.sec ++ ':' :: _ by simp) hn

end Loader

variable {o : Outcomes} {content : List Char} {d : Dictionary}

theorem slot_loaded (h : iniparserLoad o content = .ok d) {s : Slot} (hs : s ∈ d.entries) :
    s.Loaded := by
  unfold iniparserLoad at h
  split_ifs at h
  obtain ⟨st, hst, rfl⟩ := Loader.run_invariant
    (fun st piece st' hm hp => hp.step (newline_notMem_dropLast hm)) Loader.sound_init h
  exact hst.loaded s hs

theorem load_fine (h : iniparserLoad o content = .ok d) : iniparserLoad .fine content = .ok d := by
  unfold iniparserLoad at h
  split_ifs at h
  exact Loader.run_fine h

end Code365.Ini
