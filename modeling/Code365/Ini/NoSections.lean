import Code365.Ini.LostEntries

/-! # Dictionaries without sections

A dictionary without sections is dumped as lines `section:name = value` without a header, and the
loader puts the section in force and a colon before each of these keys.  A line of the form
`[..]` opens a section, with one bracket less than the key it was written for.  So every key that is
loaded starts with fewer brackets than some key that was written, or with more colons
(`Bare.step`), and the keys that were written are never all there (`not_subset_of_no_section`). -/

namespace Code365.Ini

open List CString Text

/-- The brackets at the start of a text, blanks apart. -/
def brackets : List Char → ℕ
  | [] => 0
  | c :: s => if c = '[' then brackets s + 1 else if isspace c then brackets s else 0

/-- The colons at the start of a text. -/
def colons (s : List Char) : ℕ := (s.takeWhile (· = ':')).length

/-! ### Brackets -/

theorem brackets_append_cons {x : Char} (hx : x ≠ '[') (hs : isspace x = false) (t : List Char) :
    ∀ s : List Char, brackets (s ++ x :: t) = brackets s
  | [] => by simp [brackets, hx, hs]
  | c :: s => by
    rw [cons_append]
    unfold brackets
    rw [brackets_append_cons hx hs t s]

theorem brackets_append {x : Char} (hx : x ≠ '[') (hs : isspace x = false) {s : List Char}
    (h : x ∈ s) (t : List Char) : brackets (s ++ t) = brackets s := by
  obtain ⟨a, b, rfl⟩ := append_of_mem h
  rw [append_assoc, cons_append, brackets_append_cons hx hs, brackets_append_cons hx hs]

theorem brackets_takeWhile {x : Char} (hx : x ≠ '[') (hs : isspace x = false) (s : List Char) :
    brackets (s.takeWhile (· ≠ x)) = brackets s := by
  by_cases h : x ∈ s
  · obtain ⟨a, b, rfl, ha⟩ := eq_append_cons_of_mem h
    rw [takeWhile_ne_append ha, brackets_append_cons hx hs]
  · rw [takeWhile_ne_self h]

theorem brackets_eq_filter :
    ∀ s : List Char, brackets s = ((s.filter fun c => !isspace c).takeWhile (· = '[')).length
  | [] => rfl
  | c :: s => by
    have ih := brackets_eq_filter s
    unfold brackets
    by_cases hc : c = '['
    · simp [hc, ih, isspace]
    · by_cases hs : isspace c
      · simp [hc, hs, ih]
      · simp [hc, hs]

theorem brackets_strstrip (s : List Char) : brackets (strstrip s) = brackets s := by
  have hl : (s.takeWhile isspace).filter (fun c => !isspace c) = [] :=
    filter_eq_nil_iff.mpr fun c hc => by simp [mem_takeWhile_imp hc]
  have hr : ((s.dropWhile isspace).rtakeWhile isspace).filter (fun c => !isspace c) = [] :=
    filter_eq_nil_iff.mpr fun c hc => by simp [mem_rtakeWhile_imp hc]
  have hs : s.takeWhile isspace ++ (strstrip s ++ (s.dropWhile isspace).rtakeWhile isspace) = s := by
    unfold strstrip strip
    rw [rdropWhile_append_rtakeWhile, takeWhile_append_dropWhile]
  conv_rhs => rw [← hs, brackets_eq_filter, filter_append, filter_append, hl, hr, append_nil,
    nil_append, ← brackets_eq_filter]

theorem brackets_take_le : ∀ (n : ℕ) (s : List Char), brackets (s.take n) ≤ brackets s
  | 0, s => by simp [brackets]
  | n + 1, [] => by simp
  | n + 1, c :: s => by
    have ih := brackets_take_le n s
    rw [take_succ_cons]
    unfold brackets
    split
    · omega
    · split <;> omega

theorem brackets_map_toLower : ∀ s : List Char, brackets (s.map Char.toLower) = brackets s
  | [] => rfl
  | c :: s => by
    rw [map_cons]
    unfold brackets
    rw [isspace_toLower, brackets_map_toLower s]
    simp only [toLower_eq_iff (x := '[') (by decide)]

theorem brackets_strlwc_le (s : List Char) : brackets (strlwc s) ≤ brackets s := by
  unfold strlwc cstr
  rw [brackets_map_toLower]
  calc brackets ((s.takeWhile (· ≠ '\x00')).take ASCIILINESZ)
      ≤ brackets (s.takeWhile (· ≠ '\x00')) := brackets_take_le _ _
    _ = brackets s := brackets_takeWhile (by decide) (by decide) s

variable {line : List Char}

/-- A header gives a name with fewer brackets, or leaves the section in force. -/
theorem brackets_scanSection (sec : List Char) (h : line.head? = some '[') :
    brackets (scanSection sec line) < brackets line ∨
    scanSection sec line = strlwc (strstrip sec) := by
  obtain ⟨t, rfl⟩ : ∃ t, line = '[' :: t := ⟨line.tail, (cons_head?_tail h).symm⟩
  unfold scanSection scanSet
  rw [tail_cons]
  by_cases he : t.takeWhile (· ≠ ']') = []
  · rw [if_pos he]
    exact .inr rfl
  rw [if_neg he]
  simp only [Option.map_some, Option.getD_some]
  have hle := brackets_strlwc_le (strstrip (t.takeWhile (· ≠ ']')))
  rw [brackets_strstrip, brackets_takeWhile (by decide) (by decide)] at hle
  have hb : brackets ('[' :: t) = brackets t + 1 := rfl
  omega

/-! ### Colons -/

theorem le_colons_iff : ∀ {n : ℕ} {s : List Char}, n ≤ colons s ↔ List.replicate n ':' <+: s
  | 0, s => by simp
  | n + 1, [] => by simp [colons, replicate_succ]
  | n + 1, c :: s => by
    have ih := le_colons_iff (n := n) (s := s)
    unfold colons at ih ⊢
    rw [replicate_succ, cons_prefix_cons, ← ih, takeWhile_cons]
    by_cases hc : c = ':'
    · simp [hc]
    · simp [hc, Ne.symm hc]

theorem prefix_strstrip {w l : List Char} (h : w <+: l) (hw : ∀ c ∈ w, isspace c = false) :
    w <+: strstrip l := by
  cases w with
  | nil => exact nil_prefix
  | cons a w =>
    have hd : l.dropWhile isspace = l := by
      obtain ⟨t, rfl⟩ := h
      rw [cons_append, dropWhile_cons_of_neg (by simp [hw a mem_cons_self])]
    unfold strstrip strip
    rw [hd]
    apply prefix_rdropWhile h
    intro c hc
    simp [hw c (mem_of_getLast? hc)]

/-- The key of a line starts with as many colons as the key that was written. -/
theorem colons_le_lineKey {key : List Char} (hk : key.length ≤ ASCIILINESZ)
    (h : key ++ [' ', '='] <+: line) : colons key ≤ colons (lineKey (strstrip line)) := by
  have hrun : List.replicate (colons key) ':' <+: key := le_colons_iff.mp le_rfl
  have hlen : (List.replicate (colons key) ':').length ≤ ASCIILINESZ := hrun.length_le.trans hk
  have hspace : ∀ c ∈ List.replicate (colons key) ':', isspace c = false := by
    intro c hc
    rw [eq_of_mem_replicate hc]
    decide
  have hne : ∀ x ≠ ':', ∀ c ∈ List.replicate (colons key) ':', decide (c ≠ x) = true := by
    intro x hx c hc
    rw [eq_of_mem_replicate hc]
    simpa using hx.symm
  rw [le_colons_iff]
  have hline := prefix_strstrip ((hrun.trans (prefix_append _ _)).trans h) hspace
  have hkey := prefix_strstrip (prefix_takeWhile hline (hne '=' (by decide))) hspace
  have hcut := prefix_take_iff.mpr ⟨prefix_takeWhile hkey (hne '\x00' (by decide)), hlen⟩
  have hlow := hcut.map Char.toLower
  rw [map_replicate] at hlow
  exact hlow

/-! ### Rounds over lines without headers -/

/-- A key that cannot make up for the keys `K`. -/
def Outrun (K : List (List Char)) (x : List Char) : Prop :=
  (∃ k ∈ K, brackets x < brackets k) ∨ ∃ y, x = ':' :: y ∧ ∃ k ∈ K, colons k ≤ colons y

/-- The keys `K` are being read from lines without headers. -/
structure Bare (K : List (List Char)) (st : Loader) : Prop where
  line : st.line = [] ∨ ∃ k ∈ K, k ++ [' ', '='] <+: st.line
  sec : st.sec = [] ∨ ∃ k ∈ K, brackets st.sec < brackets k
  keys : ∀ x ∈ st.dict.keys, ':' ∈ x → Outrun K x

namespace Bare

variable {K : List (List Char)} {grow : ℕ → Option Lost} {st st' : Loader} {piece : List Char}

theorem init : Bare K Loader.init := ⟨.inl rfl, .inl rfl, by simp [Loader.init]⟩

theorem keys_set (h : Bare K st) {key : List Char} {val : Option (List Char)} {dict : Dictionary}
    (hd : dictionarySet grow st.dict key val = .ok dict) (hk : ':' ∈ key → Outrun K key) :
    ∀ x ∈ dict.keys, ':' ∈ x → Outrun K x := by
  intro x hx hc
  obtain rfl | hx := (mem_keys_set_iff hd).mp hx
  · exact hk hc
  · exact h.keys x hx hc

theorem switch (h : Bare K st) (hK : ∀ k ∈ K, ':' ∈ k ∧ k.length ≤ ASCIILINESZ) {k : List Char}
    (hk : k ∈ K) (hl : k ++ [' ', '='] <+: line) (hs : st.switch grow line = .ok st') :
    Bare K st' := by
  have hb : brackets (strstrip line) = brackets k := by
    obtain ⟨t, rfl⟩ := hl
    rw [brackets_strstrip, append_assoc, brackets_append (by decide) (by decide) (hK k hk).1]
  obtain ⟨errs, rfl⟩ | ⟨sec, dict, hc, hd, rfl⟩ | ⟨key, val, dict, hc, -, hd, rfl⟩ := Loader.switch_cases hs
  · exact ⟨.inl rfl, h.sec, h.keys⟩
  · have hsec : sec = [] ∨ ∃ k ∈ K, brackets sec < brackets k := by
      obtain ⟨rfl, ho, -⟩ := section_of_classify hc
      obtain hlt | heq := brackets_scanSection st.sec ho
      · exact .inr ⟨k, hk, hb ▸ hlt⟩
      rw [heq]
      obtain hnil | ⟨k', hk', hlt⟩ := h.sec
      · rw [hnil]
        exact .inl rfl
      · right
        refine ⟨k', hk', lt_of_le_of_lt ?_ hlt⟩
        rw [← brackets_strstrip st.sec]
        exact brackets_strlwc_le _
    refine ⟨.inl rfl, hsec, h.keys_set hd fun hcol => ?_⟩
    obtain rfl | hsec := hsec
    · cases hcol
    · exact .inl hsec
  · have hkey := (value_of_classify hc).1
    refine ⟨.inl rfl, h.sec, h.keys_set hd fun _ => ?_⟩
    obtain hnil | ⟨k', hk', hlt⟩ := h.sec
    · rw [hnil, hkey]
      exact .inr ⟨_, rfl, k, hk, colons_le_lineKey (hK k hk).2 hl⟩
    · refine .inl ⟨k', hk', ?_⟩
      rwa [brackets_append_cons (by decide) (by decide)]

theorem step (h : Bare K st) (hK : ∀ k ∈ K, ':' ∈ k ∧ k.length ≤ ASCIILINESZ)
    (hn : ∀ k ∈ K, '\n' ∉ k) {k : List Char} (hk : k ∈ K) (hp : k ++ [' ', '='] <+: piece)
    (hs : st.step grow piece = .ok st') : Bare K st' := by
  obtain ⟨b, hb, hc⟩ := Loader.step_cases hs
  -- the line starts with a key that was written, now or when it was first kept
  obtain ⟨k1, hk1, hp1⟩ : ∃ k1 ∈ K, k1 ++ [' ', '='] <+: st.line ++ piece := by
    obtain hnil | ⟨k1, hk1, hp1⟩ := h.line
    · exact ⟨k, hk, by rwa [hnil]⟩
    · exact ⟨k1, hk1, hp1.trans (prefix_append _ _)⟩
  have hw : '\n' ∉ k1 ++ [' ', '='] := by simpa using hn k1 hk1
  have hpb : k1 ++ [' ', '='] <+: b := by
    have hbuf : b ++ ['\n'] <+: st.line ++ piece := hb ▸ st.buffer_prefix piece
    obtain hle | hle := prefix_or_prefix_of_prefix hp1 hbuf
    · obtain he | he := prefix_concat_iff.mp hle
      · exact absurd (he ▸ by simp) hw
      · exact he
    · exact absurd (hle.subset (by simp)) hw
  have hpl : k1 ++ [' ', '='] <+: b.rdropWhile isspace := by
    apply prefix_rdropWhile hpb
    simp [isspace]
  obtain ⟨hcont, rfl⟩ | ⟨-, hsw⟩ := hc
  · obtain ⟨t, ht⟩ := getLast?_eq_some_iff.mp hcont
    refine ⟨.inr ⟨k1, hk1, ?_⟩, h.sec, h.keys⟩
    rw [ht] at hpl
    simp only [ht, dropLast_concat]
    obtain he | he := prefix_concat_iff.mp hpl
    · have hlast := congrArg List.getLast? he
      simp at hlast
    · exact he
  · exact h.switch hK hk1 hpl hsw

end Bare

/-- The text that the dump of a dictionary without sections writes does not give all keys back. -/
theorem not_subset_of_no_section {d d' : Dictionary} {grow : ℕ → Option Lost} (hsec : sections d =
    []) (hne : d.keys ≠ []) (hd : ∀ k ∈ d.keys, '\n' ∉ k ∧ k.length ≤ ASCIILINESZ)
    (hrun : Loader.init.run grow ((dumpLines d).map (· ++ ['\n'])) = .ok d') :
    ¬ d.keys ⊆ d'.keys := by
  have hcol : ∀ k ∈ d.keys, ':' ∈ k := by
    intro k hk
    by_contra hc
    have : k ∈ sections d := mem_sections_iff.mpr ⟨hk, hc⟩
    rw [hsec] at this
    cases this
  have hlines : dumpLines d = d.entries.map bareLine := by
    unfold dumpLines iniparserGetnsec
    rw [hsec]
    rfl
  obtain ⟨st, hst, rfl⟩ := Loader.run_invariant (fun st piece st' hm h hs => by
    rw [hlines, map_map, mem_map] at hm
    obtain ⟨s, hmem, rfl⟩ := hm
    refine h.step (fun k hk => ⟨hcol k hk, (hd k hk).2⟩) (fun k hk => (hd k hk).1)
      (mem_map_of_mem hmem) ?_ hs
    simp [bareLine]) Bare.init hrun
  intro hsub
  have hfin : d.keys.toFinset.Nonempty := (toFinset_nonempty_iff _).mpr hne
  obtain ⟨kmax, hmax, hle⟩ := Finset.exists_max_image d.keys.toFinset brackets hfin
  obtain ⟨kmin, hmin, hge⟩ := Finset.exists_min_image d.keys.toFinset colons hfin
  simp only [mem_toFinset] at hmax hle hmin hge
  -- no key has a bracket: the one with the most would be outrun
  have hzero : ∀ k ∈ d.keys, brackets k = 0 := by
    intro k hk
    have hkle := hle k hk
    obtain ⟨k', hk', hlt⟩ | ⟨y, hy, -⟩ := hst.keys kmax (hsub hmax) (hcol kmax hmax)
    · have := hle k' hk'
      omega
    · have hb : brackets kmax = 0 := by
        rw [hy]
        rfl
      omega
  obtain ⟨k', hk', hlt⟩ | ⟨y, hy, k', hk', hlt⟩ := hst.keys kmin (hsub hmin) (hcol kmin hmin)
  · have := hzero k' hk'
    omega
  · have hc : colons kmin = colons y + 1 := by
      rw [hy]
      rfl
    have := hge k' hk'
    omega

end Code365.Ini
