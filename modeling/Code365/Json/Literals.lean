import Code365.Json.CJson

/-! # What `parse_string` reads

`parse_string` counts the characters up to the closing quote, takes a buffer of that length and
decodes into it.  `Literal s out rest` says what it reads in this way without leaving the text or
the buffer (`parseString_iff`): a string may end with the text instead of a quote, any character may
follow a backslash and any four characters `\u`, which are skipped even if there is a quote among
them. -/

namespace Code365.Json

open List

variable {s t rest out h h' : Text} {c : Char} {u n fuel : ℕ}

theorem bind_eq_ok_iff {α β : Type} {r : Result α} {f : α → Result β} {b : β} :
    r >>= f = .ok b ↔ ∃ a, r = .ok a ∧ f a = .ok b := by
  cases r with
  | error e | ok a => simp [bind, Except.bind]

theorem map_eq_ok_iff {α β : Type} {r : Result α} {f : α → β} {b : β} :
    r.map f = .ok b ↔ ∃ a, r = .ok a ∧ f a = b := by
  cases r with
  | error e | ok a => simp [Except.map]

/-- The character that a letter after a backslash stands for. -/
def letter (c : Char) : Char :=
  if c = 'b' then '\x08'
  else if c = 'f' then '\x0c'
  else if c = 'n' then '\n'
  else if c = 'r' then '\r'
  else if c = 't' then '\t'
  else c

/-- The text of a string after its quote, the string and the text from the closing quote on.  The
four characters after `\u` are skipped whatever they are. -/
inductive Decodes : Text → Text → Text → Prop
  | stop {s : Text} : s = [] ∨ s.head? = some '"' → Decodes s [] s
  | char {c : Char} {s out rest : Text} :
      c ≠ '"' → c ≠ '\\' → Decodes s out rest → Decodes (c :: s) (c :: out) rest
  | letter {c : Char} {s out rest : Text} :
      c ≠ 'u' → Decodes s out rest → Decodes ('\\' :: c :: s) (letter c :: out) rest
  | single {h s out rest : Text} : h.length = 4 → ¬ High (parseHex4 h) → Decodes s out rest →
      Decodes ('\\' :: 'u' :: (h ++ s)) (single (parseHex4 h) ++ out) rest
  | lone {h s out rest : Text} : h.length = 4 → High (parseHex4 h) → ¬ ['\\', 'u'] <+: s → Decodes s out rest →
      Decodes ('\\' :: 'u' :: (h ++ s)) out rest
  | pair {h h' s out rest : Text} : h.length = 4 → High (parseHex4 h) → h'.length = 4 → Decodes s out rest →
      Decodes ('\\' :: 'u' :: (h ++ '\\' :: 'u' :: (h' ++ s))) (pair (parseHex4 h) (parseHex4 h') ++ out) rest

/-- The number of characters up to the first quote that no backslash precedes, one for each pair of
backslash and character. -/
inductive Width : Text → ℕ → Prop
  | stop {s : Text} : s = [] ∨ s.head? = some '"' → Width s 0
  | char {c : Char} {s : Text} {n : ℕ} : c ≠ '"' → c ≠ '\\' → Width s n → Width (c :: s) (n + 1)
  | escape {c : Char} {s : Text} {n : ℕ} : Width s n → Width ('\\' :: c :: s) (n + 1)

/-- A string that fits into the buffer of its width. -/
inductive Literal : Text → Text → Text → Prop
  | mk {s out rest : Text} {n : ℕ} :
      Decodes s out rest → Width s n → out.length ≤ n → Literal ('"' :: s) out (rest.drop 1)

/-! ### Reading -/

theorem exists_four (ht : 4 ≤ t.length) : ∃ h s, h.length = 4 ∧ t = h ++ s :=
  ⟨t.take 4, t.drop 4, by simp [ht], (take_append_drop 4 t).symm⟩

theorem parseEscape_letter (hc : c ≠ 'u') (s : Text) :
    parseEscape (c :: s) = .ok ([letter c], s) := by
  rw [parseEscape, if_neg hc]
  unfold letter
  split_ifs <;> rfl

theorem parseUnicode_append (hh : h.length = 4) (s : Text) : parseUnicode (h ++ s) =
    if High (parseHex4 h) then if ['\\', 'u'].isPrefixOf s then if s.length + 4 <
    10 then .error .undefined else .ok (pair (parseHex4 h) (parseHex4 (s.drop 2)),
    s.drop 6) else .ok ([], s) else .ok (single (parseHex4 h), s) := by
  obtain ⟨a, b, c, d, rfl⟩ := length_eq_four.mp hh
  rfl

theorem parseUnicode_pair (hh : h.length = 4) (hu : High (parseHex4 h)) (hh' : h'.length = 4)
    (s : Text) :
    parseUnicode (h ++ '\\' :: 'u' :: (h' ++ s)) = .ok (pair (parseHex4 h) (parseHex4 h'), s) := by
  obtain ⟨a, b, c, d, rfl⟩ := length_eq_four.mp hh'
  rw [parseUnicode_append hh, if_pos hu, if_pos (by simp), if_neg (by simp)]
  rfl

theorem unescape_backslash {bytes : Text} (ht : parseEscape t = .ok (bytes, s))
    (hs : unescape fuel s = .ok (out, rest)) :
    unescape (fuel + 1) ('\\' :: t) = .ok (bytes ++ out, rest) := by
  simp only [unescape, ht, hs, bind, Except.bind, pure, Except.pure, Char.reduceEq, reduceIte]

theorem decodes_of_parseEscape {bytes : Text} (ht : parseEscape t = .ok (bytes, s))
    (hs : Decodes s out rest) : Decodes ('\\' :: t) (bytes ++ out) rest := by
  cases t with
  | nil => cases ht
  | cons c t =>
    by_cases hc : c = 'u'
    · subst hc
      have ht : parseUnicode t = .ok (bytes, s) := ht
      have hlen : 4 ≤ t.length := by
        by_contra hlt
        rw [parseUnicode, if_pos (by omega)] at ht
        cases ht
      obtain ⟨h, t, hh, rfl⟩ := exists_four hlen
      rw [parseUnicode_append hh] at ht
      split_ifs at ht with hu hp hlen'
      · obtain ⟨t', rfl⟩ := isPrefixOf_iff_prefix.mp hp
        rw [length_append, length_cons, length_singleton] at hlen'
        obtain ⟨h', t', hh', rfl⟩ := exists_four (t := t') (by omega)
        obtain ⟨a, b, c, d, rfl⟩ := length_eq_four.mp hh'
        cases ht
        have hpair := Decodes.pair hh hu hh' hs
        exact hpair
      · cases ht
        exact .lone hh hu (fun hpre => hp ( isPrefixOf_iff_prefix.mpr hpre)) hs
      · cases ht
        exact .single hh hu hs
    · rw [parseEscape_letter hc] at ht
      cases ht
      exact .letter hc hs

theorem decodes_of_unescape :
    ∀ {fuel : ℕ} {s out rest : Text}, unescape fuel s = .ok (out, rest) → Decodes s out rest
  | fuel + 1, [], out, rest, hs => by
    cases hs
    exact .stop (.inl rfl)
  | fuel + 1, c :: s, out, rest, hs => by
    unfold unescape at hs
    split_ifs at hs with hq hb
    · cases hs
      exact .stop (.inr (congrArg some hq))
    · subst hb
      obtain ⟨⟨bytes, t⟩, hescape, hs⟩ := bind_eq_ok_iff.mp hs
      obtain ⟨⟨out', rest'⟩, hrest, hs⟩ := bind_eq_ok_iff.mp hs
      cases hs
      exact decodes_of_parseEscape hescape (decodes_of_unescape hrest)
    · obtain ⟨⟨out', rest'⟩, hrest, hs⟩ := bind_eq_ok_iff.mp hs
      cases hs
      exact .char hq hb (decodes_of_unescape hrest)

theorem Decodes.unescape (hd : Decodes s out rest) (hfuel : s.length < fuel) :
    unescape fuel s = .ok (out, rest) := by
  induction hd generalizing fuel
  all_goals obtain ⟨fuel, rfl⟩ : ∃ m, fuel = m + 1 := ⟨fuel - 1, by omega⟩
  case stop hs =>
    rcases hs with rfl | hs
    · rfl
    · obtain ⟨t, rfl⟩ := head?_eq_some_iff.mp hs
      rfl
  all_goals simp only [length_cons, length_append] at hfuel
  case char hq hb _ ih =>
    rw [Json.unescape, if_neg hq, if_neg hb, ih (by omega)]
    rfl
  case letter hc _ ih => exact unescape_backslash (parseEscape_letter hc _) (ih (by omega))
  case single hh hu _ ih =>
    exact unescape_backslash ((parseUnicode_append hh _).trans (if_neg hu)) (ih (by omega))
  case lone s _ _ hh hu hs _ ih =>
    have hlone : parseEscape ('u' :: (_ ++ s)) = _ := (parseUnicode_append hh s).trans (if_pos hu)
    rw [if_neg (by rwa [ isPrefixOf_iff_prefix])] at hlone
    exact unescape_backslash hlone (ih (by omega))
  case pair hh hu hh' _ ih => exact unescape_backslash (parseUnicode_pair hh hu hh' _) (ih (by omega))

theorem width_of_scanLength : ∀ {s : Text} {n : ℕ}, scanLength s = .ok n → Width s n
  | [], n, hs => by
    cases hs
    exact .stop (.inl rfl)
  | [c], n, hs => by
    rw [scanLength.eq_def] at hs
    dsimp only at hs
    split_ifs at hs with hq hb
    · cases hs
      exact .stop (.inr (congrArg some hq))
    · cases hs
      exact .char hq hb (.stop (.inl rfl))
  | c :: d :: s, n, hs => by
    rw [scanLength.eq_def] at hs
    dsimp only at hs
    split_ifs at hs with hq hb
    · cases hs
      exact .stop (.inr (congrArg some hq))
    · subst hb
      obtain ⟨m, hm, rfl⟩ := map_eq_ok_iff.mp hs
      exact .escape (width_of_scanLength hm)
    · obtain ⟨m, hm, rfl⟩ := map_eq_ok_iff.mp hs
      exact .char hq hb (width_of_scanLength hm)

theorem scanLength_backslash (c : Char) (hs : scanLength s = .ok n) :
    scanLength ('\\' :: c :: s) = .ok (n + 1) := by
  rw [scanLength, if_neg (by decide), if_pos rfl]
  simp only [hs]
  rfl

theorem Width.scanLength (hw : Width s n) : scanLength s = .ok n := by
  induction hw with
  | stop hs =>
    rcases hs with rfl | hs
    · rw [Json.scanLength]
    · obtain ⟨t, rfl⟩ := head?_eq_some_iff.mp hs
      rw [Json.scanLength.eq_def]
      rfl
  | char hq hb _ ih =>
    rw [Json.scanLength.eq_def]
    simp only [hq, hb, if_false, ih]
    rfl
  | escape _ ih => exact scanLength_backslash _ ih

theorem parseString_iff : parseString s = .ok (out, rest) ↔ Literal s out rest := by
  constructor
  · intro hs
    cases s with
    | nil => cases hs
    | cons c s =>
      rw [parseString] at hs
      split_ifs at hs with hq
      subst hq
      obtain ⟨n, hn, hs⟩ := bind_eq_ok_iff.mp hs
      obtain ⟨⟨out', rest'⟩, hout, hs⟩ := bind_eq_ok_iff.mp hs
      dsimp only at hs
      split_ifs at hs with hlen
      cases hs
      exact .mk (decodes_of_unescape hout) (width_of_scanLength hn) (Nat.le_of_not_lt hlen)
  · rintro ⟨hd, hw, hlen⟩
    rw [parseString, if_pos rfl, hw.scanLength]
    simp only [bind, Except.bind, hd.unescape (Nat.lt_succ_self _)]
    exact if_neg (Nat.not_lt_of_le hlen)

/-! ### What is left of a text -/

theorem Decodes.suffix (hd : Decodes s out rest) : rest <:+ s := by
  induction hd with
  | stop _ => exact suffix_rfl
  | char _ _ _ ih => exact ih.trans (suffix_cons _ _)
  | letter _ _ ih => exact ih.trans (suffix_append [_, _] _)
  | single _ _ _ ih | lone _ _ _ _ ih => exact ih.trans (suffix_append (_ :: _ :: _) _)
  | @pair h h' s _ _ _ _ _ _ ih =>
    refine ih.trans ⟨'\\' :: 'u' :: (h ++ '\\' :: 'u' :: h'), ?_⟩
    simp only [append_assoc, cons_append]

theorem Literal.suffix (hl : Literal s out rest) : rest <:+ s := by
  obtain ⟨hd, _, _⟩ := hl
  exact (drop_suffix 1 _).trans (hd.suffix.trans (suffix_cons _ _))

/-! ### No NUL -/

theorem hexValue_lt {d : ℕ} (hc : hexValue c = some d) : d < 16 := by
  have hle : ∀ a b : Char, a ≤ b ↔ a.toNat ≤ b.toNat := fun _ _ => Iff.rfl
  have h0 : '0'.toNat = 48 ∧ '9'.toNat = 57 ∧ 'A'.toNat = 65 ∧ 'F'.toNat = 70 ∧ 'a'.toNat = 97 ∧
    'f'.toNat = 102 := by decide
  simp only [hexValue, hle, h0] at hc
  split_ifs at hc
  all_goals
    injection hc with hc
    omega

theorem parseHex4_lt (s : Text) : parseHex4 s < 0x10000 := by
  unfold parseHex4
  split
  · split
    · next ha hb hc hd =>
      have ha := hexValue_lt ha
      have hb := hexValue_lt hb
      have hc := hexValue_lt hc
      have hd := hexValue_lt hd
      omega
    · decide
  · decide

theorem toNat_ofNat (hn : n < 0xD800) : (Char.ofNat n).toNat = n := by
  rw [Char.ofNat, dif_pos (.inl hn)]
  rfl

theorem ofNat_ne_nul (h0 : 0 < n) (hn : n < 0xD800) : Char.ofNat n ≠ '\x00' := by
  intro he
  have hto := congrArg Char.toNat he
  rw [toNat_ofNat hn, show '\x00'.toNat = 0 from rfl] at hto
  omega

theorem nul_notMem_utf8 (h0 : u ≠ 0) (hu : u < 0x110000) : '\x00' ∉ utf8 u := by
  have hbyte : ∀ m, 0 < m → m < 0xD800 → ¬ '\x00' = Char.ofNat m := fun m h0 hm => (ofNat_ne_nul h0 hm).symm
  unfold utf8
  split_ifs
  all_goals simp only [mem_cons, not_mem_nil, or_false, not_or]
  all_goals and_intros
  all_goals exact hbyte _ (by omega) (by omega)

theorem nul_notMem_single (hu : u < 0x10000) : '\x00' ∉ single u := by
  unfold single
  split_ifs with hlow
  · exact not_mem_nil
  · exact nul_notMem_utf8 (fun h0 => hlow (.inr h0)) (by omega)

theorem nul_notMem_pair (u u' : ℕ) : '\x00' ∉ pair u u' := by
  unfold pair
  split_ifs
  · exact nul_notMem_utf8 (by omega) (by omega)
  · exact not_mem_nil

theorem letter_ne_nul (hc : c ≠ '\x00') : letter c ≠ '\x00' := by
  unfold letter
  split_ifs
  all_goals first
    | exact hc
    | decide

theorem Decodes.nul_notMem (hd : Decodes s out rest) (hs : '\x00' ∉ s) : '\x00' ∉ out := by
  induction hd with
  | stop _ => exact not_mem_nil
  | char _ _ _ ih =>
    rw [mem_cons, not_or] at hs ⊢
    exact ⟨hs.1, ih hs.2⟩
  | letter _ _ ih =>
    simp only [mem_cons, not_or] at hs ⊢
    exact ⟨(letter_ne_nul (Ne.symm hs.2.1)).symm, ih hs.2.2⟩
  | single _ _ _ ih =>
    simp only [mem_cons, mem_append, not_or] at hs ⊢
    exact ⟨nul_notMem_single (parseHex4_lt _), ih hs.2.2.2⟩
  | lone _ _ _ _ ih =>
    simp only [mem_cons, mem_append, not_or] at hs
    exact ih hs.2.2.2
  | pair _ _ _ _ ih =>
    simp only [mem_cons, mem_append, not_or] at hs ⊢
    exact ⟨nul_notMem_pair _ _, ih hs.2.2.2.2.2.2⟩

theorem Literal.nul_notMem (hl : Literal s out rest) (hs : '\x00' ∉ s) : '\x00' ∉ out := by
  obtain ⟨hd, _, _⟩ := hl
  exact hd.nul_notMem fun hmem => hs (mem_cons_of_mem _ hmem)

end Code365.Json
