import Code365.Json.Literals

/-! # What the parser accepts

`cJSON_Parse` reads more than JSON: strings that the text does not close, any character after a
backslash, any four characters after `\u`, numbers with no digits.  `Reads .value s x rest` says
that a text begins with a value in this wider sense, that it is read as the item `x`, and that
`rest` is left; `reads_of_parse` and `Reads.parsed` say that the parser reads exactly these texts.
So `cJSON_Parse` returns an item for these and for no others (`readable_iff`). -/

namespace Code365.Json

open List

variable {s t rest out h h' : Text} {c : Char} {n fuel : ℕ} {x : CJson} {v : Value}
  {name : Option Text} {named : Bool}
  {cat : Category}

theorem skip_cons (hc : 32 < c.toNat) (s : Text) : skip (c :: s) = c :: s := by
  rw [skip, dropWhile_cons, if_neg (by simpa using hc)]

theorem skip_skip (s : Text) : skip (skip s) = skip s := dropWhile_idempotent ..

/-! ### Values -/

inductive Category where
  | value
  | entries (named : Bool)

/-- The name of an entry, and the text after the colon. -/
inductive Names : Bool → Text → Option Text → Text → Prop
  | unnamed (s : Text) : Names false s none s
  | named {s name t rest : Text} :
      Literal (skip s) name t → skip t = ':' :: rest → Names true s (some name) rest

inductive Reads : Category → Text → CJson → Text → Prop
  | null (rest : Text) :
      Reads .value ("null".toList ++ rest) (Value.item ⟨.null, none, 0, .null⟩ none .null) rest
  | false (rest : Text) :
      Reads .value ("false".toList ++ rest) (Value.item ⟨.false, none, 0, .null⟩ none .null) rest
  | true (rest : Text) :
      Reads .value ("true".toList ++ rest) (Value.item ⟨.true, none, 1, .null⟩ none .null) rest
  | string {s out rest : Text} : Literal s out rest → Reads .value s ((createString out).item none .null) rest
  | number {c : Char} {s : Text} : c = '-' ∨ c.isDigit →
      Reads .value (c :: s) ((parseNumber (c :: s)).1.item none .null) (parseNumber (c :: s)).2
  | empty {s rest : Text} (named : Bool) : skip s = closeBracket named :: rest →
      Reads .value (openBracket named :: s) (Value.item ⟨kind named, none, 0, .null⟩ none .null) rest
  | container {s rest : Text} {child : CJson} {named : Bool} : (skip s).head? ≠ some (closeBracket named) →
      Reads (.entries named) (skip s) child rest →
      Reads .value (openBracket named :: s) (Value.item ⟨kind named, none, 0, child⟩ none .null) rest
  | last {s t u rest : Text} {name : Option Text} {v : Value} {named : Bool} : Names named s name t →
      Reads .value (skip t) (v.item none .null) u → skip u = closeBracket named :: rest →
      Reads (.entries named) s (v.item name .null) rest
  | more {s t u s' rest : Text} {name : Option Text} {v : Value} {next : CJson} {named : Bool} :
      Names named s name t → Reads .value (skip t) (v.item none .null) u → skip u = ',' :: s' →
      Reads (.entries named) s' next rest → Reads (.entries named) s (v.item name next) rest

theorem Value.item_inj {v' : Value} (h : v.item none .null = v'.item none .null) : v = v' := by
  obtain ⟨_, _, _, _⟩ := v
  cases h
  rfl

theorem parseName_iff : parseName named s = .ok (name, rest) ↔ Names named s name rest := by
  constructor
  · intro hs
    cases named with
    | false =>
      cases hs
      exact .unnamed s
    | true =>
      obtain ⟨⟨out, t⟩, hout, hs⟩ := bind_eq_ok_iff.mp hs
      dsimp only at hs
      split at hs
      · next hcolon =>
        cases hs
        exact .named (parseString_iff.mp hout) hcolon
      · cases hs
  · intro hs
    cases hs with
    | unnamed => rfl
    | named hname hcolon =>
      rw [parseName, if_pos rfl, parseString_iff.mpr hname]
      simp only [bind, Except.bind, hcolon]
      rfl

theorem parseValue_cons (hn : c ≠ 'n') (hf : c ≠ 'f') (ht : c ≠ 't') (s : Text) :
    parseValue (fuel + 1) (c :: s) = if c = '"' then (parseString (c :: s)).map fun r =>
    (⟨.string, some r.1, 0, .null⟩, r.2) else if c = '-' ∨ c.isDigit then .ok
    (parseNumber (c :: s)) else if c = '[' then parseArray (parseEntries false fuel) s else if c =
    '\x7b' then parseObject (parseEntries true fuel) s else .error .fail := by
  have hstart : ∀ (d : Char) (r : Text), c ≠ d → ¬ (d :: r).isPrefixOf (c :: s) :=
    fun d r hd h => hd (cons_prefix_cons.mp ( isPrefixOf_iff_prefix.mp h)).1.symm
  rw [parseValue, if_neg, if_neg, if_neg]
  · exact hstart 't' _ ht
  · exact hstart 'f' _ hf
  · exact hstart 'n' _ hn

theorem parseValue_bracket (named : Bool) (s : Text) : parseValue (fuel + 1)
    (openBracket named :: s) = parseContainer named (parseEntries named fuel) s := by
  cases named <;> exact (parseValue_cons (by decide) (by decide) (by decide) s).trans rfl

theorem parseValue_quote (s : Text) : parseValue (fuel + 1) ('"' :: s) =
    (parseString ('"' :: s)).map fun r => (createString r.1, r.2) :=
  (parseValue_cons (by decide) (by decide) (by decide) s).trans rfl

theorem parseValue_number (hc : c = '-' ∨ c.isDigit) (s : Text) : parseValue (fuel + 1) (c :: s) =
    .ok (parseNumber (c :: s)) := by
  have hne : ∀ d : Char, ¬ d.isDigit → d ≠ '-' → c ≠ d := by
    rintro d hd hm rfl
    rcases hc with hc | hc
    · exact hm hc
    · exact hd hc
  rw [parseValue_cons (hne _ (by decide) (by decide)) (hne _ (by decide) (by decide))
    (hne _ (by decide) (by decide)), if_neg (hne _ (by decide) (by decide)), if_pos hc]

theorem reads_of_parseContainer {entries : Text → Result (CJson × Text)}
    (hentries : ∀ {s x rest}, entries s = .ok (x, rest) → Reads (.entries named) s x rest)
    (hs : parseContainer named entries s = .ok (v, rest)) :
    Reads .value (openBracket named :: s) (v.item none .null) rest := by
  rw [parseContainer] at hs
  split_ifs at hs with hclose
  · cases hs
    obtain ⟨t, ht⟩ := head?_eq_some_iff.mp hclose
    rw [ht]
    exact .empty named ht
  · obtain ⟨⟨child, t⟩, hchild, hs⟩ := bind_eq_ok_iff.mp hs
    cases hs
    exact .container hclose (hentries hchild)

theorem reads_of_parseValue (ihentries : ∀ {named s x rest}, parseEntries named fuel s =
    .ok (x, rest) → Reads (.entries named) s x rest)
    (hs : parseValue (fuel + 1) s = .ok (v, rest)) : Reads .value s (v.item none .null) rest := by
  rw [parseValue.eq_def] at hs
  dsimp only at hs
  split_ifs at hs with hnull hfalse htrue
  · obtain ⟨t, rfl⟩ := isPrefixOf_iff_prefix.mp hnull
    cases hs
    exact .null t
  · obtain ⟨t, rfl⟩ := isPrefixOf_iff_prefix.mp hfalse
    cases hs
    exact .false t
  · obtain ⟨t, rfl⟩ := isPrefixOf_iff_prefix.mp htrue
    cases hs
    exact .true t
  · cases s with
    | nil => cases hs
    | cons c t =>
      dsimp only at hs
      split_ifs at hs with hq hn hb ho
      · obtain ⟨⟨out, r⟩, hout, hs⟩ := map_eq_ok_iff.mp hs
        cases hs
        exact .string (parseString_iff.mp hout)
      · obtain ⟨rfl, rfl⟩ := Prod.mk.inj (Except.ok.inj hs)
        exact .number hn
      · subst hb
        exact reads_of_parseContainer ihentries hs
      · subst ho
        exact reads_of_parseContainer ihentries hs

theorem reads_of_parseEntries (ihvalue : ∀ {s v rest}, parseValue fuel s = .ok (v, rest) →
    Reads .value s (v.item none .null) rest) (ihentries : ∀ {s x rest}, parseEntries named fuel s =
    .ok (x, rest) → Reads (.entries named) s x rest)
    (hs : parseEntries named (fuel + 1) s = .ok (x, rest)) : Reads (.entries named) s x rest := by
  obtain ⟨⟨name, t⟩, hname, hs⟩ := bind_eq_ok_iff.mp hs
  obtain ⟨⟨v, u⟩, hv, hs⟩ := bind_eq_ok_iff.mp hs
  have hname := parseName_iff.mp hname
  have hv := ihvalue hv
  dsimp only at hs
  split at hs
  · next hcomma =>
    obtain ⟨⟨next, r⟩, hnext, hs⟩ := bind_eq_ok_iff.mp hs
    cases hs
    exact .more hname hv hcomma (ihentries hnext)
  · next c r _ hclose =>
    split_ifs at hs with hc
    subst hc
    cases hs
    exact .last hname hv hclose
  · cases hs

/-- What is read with some fuel is a text of the grammar. -/
theorem reads_of_parse (fuel : ℕ) :
    (∀ {s v rest}, parseValue fuel s = .ok (v, rest) → Reads .value s (v.item none .null) rest) ∧
    (∀ {named s x rest}, parseEntries named fuel s = .ok (x, rest) →
    Reads (.entries named) s x rest) := by
  induction fuel with
  | zero =>
    constructor
    · intro s v rest hs
      cases hs
    · intro named s x rest hs
      cases hs
  | succ fuel ih =>
    obtain ⟨ihvalue, ihentries⟩ := ih
    exact ⟨fun hs => reads_of_parseValue ihentries hs, fun hs => reads_of_parseEntries ihvalue ihentries hs⟩

/-! ### What is left of a text -/

theorem skip_suffix (s : Text) : skip s <:+ s := dropWhile_suffix _

theorem suffix_of_skip_eq (hs : skip s = c :: rest) :
    rest <:+ s := (suffix_cons c rest).trans (hs ▸ skip_suffix s)

theorem Names.suffix (hn : Names named s name rest) : rest <:+ s := by
  cases hn with
  | unnamed => exact suffix_rfl
  | named hname hcolon => exact (suffix_of_skip_eq hcolon).trans (hname.suffix.trans (skip_suffix s))

theorem parseSign_suffix (s : Text) : (parseSign s).2 <:+ s := by
  unfold parseSign
  split
  · exact suffix_cons _ _
  · exact suffix_rfl

theorem parseDigits_suffix (s : Text) : (parseDigits s).2 <:+ s := by
  cases s with
  | nil => exact suffix_rfl
  | cons c s =>
    rw [parseDigits]
    split
    · exact dropWhile_suffix _
    · exact suffix_rfl

theorem parseUnsigned_suffix (s : Text) : (parseUnsigned s).2 <:+ s := by
  unfold parseUnsigned
  split
  · exact (parseDigits_suffix _).trans (suffix_cons _ _)
  · exact parseDigits_suffix _

theorem parseFraction_suffix (s : Text) : (parseFraction s).2 <:+ s := by
  unfold parseFraction
  split
  · split
    · exact (dropWhile_suffix _).trans (suffix_cons _ _)
    · exact suffix_rfl
  · exact suffix_rfl

theorem parseSubscale_suffix (s : Text) : (parseSubscale s).2 <:+ s := dropWhile_suffix _

theorem parseExponent_suffix (s : Text) : (parseExponent s).2 <:+ s := by
  cases s with
  | nil => exact suffix_rfl
  | cons c s =>
    rw [parseExponent.eq_def]
    dsimp only
    split
    · split
      · exact (parseSubscale_suffix _).trans (suffix_append [_, _] _)
      · exact (parseSubscale_suffix _).trans (suffix_append [_, _] _)
      · exact (parseSubscale_suffix _).trans (suffix_cons _ _)
    · exact suffix_rfl

theorem parseExponent_of_not_goesOn (hs : goesOn s = false) :
    (parseExponent (parseFraction s).2).2 = s := by
  unfold goesOn at hs
  split at hs
  · simp [parseFraction, parseExponent, hs]
  · next c t hpoint =>
    have hc : ¬ (c = 'e' ∨ c = 'E') := by simpa using hs
    have hfraction : parseFraction (c :: t) = ([], c :: t) := by
      refine parseFraction.eq_2 _ fun d r he => ?_
      cases he
      exact hpoint d r rfl rfl
    rw [hfraction]
    simp only [parseExponent, if_neg hc]
  · rfl

theorem parseNumber_rest (s : Text) :
    (parseNumber s).2 = (parseExponent (parseFraction (parseUnsigned (parseSign s).2).2).2).2 := by
  simp only [parseNumber]
  generalize (if (parseSign s).1 =
    true then -((parseUnsigned (parseSign s).2).1 : ℤ) else (parseUnsigned (parseSign s).2).1) = v
  split
  · rfl
  · next h =>
    rw [not_or, Bool.not_eq_true] at h
    exact (parseExponent_of_not_goesOn h.1).symm

theorem parseNumber_suffix (s : Text) : (parseNumber s).2 <:+ s := by
  rw [parseNumber_rest]
  exact (parseExponent_suffix _).trans
    ((parseFraction_suffix _).trans ((parseUnsigned_suffix _).trans (parseSign_suffix s)))

theorem Reads.suffix (hr : Reads cat s x rest) : rest <:+ s := by
  induction hr with
  | null _ | false _ | true _ => exact suffix_append _ _
  | string hs => exact hs.suffix
  | number _ => exact parseNumber_suffix _
  | empty named hs => exact (suffix_of_skip_eq hs).trans (suffix_cons _ _)
  | container _ _ ih => exact ih.trans ((skip_suffix _).trans (suffix_cons _ _))
  | last hn _ hclose ih => exact (suffix_of_skip_eq hclose).trans (ih.trans ((skip_suffix _).trans hn.suffix))
  | more hn _ hcomma _ ih ihnext =>
    exact ihnext.trans ((suffix_of_skip_eq hcomma).trans (ih.trans ((skip_suffix _).trans hn.suffix)))

/-! ### The parser reads the grammar -/

theorem Names.skip (hn : Names named s name rest) :
    Names named (skip s) name (if named then rest else skip rest) := by
  cases hn with
  | unnamed => exact .unnamed _
  | named hname hcolon => exact .named (by rwa [skip_skip]) hcolon

theorem Reads.skip (hr : Reads (.entries named) s x rest) :
    Reads (.entries named) (skip s) x rest := by
  have hif : ∀ t, Json.skip (if named then t else Json.skip t) = Json.skip t := by
    intro t
    cases named with
    | false => exact skip_skip t
    | true => rfl
  cases hr with
  | last hn hv hclose => exact .last hn.skip (by rwa [hif]) hclose
  | more hn hv hcomma hnext => exact .more hn.skip (by rwa [hif]) hcomma hnext

/-- How much fuel the parser needs for a text. -/
def Parsed : Category → Text → CJson → Text → Prop
  | .value, s, x, rest => ∀ v : Value, x = v.item none .null → ∀ fuel, 2 * s.length ≤ fuel →
      parseValue fuel s = .ok (v, rest)
  | .entries named, s, x, rest => ∀ fuel, 2 * s.length + 1 ≤ fuel → parseEntries named fuel s = .ok (x, rest)

theorem parsed_value (hs : ∀ fuel, 2 * t.length + 1 ≤ fuel → parseValue (fuel + 1) (c :: t) =
    .ok (v, rest)) : Parsed .value (c :: t) (v.item none .null) rest := by
  intro v' hv fuel hfuel
  obtain rfl := Value.item_inj hv
  rw [length_cons] at hfuel
  obtain ⟨fuel, rfl⟩ : ∃ m, fuel = m + 1 := ⟨fuel - 1, by omega⟩
  exact hs fuel (by omega)

theorem Reads.parsed (hr : Reads cat s x rest) : Parsed cat s x rest := by
  induction hr with
  | null _ | false _ | true _ => exact parsed_value fun _ _ => rfl
  | string hs =>
    have hparse := parseString_iff.mpr hs
    obtain ⟨_, _, _⟩ := hs
    refine parsed_value fun fuel _ => ?_
    rw [parseValue_quote, hparse]
    rfl
  | number hc => exact parsed_value fun fuel _ => parseValue_number hc _
  | @empty s rest named hs =>
    refine parsed_value fun fuel _ => ?_
    rw [parseValue_bracket, parseContainer, hs]
    exact if_pos rfl
  | @container s rest child named hs _ ih =>
    refine parsed_value fun fuel hfuel => ?_
    have hskip := (skip_suffix s).length_le
    rw [parseValue_bracket, parseContainer, if_neg hs, ih fuel (by omega)]
    rfl
  | @last s t u rest name v named hn _ hclose ih =>
    intro fuel hfuel
    obtain ⟨fuel, rfl⟩ : ∃ m, fuel = m + 1 := ⟨fuel - 1, by omega⟩
    have hlen := ((skip_suffix t).trans hn.suffix).length_le
    rw [parseEntries, parseName_iff.mpr hn]
    simp only [bind, Except.bind, ih v rfl fuel (by omega), hclose]
    cases named <;> rfl
  | @more s t u s' rest name v next named hn hv hcomma _ ih ihnext =>
    intro fuel hfuel
    obtain ⟨fuel, rfl⟩ : ∃ m, fuel = m + 1 := ⟨fuel - 1, by omega⟩
    have hlen := ((skip_suffix t).trans hn.suffix).length_le
    have hrest := ((skip_suffix u).trans hv.suffix).length_le
    rw [hcomma, length_cons] at hrest
    rw [parseEntries, parseName_iff.mpr hn]
    simp only [bind, Except.bind, ih v rfl fuel (by omega), hcomma, ihnext fuel (by omega)]
    rfl

theorem cJsonParse_cases (hs : cJsonParse s = .ok x) : x = .null ∨ ∃ v rest, x = v.item none .null ∧
    parseValue (2 * s.length + 1) (skip s) = .ok (v, rest) := by
  unfold cJsonParse at hs
  split at hs
  · next v rest hv => exact .inr ⟨v, rest, (Except.ok.inj hs).symm, hv⟩
  · exact .inl (Except.ok.inj hs).symm
  · cases hs

theorem cJsonParse_item (hs : cJsonParse s = .ok (v.item none .null)) :
    ∃ rest, parseValue (2 * s.length + 1) (skip s) = .ok (v, rest) := by
  obtain hnull | ⟨w, rest, hw, hparse⟩ := cJsonParse_cases hs
  · cases hnull
  · exact ⟨rest, Value.item_inj hw ▸ hparse⟩

theorem Reads.parse (hr : Reads .value (Json.skip s) (v.item none .null) rest) :
    cJsonParse s = .ok (v.item none .null) := by
  have hskip := (skip_suffix s).length_le
  rw [cJsonParse, hr.parsed v rfl _ (by omega)]

end Code365.Json
