import Code365.Json.Grammar

/-! # Reading what was printed

`cJSON_Print` of what `cJSON_Parse` has read is not always the same document: a number may lose
digits, and one that is too large for a double is printed as `inf` or `-nan`, which no parser
reads.  But if the printed text is read again, every entry is there with its name, a string is the
same string and nothing else becomes one (`reread`). -/

namespace Code365.Json

open List CString

variable {s t rest out h : Text} {c : Char} {n fuel : ℕ} {x x' : CJson} {v v' : Value}
  {name : Option Text} {named : Bool}

/-! ### What is read can be printed -/

/-- A string that is there and has no NUL. -/
def IsString (string : Option Text) : Prop := ∃ s, string = some s ∧ '\x00' ∉ s

/-- Every name and every string is there, and none has a NUL. -/
def Sound (named : Bool) : CJson → Prop
  | .null => True
  | .item type valuestring _ string child next =>
    (named → IsString string) ∧ (type = .string → IsString valuestring) ∧
      (∀ named, type = kind named → Sound named child) ∧ Sound named next

theorem Literal.isString (hl : Literal s out rest) (hs : '\x00' ∉ s) :
    IsString (some out) := ⟨out, rfl, hl.nul_notMem hs⟩

theorem nul_notMem_of_suffix (hsuffix : t <:+ s) (hs : '\x00' ∉ s) :
    '\x00' ∉ t := fun hmem => hs (hsuffix.mem hmem)

theorem Names.isString (hn : Names named s name rest) (hs : '\x00' ∉ s) :
    named → IsString name := by
  cases hn with
  | unnamed => exact nofun
  | named hname _ => exact fun _ => hname.isString (nul_notMem_of_suffix (skip_suffix s) hs)

theorem parseNumber_cases (s : Text) :
    (∃ i, (parseNumber s).1 = createNumber i) ∨ ∃ d, (parseNumber s).1 = createDouble d := by
  simp only [parseNumber]
  generalize (if (parseSign s).1 =
    true then -((parseUnsigned (parseSign s).2).1 : ℤ) else (parseUnsigned (parseSign s).2).1) = i
  split
  · exact .inr ⟨_, rfl⟩
  · exact .inl ⟨i, rfl⟩

def Value.IsNumber (v : Value) : Prop := (v.type = .number ∨ ∃ d, v.type = .real d) ∧ v.child = .null

theorem isNumber_parseNumber (s : Text) : (parseNumber s).1.IsNumber := by
  obtain ⟨i, hi⟩ | ⟨d, hd⟩ := parseNumber_cases s
  · rw [hi]
    exact ⟨.inl rfl, rfl⟩
  · rw [hd, createDouble]
    split
    · exact ⟨.inl rfl, rfl⟩
    · exact ⟨.inr ⟨d, rfl⟩, rfl⟩

/-- An item that is neither a string nor a container has nothing to be checked. -/
theorem sound_scalar (hstring : v.type ≠ .string) (hkind : ∀ named, v.type ≠ kind named) :
    Sound false (v.item none .null) :=
  ⟨nofun, fun h => absurd h hstring, fun named h => absurd h (hkind named), trivial⟩

theorem sound_number (hv : v.IsNumber) : Sound false (v.item none .null) := by
  refine sound_scalar ?_ fun named => ?_
  · rcases hv with hv | ⟨d, hv⟩ <;> rw [hv] <;> exact nofun
  · rcases hv with hv | ⟨d, hv⟩ <;> rw [hv] <;> cases named <;> exact nofun

theorem sound_string (hout : IsString (some out)) :
    Sound false ((createString out).item none .null) := by
  refine ⟨nofun, fun _ => hout, fun named h => ?_, trivial⟩
  cases named <;> cases h

theorem sound_container {child : CJson} (hchild : Sound named child) :
    Sound false (Value.item ⟨kind named, none, 0, child⟩ none .null) := by
  refine ⟨nofun, fun h => ?_, fun named' h => ?_, trivial⟩
  · cases named <;> cases h
  · cases named <;> cases named' <;> first | exact hchild | cases h

theorem Sound.entry {next : CJson} (hv : Sound false (v.item none .null))
    (hname : named → IsString name) (hnext : Sound named next) :
    Sound named (v.item name next) := ⟨hname, hv.2.1, hv.2.2.1, hnext⟩

/-- Whether the names of what is read are looked at. -/
def Category.hasNames : Category → Bool
  | .value => false
  | .entries named => named

theorem Reads.sound {cat : Category} (hr : Reads cat s x rest) (hs : '\x00' ∉ s) :
    Sound cat.hasNames x := by
  induction hr with
  | null _ | false _ | true _ => exact sound_scalar nofun fun named => by cases named <;> exact nofun
  | string hl => exact sound_string (hl.isString hs)
  | number _ => exact sound_number (isNumber_parseNumber _)
  | empty named _ => exact sound_container trivial
  | container _ _ ih =>
    exact sound_container (ih (nul_notMem_of_suffix ((skip_suffix _).trans (suffix_cons _ _)) hs))
  | last hn _ _ ih =>
    have hvalue := ih (nul_notMem_of_suffix ((skip_suffix _).trans hn.suffix) hs)
    exact hvalue.entry (hn.isString hs) trivial
  | more hn hv hcomma _ ih ihnext =>
    have hvalue := ih (nul_notMem_of_suffix ((skip_suffix _).trans hn.suffix) hs)
    have hsuffix := (suffix_of_skip_eq hcomma).trans (hv.suffix.trans ((skip_suffix _).trans hn.suffix))
    exact hvalue.entry (hn.isString hs) (ihnext (nul_notMem_of_suffix hsuffix hs))

/-! ### Printed numbers -/

theorem isDecimal_decimal (i : ℤ) : Double.IsDecimal (decimal i) := by
  have h := Double.IsDecimal.mk (i < 0) i.natAbs [] [] (.inl rfl) (.inl rfl)
  unfold decimal
  split
  · next hi => simpa [Double.signText, hi] using h
  · next hi => simpa [Double.signText, hi] using h

theorem printed_printNumber (i : ℤ) (d : Double) : Double.Printed (printNumber i d) := by
  unfold printNumber
  split_ifs
  · exact .inr (.inr (isDecimal_decimal i))
  · exact Double.printed_fixed 0 d
  · exact Double.printed_scientific d
  · exact Double.printed_fixed 6 d

theorem parseExponent_printed {exponent : Text} (hr : Ends rest) (he : exponent = [] ∨
    ∃ sign ds, (sign = '+' ∨ sign = '-') ∧ (∀ c ∈ ds, c.isDigit) ∧ exponent = 'e' :: sign :: ds) :
    (parseExponent (exponent ++ rest)).2 = rest := by
  rcases he with rfl | ⟨sign, ds, hsign, hds, rfl⟩
  · cases rest with
    | nil => rfl
    | cons c rest =>
      obtain ⟨_, _, he, hE⟩ := hr c rfl
      simp only [nil_append, parseExponent, if_neg (not_or.mpr ⟨he, hE⟩)]
  · have hrest := dropWhile_append_eq hds fun c hc => (hr c hc).1
    rcases hsign with rfl | rfl
    · exact hrest
    · exact hrest

theorem parseFraction_printed {fraction : Text} (hr : ∀ c ∈ rest.head?, ¬ c.isDigit ∧ c ≠ '.')
    (hf : fraction = [] ∨ ∃ ds, ds ≠ [] ∧ (∀ c ∈ ds, c.isDigit) ∧ fraction = '.' :: ds) :
    (parseFraction (fraction ++ rest)).2 = rest := by
  rcases hf with rfl | ⟨ds, hne, hds, rfl⟩
  · rw [nil_append]
    unfold parseFraction
    split
    · exact absurd rfl (hr '.' rfl).2
    · rfl
  · obtain ⟨d, ds, rfl⟩ := exists_cons_of_ne_nil hne
    rw [cons_append, cons_append, parseFraction, if_pos (hds d (mem_cons_self ..))]
    exact dropWhile_append_eq hds fun c hc => (hr c hc).1

theorem isDecimal_head (ht : Double.IsDecimal t) : ∃ c u, t = c :: u ∧ (c = '-' ∨ c.isDigit) := by
  obtain ⟨negative, n, fraction, exponent, _, _⟩ := ht
  cases negative with
  | true => exact ⟨_, _, rfl, .inl rfl⟩
  | false =>
    obtain ⟨d, ds, hds⟩ := exists_cons_of_ne_nil (Nat.toDigits_ne_nil (n := n))
    refine ⟨d, ds ++ (fraction ++ exponent), ?_, .inr (isDigit_of_mem_toDigits (hds ▸ mem_cons_self ..))⟩
    rw [hds]
    rfl

theorem parseNumber_printed (ht : Double.IsDecimal t) (hr : Ends rest) :
    (parseNumber (t ++ rest)).2 = rest := by
  obtain ⟨negative, n, fraction, exponent, hf, he⟩ := ht
  have hexponent : ∀ c ∈ (exponent ++ rest).head?, ¬ c.isDigit ∧ c ≠ '.' := by
    intro c hc
    rcases he with rfl | ⟨sign, ds, _, _, rfl⟩
    · exact ⟨(hr c hc).1, (hr c hc).2.1⟩
    · obtain rfl : 'e' = c := Option.some.inj hc
      decide
  have hfraction : ∀ c ∈ (fraction ++ (exponent ++ rest)).head?, ¬ c.isDigit := by
    intro c hc
    rcases hf with rfl | ⟨ds, _, _, rfl⟩
    · exact (hexponent c hc).1
    · obtain rfl : '.' = c := Option.some.inj hc
      decide
  have hsign : (parseSign (Double.signText negative ++
      (Nat.toDigits 10 n ++ (fraction ++ (exponent ++ rest))))).2 = Nat.toDigits 10 n ++
      (fraction ++ (exponent ++ rest)) := by
    cases negative with
    | true => rfl
    | false => exact congrArg Prod.snd (parseSign_toDigits n _)
  simp only [append_assoc]
  rw [parseNumber_rest, hsign, parseUnsigned_toDigits n hfraction]
  rw [parseFraction_printed hexponent hf, parseExponent_printed hr he]

/-! ### Printed values -/

theorem printStringPtr_isString (hs : IsString name) :
    ∃ u out, name = some out ∧ Body u out ∧ printStringPtr name = '"' :: u ++ ['"'] := by
  obtain ⟨out, rfl, hout⟩ := hs
  exact ⟨_, out, rfl, body_escaped hout, rfl⟩

theorem printed_head (ht : Double.Printed t) : ∃ c u, t = c :: u ∧ Head c ∧ c ≠ '\x7b' := by
  rcases ht with rfl | ⟨negative, rfl⟩ | ht
  · exact ⟨_, _, rfl, head_minus, by decide⟩
  · cases negative with
    | true => exact ⟨_, _, rfl, head_minus, by decide⟩
    | false => exact ⟨_, _, rfl, ⟨by decide, by decide⟩, by decide⟩
  · obtain ⟨c, u, rfl, rfl | hc⟩ := isDecimal_head ht
    · exact ⟨_, _, rfl, head_minus, by decide⟩
    · refine ⟨c, u, rfl, head_of_isDigit hc, ?_⟩
      rintro rfl
      exact absurd hc (by decide)

/-- The first character of a value; only an object begins with a brace. -/
theorem printValue_head (hv : v.type = .string → IsString v.valuestring) :
    ∃ c t, printValue (v.item none .null) = c :: t ∧ Head c ∧ (c = '\x7b' → v.type = .object) := by
  obtain ⟨type, valuestring, valueint, child⟩ := v
  rw [printValue_item]
  cases type with
  | null | false | true => exact ⟨_, _, rfl, ⟨by decide, by decide⟩, fun h => absurd h (by decide)⟩
  | number =>
    obtain ⟨c, t, hct, hc, hne⟩ := printed_head (.inr (.inr (isDecimal_decimal valueint)))
    exact ⟨c, t, hct, hc, fun h => absurd h hne⟩
  | real d =>
    obtain ⟨c, t, hct, hc, hne⟩ := printed_head (printed_printNumber valueint d)
    exact ⟨c, t, hct, hc, fun h => absurd h hne⟩
  | string =>
    obtain ⟨u, _, _, _, hprint⟩ := printStringPtr_isString (hv rfl)
    exact ⟨_, _, hprint, ⟨by decide, by decide⟩, fun h => absurd h (by decide)⟩
  | array => exact ⟨_, _, rfl, ⟨by decide, by decide⟩, fun h => absurd h (by decide)⟩
  | object => exact ⟨_, _, rfl, ⟨by decide, by decide⟩, fun _ => rfl⟩

theorem label_print (hname : named → IsString name) : Label named
    (if named then printStringPtr name ++ [':'] else []) (if named then name else none) := by
  cases named with
  | false => exact .unnamed
  | true =>
    obtain ⟨u, out, rfl, hbody, hprint⟩ := printStringPtr_isString (hname rfl)
    have hlabel := Label.named blank_nil hbody blank_nil
    rw [if_pos rfl, hprint]
    simpa using hlabel

theorem nul_notMem_digits (hs : ∀ c ∈ s, c.isDigit) :
    '\x00' ∉ s := fun hmem => absurd (hs _ hmem) (by decide)

theorem nul_notMem_printed (ht : Double.Printed t) : '\x00' ∉ t := by
  have hsign : ∀ negative, '\x00' ∉ Double.signText negative := by decide
  rcases ht with rfl | ⟨negative, rfl⟩ | ⟨negative, n, fraction, exponent, hf, he⟩
  · decide
  · cases negative <;> decide
  · have hdigits : '\x00' ∉ Nat.toDigits 10 n := nul_notMem_digits fun c => isDigit_of_mem_toDigits
    have hfraction : '\x00' ∉ fraction := by
      rcases hf with rfl | ⟨ds, _, hds, rfl⟩
      · exact not_mem_nil
      · simp [nul_notMem_digits hds]
    have hexponent : '\x00' ∉ exponent := by
      rcases he with rfl | ⟨sign, ds, rfl | rfl, hds, rfl⟩
      · exact not_mem_nil
      · simp [nul_notMem_digits hds]
      · simp [nul_notMem_digits hds]
    simp only [mem_append, not_or]
    exact ⟨hsign negative, hdigits, hfraction, hexponent⟩

theorem nul_notMem_printStringPtr (hs : IsString name) : '\x00' ∉ printStringPtr name := by
  obtain ⟨u, out, _, hbody, hprint⟩ := printStringPtr_isString hs
  rw [hprint]
  simp [hbody.nul_notMem.1]

theorem nul_notMem_printValue (hv : Sound false (v.item none .null))
    (hchild : ∀ named, Sound named v.child → '\x00' ∉ printEntries named v.child) :
    '\x00' ∉ printValue (v.item none .null) := by
  obtain ⟨type, valuestring, valueint, child⟩ := v
  obtain ⟨_, hstring, hkind, _⟩ := hv
  rw [printValue_item]
  cases type with
  | null => exact (by decide : '\x00' ∉ "null".toList)
  | false => exact (by decide : '\x00' ∉ "false".toList)
  | true => exact (by decide : '\x00' ∉ "true".toList)
  | number => exact nul_notMem_printed (.inr (.inr (isDecimal_decimal valueint)))
  | real d => exact nul_notMem_printed (printed_printNumber valueint d)
  | string => exact nul_notMem_printStringPtr (hstring rfl)
  | array => simp [openBracket, closeBracket, hchild _ (hkind Bool.false rfl)]
  | object => simp [openBracket, closeBracket, hchild _ (hkind Bool.true rfl)]

def printNext (named : Bool) : CJson → Text
  | .null => []
  | .item type valuestring valueint string child next =>
    ',' :: printEntries named (.item type valuestring valueint string child next)

theorem printEntries_item (named : Bool) (type : Kind) (valuestring : Option Text) (valueint : ℤ)
    (string : Option Text) (child next : CJson) :
    printEntries named (.item type valuestring valueint string child next) =
    (if named then printStringPtr string ++ [':'] else []) ++ (printValue
    (Value.item ⟨type, valuestring, valueint, child⟩ none .null) ++ printNext named next) := by
  cases next with
  | null =>
    exact (printEntries_last ⟨type, valuestring, valueint, child⟩ string named).trans
      (by rw [printNext, append_nil])
  | item _ _ _ _ _ _ =>
    exact printEntries_more ⟨type, valuestring, valueint, child⟩ string (by exact nofun) named

theorem Sound.nul_notMem (hx : Sound named x) : '\x00' ∉ printEntries named x := by
  induction x generalizing named with
  | null => exact not_mem_nil
  | item type valuestring valueint string child next ihchild ihnext =>
    obtain ⟨hname, hstring, hkind, hnext⟩ := hx
    have hvalue : '\x00' ∉ printValue (Value.item ⟨type, valuestring, valueint, child⟩ none .null) :=
      nul_notMem_printValue ⟨nofun, hstring, hkind, trivial⟩ fun _ => ihchild
    rw [printEntries_item]
    simp only [mem_append, not_or]
    refine ⟨(label_print hname).nul_notMem, hvalue, ?_⟩
    cases next with
    | null => exact not_mem_nil
    | item _ _ _ _ _ _ => exact not_mem_cons_of_ne_of_not_mem (by decide) (ihnext hnext)

theorem printEntries_head (hx : Sound named x) (hne : x ≠ .null) :
    ∃ c t, printEntries named x = c :: t ∧ Head c := by
  cases x with
  | null => exact absurd rfl hne
  | item type valuestring valueint string child next =>
    obtain ⟨hname, hstring, _, _⟩ := hx
    rw [printEntries_item]
    cases named with
    | false =>
      obtain ⟨c, t, hct, hc, _⟩ := printValue_head (v := ⟨type, valuestring, valueint, child⟩) hstring
      exact ⟨c, _, by rw [hct]; rfl, hc⟩
    | true =>
      obtain ⟨u, _, _, _, hprint⟩ := printStringPtr_isString (hname rfl)
      exact ⟨'"', _, by rw [hprint]; rfl, ⟨by decide, by decide⟩⟩

/-! ### Reading a value again -/

theorem exists_fuel (hs : parseValue fuel s = .ok (v, rest)) : ∃ m, fuel = m + 1 := by
  cases fuel with
  | zero =>
    cases hs
  | succ m => exact ⟨m, rfl⟩

def Value.text (v : Value) : Option Text := if v.type = .string then v.valuestring else none

theorem text_number (hv : v.IsNumber) : v.text = none := by
  obtain ⟨hv | ⟨d, hv⟩, _⟩ := hv
  all_goals
    rw [Value.text, hv]
    rfl

/-- No entry ends here. -/
def Stuck (s : Text) : Prop := ∃ c t, s = c :: t ∧ Head c ∧ c ≠ ','

/-- What is not finite is not read, or its sign is read as a number and the letters remain. -/
theorem reread_number (ht : Double.Printed t) (hr : Ends rest)
    (hv : parseValue fuel (t ++ rest) = .ok (v, s)) : v.text = none ∧ (s = rest ∨ Stuck s) := by
  obtain ⟨fuel, rfl⟩ := exists_fuel hv
  have hnumber : ∀ {u}, (.ok (parseNumber u) : Result (Value × Text)) = .ok (v, s) → v.text = none ∧
      s = (parseNumber u).2 := by
    intro u hu
    have hu := Except.ok.inj hu
    have htype := isNumber_parseNumber u
    rw [hu] at htype
    exact ⟨text_number htype, (congrArg Prod.snd hu).symm⟩
  rcases ht with rfl | ⟨negative, rfl⟩ | ht
  · obtain ⟨htext, hs⟩ := hnumber hv
    exact ⟨htext, .inr ⟨'n', 'a' :: 'n' :: rest, hs, ⟨by decide, by decide⟩, by decide⟩⟩
  · cases negative with
    | true =>
      obtain ⟨htext, hs⟩ := hnumber hv
      exact ⟨htext, .inr ⟨'i', 'n' :: 'f' :: rest, hs, ⟨by decide, by decide⟩, by decide⟩⟩
    | false => cases hv
  · obtain ⟨c, u, rfl, hc⟩ := isDecimal_head ht
    rw [cons_append, parseValue_number hc] at hv
    obtain ⟨htext, hs⟩ := hnumber hv
    exact ⟨htext, .inl (hs.trans (parseNumber_printed ht hr))⟩

/-- What an entry keeps: its name and, if it is a string, the string. -/
def texts : CJson → List (Option Text × Option Text)
  | .null => []
  | .item type valuestring valueint string child next =>
      (string, Value.text ⟨type, valuestring, valueint, child⟩) :: texts next

/-- The printed entries are read to their end, with their names and strings. -/
def Rereads (named : Bool) (x : CJson) : Prop := ∀ {fuel : ℕ} {rest s : Text} {x' : CJson},
  parseEntries named fuel (printEntries named x ++ closeBracket named :: rest) = .ok (x', s) →
    s = rest ∧ (named → texts x' = texts x)

theorem parseEntries_skip (named : Bool) (fuel : ℕ) (s : Text) :
    parseEntries named fuel (skip s) = parseEntries named fuel s := by
  cases fuel with
  | zero => rfl
  | succ fuel =>
    cases named with
    | false => simp only [parseEntries, parseName, Bool.false_eq_true, if_false, pure_bind, skip_skip]
    | true => simp only [parseEntries, parseName, if_true, skip_skip]

theorem reread_container {child : CJson} (hsound : Sound named child)
    (hchild : child ≠ .null → Rereads named child)
    (hv : parseValue fuel (openBracket named :: printEntries named child ++ [closeBracket named] ++
    rest) = .ok (v, s)) : v.text = none ∧ s = rest ∧ (named → texts v.child = texts child) := by
  have htext : ∀ child, Value.text ⟨kind named, none, 0, child⟩ = none := by
    intro child
    cases named <;> rfl
  obtain ⟨fuel, rfl⟩ := exists_fuel hv
  rw [append_assoc, cons_append, singleton_append, parseValue_bracket, parseContainer] at hv
  by_cases hnull : child = .null
  · subst hnull
    have hskip := skip_close blank_nil named rest
    rw [printEntries, nil_append] at hv
    rw [nil_append] at hskip
    rw [hskip, if_pos (by rfl)] at hv
    cases hv
    exact ⟨htext _, rfl, fun _ => rfl⟩
  · obtain ⟨c, t, hct, hc⟩ := printEntries_head hsound hnull
    have hhead : (skip (printEntries named child ++ closeBracket named :: rest)).head? ≠
        some (closeBracket named) := by
      rw [hct, cons_append, skip_cons hc.visible]
      exact fun h => hc.ne_close named (Option.some.inj h)
    rw [if_neg hhead, parseEntries_skip] at hv
    obtain ⟨⟨child', u⟩, hentries, hv⟩ := bind_eq_ok_iff.mp hv
    cases hv
    exact ⟨htext _, hchild hnull hentries⟩

theorem reread_value (hsound : Sound false (v.item none .null))
    (hchild : ∀ named, Sound named v.child → v.child ≠ .null → Rereads named v.child)
    (hr : Ends rest) (hv : parseValue fuel (printValue (v.item none .null) ++ rest) = .ok (v', s)) :
    v'.text = v.text ∧ (s = rest ∨ Stuck s) := by
  obtain ⟨type, valuestring, valueint, child⟩ := v
  obtain ⟨_, hstring, hkind, _⟩ := hsound
  have hkeyword : ∀ {w : Value}, parseValue fuel (printValue (Value.item ⟨type, valuestring,
      valueint, child⟩ none .null) ++ rest) = .ok (w, rest) → v' = w ∧ s = rest := by
    intro w hw
    exact Prod.mk.inj (Except.ok.inj (hv.symm.trans hw))
  rw [printValue_item] at hv
  obtain ⟨fuel, rfl⟩ := exists_fuel hv
  cases type with
  | null =>
    obtain ⟨rfl, hs⟩ := hkeyword rfl
    exact ⟨rfl, .inl hs⟩
  | false =>
    obtain ⟨rfl, hs⟩ := hkeyword rfl
    exact ⟨rfl, .inl hs⟩
  | true =>
    obtain ⟨rfl, hs⟩ := hkeyword rfl
    exact ⟨rfl, .inl hs⟩
  | number => exact reread_number (.inr (.inr (isDecimal_decimal valueint))) hr hv
  | real d => exact reread_number (printed_printNumber valueint d) hr hv
  | string =>
    obtain ⟨u, out, rfl, hbody, hprint⟩ := printStringPtr_isString (hstring rfl)
    have htext : '"' :: u ++ ['"'] ++ rest = '"' :: u ++ '"' :: rest := by rw [append_assoc, singleton_append]
    rw [hprint, htext, cons_append, parseValue_quote, ← cons_append,
      parseString_iff.mpr (hbody.literal rest)] at hv
    cases hv
    exact ⟨rfl, .inl rfl⟩
  | array =>
    have hsound := hkind Bool.false rfl
    obtain ⟨htext, hs, _⟩ := reread_container hsound (hchild Bool.false hsound) hv
    exact ⟨htext, .inl hs⟩
  | object =>
    have hsound := hkind Bool.true rfl
    obtain ⟨htext, hs, _⟩ := reread_container hsound (hchild Bool.true hsound) hv
    exact ⟨htext, .inl hs⟩

/-! ### Reading the entries again -/

/-- What `parseEntries` does after the value of an entry. -/
def afterEntry (named : Bool) (fuel : ℕ) (v : Value) (name : Option Text) : Text → Result (CJson × Text)
  | ',' :: s => do
    let (next, rest) ← parseEntries named fuel s
    return (v.item name next, rest)
  | c :: rest => if c = closeBracket named then return (v.item name .null, rest) else .error .fail
  | [] => .error .fail

theorem afterEntry_stuck (hs : Stuck s) : afterEntry named fuel v name (skip s) = .error .fail := by
  obtain ⟨c, t, rfl, hc, hcomma⟩ := hs
  rw [skip_cons hc.visible]
  rw [afterEntry, if_neg (hc.ne_close named)]
  exact hcomma

theorem afterEntry_close (named : Bool) (s : Text) :
    afterEntry named fuel v name (closeBracket named :: s) = .ok (v.item name .null, s) := by
  cases named <;> rfl

theorem reread_entry (hname : named → IsString name) (hsound : Sound false (v.item none .null))
    (hchild : ∀ named, Sound named v.child → v.child ≠ .null → Rereads named v.child)
    (hr : Ends rest) (hparse : parseEntries named fuel ((if named then printStringPtr name ++
    [':'] else []) ++ (printValue (v.item none .null) ++ rest)) = .ok (x, s)) : ∃ fuel v', v'.text =
    v.text ∧ afterEntry named fuel v' (if named then name else none) (skip rest) = .ok (x, s) := by
  obtain ⟨c, t, hct, hc, _⟩ := printValue_head hsound.2.1
  have hskip : skip (printValue (v.item none .null) ++ rest) = printValue (v.item none .null) ++ rest := by
    rw [hct]
    exact skip_cons hc.visible _
  cases fuel with
  | zero =>
    cases hparse
  | succ fuel =>
    rw [parseEntries, parseName_iff.mpr ((label_print hname).names _)] at hparse
    obtain ⟨⟨name', r⟩, hlabel, hparse⟩ := bind_eq_ok_iff.mp hparse
    cases hlabel
    obtain ⟨⟨v', u⟩, hv, hafter⟩ := bind_eq_ok_iff.mp hparse
    have hafter : afterEntry named fuel v' (if named then name else none) (skip u) = .ok (x, s) := hafter
    rw [hskip] at hv
    obtain ⟨htext, rfl | hstuck⟩ := reread_value hsound hchild hr hv
    · exact ⟨fuel, v', htext, hafter⟩
    · rw [afterEntry_stuck hstuck] at hafter
      cases hafter

/-- **The round trip.**  If the printed entries are read, then to their end, and with the same names
and strings. -/
theorem reread (hx : Sound named x) (hne : x ≠ .null) : Rereads named x := by
  induction x generalizing named with
  | null => exact absurd rfl hne
  | item type valuestring valueint string child next ihchild ihnext =>
    obtain ⟨hname, hstring, hkind, hnext⟩ := hx
    intro fuel rest s x' hparse
    rw [printEntries_item, append_assoc, append_assoc] at hparse
    have hends : Ends (printNext named next ++ closeBracket named :: rest) := by
      cases next with
      | null => exact ends_close named rest
      | item _ _ _ _ _ _ => exact ends_comma _
    obtain ⟨fuel, v, htext, hafter⟩ := reread_entry hname
      ⟨nofun, hstring, hkind, trivial⟩ (fun _ => ihchild) hends hparse
    have htexts : named → ∀ next', texts (v.item (if named then string else none) next') =
        (string, Value.text ⟨type, valuestring, valueint, child⟩) :: texts next' := by
      intro hnamed next'
      rw [if_pos hnamed, ← htext]
      rfl
    cases next with
    | null =>
      rw [printNext, skip_close blank_nil, afterEntry_close] at hafter
      cases hafter
      exact ⟨rfl, fun hnamed => htexts hnamed .null⟩
    | item _ _ _ _ _ _ =>
      obtain ⟨⟨next', r⟩, hentries, hafter⟩ := bind_eq_ok_iff.mp hafter
      cases hafter
      obtain ⟨hrest, hnext⟩ := ihnext hnext nofun hentries
      exact ⟨hrest, fun hnamed => (htexts hnamed next').trans (congrArg _ (hnext hnamed))⟩

end Code365.Json
