import Code365.Json.Reader
import Code365.Json.Strings

/-! # JSON texts

`Denotes .value s x` says that the text `s` is a JSON value, with strings, booleans, `null`, ints,
arrays and objects in it, and that it stands for the item `x`; `Denotes (.entries named) s x` says
so of what is between the brackets of an object or an array and the chain of its items.  The parser
reads such a text as that item, whatever follows (`Denotes.readsAs`), and an item that a text stands
for is printed as a text that stands for it (`Denotes.print`). -/

namespace Code365.Json

open List CString

/-- Blanks of JSON. -/
def Blank (s : Text) : Prop := ∀ c ∈ s, c = ' ' ∨ c = '\t' ∨ c = '\n' ∨ c = '\r'

inductive IntText : Text → ℤ → Prop
  | decimal {v : ℤ} : -2 ^ 31 ≤ v → v < 2 ^ 31 → IntText (decimal v) v
  | negZero : IntText ['-', '0'] 0

/-- What stands before the value of an entry: in an object, its name and a colon. -/
inductive Label : Bool → Text → Option Text → Prop
  | unnamed : Label false [] none
  | named {w s out w' : Text} : Blank w → Body s out → Blank w' →
      Label true (w ++ '"' :: (s ++ '"' :: (w' ++ [':']))) (some out)

inductive Denotes : Category → Text → CJson → Prop
  | null : Denotes .value "null".toList (Value.item ⟨.null, none, 0, .null⟩ none .null)
  | false : Denotes .value "false".toList (Value.item ⟨.false, none, 0, .null⟩ none .null)
  | true : Denotes .value "true".toList (Value.item ⟨.true, none, 1, .null⟩ none .null)
  | number {s : Text} {v : ℤ} : IntText s v → Denotes .value s ((createNumber v).item none .null)
  | string {s out : Text} :
      Body s out → Denotes .value ('"' :: s ++ ['"']) ((createString out).item none .null)
  | empty {w : Text} (named : Bool) : Blank w → Denotes .value (openBracket named :: w ++
      [closeBracket named]) (Value.item ⟨kind named, none, 0, .null⟩ none .null)
  | container {s : Text} {child : CJson} {named : Bool} :
      Denotes (.entries named) s child → Denotes .value (openBracket named :: s ++
      [closeBracket named]) (Value.item ⟨kind named, none, 0, child⟩ none .null)
  | last {l w s w' : Text} {name : Option Text} {v : Value} {named : Bool} :
      Label named l name → Blank w → Blank w' → Denotes .value s (v.item none .null) →
      Denotes (.entries named) (l ++ (w ++ (s ++ w'))) (v.item name .null)
  | more {l w s w' t : Text} {name : Option Text} {v : Value} {next : CJson} {named : Bool} :
      Label named l name → Blank w → Blank w' → Denotes .value s (v.item none .null) →
      Denotes (.entries named) t next →
      Denotes (.entries named) (l ++ (w ++ (s ++ (w' ++ ',' :: t)))) (v.item name next)

variable {s t w rest l : Text} {c : Char} {x : CJson} {name : Option Text} {named : Bool}
  {cat : Category} {v : ℤ} {n fuel : ℕ}

/-! ### Blanks -/

theorem blank_nil : Blank [] := fun _ hc => absurd hc not_mem_nil

theorem skip_blank (hw : Blank w) (s : Text) : skip (w ++ s) = skip s := by
  induction w with
  | nil => rfl
  | cons c w ih =>
    have hc : c.toNat ≤ 32 := by
      rcases hw c (mem_cons_self ..) with rfl | rfl | rfl | rfl <;> decide
    rw [cons_append, skip, dropWhile_cons, if_pos (decide_eq_true hc)]
    exact ih fun c hc => hw c (mem_cons_of_mem _ hc)

/-! ### First characters -/

/-- A character that may begin a value or a name. -/
structure Head (c : Char) : Prop where
  visible : 32 < c.toNat
  ne_close : ∀ named, c ≠ closeBracket named

theorem Head.skip_append (hc : Head c) (hw : Blank w) (s : Text) : skip (w ++ c :: s) = c :: s := by
  rw [skip_blank hw, skip_cons hc.visible]

theorem head_of_isDigit (hc : c.isDigit) : Head c := by
  have hnat := isDigit_iff.mp hc
  refine ⟨by omega, fun named => ?_⟩
  rintro rfl
  cases named <;> exact absurd hnat (by decide)

theorem head_minus : Head '-' := ⟨by decide, by decide⟩

theorem IntText.head (hs : IntText s v) : ∃ c t, s = c :: t ∧ (c = '-' ∨ c.isDigit) := by
  cases hs with
  | decimal _ _ =>
    obtain ⟨c, t, hct⟩ := exists_cons_of_ne_nil (decimal_ne_nil v)
    exact ⟨c, t, hct, mem_decimal (hct ▸ mem_cons_self ..)⟩
  | negZero => exact ⟨_, _, rfl, .inl rfl⟩

theorem Denotes.value_head (hj : Denotes .value s x) : ∃ c t, s = c :: t ∧ Head c := by
  cases hj with
  | null | false | true => exact ⟨_, _, rfl, by decide, by decide⟩
  | number hs =>
    obtain ⟨c, t, rfl, hc | hc⟩ := hs.head
    · exact ⟨c, t, rfl, hc ▸ head_minus⟩
    · exact ⟨c, t, rfl, head_of_isDigit hc⟩
  | string _ => exact ⟨_, _, rfl, by decide, by decide⟩
  | empty named _ | @container _ _ named _ =>
      exact ⟨_, _, rfl, by cases named <;> decide, by cases named <;> decide⟩

theorem Label.head (hl : Label named l name) (hw : Blank w) (hc : Head c) (hs : s = c :: t) :
    ∃ b e r, l ++ (w ++ s) = b ++ e :: r ∧ Blank b ∧ Head e := by
  subst hs
  cases hl with
  | unnamed => exact ⟨w, c, t, rfl, hw, hc⟩
  | named hb _ _ => exact ⟨_, '"', _, append_assoc .., hb, by decide, by decide⟩

theorem Denotes.entries_head (hj : Denotes (.entries named) s x) :
    ∃ b e r, s = b ++ e :: r ∧ Blank b ∧ Head e := by
  cases hj with
  | last hl hw _ hs | more hl hw _ hs _ =>
    obtain ⟨c, t, rfl, hc⟩ := hs.value_head
    exact hl.head hw hc rfl

/-! ### Numbers -/

/-- A text that does not go on with a number. -/
def Ends (rest : Text) : Prop := ∀ c ∈ rest.head?, ¬ c.isDigit ∧ c ≠ '.' ∧ c ≠ 'e' ∧ c ≠ 'E'

theorem goesOn_of_ends (hr : Ends rest) : goesOn rest = false := by
  cases rest with
  | nil => rfl
  | cons c rest =>
    obtain ⟨_, hdot, he, hE⟩ := hr c rfl
    rw [goesOn.eq_2 _ _ fun _ _ hc _ => hdot hc]
    simp [he, hE]

theorem parseDigits_of_not_isDigit (hr : ∀ c ∈ rest.head?, ¬ c.isDigit) :
    parseDigits rest = (0, rest) := by
  cases rest with
  | nil => rfl
  | cons c rest =>
    have hc := hr c rfl
    rw [parseDigits, if_neg]
    rintro ⟨h1, h9⟩
    exact hc (isDigit_iff.mpr ⟨(show 49 ≤ c.toNat from h1).trans' (by decide), h9⟩)

theorem parseUnsigned_toDigits (n : ℕ) (hr : ∀ c ∈ rest.head?, ¬ c.isDigit) :
    parseUnsigned (Nat.toDigits 10 n ++ rest) = (n, rest) := by
  by_cases h0 : n = 0
  · subst h0
    exact parseDigits_of_not_isDigit hr
  have hdigits : ∀ c ∈ Nat.toDigits 10 n, c.isDigit := fun c hc => isDigit_of_mem_toDigits hc
  have hhead := head_toDigits_ne_zero (Nat.pos_of_ne_zero h0)
  have hvalue := (digitsValue_append hdigits hr).trans (digitsValue_toDigits n)
  have hrest := dropWhile_append_eq hdigits hr
  obtain ⟨c, t, hct⟩ := exists_cons_of_ne_nil (Nat.toDigits_ne_nil (n := n))
  rw [hct] at hdigits hhead hvalue hrest ⊢
  have hc0 : c ≠ '0' := fun he => hhead (congrArg some he)
  have hc := isDigit_iff.mp (hdigits c (mem_cons_self ..))
  have hne : c.toNat ≠ 48 := fun he => hc0 (Char.toNat_inj.mp he)
  have hpos : '1' ≤ c ∧ c ≤ '9' := ⟨show 49 ≤ c.toNat by omega, hc.2⟩
  rw [cons_append] at hvalue hrest ⊢
  rw [parseUnsigned.eq_2 _ fun _ he => hc0 (cons.inj he).1, parseDigits, if_pos hpos, hvalue, hrest]

theorem parseSign_toDigits (n : ℕ) (s : Text) :
    parseSign (Nat.toDigits 10 n ++ s) = (false, Nat.toDigits 10 n ++ s) := by
  obtain ⟨c, t, hct⟩ := exists_cons_of_ne_nil (Nat.toDigits_ne_nil (n := n))
  have hc : c.isDigit := isDigit_of_mem_toDigits (hct ▸ mem_cons_self ..)
  rw [hct]
  refine parseSign.eq_2 _ fun _ he => ?_
  rw [(cons.inj he).1] at hc
  exact absurd hc (by decide)

theorem parseNumber_eq {negative : Bool} (hsign : parseSign s = (negative, t))
    (hs : parseUnsigned t = (n, rest)) (hr : Ends rest) (hv : v = if negative then -(n : ℤ) else n)
    (hlow : -2 ^ 31 ≤ v) (hhigh : v < 2 ^ 31) : parseNumber s = (createNumber v, rest) := by
  have hbound : ¬ (goesOn rest ∨ v < -2 ^ 31 ∨ 2 ^ 31 ≤ v) := by
    simp only [goesOn_of_ends hr, Bool.false_eq_true, false_or]
    omega
  simp only [parseNumber, hsign, hs, ← hv]
  rw [if_neg hbound]

theorem IntText.parseNumber (hs : IntText s v) (hr : Ends rest) :
    parseNumber (s ++ rest) = (createNumber v, rest) := by
  cases hs with
  | decimal hlow hhigh =>
    unfold CString.decimal
    have hdigits := parseUnsigned_toDigits v.natAbs fun c hc => (hr c hc).1
    split_ifs with hneg
    · have hv : v = -(v.natAbs : ℤ) := by omega
      exact parseNumber_eq rfl hdigits hr hv hlow hhigh
    · have hv : v = (v.natAbs : ℤ) := by omega
      exact parseNumber_eq (parseSign_toDigits _ _) hdigits hr hv hlow hhigh
  | negZero => exact parseNumber_eq rfl (parseUnsigned_toDigits 0 fun c hc =>
      (hr c hc).1) hr rfl (by decide) (by decide)

/-! ### Reading -/

theorem ends_blank (hw : Blank w) (hr : Ends rest) : Ends (w ++ rest) := by
  cases w with
  | nil => exact hr
  | cons b w =>
    intro c hc
    obtain rfl : b = c := Option.some.inj hc
    rcases hw b (mem_cons_self ..) with rfl | rfl | rfl | rfl <;> decide

theorem ends_comma (rest : Text) : Ends (',' :: rest) := by
  rintro c ⟨⟩
  decide

theorem ends_close (named : Bool) (rest : Text) : Ends (closeBracket named :: rest) := by
  rintro c ⟨⟩
  cases named <;> decide

theorem skip_close (hw : Blank w) (named : Bool) (rest : Text) :
    skip (w ++ closeBracket named :: rest) = closeBracket named :: rest := by
  rw [skip_blank hw, skip_cons (by cases named <;> decide)]

theorem Label.names (hl : Label named l name) (s : Text) : Names named (l ++ s) name s := by
  cases hl with
  | unnamed => exact .unnamed s
  | @named w n out w' hw hn hw' =>
    have htext : w ++ '"' :: (n ++ '"' :: (w' ++ [':'])) ++ s = w ++
        '"' :: (n ++ '"' :: (w' ++ ':' :: s)) := by
      simp only [append_assoc, cons_append, nil_append]
    have hquote : skip (w ++ '"' :: (n ++ '"' :: (w' ++ ':' :: s))) = '"' :: n ++ '"' :: (w' ++ ':' :: s) :=
      Head.skip_append ⟨by decide, by decide⟩ hw _
    have hcolon : skip (w' ++ ':' :: s) = ':' :: s := Head.skip_append ⟨by decide, by decide⟩ hw' s
    rw [htext]
    exact .named (hquote ▸ hn.literal _) hcolon

theorem Head.skip_value (hs : ∃ c t, s = c :: t ∧ Head c) (hw : Blank w) (rest : Text) :
    skip (w ++ (s ++ rest)) = s ++ rest := by
  obtain ⟨c, t, rfl, hc⟩ := hs
  exact hc.skip_append hw _

/-- What the parser makes of a text that is followed by another one. -/
def ReadsAs : Category → Text → CJson → Prop
  | .value, s, x => ∀ rest, Ends rest → Reads .value (s ++ rest) x rest
  | .entries named, s, x => ∀ rest, Reads (.entries named) (s ++ closeBracket named :: rest) x rest

theorem readsAs_number (hs : IntText s v) :
    ReadsAs .value s ((createNumber v).item none .null) := by
  intro rest hr
  obtain ⟨c, t, rfl, hc⟩ := hs.head
  have hreads : Reads .value (c :: (t ++ rest)) _ _ := .number hc
  rwa [← cons_append, hs.parseNumber hr] at hreads

theorem readsAs_container {child : CJson} (hs : Denotes (.entries named) s child)
    (ih : ReadsAs (.entries named) s child) : ReadsAs .value (openBracket named :: s ++
    [closeBracket named]) (Value.item ⟨kind named, none, 0, child⟩ none .null) := by
  intro rest _
  obtain ⟨b, e, r, hbe, hb, he⟩ := hs.entries_head
  have hhead : (skip (s ++ closeBracket named :: rest)).head? ≠ some (closeBracket named) := by
    rw [hbe, append_assoc, cons_append, he.skip_append hb]
    exact fun hc => he.ne_close named (Option.some.inj hc)
  rw [append_assoc, cons_append, singleton_append]
  exact .container hhead (ih rest).skip

theorem Denotes.readsAs (hj : Denotes cat s x) : ReadsAs cat s x := by
  induction hj with
  | null => exact fun rest _ => .null rest
  | false => exact fun rest _ => .false rest
  | true => exact fun rest _ => .true rest
  | number hs => exact readsAs_number hs
  | string hs =>
    intro rest _
    rw [append_assoc, singleton_append]
    exact .string (hs.literal rest)
  | empty named hw =>
    intro rest _
    rw [append_assoc, cons_append, singleton_append]
    exact .empty named (skip_close hw named rest)
  | container hs ih => exact readsAs_container hs ih
  | @last l w s w' name v named hl hw hw' hs ih =>
    intro rest
    have hvalue := ih (w' ++ closeBracket named :: rest) (ends_blank hw' (ends_close _ _))
    simp only [append_assoc]
    refine .last (hl.names _) ?_ (skip_close hw' named rest)
    rwa [Head.skip_value hs.value_head hw]
  | @more l w s w' t name v next named hl hw hw' hs _ ih iht =>
    intro rest
    have hvalue := ih (w' ++ ',' :: (t ++ closeBracket named :: rest)) (ends_blank hw' (ends_comma _))
    have hcomma : skip (w' ++ ',' :: (t ++ closeBracket named :: rest)) =
        ',' :: (t ++ closeBracket named :: rest) := by
      rw [skip_blank hw', skip_cons (by decide)]
    simp only [append_assoc, cons_append]
    refine .more (hl.names _) ?_ hcomma (iht rest)
    rwa [Head.skip_value hs.value_head hw]

/-! ### Printing -/

theorem printValue_item (v : Value) : printValue (v.item none .null) = (match v.type with
    | .null => "null".toList
    | .false => "false".toList
    | .true => "true".toList
    | .number => decimal v.valueint
    | .real d => printNumber v.valueint d
    | .string => printStringPtr v.valuestring
    | .array => openBracket Bool.false :: printEntries Bool.false v.child ++ [closeBracket Bool.false]
    | .object => openBracket Bool.true :: printEntries Bool.true v.child ++ [closeBracket Bool.true]) := by
  obtain ⟨type, valuestring, valueint, child⟩ := v
  cases type
  all_goals simp only [Value.item, printValue, printEntries, Bool.false_eq_true, if_false,
    nil_append, append_nil]

theorem printValue_container (named : Bool) (child : CJson) :
    printValue (Value.item ⟨kind named, none, 0, child⟩ none .null) =
    openBracket named :: printEntries named child ++ [closeBracket named] := by
  cases named <;> exact printValue_item _

theorem printEntries_last (v : Value) (name : Option Text) (named : Bool) :
    printEntries named (v.item name .null) = (if named then printStringPtr name ++ [':'] else []) ++
    printValue (v.item none .null) := by
  rw [printValue_item]
  obtain ⟨type, valuestring, valueint, child⟩ := v
  cases type
  all_goals simp only [Value.item, printEntries, append_nil]

theorem printEntries_more (v : Value) (name : Option Text) {next : CJson} (hnext : next ≠ .null)
    (named : Bool) : printEntries named (v.item name next) = (if named then printStringPtr name ++
    [':'] else []) ++ (printValue (v.item none .null) ++ ',' :: printEntries named next) := by
  rw [printValue_item]
  cases next with
  | null => exact absurd rfl hnext
  | item _ _ _ _ _ _ => exact append_assoc ..

theorem Label.print (hl : Label named l name) :
    Label named (if named then printStringPtr name ++ [':'] else []) name := by
  cases hl with
  | unnamed => exact .unnamed
  | @named _ _ out _ _ hn _ =>
    have hlabel := Label.named blank_nil (body_escaped hn.nul_notMem.2) blank_nil
    simpa [printStringPtr] using hlabel

theorem Denotes.ne_null (hj : Denotes cat s x) : x ≠ .null := by
  cases hj
  all_goals exact nofun

/-- What is printed for an item that a text stands for stands for the item too. -/
def Printed : Category → CJson → Prop
  | .value, x => Denotes .value (printValue x) x
  | .entries named, x => Denotes (.entries named) (printEntries named x) x

theorem IntText.decimal_self (hs : IntText s v) : IntText (CString.decimal v) v := by
  cases hs with
  | decimal hl hu => exact .decimal hl hu
  | negZero => exact .decimal (by decide) (by decide)

theorem Denotes.print (hj : Denotes cat s x) : Printed cat x := by
  induction hj with
  | null => exact .null
  | false => exact .false
  | true => exact .true
  | number hs =>
    rw [Printed, printValue_item]
    exact .number hs.decimal_self
  | string hs =>
    rw [Printed, printValue_item]
    exact .string (body_escaped hs.nul_notMem.2)
  | empty named hw =>
    rw [Printed, printValue_container]
    exact .empty named blank_nil
  | container hs ih =>
    rw [Printed, printValue_container]
    exact .container ih
  | last hl hw hw' hs ih =>
    rw [Printed, printEntries_last]
    have hlast := Denotes.last hl.print blank_nil blank_nil ih
    rwa [nil_append, append_nil] at hlast
  | more hl hw hw' hs ht ih iht =>
    rw [Printed, printEntries_more _ _ ht.ne_null]
    exact Denotes.more hl.print blank_nil blank_nil ih iht

/-! ### Whole texts -/

theorem Blank.nul_notMem (hw : Blank w) : '\x00' ∉ w := by
  intro hc
  rcases hw _ hc with h | h | h | h <;> exact absurd h (by decide)

theorem Label.nul_notMem (hl : Label named l name) : '\x00' ∉ l := by
  cases hl with
  | unnamed => exact not_mem_nil
  | named hw hn hw' => simp [hw.nul_notMem, hn.nul_notMem.1, hw'.nul_notMem]

theorem IntText.nul_notMem (hs : IntText s v) : '\x00' ∉ s := by
  cases hs with
  | decimal _ _ =>
    intro hc
    rcases mem_decimal hc with h | h <;> exact absurd h (by decide)
  | negZero => decide

theorem Denotes.nul_notMem (hj : Denotes cat s x) : '\x00' ∉ s := by
  have hopen : ∀ named, '\x00' ≠ openBracket named := by decide
  have hclose : ∀ named, '\x00' ≠ closeBracket named := by decide
  induction hj with
  | null | false | true => decide
  | number hs => exact hs.nul_notMem
  | string hs => simp [hs.nul_notMem.1]
  | empty named hw => simp [hw.nul_notMem, hopen, hclose]
  | container _ ih => simp [ih, hopen, hclose]
  | last hl hw hw' _ ih => simp [ih, hl.nul_notMem, hw.nul_notMem, hw'.nul_notMem]
  | more hl hw hw' _ _ ih iht => simp [ih, iht, hl.nul_notMem, hw.nul_notMem, hw'.nul_notMem]

end Code365.Json
