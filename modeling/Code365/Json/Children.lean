import Code365.Json.RcJson
import Code365.Json.Reread
import Code365.Json.Untrusted

/-! # Children

`rc_json_add_child` adds the text of a document as a string, and `rc_json_get_child` prints the item
that it finds.  So what comes back is the text with quotes around it (`getChild_addChild`), and an
object or an array never comes back as one (`not_survives`). -/

namespace Code365.Json

open List CString

variable {input input' key value child s t rest : Text} {c : Char} {x x' : CJson} {v w : Value} {named : Bool}

/-! ### Looking up a name -/

theorem texts_append (x x' : CJson) : texts (append x x') = texts x ++ texts x' := by
  induction x with
  | null => rfl
  | item _ _ _ _ _ _ _ ih => rw [append, texts, texts, ih, cons_append]

theorem Sound.append (hx : Sound named x) (hx' : Sound named x') : Sound named (append x x') := by
  induction x with
  | null => exact hx'
  | item _ _ _ _ _ _ _ ih =>
    obtain ⟨hname, hstring, hkind, hnext⟩ := hx
    exact ⟨hname, hstring, hkind, ih hnext⟩

theorem findItem_texts (key : Text) (x : CJson) : (match findItem key x with
    | .null => none
    | .item type valuestring valueint string child _ => some (string, Value.text ⟨type, valuestring, valueint, child⟩)) =
      (texts x).find? fun e => isNamed e.1 key := by
  induction x with
  | null => rfl
  | item type valuestring valueint string child next _ ih =>
    rw [findItem, texts, find?_cons]
    by_cases hname : isNamed string key
    · rw [if_pos hname, hname]
    · rw [if_neg hname, Bool.not_eq_true _ |>.mp hname]
      exact ih

theorem printValue_text {type : Kind} {valuestring string : Option Text} {valueint : ℤ}
    {child next : CJson} (ht : Value.text ⟨type, valuestring, valueint, child⟩ = some t) :
    printValue (.item type valuestring valueint string child next) = printStringPtr (some t) := by
  rw [Value.text] at ht
  split at ht
  · next htype =>
    obtain rfl : type = .string := htype
    obtain rfl : valuestring = some t := ht
    simp [printValue, printEntries]
  · cases ht

theorem Reads.unnamed {cat : Category} (hr : Reads cat s x rest) (hcat : cat = .entries Bool.false)
    (key : Text) : findItem key x = .null := by
  induction hr with
  | last hn _ _ _ =>
    cases hcat
    cases hn
    rfl
  | more hn _ _ _ _ ih =>
    cases hcat
    cases hn
    exact ih rfl
  | _ => cases hcat

theorem Reads.findItem_eq_null {cat : Category} (hr : Reads cat s x rest) (hcat : cat = .value)
    (hx : x = v.item none .null) (hs : s.head? ≠ some '\x7b') (key : Text) :
    findItem key v.child = .null := by
  cases hr with
  | last _ _ _ => cases hcat
  | more _ _ _ _ => cases hcat
  | number _ =>
    obtain rfl := Value.item_inj hx
    rw [(isNumber_parseNumber _).2]
    rfl
  | @container s _ child named _ hentries =>
    obtain rfl := Value.item_inj hx
    cases named with
    | false => exact hentries.unnamed rfl key
    | true => exact absurd rfl hs
  | _ =>
    obtain rfl := Value.item_inj hx
    rfl

/-! ### Adding a child -/

/-- The document that is printed after the child was added. -/
def Value.withChild (v : Value) (key value : Text) : Value :=
  { v with child := append v.child ((createString value).item (some key) .null) }

theorem addChild_cases (hadd : rcJsonAddChild input key value = .ok input')
    (habsent : ¬ Present input key) :
    ∃ v : Value, Sound false (v.item none .null) ∧ findItem (Text.cstr key) v.child = .null ∧
    input' = printValue ((v.withChild (Text.cstr key) (Text.cstr value)).item none .null) := by
  obtain ⟨json, hjson, hadd⟩ := bind_eq_ok_iff.mp hadd
  obtain ⟨json', hitem, hprint⟩ := bind_eq_ok_iff.mp hadd
  cases hprint
  rw [initCJson] at hjson
  split at hjson
  · cases hjson
    cases hitem
    have hobject : Sound false (Value.item ⟨kind true, none, 0, .null⟩ none .null) := sound_container trivial
    exact ⟨createObject, hobject, rfl, rfl⟩
  obtain rfl | ⟨v, rest, rfl, hparse⟩ := cJsonParse_cases hjson
  · cases hitem
  cases hitem
  have hreads := (reads_of_parse _).1 hparse
  refine ⟨v, hreads.sound (nul_notMem_of_suffix (skip_suffix _) (Text.nul_notMem_cstr input)), ?_, rfl⟩
  by_contra hne
  refine habsent ⟨_, hne, ?_⟩
  rw [initKeyNode, hjson]
  rfl

theorem Sound.withChild (hv : Sound false (v.item none .null)) (hkey : '\x00' ∉ key)
    (hvalue : '\x00' ∉ value) : Sound false ((v.withChild key value).item none .null) := by
  obtain ⟨_, hstring, hkind, _⟩ := hv
  have hnew : ∀ named, Sound named ((createString value).item (some key) .null) := fun named =>
    (sound_string ⟨value, rfl, hvalue⟩).entry (fun _ => ⟨key, rfl, hkey⟩) trivial
  exact ⟨nofun, hstring, fun named h => (hkind named h).append (hnew named), trivial⟩

/-- The document is read again with the same names and strings. -/
theorem texts_of_object (hv : Sound false (v.item none .null)) (htype : v.type = .object)
    (hparse : cJsonParse (Text.cstr (printValue (v.item none .null))) = .ok (w.item none .null)) :
    texts w.child = texts v.child := by
  obtain ⟨type, valuestring, valueint, child⟩ := v
  obtain rfl : type = .object := htype
  have hsound := hv.2.2.1 true rfl
  rw [Text.cstr_eq_self (nul_notMem_printValue hv fun _ => Sound.nul_notMem)] at hparse
  obtain ⟨rest, hparse⟩ := cJsonParse_item hparse
  rw [printValue_item] at hparse
  dsimp only at hparse
  rw [cons_append, skip_cons (by decide), ← cons_append,
    ← append_nil (openBracket true :: printEntries true child ++ [closeBracket true])] at hparse
  exact (reread_container hsound (reread hsound) hparse).2.2 rfl

theorem findItem_of_not_object (hv : Sound false (v.item none .null)) (htype : v.type ≠ .object)
    (hparse : cJsonParse (Text.cstr (printValue (v.item none .null))) = .ok (w.item none .null))
    (key : Text) : findItem key w.child = .null := by
  obtain ⟨c, t, hct, hc, hbrace⟩ := printValue_head hv.2.1
  have hnul : c ≠ '\x00' := by
    rintro rfl
    exact absurd hc.visible (by decide)
  have hcstr : Text.cstr (c :: t) = c :: Text.cstr t :=
    Text.cstr_append (u := [c]) (by simpa using hnul.symm) t
  obtain ⟨rest, hparse⟩ := cJsonParse_item hparse
  rw [hct, hcstr, skip_cons hc.visible] at hparse
  refine ((reads_of_parse _).1 hparse).findItem_eq_null rfl rfl ?_ key
  exact fun h => htype (hbrace (Option.some.inj h))

theorem find?_new (key value : Text) :
    (texts ((createString value).item (some key) .null)).find? (fun e => isNamed e.1 key) =
    some (some key, some value) := find?_cons_of_pos ((isNamed_iff ..).mpr rfl)

/-- The child comes back as the text that was added, with quotes around it; from what is not an
object it does not come back at all. -/
theorem getChild_addChild (habsent : ¬ Present input key) (hadd : rcJsonAddChild input key value =
    .ok input') (hget : rcJsonGetChild input' key = .ok child) :
    child = [] ∨ child = printStringPtr (some (Text.cstr value)) := by
  obtain ⟨v, hsound, hfind, rfl⟩ := addChild_cases hadd habsent
  obtain ⟨x, hx, hget⟩ := bind_eq_ok_iff.mp hget
  obtain ⟨json, hparse, hx⟩ := bind_eq_ok_iff.mp hx
  have hsound' := hsound.withChild (Text.nul_notMem_cstr key) (Text.nul_notMem_cstr value)
  obtain rfl | ⟨w, rest, rfl, _⟩ := cJsonParse_cases hparse
  · cases hx
  cases hx
  by_cases htype : v.type = .object
  · have htexts := texts_of_object hsound' htype hparse
    have hold := findItem_texts (Text.cstr key) v.child
    have hnew := findItem_texts (Text.cstr key) w.child
    rw [hfind] at hold
    rw [htexts, Value.withChild, texts_append, find?_append, ← hold, find?_new] at hnew
    generalize findItem (Text.cstr key) w.child = found at hnew hget
    cases found with
    | null => cases hnew
    | item type valuestring valueint string child next =>
      obtain ⟨_, htext⟩ := Prod.mk.inj (Option.some.inj hnew)
      cases hget
      exact .inr (printValue_text htext)
  · rw [findItem_of_not_object hsound' htype hparse] at hget
    exact .inl (Except.ok.inj hget).symm

/-! ### Documents as children -/

/-- What comes back after the child was added is the same document. -/
def Survives (input key value : Text) : Prop := ∃ input' child v, rcJsonAddChild input key value = .ok input' ∧
  rcJsonGetChild input' key = .ok child ∧ cJsonParse (Text.cstr child) = .ok (Value.item v none .null) ∧
  cJsonParse (Text.cstr value) = .ok (v.item none .null)

/-- A text that begins as an object or an array does. -/
def IsContainer (value : Text) : Prop := ∃ named t, skip (Text.cstr value) = openBracket named :: t

theorem type_of_bracket (hs : skip s = openBracket named :: t)
    (hparse : cJsonParse s = .ok (v.item none .null)) : v.type = kind named := by
  obtain ⟨rest, hparse⟩ := cJsonParse_item hparse
  rw [hs, parseValue_bracket, parseContainer] at hparse
  split at hparse
  · rw [← (Prod.mk.inj (Except.ok.inj hparse)).1]
  · obtain ⟨_, _, hparse⟩ := bind_eq_ok_iff.mp hparse
    rw [← (Prod.mk.inj (Except.ok.inj hparse)).1]

theorem type_of_quote (hparse : cJsonParse ('"' :: s) = .ok (v.item none .null)) :
    v.type = .string := by
  obtain ⟨rest, hparse⟩ := cJsonParse_item hparse
  rw [skip_cons (by decide), parseValue_quote] at hparse
  obtain ⟨_, _, hparse⟩ := map_eq_ok_iff.mp hparse
  rw [← (Prod.mk.inj hparse).1]
  rfl

/-- **Children.**  An object or an array that is added under a new key is never read back as the
document that it was, whatever it is added to. -/
theorem not_survives (input key value : Text) (habsent : ¬ Present input key)
    (hvalue : IsContainer value) : ¬ Survives input key value := by
  rintro ⟨input', child, v, hadd, hget, hchild, hparse⟩
  obtain ⟨named, t, ht⟩ := hvalue
  have htype := type_of_bracket ht hparse
  rcases getChild_addChild habsent hadd hget with rfl | rfl
  · cases hchild
  · rw [type_of_quote hchild] at htype
    cases named <;> cases htype

theorem not_survives_emptyObject :
    ¬ Present [] ['k'] ∧ IsContainer ['\x7b', '\x7d'] ∧ ¬ Survives [] ['k'] ['\x7b', '\x7d'] := by
  have habsent : ¬ Present [] ['k'] := by
    rintro ⟨x, _, hx⟩
    cases hx
  have hvalue : IsContainer ['\x7b', '\x7d'] := ⟨true, ['\x7d'], by decide⟩
  exact ⟨habsent, hvalue, not_survives [] ['k'] ['\x7b', '\x7d'] habsent hvalue⟩

/-- An empty array that is added to an empty text comes back as the string `"[]"`. -/
theorem emptyArray_not_survives : ¬ Survives [] ['k'] ['[', ']'] := by
  have hadd : rcJsonAddChild [] ['k'] ['[', ']'] =
    .ok ['\x7b', '"', 'k', '"', ':', '"', '[', ']', '"', '\x7d'] := by decide
  have hget : rcJsonGetChild ['\x7b', '"', 'k', '"', ':', '"', '[', ']', '"', '\x7d'] ['k'] =
      .ok ['"', '[', ']', '"'] := by
    decide
  have hstring : cJsonParse (Text.cstr ['"', '[', ']', '"']) =
    .ok ((createString ['[', ']']).item none .null) := by decide
  have harray : cJsonParse (Text.cstr ['[', ']']) =
    .ok (Value.item ⟨.array, none, 0, .null⟩ none .null) := by decide
  rintro ⟨input', child, v, hadd', hget', hchild, hvalue⟩
  rw [hadd] at hadd'
  cases hadd'
  rw [hget] at hget'
  cases hget'
  rw [hstring, ← hvalue, harray] at hchild
  cases hchild

end Code365.Json
