import Code365.Ini.Parser

/-! # The settings store (`rj_set_int_conf` and `rj_get_int_conf` of `control/control.cpp`)

A setting is an entry of `system.ini`; both functions load the whole file under one lock.
`rjSetIntConf` gives the result of a call and what the file holds afterwards.  The file is opened
with `w+`, and so emptied, before the entry is set in the dictionary: of all the ways in which the
call can fail, exactly one comes after that point, a full dictionary that cannot grow
(`atomic_iff`). -/

namespace Code365.Ini

open CString Text

/-- `rj_set_int_conf`: the result and the content of `system.ini` afterwards. -/
def rjSetIntConf (o : Outcomes) (content key : List Char) (val : Int32) : Option (ℤ × List Char) :=
  match iniparserLoad o content with
  | .error .undefined => none
  | .error .null => some (-1, content)
  | .ok ini =>
    if ¬ o.openWrite then some (-1, content)
    else
      match iniparserSetInt o.grow ini key val with
      -- `iniparser_freedict` reads the arrays that are gone
      | .error .slots => none
      | .error .hash => some (-1, [])
      | .ok ini => (iniparserDumpIni ini).map (fun text => (0, text))

def rjGetIntConf (o : Outcomes) (content key : List Char) (notfound : Int32) : Option Int32 :=
  match iniparserLoad o content with
  | .error .undefined => none
  | .error .null => some notfound
  | .ok ini => iniparserGetint ini key notfound

/-- A call that returns an error has left the file as it was. -/
def Atomic (o : Outcomes) (content key : List Char) (val : Int32) : Prop :=
  ∀ ret content', rjSetIntConf o content key val = some (ret, content') → ret ≠ 0 → content' = content

/-- The file loads and opens for writing, the key is new to a dictionary whose slots are all in use,
and of its three arrays only the hashes cannot be doubled. -/
def Overfull (o : Outcomes) (content key : List Char) : Prop :=
  ∃ ini, iniparserLoad o content = .ok ini ∧ o.openWrite ∧ strlwc key ∉ ini.keys ∧
    ini.n = ini.size ∧ o.grow ini.size = some .hash

variable {o : Outcomes} {content key : List Char} {val : Int32}

theorem not_overfull_nil : ¬ Overfull o [] key := by
  rintro ⟨ini, hl, -, -, hn, -⟩
  unfold iniparserLoad at hl
  split_ifs at hl
  cases hl
  have hn : 0 = (dictionaryNew 0).size := hn
  rw [Dictionary.size_dictionaryNew] at hn
  exact absurd hn (by decide)

theorem rjSetIntConf_of_overfull (h : Overfull o content key) :
    rjSetIntConf o content key val = some (-1, []) := by
  obtain ⟨ini, hl, hw, hk, hn, hg⟩ := h
  have hs : iniparserSetInt o.grow ini key val = .error .hash :=
    dictionarySet_eq_error_iff.mpr ⟨hk, hn, hg⟩
  unfold rjSetIntConf
  simp [hl, hw, hs]

/-- Every other error comes before the file is opened for writing. -/
theorem atomic_of_not_overfull (h : ¬ Overfull o content key) : Atomic o content key val := by
  intro ret content' hr hret
  unfold rjSetIntConf at hr
  split at hr
  · cases hr
  · cases hr
    rfl
  next ini hl =>
    split at hr
    · cases hr
      rfl
    next hw =>
      rw [not_not] at hw
      split at hr
      · cases hr
      next hs =>
        obtain ⟨hk, hn, hg⟩ := dictionarySet_eq_error_iff.mp hs
        exact absurd ⟨ini, hl, hw, hk, hn, hg⟩ h
      next ini' hs =>
        obtain ⟨text, -, ht⟩ := Option.map_eq_some_iff.mp hr
        cases ht
        exact absurd rfl hret

/-- A failed call leaves the file unchanged exactly when the dictionary did not have to grow in vain
after the file was emptied. -/
theorem atomic_iff (o : Outcomes) (content key : List Char) (val : Int32) :
    Atomic o content key val ↔ ¬ Overfull o content key := by
  constructor
  · intro ha hf
    have hc := ha _ _ (rjSetIntConf_of_overfull hf) (by decide)
    rw [← hc] at hf
    exact not_overfull_nil hf
  · exact atomic_of_not_overfull

/-- A file of as many sections as a new dictionary has slots. -/
def fullFile : List Char :=
  (List.range DICTMINSZ).flatMap fun i => header [Char.ofNat (97 + i / 12), Char.ofNat (97 + i % 12)] ++ ['\n']

/-- Out of memory for the hashes at the first growth. -/
def noHashes : Outcomes := { Outcomes.fine with grow := fun _ => some .hash }

theorem fullFile_not_atomic : ¬ Atomic noHashes fullFile ['a', 'a', ':', 'x'] 1 := by
  have hr : rjSetIntConf noHashes fullFile ['a', 'a', ':', 'x'] 1 = some (-1, []) := by decide +kernel
  intro ha
  exact absurd (ha _ _ hr (by decide)) (by decide)

end Code365.Ini
