import Code365.Lib.CString
import Code365.Lib.Substr

/-! # The monitors of an `xrandr` report

`VideoCore::getResolutionList` goes through the lines of `xrandr -q`.  A line with ` connected`
starts a device, a line with ` disconnected` a section that belongs to none, and a line with an
`x` under a connected device is one of its modes: the size before and after the `x`, then the
refresh rates, cut one after another from a copy of the line.  A device is pushed when the next one
starts, the last one after the loop.

`cmdRes` is what `dev_exec` read, `none` for a command that could not be run.  It holds the pieces
that `fgets` returns with room for 1023 characters, each without its newline (`devExec`), so a
longer line is taken for several; the output of the command has no NUL.  The rates are read by a
`do … while` loop, modelled with a bound on its rounds; `rateList_isSome` says that the bound is
never reached. -/

namespace Code365.Video

open List Text CString

def devResBest : ℕ := 0x1

def devResCur : ℕ := 0x2

/-- `IS_SUPPORTED_RES`; the product is one of `unsigned`. -/
def isSupportedRes (w h : UInt32) : Bool := 1024 ≤ w && 720 ≤ h && 1024 * 768 ≤ w * h

structure RateInfo where
  rate : List Char
  flag : ℕ
deriving DecidableEq, Repr

structure ResInfo where
  res : List Char
  flag : ℕ
  rateList : List RateInfo
deriving DecidableEq, Repr

structure DevInfo where
  devType : List Char
  resList : List ResInfo
deriving DecidableEq, Repr

/-! ### Refresh rates -/

/-- Where the digits after the point end, what the mark there means, and where the rest of the line
starts. -/
structure RateEnd where
  strPos1 : Option ℕ
  flag : ℕ
  rest : ℕ

/-- The search for the end of the rate whose point is at `strPos0`.  Each mark is looked for in the
whole rest of the line; without any mark or blank, `strPos1` stays where the rate starts. -/
def rateEnd (tmpStr : List Char) (strPos0 : ℕ) (strPos1 : Option ℕ) : RateEnd :=
  match findFrom? ['*', '+'] tmpStr strPos0 with
  | some pos => ⟨some pos, devResBest ||| devResCur, pos + 2⟩
  | none =>
    match findFrom? [' ', '+'] tmpStr strPos0 with
    | some pos => ⟨some pos, devResBest, pos + 2⟩
    | none =>
      match findFrom? ['*'] tmpStr strPos0 with
      | some pos => ⟨some pos, devResCur, pos + 1⟩
      | none =>
        match findFrom? [' '] tmpStr strPos0 with
        | some pos => ⟨some pos, 0, pos + 1⟩
        | none => ⟨strPos1, 0, tmpStr.length⟩

/-- One round of the loop: the next rate and the rest of the line. -/
def nextRate (tmpStr : List Char) : Option (RateInfo × List Char) :=
  (find? ['.'] tmpStr).map fun strPos0 =>
    let strPos1 := rfindTo? ' ' tmpStr strPos0
    let str0 := between tmpStr (next strPos1) (some strPos0)
    let stop := rateEnd tmpStr strPos0 strPos1
    let str1 := between tmpStr (strPos0 + 1) stop.strPos1
    (⟨str0 ++ '.' :: str1, stop.flag⟩, tmpStr.drop stop.rest)

/-- The loop over the rates of a line, in at most `fuel` rounds. -/
def rateLoop : ℕ → List Char → Option (List RateInfo)
  | 0, _ => none
  | fuel + 1, tmpStr =>
    match nextRate tmpStr with
    | none => some []
    | some (rateInfo, tmpStr) =>
      if tmpStr = [] then some [rateInfo] else (rateLoop fuel tmpStr).map (rateInfo :: ·)

def rateList (it : List Char) : Option (List RateInfo) := rateLoop (it.length + 1) it

/-- `resInfo.flag` after its rates. -/
def flagUnion (rates : List RateInfo) : ℕ := rates.foldl (fun flag rateInfo => flag ||| rateInfo.flag) 0

/-! ### Lines -/

/-- What is read around the `x` of a mode line. -/
structure ModeSize where
  res : List Char
  width : UInt32
  height : UInt32
  bInterlaced : Bool

/-- The size at the `x` at `strPos0`.  `width` is read from `res`, to which `str0` has grown. -/
def modeSize (it : List Char) (strPos0 : ℕ) : ModeSize :=
  let str0 := between it (next (rfindTo? ' ' it strPos0)) (some strPos0)
  let str1 := between it (strPos0 + 1) (findFrom? [' '] it strPos0)
  let res := str0 ++ 'x' :: str1
  { res
    width := (atoi res).toUInt32
    height := (atoi (str1.erase 'i')).toUInt32
    bInterlaced := (find? ['i'] str1).isSome }

/-- The variables of the loop over the lines. -/
structure Scan where
  devCnt : ℕ
  isConnected : Bool
  devInfo : DevInfo
  devList : List DevInfo
deriving DecidableEq, Repr

/-- The state before the first line. -/
def Scan.init (devList : List DevInfo) : Scan := ⟨0, false, ⟨[], []⟩, devList⟩

/-- `devInfo.resList.push_back(resInfo)`. -/
def Scan.pushRes (s : Scan) (resInfo : ResInfo) : Scan :=
  { s with devInfo := { s.devInfo with resList := s.devInfo.resList ++ [resInfo] } }

/-- A mode line of a connected device. -/
def modeLine (s : Scan) (it : List Char) (strPos0 : ℕ) : Option Scan :=
  let size := modeSize it strPos0
  if isSupportedRes size.width size.height && !size.bInterlaced then
    (rateList it).map fun rates => s.pushRes ⟨size.res, flagUnion rates, rates⟩
  else some s

/-- A line that starts a connected device. -/
def deviceLine (s : Scan) (it : List Char) (strPos0 : ℕ) : Scan :=
  { devCnt := s.devCnt + 1
    isConnected := true
    devInfo := ⟨it.take strPos0, []⟩
    devList := if 1 < s.devCnt + 1 then s.devList ++ [s.devInfo] else s.devList }

/-- One line that does not end the loop. -/
def step (s : Scan) (it : List Char) : Option Scan :=
  if (find? " disconnected".toList it).isSome then some { s with isConnected := false }
  else match find? " connected".toList it with
    | some strPos0 => some (deviceLine s it strPos0)
    | none =>
      match find? ['x'] it with
      | some strPos0 =>
        if s.isConnected && (find? [' ', 'x', ' '] it).isNone then modeLine s it strPos0 else some s
      | none => some s

/-- The loop over the lines, which ends at `VIRTUAL1`. -/
def scan : Scan → List (List Char) → Option Scan
  | s, [] => some s
  | s, it :: cmdRes =>
    if (find? "VIRTUAL1".toList it).isSome then some s else (step s it).bind fun s => scan s cmdRes

/-- The push after the loop. -/
def Scan.finish (s : Scan) : List DevInfo := if 0 < s.devCnt then s.devList ++ [s.devInfo] else s.devList

/-- `VideoCore::getResolutionList`: the return value and `devList`; `none` if a loop does not
end. -/
def getResolutionList (cmdRes : Option (List (List Char)))
    (devList : List DevInfo) : Option (ℤ × List DevInfo) :=
  match cmdRes with
  | none => some (-1, devList)
  | some cmdRes => (scan (Scan.init devList) cmdRes).map fun s => (0, s.finish)

/-- What `dev_exec` stores of the buffer: a newline at the end is dropped. -/
def chomp (tmp : List Char) : List Char := if tmp.getLast? = some '\n' then tmp.dropLast else tmp

/-- `dev_exec`: the texts that are read from the output of a command into `tmp[1024]`. -/
def devExec (output : List Char) : List (List Char) := (readPieces 1024 (1024 - 1) output).map chomp

/-! ### Lines that fit into the buffer -/

theorem chomp_line (l : List Char) : chomp (l ++ ['\n']) = l := by
  unfold chomp
  rw [getLast?_concat, if_pos rfl, dropLast_concat]

theorem chomp_of_notMem {l : List Char} (h : '\n' ∉ l) : chomp l = l :=
  if_neg fun hlast => h (mem_of_getLast? hlast)

/-- A line that fills the buffer leaves its newline to a text of its own. -/
theorem devExec_line {l : List Char} (h : '\n' ∉ l) (hlen : l.length ≤ 1023) (s : List Char) :
    devExec (l ++ '\n' :: s) = (if l.length < 1023 then [l] else [l, []]) ++ devExec s := by
  unfold devExec
  split_ifs with hlt
  · rw [readPieces_line h hlt, map_cons, chomp_line]
    rfl
  · have heq : l.length = 1024 - 1 := by omega
    have hne : l ≠ [] := ne_nil_of_length_pos (by omega)
    have hfull := readPieces_full 1024 ('\n' :: s) h hne
    rw [heq] at hfull
    rw [hfull, map_cons, chomp_of_notMem h]
    rfl

theorem scan_devExec : ∀ {lines : List (List Char)} (s : Scan), (∀ l ∈ lines, '\n' ∉ l ∧
    l.length ≤ 1023) → scan s (devExec (lines.flatMap fun l => l ++ ['\n'])) = scan s lines
  | [], _, _ => rfl
  | l :: lines, s, h => by
    have hrest : ∀ s, scan s (devExec (lines.flatMap fun l => l ++ ['\n'])) = scan s lines :=
      fun s => scan_devExec s fun l' hl' => h l' (mem_cons_of_mem l hl')
    have hempty : ∀ s cmdRes, scan s ([] :: cmdRes) = scan s cmdRes := fun _ _ => rfl
    obtain ⟨hnot, hlen⟩ := h l mem_cons_self
    rw [flatMap_cons, append_assoc, singleton_append, devExec_line hnot hlen]
    split_ifs
    · simp only [singleton_append, scan, hrest]
    · simp only [cons_append, nil_append, scan.eq_2 _ l, hempty, hrest]

/-! ### The loop over the rates ends -/

theorem lt_rateEnd_rest {tmpStr : List Char} {strPos0 : ℕ} (strPos1 : Option ℕ)
    (h : strPos0 < tmpStr.length) : strPos0 < (rateEnd tmpStr strPos0 strPos1).rest := by
  have hle : ∀ {w : List Char} {pos : ℕ}, findFrom? w tmpStr strPos0 = some pos → strPos0 ≤ pos := by
    intro w pos hpos
    obtain ⟨i, _, rfl⟩ := Option.map_eq_some_iff.mp hpos
    exact Nat.le_add_left strPos0 i
  unfold rateEnd
  repeat' split
  all_goals first
    | exact h
    | next hpos =>
      have := hle hpos
      dsimp only
      omega

theorem nextRate_length_lt {tmpStr rest : List Char} {rateInfo : RateInfo}
    (h : nextRate tmpStr = some (rateInfo, rest)) : rest.length < tmpStr.length := by
  obtain ⟨strPos0, hfind, hrest⟩ := Option.map_eq_some_iff.mp h
  obtain ⟨_, rfl⟩ := Prod.mk.inj hrest
  have hlt : strPos0 < tmpStr.length := find?_add_length_le hfind
  have := lt_rateEnd_rest (rfindTo? ' ' tmpStr strPos0) hlt
  rw [length_drop]
  omega

theorem rateLoop_isSome :
    ∀ {fuel : ℕ} {tmpStr : List Char}, tmpStr.length < fuel → (rateLoop fuel tmpStr).isSome
  | fuel + 1, tmpStr, h => by
    unfold rateLoop
    split
    · rfl
    next hnext =>
      have hlt := nextRate_length_lt hnext
      split
      · rfl
      · rw [Option.isSome_map]
        exact rateLoop_isSome (by omega)

theorem rateList_isSome (it : List Char) :
    (rateList it).isSome := rateLoop_isSome (Nat.lt_succ_self _)

/-! ### Mode lines -/

/-- Decimal digits, at least one. -/
structure Digits where
  text : List Char
  isDigit : ∀ c ∈ text, c.isDigit
  ne_nil : text ≠ []

namespace Digits

theorem notMem (d : Digits) {c : Char} (hc : c.isDigit = false) : c ∉ d.text := by
  intro hmem
  rw [d.isDigit c hmem] at hc
  cases hc

/-- The number, as the `unsigned` that `atoi` gives. -/
def value (d : Digits) : UInt32 := (atoi d.text).toUInt32

end Digits

/-- The characters of rates and their marks. -/
def isRateChar (c : Char) : Bool := c.isDigit || c ∈ ['.', '*', '+', ' ']

/-- A line of blanks, `WxH`, an `i` for an interlaced mode, a blank and rates. -/
structure ModeText where
  blanks : ℕ
  width : Digits
  height : Digits
  interlaced : Bool
  rest : List Char
  isRateChar : ∀ c ∈ rest, isRateChar c

namespace ModeText

variable (m : ModeText)

/-- What stands after the `x`, up to the blank. -/
def heightText : List Char := m.height.text ++ if m.interlaced then ['i'] else []

def res : List Char := m.width.text ++ 'x' :: m.heightText

def line : List Char := List.replicate m.blanks ' ' ++ (m.res ++ ' ' :: m.rest)

theorem newline_notMem : '\n' ∉ m.line := by
  have hnot : ∀ d : Digits, '\n' ∉ d.text := fun d => d.notMem rfl
  have hrest : '\n' ∉ m.rest := fun hm => absurd (m.isRateChar _ hm) (by decide)
  unfold line res heightText
  cases m.interlaced <;> simp [hnot, hrest, mem_replicate]

/-- Modes that are kept. -/
def Supported : Prop := isSupportedRes m.width.value m.height.value ∧ m.interlaced = false

instance : Decidable m.Supported := instDecidableAnd

def xPos : ℕ := m.blanks + m.width.text.length

theorem line_eq : m.line = (replicate m.blanks ' ' ++ m.width.text) ++
    'x' :: (m.heightText ++ ' ' :: m.rest) := by
  simp [line, res]

theorem notMem_heightText {c : Char} (hc : c.isDigit = false) (hi : c ≠ 'i') :
    c ∉ m.heightText := by
  unfold heightText
  split <;> simp [m.height.notMem hc, hi]

theorem x_notMem : 'x' ∉ replicate m.blanks ' ' ++ m.width.text := by
  simp [mem_replicate, m.width.notMem (c := 'x') rfl]

theorem find?_x : find? ['x'] m.line = some m.xPos := by
  rw [line_eq]
  apply (find?_singleton_append _ m.x_notMem).trans
  simp [xPos]

theorem str0_eq :
    between m.line (next (rfindTo? ' ' m.line m.xPos)) (some m.xPos) = m.width.text := by
  have hstart := next_rfindTo? (endsWith_replicate ' ' m.blanks) (m.width.notMem rfl) (x := 'x') (by decide)
    (m.heightText ++ ' ' :: m.rest)
  have hcut := between_append (replicate m.blanks ' ') m.width.text ('x' :: (m.heightText ++ ' ' :: m.rest))
  rw [line_eq, append_assoc]
  rw [length_replicate] at hstart hcut
  unfold xPos
  rw [hstart, hcut]

theorem str1_eq : between m.line (m.xPos + 1) (findFrom? [' '] m.line m.xPos) = m.heightText := by
  have hlen : m.xPos = (replicate m.blanks ' ' ++ m.width.text).length := by simp [xPos]
  have hnot : ' ' ∉ 'x' :: m.heightText := by simp [m.notMem_heightText (c := ' ') rfl (by decide)]
  have hfind : findFrom? [' '] m.line m.xPos = some (m.xPos + 1 + m.heightText.length) := by
    rw [line_eq, hlen, findFrom?_append]
    have h := find?_singleton_append m.rest hnot
    apply (congrArg _ h).trans
    simp
    omega
  have hsplit : m.line = (replicate m.blanks ' ' ++ m.width.text ++ ['x']) ++
      (m.heightText ++ ' ' :: m.rest) := by
    rw [line_eq]
    simp
  have hcut := between_append (replicate m.blanks ' ' ++ m.width.text ++ ['x']) m.heightText (' ' :: m.rest)
  rw [← hsplit, length_append, ← hlen] at hcut
  rw [hfind]
  exact hcut

theorem erase_heightText : m.heightText.erase 'i' = m.height.text := by
  have hi := m.height.notMem (c := 'i') rfl
  unfold heightText
  cases m.interlaced with
  | false => simp [erase_of_not_mem hi]
  | true => simp [erase_append_right _ hi]

theorem find?_i_heightText : (find? ['i'] m.heightText).isSome = m.interlaced := by
  rw [Bool.eq_iff_iff, find?_isSome_iff]
  have hi := m.height.notMem (c := 'i') rfl
  have hmem : ['i'] <:+: m.heightText ↔ 'i' ∈ m.heightText := singleton_infix_iff 'i' _
  rw [hmem]
  unfold heightText
  cases m.interlaced <;> simp [hi]

theorem atoi_res : atoi m.res = atoi m.width.text := by
  apply atoi_append m.width.isDigit m.width.ne_nil
  rintro c hc
  cases hc
  decide

theorem modeSize_line :
    modeSize m.line m.xPos = ⟨m.res, m.width.value, m.height.value, m.interlaced⟩ := by
  have hres : m.width.text ++ 'x' :: m.heightText = m.res := rfl
  simp only [modeSize]
  rw [str0_eq, str1_eq, erase_heightText, find?_i_heightText, hres, atoi_res]
  rfl

theorem notMem_rest {c : Char} (hc : Video.isRateChar c = false) : c ∉ m.rest := by
  intro hmem
  rw [m.isRateChar c hmem] at hc
  cases hc

theorem notMem_line {c : Char} (hrate : Video.isRateChar c = false) (hx : c ≠ 'x') (hi : c ≠ 'i') :
    c ∉ m.line := by
  have hdigit : c.isDigit = false := by
    simp only [Video.isRateChar, Bool.or_eq_false_iff] at hrate
    exact hrate.1
  have hspace : c ≠ ' ' := by
    rintro rfl
    cases hrate
  simp [line, res, mem_replicate, hspace, hx, m.width.notMem hdigit, m.notMem_heightText hdigit hi,
    m.notMem_rest hrate]

theorem find?_line_eq_none {w : List Char} {c : Char} (hw : c ∈ w)
    (hrate : Video.isRateChar c = false) (hx : c ≠ 'x') (hi : c ≠ 'i') : find? w m.line = none := by
  rw [find?_eq_none_iff]
  exact fun h => m.notMem_line hrate hx hi (h.subset hw)

theorem find?_spaced_x : find? [' ', 'x', ' '] m.line = none := by
  rw [find?_eq_none_iff]
  intro h
  have hpair : [' ', 'x'] <:+: m.line := (prefix_append [' ', 'x'] [' ']).isInfix.trans h
  have hright : 'x' ∉ m.heightText ++ ' ' :: m.rest := by
    simp [m.notMem_heightText (c := 'x') rfl (by decide), m.notMem_rest (c := 'x') rfl]
  have hlast : (replicate m.blanks ' ' ++ m.width.text).getLast? ≠ some ' ' := by
    rw [getLast?_append_of_ne_nil _ m.width.ne_nil]
    exact fun he => m.width.notMem rfl (mem_of_getLast? he)
  rw [line_eq, pair_infix_append fun he => hlast he.1, infix_cons_iff] at hpair
  rcases hpair with hu | hp | hv
  · exact m.x_notMem (hu.subset (by simp))
  · simp [cons_prefix_cons] at hp
  · exact hright (hv.subset (by simp))

theorem modeLine_line (s : Scan) :
    modeLine s m.line m.xPos = if m.Supported then (rateList m.line).map fun rates =>
    s.pushRes ⟨m.res, flagUnion rates, rates⟩ else some s := by
  simp only [modeLine]
  rw [modeSize_line]
  simp only [Supported, Bool.and_eq_true, Bool.not_eq_true']

theorem step_line (s : Scan) :
    step s m.line = if s.isConnected ∧ m.Supported then (rateList m.line).map fun rates =>
    s.pushRes ⟨m.res, flagUnion rates, rates⟩ else some s := by
  have hdis := m.find?_line_eq_none (w := " disconnected".toList) (c :=
    'd') (by decide) rfl (by decide) (by decide)
  have hcon := m.find?_line_eq_none (w := " connected".toList) (c :=
    'c') (by decide) rfl (by decide) (by decide)
  unfold step
  rw [hdis, hcon, find?_x, find?_spaced_x]
  cases hs : s.isConnected with
  | false => simp
  | true => simp [modeLine_line]

end ModeText

end Code365.Video
