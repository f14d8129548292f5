import Code365.Lib.CString

/-! # The address of `checkip` (`tools/check_ip/checkip.c`)

`check_ip_input` scans its argument with a cursor that four passes share.  The cursor is the list of
the bytes from `p` to the end of the buffer; a read behind the buffer is `none`.  What passes is a
dotted quad (`accepts_groups`).

`main` then gives the same text to `inet_addr`, which reads a group with a leading `0` as octal.  An
address is a number below `2 ^ 32` with the first group in the highest byte. -/

namespace Code365.Tools.CheckIp

open List Option CString

/-- The end of a group. -/
abbrev IsStop (c : Char) : Prop := c = '.' ∨ c = '\x00'

/-- The inner loop from `*p` on: the number of characters of the group, its value and the cursor, or
the error of the exit. -/
def scanGroup : ℕ → ℤ → List Char → Option (Except ℤ (ℕ × ℤ × List Char))
  | _, _, [] => none
  | j, ipParm, c :: p =>
    if IsStop c then some (.ok (j, ipParm, c :: p))
    else if 3 ≤ j then some (.error (-1))
    else
      let ipParm := if j ≠ 0 then ipParm * 10 else ipParm
      if c < '0' ∨ '9' < c then some (.error (-2))
      else scanGroup (j + 1) (ipParm + (c.toNat - '0'.toNat)) p

/-- The passes that are left; in the last one `i` is 3. -/
def scanGroups : ℕ → List Char → Option ℤ
  | 0, p => do
    let c ← p.head?
    return if c ≠ '\x00' then -5 else 0
  | passes + 1, p => do
    match ← scanGroup 0 0 p with
    | .error ret => return ret
    | .ok (j, ipParm, p) =>
      if j = 0 ∨ ipParm < 0 ∨ 255 < ipParm then return -3
      else
        let c ← p.head?
        if c = '.' then if passes = 0 then return -4 else scanGroups passes p.tail
        else scanGroups passes p

def checkIpInput (ipaddr : List Char) : Option ℤ := scanGroups 4 ipaddr

/-! ### Dotted quads -/

/-- A group of an address. -/
structure Octet where
  text : List Char
  nonempty : text ≠ []
  short : text.length ≤ 3
  digits : ∀ c ∈ text, c.isDigit
  le : digitsValue 10 text ≤ 255

def Octet.value (o : Octet) : ℕ := digitsValue 10 o.text

def dotted (os : List Octet) : List Char := ['.'].intercalate (os.map Octet.text)

theorem digit_range_iff (c : Char) : (c < '0' ∨ '9' < c) ↔ c.isDigit = false := by
  have hlt : ∀ a b : Char, a < b ↔ a.toNat < b.toNat := fun _ _ => Iff.rfl
  have h0 : '0'.toNat = 48 := rfl
  have h9 : '9'.toNat = 57 := rfl
  rw [hlt, hlt, ← Bool.not_eq_true, isDigit_iff]
  omega

theorem not_isStop {c : Char} (h : c.isDigit) : ¬ IsStop c := by
  rintro (rfl | rfl) <;> exact absurd h (by decide)

variable {g p s : List Char} {stop : Char}

theorem scanGroup_digits (hg : ∀ c ∈ g, c.isDigit) (hstop : IsStop stop) (p : List Char) {j n : ℕ}
    (hj : j = 0 → n = 0) (hlength : j + g.length ≤ 3) : scanGroup j n (g ++ stop :: p) =
    some (.ok (j + g.length, (g.foldl (fun n c => 10 * n + digitValue c) n : ℕ), stop :: p)) := by
  induction g generalizing j n with
  | nil => rw [nil_append, scanGroup, if_pos hstop, length_nil, add_zero, foldl_nil]
  | cons c g ih =>
    have hc := hg c (by simp)
    rw [length_cons] at hlength
    have hparm : (if j ≠ 0 then (n : ℤ) * 10 else n) + (c.toNat - '0'.toNat) =
        ((10 * n + digitValue c : ℕ) : ℤ) := by
      have hv := (digitValue_of_isDigit hc).1
      have hrange := isDigit_iff.mp hc
      have h0 : '0'.toNat = 48 := rfl
      split
      · omega
      next h =>
        omega
    rw [cons_append, scanGroup, if_neg (not_isStop hc), if_neg (by omega)]
    rw [if_neg (by rw [digit_range_iff, hc]; decide), hparm,
      ih (fun c hc => hg c (by simp [hc])) (by omega) (by omega), length_cons, foldl_cons,
      show j + 1 + g.length = j + (g.length + 1) by omega]

theorem scanGroup_error (hg : ∀ c ∈ g, ¬ IsStop c) {j : ℕ}
    (hbad : (∀ c ∈ g, c.isDigit) → 3 < j + g.length) (hj : j ≤ 3) (n : ℤ) (p : List Char) :
    ∃ ret < 0, scanGroup j n (g ++ p) = some (.error ret) := by
  induction g generalizing j n with
  | nil =>
    have := hbad (by simp)
    simp only [length_nil] at this
    omega
  | cons c g ih =>
    rw [cons_append, scanGroup, if_neg (hg c (by simp))]
    by_cases h3 : 3 ≤ j
    · rw [if_pos h3]
      exact ⟨-1, by decide, rfl⟩
    rw [if_neg h3]
    by_cases hc : c.isDigit
    · rw [if_neg (by rw [digit_range_iff, hc]; decide)]
      apply ih fun c hc => hg c (by simp [hc])
      · intro hdigits
        have := hbad (by simpa [hc] using hdigits)
        rw [length_cons] at this
        omega
      · omega
    · rw [if_pos ((digit_range_iff c).mpr (by simpa using hc))]
      exact ⟨-2, by decide, rfl⟩

/-! ### The four passes -/

theorem scanGroups_end (passes : ℕ) : scanGroups (passes + 1) ['\x00'] = some (-3) := by
  simp [scanGroups, scanGroup, IsStop]

theorem scanGroups_error (hg : ∀ c ∈ g, ¬ IsStop c) (hstop : IsStop stop)
    (hbad : ¬ ∃ o : Octet, o.text = g) (p : List Char) (passes : ℕ) :
    ∃ ret < 0, scanGroups (passes + 1) (g ++ stop :: p) = some ret := by
  by_cases hshort : (∀ c ∈ g, c.isDigit) ∧ g.length ≤ 3
  · have hscan := scanGroup_digits hshort.1 hstop p (j := 0) (fun _ => rfl) (by omega)
    have hlarge : g ≠ [] → 255 < digitsValue 10 g := by
      intro hne
      by_contra hle
      exact hbad ⟨⟨g, hne, hshort.2, hshort.1, by omega⟩, rfl⟩
    rw [digitsValue_eq_foldl fun c hc => (digitValue_of_isDigit (hshort.1 c hc)).2] at hlarge
    refine ⟨-3, by decide, ?_⟩
    rw [Nat.cast_zero] at hscan
    simp only [scanGroups, hscan, bind_eq_bind, bind_some]
    rw [if_pos]
    · rfl
    · by_cases hne : g = []
      · simp [hne]
      · right; right
        exact_mod_cast hlarge hne
  · have hexit := scanGroup_error hg (j := 0) (fun hdigits => by
      by_contra hle
      exact hshort ⟨hdigits, by omega⟩) (by omega) 0 (stop :: p)
    obtain ⟨ret, hret, hscan⟩ := hexit
    exact ⟨ret, hret, by simp [scanGroups, hscan]⟩

variable (o : Octet)

theorem scanGroups_octet (hstop : IsStop stop) (p : List Char) (passes : ℕ) :
    scanGroups (passes + 1) (o.text ++ stop :: p) = if stop = '.' then if passes =
    0 then some (-4) else scanGroups passes p else scanGroups passes (stop :: p) := by
  have hscan := scanGroup_digits o.digits hstop p (j := 0) (fun _ => rfl) (by have := o.short; omega)
  rw [Nat.cast_zero, ← digitsValue_eq_foldl fun c hc => (digitValue_of_isDigit (o.digits c hc)).2] at hscan
  have hlength : o.text.length ≠ 0 := by simpa using o.nonempty
  have hle := o.le
  simp only [scanGroups, hscan, bind_eq_bind, bind_some, head?_cons, tail_cons]
  rw [if_neg (by omega)]
  rfl

theorem dotted_cons {os : List Octet} (h : os ≠ []) :
    dotted (o :: os) = o.text ++ '.' :: dotted os := by
  obtain ⟨o', os, rfl⟩ := exists_cons_of_ne_nil h
  simp [dotted, List.intercalate]

theorem dot_notMem : '.' ∉ o.text := fun h => absurd (o.digits '.' h) (by decide)

/-- `s` is `n` groups with dots between them. -/
def Groups (n : ℕ) (s : List Char) : Prop := ∃ os : List Octet, os.length = n ∧ s = dotted os

theorem groups_of_notMem (h : '.' ∉ s) (n : ℕ) :
    Groups (n + 1) s ↔ n = 0 ∧ ∃ o : Octet, o.text = s := by
  constructor
  · rintro ⟨_ | ⟨o, _ | ⟨o', os⟩⟩, hn, rfl⟩
    · cases hn
    · refine ⟨by simpa using hn.symm, o, ?_⟩
      simp [dotted]
    · exact absurd (mem_append_right _ mem_cons_self) h
  · rintro ⟨rfl, o, rfl⟩
    exact ⟨[o], rfl, by simp [dotted]⟩

theorem groups_append (hg : '.' ∉ g) (t : List Char) (n : ℕ) :
    Groups (n + 1) (g ++ '.' :: t) ↔ (∃ o : Octet, o.text = g) ∧ n ≠ 0 ∧ Groups n t := by
  constructor
  · rintro ⟨_ | ⟨o, _ | ⟨o', os⟩⟩, hn, hs⟩
    · cases hn
    · have hdot : '.' ∈ dotted [o] := by rw [← hs]; simp
      exact absurd (by simpa [dotted] using hdot) (dot_notMem o)
    · rw [dotted_cons o (cons_ne_nil _ _)] at hs
      have htake := congrArg (List.takeWhile (· ≠ '.')) hs
      have hdrop := congrArg (List.dropWhile (· ≠ '.')) hs
      rw [takeWhile_ne_append hg, takeWhile_ne_append (dot_notMem o)] at htake
      rw [dropWhile_ne_append hg, dropWhile_ne_append (dot_notMem o), cons_inj_right] at hdrop
      have hlength : (o' :: os).length = n := Nat.succ.inj hn
      exact ⟨⟨o, htake.symm⟩, by rw [← hlength]; exact Nat.succ_ne_zero _, o' :: os, hlength, hdrop⟩
  · rintro ⟨⟨o, rfl⟩, hn, os, rfl, rfl⟩
    exact ⟨o :: os, rfl, (dotted_cons o (ne_nil_of_length_pos (Nat.pos_of_ne_zero hn))).symm⟩

def Accepts (passes : ℕ) (s : List Char) : Prop :=
  ∃ ret ≤ 0, scanGroups passes (s ++ ['\x00']) = some ret ∧ (ret = 0 ↔ Groups passes s)

theorem not_isStop_of_notMem (hdot : '.' ∉ g) (hnul : '\x00' ∉ g) : ∀ c ∈ g, ¬ IsStop c := by
  rintro c hc (rfl | rfl)
  · exact hdot hc
  · exact hnul hc

theorem accepts_pass {passes : ℕ} (hs : '\x00' ∉ s)
    (hrest : ∀ t, '\x00' ∉ t → passes ≠ 0 → Accepts passes t) : Accepts (passes + 1) s := by
  obtain hdot | ⟨g, t, rfl, hg⟩ := (em ('.' ∈ s)).symm.imp_right eq_append_cons_of_mem
  · -- the group goes to the end
    unfold Accepts
    rw [groups_of_notMem hdot]
    by_cases ho : ∃ o : Octet, o.text = s
    · obtain ⟨o, rfl⟩ := ho
      rw [scanGroups_octet o (.inr rfl), if_neg (by decide)]
      cases passes with
      | zero => exact ⟨0, le_rfl, rfl, by simp⟩
      | succ passes => exact ⟨-3, by decide, scanGroups_end passes, by simp⟩
    · obtain ⟨ret, hret, hscan⟩ := scanGroups_error (not_isStop_of_notMem hdot hs) (.inr rfl) ho [] passes
      exact ⟨ret, hret.le, hscan, by simp [ho, hret.ne]⟩
  · -- a dot follows the group
    rw [mem_append, mem_cons, not_or, not_or] at hs
    unfold Accepts
    rw [groups_append hg, append_assoc, cons_append]
    by_cases ho : ∃ o : Octet, o.text = g
    · obtain ⟨o, rfl⟩ := ho
      rw [scanGroups_octet o (.inl rfl), if_pos rfl]
      by_cases hp : passes = 0
      · rw [if_pos hp]
        exact ⟨-4, by decide, rfl, by simp [hp]⟩
      · rw [if_neg hp]
        obtain ⟨ret, hret, hscan, hiff⟩ := hrest t hs.2.2 hp
        exact ⟨ret, hret, hscan, by simp [hiff, hp]⟩
    · obtain ⟨ret, hret, hscan⟩ :=
        scanGroups_error (not_isStop_of_notMem hg hs.1) (.inl rfl) ho (t ++ ['\x00']) passes
      exact ⟨ret, hret.le, hscan, by simp [ho, hret.ne]⟩

theorem accepts_groups (passes : ℕ) (hs : '\x00' ∉ s) : Accepts (passes + 1) s := by
  induction passes generalizing s with
  | zero => exact accepts_pass hs fun _ _ h => absurd rfl h
  | succ passes ih => exact accepts_pass hs fun _ ht _ => ih ht

def IsQuad (s : List Char) : Prop := ∃ a b c d : Octet, s = dotted [a, b, c, d]

theorem isQuad_iff (s : List Char) : IsQuad s ↔ Groups 4 s := by
  constructor
  · rintro ⟨a, b, c, d, rfl⟩
    exact ⟨[a, b, c, d], rfl, rfl⟩
  · rintro ⟨os, hlength, rfl⟩
    obtain ⟨a, b, c, d, rfl⟩ := length_eq_four.mp hlength
    exact ⟨a, b, c, d, rfl⟩

/-- The scanner stays in the buffer, and it accepts the dotted quads. -/
theorem check_ip_input_accepts_dotted_quads (s : List Char) (hs : '\x00' ∉ s) : ∃ ret,
      checkIpInput (s ++ ['\x00']) = some ret ∧ (ret = 0 ↔ IsQuad s) ∧ (¬ IsQuad s → ret < 0) := by
  obtain ⟨ret, hle, hscan, hiff⟩ := accepts_groups 3 hs
  rw [← isQuad_iff] at hiff
  refine ⟨ret, hscan, hiff, fun hquad => ?_⟩
  exact lt_of_le_of_ne hle fun h => hquad (hiff.mp h)

theorem check_ip_input_accepts_dotted_quads_loopback :
    ∃ ret, checkIpInput "127.0.0.1\x00".toList = some ret ∧ (ret = 0 ↔ IsQuad "127.0.0.1".toList) ∧
      (¬ IsQuad "127.0.0.1".toList → ret < 0) :=
  check_ip_input_accepts_dotted_quads "127.0.0.1".toList (by decide)

example : checkIpInput "1.2.3.4.\x00".toList = some (-4) := by decide

/-! ### The address of `main` -/

/-- A part of an address in POSIX: decimal, octal after a `0` and hexadecimal after `0x`. -/
def inetPart (g : List Char) : Option ℕ :=
  let based := detectBase g
  if based.2 ≠ [] ∧ based.2.all (digitValue · < based.1) then some (digitsValue based.1 based.2) else none

/-- The forms with one to four parts; the last part fills the bytes that are left. -/
def inetForm : List ℕ → Option ℕ
  | [a] => if a < 2 ^ 32 then some a else none
  | [a, b] => if a < 2 ^ 8 ∧ b < 2 ^ 24 then some (a * 2 ^ 24 + b) else none
  | [a, b, c] => if a < 2 ^ 8 ∧ b < 2 ^ 8 ∧ c < 2 ^ 16 then some (a * 2 ^ 24 + b * 2 ^ 16 + c) else none
  | [a, b, c, d] =>
    if a < 2 ^ 8 ∧ b < 2 ^ 8 ∧ c < 2 ^ 8 ∧ d < 2 ^ 8 then
      some (a * 2 ^ 24 + b * 2 ^ 16 + c * 2 ^ 8 + d) else none
  | _ => none

def INADDR_NONE : ℕ := 2 ^ 32 - 1

def inetAddr (s : List Char) : ℕ := (((s.splitOn '.').mapM inetPart).bind inetForm).getD INADDR_NONE

/-- `is_listen` after `parse_option`, from the arguments on that are left. -/
def isListen : List (List Char) → Bool
  | [] => false
  | arg :: argv =>
    if arg = "-l".toList then true
    else if arg = "-i".toList then
      match argv with
      | [] => false
      | _ :: argv => isListen argv
    else isListen argv

inductive Action
  | exit
  | arpListening (addr : ℕ)
  | checkIp (addr : ℕ)
deriving DecidableEq

/-- The address that is probed. -/
def Action.addr? : Action → Option ℕ
  | .exit => none
  | .arpListening addr => some addr
  | .checkIp addr => some addr

/-- `main` with the arguments after the name of the program; `interfaceRead` says whether
`read_interface` succeeds. -/
def main (interfaceRead : Bool) : List (List Char) → Option Action
  | [] => some .exit
  | ip :: options => do
    let ret ← checkIpInput (ip ++ ['\x00'])
    if ret < 0 then return .exit
    else if !interfaceRead then return .exit
    else if isListen (ip :: options) then return .arpListening (inetAddr ip)
    else return .checkIp (inetAddr ip)

def address (a b c d : ℕ) : ℕ := a * 2 ^ 24 + b * 2 ^ 16 + c * 2 ^ 8 + d

namespace Octet

/-- The octal reading of the group is its value. -/
def Agrees (o : Octet) : Prop := o.text.head? = some '0' → o.value < 8

theorem value_lt : o.value < 256 := Nat.lt_succ_of_le o.le

theorem text_cases :
    (∃ x, o.text = [x]) ∨ (∃ x y, o.text = [x, y]) ∨ ∃ x y z, o.text = [x, y, z] := by
  obtain ⟨text, hne, hshort, _, _⟩ := o
  match text, hne, hshort with
  | [x], _, _ => exact .inl ⟨x, rfl⟩
  | [x, y], _, _ => exact .inr (.inl ⟨x, y, rfl⟩)
  | [x, y, z], _, _ => exact .inr (.inr ⟨x, y, z, rfl⟩)

theorem inetPart_decimal (h : o.text.head? ≠ some '0') : inetPart o.text = some o.value := by
  have hbase : detectBase o.text = (10, o.text) := by
    unfold detectBase
    split <;> simp_all
  have hdigits : o.text.all (digitValue · < 10) := by
    rw [List.all_eq_true]
    exact fun c hc => decide_eq_true (digitValue_of_isDigit (o.digits c hc)).2
  unfold inetPart
  rw [hbase]
  exact if_pos ⟨o.nonempty, hdigits⟩

theorem detectBase_zero (h : o.text.head? = some '0') : detectBase o.text = (8, o.text) := by
  obtain ⟨x, ht⟩ | ⟨x, y, ht⟩ | ⟨x, y, z, ht⟩ := o.text_cases
  all_goals
    rw [ht] at h ⊢
    obtain rfl : x = '0' := Option.some.inj h
  · rfl
  · rfl
  · have hy : y.isDigit := o.digits y (by simp [ht])
    refine if_neg ?_
    rintro ⟨rfl | rfl, _⟩
    · exact absurd hy (by decide)
    · exact absurd hy (by decide)

theorem inetPart_octal (h : o.text.head? = some '0') : inetPart o.text =
    if o.text.all (digitValue · < 8) then some (digitsValue 8 o.text) else none := by
  unfold inetPart
  simp only [o.detectBase_zero h, ne_eq, o.nonempty, not_false_eq_true, true_and]

theorem values_of_zero (h : o.text.head? = some '0') : ∃ y z : ℕ, y < 10 ∧ z < 10 ∧
    o.value = 10 * y + z ∧ ((∀ c ∈ o.text, digitValue c < 8) ↔ y < 8 ∧ z < 8) ∧
    ((∀ c ∈ o.text, digitValue c < 8) → digitsValue 8 o.text = 8 * y + z) := by
  have hvalue : ∀ base, (∀ c ∈ o.text, digitValue c < base) → digitsValue base o.text =
    o.text.foldl (fun n c => base * n + digitValue c) 0 := fun _ => digitsValue_eq_foldl
  have hten : ∀ c ∈ o.text, digitValue c < 10 := fun c hc => (digitValue_of_isDigit (o.digits c hc)).2
  have hdec := hvalue 10 hten
  have hoct := hvalue 8
  have h0 : digitValue '0' = 0 := rfl
  unfold value
  obtain ⟨x, ht⟩ | ⟨x, y, ht⟩ | ⟨x, y, z, ht⟩ := o.text_cases
  all_goals
    rw [ht] at h
    obtain rfl : x = '0' := Option.some.inj h
    rw [ht] at hten hdec hoct ⊢
    rw [hdec]
  · exact ⟨0, 0, by decide, by decide, by simp [h0], by simp [h0], fun hc => by simp [hoct hc, h0]⟩
  · exact ⟨0, digitValue
      y, by decide, hten y (by simp), by simp [h0], by simp [h0], fun hc => by simp [hoct hc, h0]⟩
  · exact ⟨digitValue y, digitValue z, hten y (by simp), hten z (by simp), by simp [h0], by simp [h0],
      fun hc => by simp [hoct hc, h0]⟩

theorem inetPart_of_agrees (h : o.Agrees) : inetPart o.text = some o.value := by
  by_cases hzero : o.text.head? = some '0'
  · obtain ⟨y, z, hy, hz, hvalue, hiff, hoct⟩ := o.values_of_zero hzero
    have hlt := h hzero
    have hall := hiff.mpr ⟨by omega, by omega⟩
    rw [o.inetPart_octal hzero, if_pos (by simpa using hall), hoct hall, hvalue]
    congr 1
    omega
  · exact o.inetPart_decimal hzero

theorem of_not_agrees {o : Octet} (h : ¬ o.Agrees) :
    o.value < 100 ∧ inetPart o.text ≠ some o.value := by
  unfold Agrees at h
  push Not at h
  obtain ⟨hzero, hle⟩ := h
  obtain ⟨y, z, hy, hz, hvalue, hiff, hoct⟩ := o.values_of_zero hzero
  refine ⟨by omega, fun hpart => ?_⟩
  rw [o.inetPart_octal hzero] at hpart
  split_ifs at hpart with h
  have hall : ∀ c ∈ o.text, digitValue c < 8 := by simpa using h
  rw [hoct hall, Option.some.injEq] at hpart
  have := hiff.mp hall
  omega

end Octet

theorem splitOn_dotted (a b c d : Octet) :
    (dotted [a, b, c, d]).splitOn '.' = [a.text, b.text, c.text, d.text] := by
  apply splitOn_intercalate
  · intro l hl
    obtain ⟨o, _, rfl⟩ := List.mem_map.mp hl
    exact dot_notMem o
  · exact cons_ne_nil _ _

theorem inetAddr_dotted (a b c d : Octet) : inetAddr (dotted [a, b, c, d]) =
    (do let a ← inetPart a.text
        let b ← inetPart b.text
        let c ← inetPart c.text
        let d ← inetPart d.text
        inetForm [a, b, c, d] : Option ℕ).getD INADDR_NONE := by
  unfold inetAddr
  rw [splitOn_dotted]
  simp [mapM_cons, bind_assoc]

theorem address_inj {a b c d a' b' c' d' : ℕ} (hb : b < 256) (hc : c < 256) (hd : d < 256)
    (hb' : b' < 256) (hc' : c' < 256) (hd' : d' < 256) (h : address a b c d = address a' b' c' d') :
    a = a' ∧ b = b' ∧ c = c' ∧ d = d' := by
  unfold address at h
  omega

/-- An address that is right comes from the parts, or it is `255.255.255.255`. -/
theorem inetAddr_eq_address {a b c d : Octet}
    (h : inetAddr (dotted [a, b, c, d]) = address a.value b.value c.value d.value) :
    (∀ o ∈ [a, b, c, d], o.value = 255) ∨ ∀ o ∈ [a, b, c, d], inetPart o.text = some o.value := by
  have hnone : INADDR_NONE = address a.value b.value c.value d.value → ∀ o ∈ [a, b, c, d], o.value = 255 := by
    intro h
    obtain ⟨ha, hb, hc, hd⟩ := address_inj (by decide) (by decide) (by decide) b.value_lt c.value_lt d.value_lt
      (show address 255 255 255 255 = _ from h)
    simp [← ha, ← hb, ← hc, ← hd]
  rw [inetAddr_dotted] at h
  cases ha : inetPart a.text with
  | none => exact .inl (hnone (by simpa [ha] using h))
  | some a' =>
  cases hb : inetPart b.text with
  | none => exact .inl (hnone (by simpa [ha, hb] using h))
  | some b' =>
  cases hc : inetPart c.text with
  | none => exact .inl (hnone (by simpa [ha, hb, hc] using h))
  | some c' =>
  cases hd : inetPart d.text with
  | none => exact .inl (hnone (by simpa [ha, hb, hc, hd] using h))
  | some d' =>
  simp only [ha, hb, hc, hd, bind_eq_bind, bind_some, inetForm] at h
  split at h
  next hlt =>
    obtain ⟨rfl, rfl, rfl, rfl⟩ := address_inj hlt.2.1 hlt.2.2.1 hlt.2.2.2 b.value_lt c.value_lt d.value_lt h
    simp [ha, hb, hc, hd]
  · exact .inl (hnone h)

theorem inetAddr_eq_iff (a b c d : Octet) : inetAddr (dotted [a, b, c, d]) =
    address a.value b.value c.value d.value ↔ ∀ o ∈ [a, b, c, d], o.Agrees := by
  constructor
  · intro h o ho
    by_contra hbad
    obtain ⟨hlt, hpart⟩ := Octet.of_not_agrees hbad
    obtain h255 | hparts := inetAddr_eq_address h
    · have := h255 o ho
      omega
    · exact hpart (hparts o ho)
  · intro h
    have hpart : ∀ o ∈ [a, b, c, d], inetPart o.text = some o.value := fun o ho =>
      o.inetPart_of_agrees (h o ho)
    rw [inetAddr_dotted, hpart a (by simp), hpart b (by simp), hpart c (by simp), hpart d (by simp)]
    simp only [bind_eq_bind, bind_some, inetForm]
    rw [if_pos ⟨a.value_lt, b.value_lt, c.value_lt, d.value_lt⟩]
    rfl

theorem main_addr? (h : checkIpInput (s ++ ['\x00']) = some 0) (options : List (List Char)) :
    (main true (s :: options)).bind Action.addr? = some (inetAddr s) := by
  by_cases hl : isListen (s :: options) <;> simp [main, h, hl, Action.addr?]

/-- The address that is probed is the one whose groups were checked just when the groups that start
with `0` are below 8. -/
theorem probed_address_iff (s : List Char) (hs : '\x00' ∉ s)
    (haccepted : checkIpInput (s ++ ['\x00']) = some 0) (options : List (List Char)) :
    ∃ a b c d : Octet, s = dotted [a, b, c, d] ∧ ((main true (s :: options)).bind Action.addr? =
      some (address a.value b.value c.value d.value) ↔ ∀ o ∈ [a, b, c, d], o.text.head? = some '0' →
      o.value < 8) := by
  obtain ⟨ret, _, hscan, hiff⟩ := accepts_groups 3 hs
  obtain rfl : ret = 0 := Option.some.inj (hscan.symm.trans haccepted)
  obtain ⟨a, b, c, d, rfl⟩ := (isQuad_iff s).mpr (hiff.mp rfl)
  refine ⟨a, b, c, d, rfl, ?_⟩
  rw [main_addr? haccepted, Option.some.injEq]
  exact inetAddr_eq_iff a b c d

theorem probed_address_iff_ten : ∃ a b c d : Octet, "10.0.0.1".toList = dotted [a, b, c, d] ∧
      ((main true ["10.0.0.1".toList]).bind Action.addr? = some (address a.value b.value c.value
      d.value) ↔ ∀ o ∈ [a, b, c, d], o.text.head? = some '0' → o.value < 8) :=
  probed_address_iff "10.0.0.1".toList (by decide) (by decide) []

/-- `010` is checked as ten and probed as eight. -/
theorem probed_address_octal : checkIpInput "010.0.0.1\x00".toList = some 0 ∧
    (main true ["010.0.0.1".toList]).bind Action.addr? = some (address 8 0 0 1) ∧
    digitsValue 10 "010".toList = 10 ∧ address 8 0 0 1 ≠ address 10 0 0 1 := by
  decide

end Code365.Tools.CheckIp
