import Code365.Lib.Substr

/-! # The fields of the system report (`interfaces/product/product.cpp`)

`rc_getsysteminfo` runs a script that prints lines `tag=value` and looks for each tag with `strstr`,
so the first place where the tag stands counts, at the start of a line or inside a value.
`rj_strncp_line` copies what follows up to the end of the line; it compares a signed `char` with
`0x20`, so it stops at every byte from `0x80` on too.

A field is a buffer of 64 bytes.  `getField_text` says which text the expansion of the macro leaves
in it. -/

namespace Code365.Product

open List Text

def SIZE_64 : ℕ := 64

def SIZE_1K : ℕ := 1024

/-! ### Reading the output of the script -/

/-- What `fgets(pBuf, size, ptr)` reads: a line, or what there is room for. -/
def fgets (size : ℕ) (output : List Char) : List Char :=
  (output.take (size - 1)).take ((output.take (size - 1)).idxOf '\n' + 1)

/-- The loop of `rj_exec_result`: what it adds to the result.  A result that is full ends it. -/
def execLoop : ℕ → ℕ → List Char → List Char
  | 0, _, _ => []
  | fuel + 1, size, output =>
    if output = [] then []
    else
      let len := (cstr (fgets size output)).length
      if len = 0 then []
      else cstr (fgets size output) ++ execLoop fuel (size - len) (output.drop (fgets size output).length)

/-- `rj_exec_result` of a command with this output. -/
def rjExecResult (output : List Char) (size : ℕ) : List Char := execLoop (output.length + 1) size output

/-- The comparisons of `rj_strncp_line`; a `char` is signed. -/
def EndsLine (c : Char) : Prop := Int.bmod c.toNat 256 < 0x20 ∨ c = '\n' ∨ c = '\r'

instance : DecidablePred EndsLine := fun _ => inferInstanceAs (Decidable (_ ∨ _))

/-- The bytes that `rj_strncp_line` copies; it returns their number. -/
def rjStrncpLine : List Char → ℕ → List Char
  | _, 0 => []
  | [], _ + 1 => []
  | c :: src, size + 1 => if EndsLine c then [] else c :: rjStrncpLine src size

theorem rjStrncpLine_eq : ∀ (src : List Char) (size : ℕ),
    rjStrncpLine src size = (src.takeWhile fun c => ¬ EndsLine c).take size
  | _, 0 | [], _ + 1 => by simp [rjStrncpLine]
  | c :: src, size + 1 => by
    unfold rjStrncpLine
    by_cases h : EndsLine c
    · simp [h]
    · simp [h, rjStrncpLine_eq src size]

theorem length_rjStrncpLine_le (src : List Char) (size : ℕ) :
    (rjStrncpLine src size).length ≤ size := by
  rw [rjStrncpLine_eq]
  exact length_take_le _ _

/-! ### The fields -/

/-- A `char [SIZE_64]`. -/
structure Buffer where
  bytes : List Char
  size : bytes.length = SIZE_64

namespace Buffer

def text (b : Buffer) : List Char := cstr b.bytes

/-- The first bytes are written over. -/
def write (b : Buffer) (line : List Char) (h : line.length ≤ SIZE_64) : Buffer where
  bytes := line ++ b.bytes.drop line.length
  size := by
    rw [length_append, length_drop, b.size]
    omega

def set (b : Buffer) (i : ℕ) (c : Char) : Buffer where
  bytes := b.bytes.set i c
  size := by rw [length_set, b.size]

end Buffer

inductive Field
  | serialNumber | productId | productName | hardwareVersion | osVersion | platformType
  | cpu | memory | bit | biosVersion | sysSize | dataSize
deriving DecidableEq

def Field.tag : Field → List Char
  | serialNumber => "serialnum=".toList
  | productId => "productid=".toList
  | productName => "productname=".toList
  | hardwareVersion => "hdversion=".toList
  | osVersion => "sysversion=".toList
  | platformType => "platform=".toList
  | cpu => "cpu=".toList
  | memory => "memory=".toList
  | bit => "bit=".toList
  | biosVersion => "biosversion=".toList
  | sysSize => "syssize=".toList
  | dataSize => "datasize=".toList

abbrev SystemInfo := Field → Buffer

/-- `GETSYSTEMINFO_STRXXX(tag, to)`, with the field as `dst`. -/
def getField (res tag : List Char) (dst : Buffer) : Buffer :=
  match find? tag res with
  | some i =>
    let pt := res.drop (i + tag.length)
    let n := (rjStrncpLine pt SIZE_64).length
    let dst := dst.write (rjStrncpLine pt SIZE_64) (length_rjStrncpLine_le _ _)
    if n < SIZE_64 then dst.set n '\x00' else dst.set (SIZE_64 - 1) '\x00'
  | none => dst.set 0 '\x00'

def ERROR_10000 : ℤ := -10000

/-- `rc_getsysteminfo` when the script is there and prints `output`. -/
def rcGetsysteminfo (output : List Char) (info : SystemInfo) : ℤ × SystemInfo :=
  let res := rjExecResult output SIZE_1K
  if res = [] then (ERROR_10000, info) else (0, fun f => getField res f.tag (info f))

/-! ### What is stored -/

theorem fgets_eq {size : ℕ} {output : List Char} (h : output.length < size) :
    fgets size output = output.take (output.idxOf '\n' + 1) := by
  unfold fgets
  rw [take_of_length_le (show output.length ≤ size - 1 by omega)]

theorem execLoop_eq {fuel size : ℕ} {output : List Char} (hnul : '\x00' ∉ output)
    (hsize : output.length < size) (hfuel : output.length < fuel) :
    execLoop fuel size output = output := by
  induction fuel generalizing size output with
  | zero => omega
  | succ fuel ih =>
    unfold execLoop
    by_cases hne : output = []
    · rw [if_pos hne, hne]
    have hlength : 0 < output.length := length_pos_iff.mpr hne
    obtain ⟨k, hk⟩ : ∃ k, fgets size output = output.take (k + 1) := ⟨_, fgets_eq hsize⟩
    have hline : cstr (output.take (k + 1)) = output.take (k + 1) :=
      cstr_eq_self fun h => hnul (mem_of_mem_take h)
    have hlen : (output.take (k + 1)).length = min (k + 1) output.length := length_take
    have hdrop : (output.drop (output.take (k + 1)).length).length =
      output.length - (output.take (k + 1)).length := length_drop
    simp only [if_neg hne, hk, hline]
    rw [if_neg (by omega), ih (fun h => hnul (mem_of_mem_drop h)) (by omega) (by omega)]
    exact prefix_iff_eq_append.mp ( take_prefix _ _)

theorem nul_notMem_rjStrncpLine (src : List Char) (size : ℕ) : '\x00' ∉ rjStrncpLine src size := by
  rw [rjStrncpLine_eq]
  intro h
  have hplain := mem_takeWhile_imp (mem_of_mem_take h)
  exact absurd hplain (by decide)

theorem Buffer.text_set {b : Buffer} {n : ℕ} (hn : n < SIZE_64) (h : '\x00' ∉ b.bytes.take n) :
    (b.set n '\x00').text = b.bytes.take n := by
  have hlt : n < b.bytes.length := by rwa [b.size]
  change cstr (b.bytes.set n '\x00') = b.bytes.take n
  rw [set_eq_take_append_cons_drop, if_pos hlt, cstr_append h]
  simp [cstr]

/-- A line and its NUL, which takes the last byte when the line fills the buffer. -/
theorem Buffer.text_line (dst : Buffer) {line : List Char} (hle : line.length ≤ SIZE_64)
    (hnul : '\x00' ∉ line) : (if line.length < SIZE_64 then (dst.write line hle).set line.length
    '\x00' else (dst.write line hle).set (SIZE_64 - 1) '\x00').text = line.take 63 := by
  have h64 : SIZE_64 = 64 := rfl
  have hset : ∀ n < SIZE_64, n ≤ line.length → ((dst.write line hle).set n '\x00').text = line.take n := by
    intro n hn hnle
    have hbytes : (dst.write line hle).bytes.take n = line.take n := take_append_of_le_length hnle
    rw [← hbytes]
    apply Buffer.text_set hn
    rw [hbytes]
    exact fun h => hnul (mem_of_mem_take h)
  split
  next hlt => rw [hset _ hlt le_rfl, take_of_length_le le_rfl, take_of_length_le (by omega)]
  next hge => rw [hset _ (by omega) (by omega), h64]

/-- The text of a field after the macro: what follows the first place of the tag, to the end of the
line. -/
theorem getField_text (res tag : List Char) (dst : Buffer) :
    (getField res tag dst).text = (find? tag res).elim [] fun i =>
    ((res.drop (i + tag.length)).takeWhile fun c => ¬ EndsLine c).take 63 := by
  unfold getField
  cases find? tag res with
  | none =>
    exact Buffer.text_set (by decide) (by simp)
  | some i =>
    rw [Buffer.text_line dst _ (nul_notMem_rjStrncpLine _ _), Option.elim_some, rjStrncpLine_eq, take_take]
    rfl

/-! ### Reports -/

/-- The value of the line that starts with the tag, empty when there is none. -/
def ownValue (report tag : List Char) : List Char :=
  ((report.splitOn '\n').find? fun line => tag.isPrefixOf line).elim [] fun line => line.drop tag.length

/-- A report: short enough for the buffer, printable, and with a line at most for each tag. -/
structure IsReport (report : List Char) : Prop where
  short : report.length ≤ 1023
  printable : ∀ c ∈ report, c = '\n' ∨ 0x20 ≤ c.toNat ∧ c.toNat < 256
  once : ∀ f : Field, ((report.splitOn '\n').filter fun line => f.tag.isPrefixOf line).length ≤ 1

/-- Every field has the first 63 bytes of its own value. -/
def Extracted (report : List Char) (info : SystemInfo) : Prop :=
  ∀ f, ((rcGetsysteminfo report info).2 f).text = (ownValue report f.tag).take 63

/-- The text `r` goes on with the first 63 bytes of `v`, which are ASCII, and if `v` is shorter the
line or the ASCII ends there. -/
def Continues (v r : List Char) : Prop :=
  (∀ c ∈ v.take 63, c.toNat < 128) ∧ v.take 63 <+: r ∧
    (v.length < 63 → ∀ c ∈ (r.drop v.length).head?, c = '\n' ∨ 128 ≤ c.toNat)

variable {report : List Char}

theorem IsReport.endsLine_iff (h : IsReport report) {c : Char} (hc : c ∈ report) :
    EndsLine c ↔ c = '\n' ∨ 128 ≤ c.toNat := by
  obtain rfl | ⟨hge, hlt⟩ := h.printable c hc
  · exact iff_of_true (.inr (.inl rfl)) (.inl rfl)
  have hr : c ≠ '\r' := by
    rintro rfl
    exact absurd hge (by decide)
  have hbmod : Int.bmod c.toNat 256 < 0x20 ↔ 128 ≤ c.toNat := by
    rw [Int.bmod_def]
    omega
  unfold EndsLine
  rw [hbmod, or_iff_left hr, or_comm]

theorem IsReport.nul_notMem (h : IsReport report) : '\x00' ∉ report := by
  intro hmem
  obtain hn | hn := h.printable _ hmem
  · exact absurd hn (by decide)
  · exact absurd hn.1 (by decide)

theorem ownValue_spec (report tag : List Char) : ownValue report tag = [] ∨
    tag ++ ownValue report tag <:+: report ∧ '\n' ∉ ownValue report tag := by
  unfold ownValue
  cases hfind : (report.splitOn '\n').find? fun line => tag.isPrefixOf line with
  | none => exact .inl rfl
  | some line =>
    obtain ⟨v, rfl⟩ := isPrefixOf_iff_prefix.mp (find?_some hfind)
    obtain ⟨hnl, hpart⟩ := of_mem_splitOn (mem_of_find?_eq_some hfind)
    rw [Option.elim_some, drop_left]
    exact .inr ⟨hpart, fun hv => hnl (mem_append_right _ hv)⟩

theorem ownValue_eq_nil {tag : List Char} (h : find? tag report = none) :
    ownValue report tag = [] := by
  obtain hnil | ⟨hpart, _⟩ := ownValue_spec report tag
  · exact hnil
  · exact absurd ((prefix_append _ _).isInfix.trans hpart) (find?_eq_none_iff.mp h)

/-- What a field gets is its own value just when the first place of the tag is followed by it. -/
theorem stored_eq_iff (h : IsReport report) {tag u r : List Char}
    (hfirst : FirstAt tag report u r) : (r.takeWhile fun c => ¬ EndsLine c).take 63 =
    (ownValue report tag).take 63 ↔ Continues (ownValue report tag) r := by
  have hr : ∀ c ∈ r, c ∈ report := fun c hc => by
    rw [hfirst.eq]
    simp [hc]
  have hvalue : ∀ c ∈ ownValue report tag, c ∈ report ∧ c ≠ '\n' := by
    intro c hc
    obtain hnil | ⟨hpart, hnl⟩ := ownValue_spec report tag
    · rw [hnil] at hc
      cases hc
    · refine ⟨hpart.subset (mem_append_right _ hc), ?_⟩
      rintro rfl
      exact hnl hc
  rw [take_takeWhile_eq_iff, Continues]
  refine and_congr ?_ (and_congr_right fun _ => imp_congr_right fun _ => ?_)
  · refine forall₂_congr fun c hc => ?_
    obtain ⟨hmem, hne⟩ := hvalue c (mem_of_mem_take hc)
    rw [decide_eq_true_iff, h.endsLine_iff hmem]
    simp [hne]
  · refine forall₂_congr fun c hc => ?_
    have hmem : c ∈ r := mem_of_mem_drop (mem_of_mem_head? hc)
    rw [decide_eq_false_iff_not, not_not, h.endsLine_iff (hr c hmem)]

theorem tag_ne_nil (f : Field) : f.tag ≠ [] := by
  cases f <;> decide

theorem rcGetsysteminfo_snd (h : IsReport report) (info : SystemInfo) :
    (rcGetsysteminfo report info).2 = if report = [] then info else fun f =>
    getField report f.tag (info f) := by
  have hres : rjExecResult report SIZE_1K = report :=
    execLoop_eq h.nul_notMem (Nat.lt_succ_of_le h.short) (Nat.lt_succ_self _)
  unfold rcGetsysteminfo
  rw [hres]
  by_cases hne : report = []
  · simp only [if_pos hne]
  · simp only [if_neg hne]

theorem getField_text_eq_iff (h : IsReport report) (f : Field) (dst : Buffer) :
    (getField report f.tag dst).text = (ownValue report f.tag).take 63 ↔
    ∀ u r, FirstAt f.tag report u r → Continues (ownValue report f.tag) r := by
  rw [getField_text]
  cases hfind : find? f.tag report with
  | none =>
    rw [Option.elim_none, ownValue_eq_nil hfind, take_nil]
    exact iff_of_true rfl fun u r hfirst => absurd hfirst (not_firstAt hfind)
  | some i =>
    obtain ⟨u, r, hfirst, _⟩ := exists_firstAt hfind
    rw [Option.elim_some, hfirst.drop_eq hfind, stored_eq_iff h hfirst]
    constructor
    · intro hc u' r' hfirst'
      rwa [← hfirst'.drop_eq hfind, hfirst.drop_eq hfind]
    · exact fun hc => hc u r hfirst

/-- The report is extracted just when for every tag the first place where it stands, in any line, is
followed by its own value; an empty report leaves the fields as they were. -/
theorem system_report_extracted_iff (report : List Char) (h : IsReport report) (info : SystemInfo) :
    Extracted report info ↔ (report = [] → ∀ f, (info f).text = []) ∧
      ∀ (f : Field) (u r : List Char), FirstAt f.tag report u r →
      Continues (ownValue report f.tag) r := by
  unfold Extracted
  rw [rcGetsysteminfo_snd h]
  by_cases hne : report = []
  · have hnone : ∀ f : Field, find? f.tag report = none := by
      intro f
      rw [find?_eq_none_iff, hne, infix_nil]
      exact tag_ne_nil f
    have hempty : ∀ f : Field, (ownValue report f.tag).take 63 = [] := fun f => by
      rw [ownValue_eq_nil (hnone f), take_nil]
    have hvacuous : ∀ (f : Field) (u r : List Char), FirstAt f.tag report u r → Continues
      (ownValue report f.tag) r := fun f u r hfirst => absurd hfirst (not_firstAt (hnone f))
    simp only [hempty, if_pos hne, and_iff_left hvacuous, forall_prop_of_true hne]
  · rw [if_neg hne, and_iff_right (fun he => absurd he hne)]
    exact forall_congr' fun f => getField_text_eq_iff h f (info f)

theorem isReport_of_all (hshort : report.length ≤ 1023)
    (hprintable : report.all (fun c => c = '\n' ∨ 0x20 ≤ c.toNat ∧ c.toNat < 256))
    (honce : ∀ f : Field, ((report.splitOn '\n').filter fun line => f.tag.isPrefixOf line).length ≤
    1) : IsReport report :=
  ⟨hshort, fun c hc => of_decide_eq_true (all_eq_true.mp hprintable c hc), honce⟩

/-- Tags at the starts of their lines, and ASCII values. -/
theorem system_report_two_lines : IsReport "cpu=i3\nbit=64\n".toList ∧
    ∀ (f : Field) (u r : List Char), FirstAt f.tag "cpu=i3\nbit=64\n".toList u r →
      Continues (ownValue "cpu=i3\nbit=64\n".toList f.tag) r := by
  have hreport : IsReport "cpu=i3\nbit=64\n".toList :=
    isReport_of_all (by decide) (by decide) (by intro f; cases f <;> decide)
  refine ⟨hreport, ((system_report_extracted_iff _ hreport fun _ => ⟨List.replicate 64 'x', rfl⟩).mp ?_).2⟩
  intro f
  cases f <;> decide

/-- The tag of one line inside the value of another, and a value that is not ASCII. -/
theorem system_report_misread :
    IsReport "productname=8bit=x\nbit=64\n".toList ∧ IsReport "productname=\xc3\xa9\n".toList ∧
      ((rcGetsysteminfo "productname=8bit=x\nbit=64\n".toList fun _ =>
      ⟨List.replicate 64 'x', rfl⟩).2 .bit).text = "x".toList ∧
      ownValue "productname=8bit=x\nbit=64\n".toList Field.bit.tag = "64".toList ∧
      ((rcGetsysteminfo "productname=\xc3\xa9\n".toList fun _ =>
      ⟨List.replicate 64 'x', rfl⟩).2 .productName).text = [] ∧
      ownValue "productname=\xc3\xa9\n".toList Field.productName.tag = "\xc3\xa9".toList := by
  refine ⟨isReport_of_all (by decide) (by decide) (by intro f; cases f <;> decide),
    isReport_of_all (by decide) (by decide)
    (by intro f; cases f <;> decide), by decide, by decide, by decide, by decide⟩

end Code365.Product
