import Code365.Video.ModeLine

/-! # The sections of a report

A report is a screen line followed by outputs, each with a header line and mode lines.  The scan
keeps the last connected device outside `devList` until the next one starts; `Scan.finish` is the
list with it.  In these terms a connected header adds a device without modes and a mode line changes
the last device only (`finish_pushAll_deviceLine`), so a report gives one device for each connected
output before `VIRTUAL1`, with the modes of its own section (`getResolutionList_report`).

A line is told by the words that it holds anywhere, and it is read in pieces of 1023 characters, so
the screen line, the headers and the length of a line are under conditions; `report_not_segmented`
has a report for each of them. -/

namespace Code365.Video

open List Text CString

/-- An output of the report: its header line and the mode lines below it. -/
structure Output where
  name : List Char
  connected : Bool
  rest : List Char
  isLine : '\n' ∉ name ++ rest
  modes : List ModeText

namespace Output

variable (o : Output)

def header : List Char :=
  o.name ++ ((if o.connected then " connected".toList else " disconnected".toList) ++ o.rest)

def lines : List (List Char) := o.header :: o.modes.map ModeText.line

/-- The supported modes of the section. -/
def resolutions : List (List Char) := (o.modes.filter fun m => m.Supported).map ModeText.res

def isVirtual : Bool := (find? "VIRTUAL1".toList o.header).isSome

/-- The header is told by its first word, and has no ` disconnected`. -/
structure Told : Prop where
  name : ¬ " connected".toList <:+: o.name
  name_dis : ¬ " disconnected".toList <:+: o.name
  rest : ¬ " disconnected".toList <:+: o.rest

end Output

def report (screen : List Char) (outputs : List Output) : List (List Char) :=
  screen :: outputs.flatMap Output.lines

/-- A device by its type and its resolutions. -/
def DevInfo.summary (d : DevInfo) : List Char × List (List Char) := (d.devType, d.resList.map ResInfo.res)

/-- The devices of some outputs: the connected ones before the first header with `VIRTUAL1`. -/
def devices (outputs : List Output) : List (List Char × List (List Char)) :=
  ((outputs.takeWhile fun o => !o.isVirtual).filter Output.connected).map fun o => (o.name, o.resolutions)

/-- What the command prints. -/
def printed (screen : List Char) (outputs : List Output) : List Char :=
  (report screen outputs).flatMap fun l => l ++ ['\n']

/-- The report is cut into its sections. -/
def Segmented (screen : List Char) (outputs : List Output) : Prop :=
  ∃ devList, getResolutionList (some (devExec (printed screen outputs))) [] = some (0, devList) ∧
    devList.map DevInfo.summary = if (find? "VIRTUAL1".toList screen).isSome then [] else devices outputs

/-! ### Headers -/

namespace Output

variable {o : Output}

theorem step_disconnected (ho : o.connected = false) (s : Scan) :
    step s o.header = some { s with isConnected := false } := by
  have hheader : o.header = o.name ++ (" disconnected".toList ++ o.rest) := by
    unfold header
    rw [ho]
    rfl
  have hpart : " disconnected".toList <:+: o.header := ⟨o.name, o.rest, by rw [hheader, append_assoc]⟩
  unfold step
  rw [if_pos ((find?_isSome_iff _ _).mpr hpart)]

theorem step_connected (ho : o.connected = true) (htold : o.Told) (s : Scan) :
    step s o.header = some (deviceLine s o.header o.name.length) := by
  have hheader : o.header = o.name ++ (" connected".toList ++ o.rest) := by
    unfold header
    rw [ho]
    rfl
  -- Both words have their blank in front only, so neither lies across the end of the name.
  have hdis : find? " disconnected".toList o.header = none := by
    have hname := find?_append_cons (w := "disconnected".toList) (by decide) ("connected".toList ++ o.rest)
      htold.name_dis
    rw [hheader]
    apply hname.trans
    have hword := find?_append_of_apart (w := " disconnected".toList) o.rest
      (u := " connected".toList) (by decide)
    rw [find?_eq_none_iff.mpr htold.rest] at hword
    exact congrArg _ hword
  have hcon : find? " connected".toList o.header = some o.name.length := by
    have hname := find?_append_cons (w := "connected".toList) (by decide) ("connected".toList ++ o.rest)
      htold.name
    rw [hheader]
    apply hname.trans
    have hword : find? " connected".toList (" connected".toList ++ o.rest) = some 0 := find?_append_self _ _
    apply (congrArg _ hword).trans
    simp
  unfold step
  rw [hdis, hcon]
  rfl

theorem take_header : o.header.take o.name.length = o.name := by
  exact take_left

theorem newline_notMem_lines {l : List Char} (hl : l ∈ o.lines) : '\n' ∉ l := by
  have hline := o.isLine
  rw [mem_append, not_or] at hline
  rcases mem_cons.mp hl with rfl | hl
  · unfold header
    cases o.connected <;> simp [hline]
  · obtain ⟨m, _, rfl⟩ := mem_map.mp hl
    exact m.newline_notMem

end Output

/-! ### What the list of devices becomes -/

theorem finish_disconnect (s : Scan) : Scan.finish { s with isConnected := false } = s.finish := rfl

theorem find?_virtual (m : ModeText) : find? "VIRTUAL1".toList m.line = none :=
  m.find?_line_eq_none (c := 'V') (by decide) rfl (by decide) (by decide)

theorem scan_mode_skip (m : ModeText) {s : Scan} (h : ¬ (s.isConnected ∧ m.Supported))
    (cmdRes : List (List Char)) : scan s (m.line :: cmdRes) = scan s cmdRes := by
  rw [scan, find?_virtual, m.step_line, if_neg h]
  rfl

theorem scan_mode_push (m : ModeText) {s : Scan} (h : s.isConnected ∧ m.Supported)
    (cmdRes : List (List Char)) : ∃ resInfo, resInfo.res = m.res ∧
    scan s (m.line :: cmdRes) = scan (s.pushRes resInfo) cmdRes := by
  obtain ⟨rates, hrates⟩ := Option.isSome_iff_exists.mp (rateList_isSome m.line)
  refine ⟨⟨m.res, flagUnion rates, rates⟩, rfl, ?_⟩
  rw [scan, find?_virtual, m.step_line, if_pos h, hrates]
  rfl

/-- `devInfo` with more modes. -/
def Scan.pushAll (s : Scan) (resList : List ResInfo) : Scan :=
  { s with devInfo := { s.devInfo with resList := s.devInfo.resList ++ resList } }

/-- A device line and its modes add a device; what was kept outside the list is in it now. -/
theorem finish_pushAll_deviceLine (s : Scan) (it : List Char) (strPos0 : ℕ)
    (resList : List ResInfo) : ((deviceLine s it strPos0).pushAll resList).finish = s.finish ++
    [⟨it.take strPos0, resList⟩] := by
  unfold Scan.finish Scan.pushAll deviceLine
  rw [if_pos (Nat.succ_pos _)]
  simp only [Nat.lt_add_left_iff_pos, nil_append]

theorem scan_modes (cmdRes : List (List Char)) :
    ∀ (modes : List ModeText) {s : Scan}, s.isConnected → ∃ resList : List ResInfo,
    resList.map ResInfo.res = (modes.filter fun m => m.Supported).map ModeText.res ∧
    scan s (modes.map ModeText.line ++ cmdRes) = scan (s.pushAll resList) cmdRes
  | [], s, _ => ⟨[], rfl, by simp [Scan.pushAll]⟩
  | m :: modes, s, hs => by
    rw [map_cons, cons_append]
    by_cases hm : m.Supported
    · obtain ⟨resInfo, hres, hscan⟩ := scan_mode_push m ⟨hs, hm⟩ (modes.map ModeText.line ++ cmdRes)
      obtain ⟨resList, hlist, hrest⟩ := scan_modes cmdRes modes (s := s.pushRes resInfo) hs
      refine ⟨resInfo :: resList, ?_, ?_⟩
      · simp [hm, hres, hlist]
      · rw [hscan, hrest]
        simp [Scan.pushAll, Scan.pushRes]
    · obtain ⟨resList, hlist, hrest⟩ := scan_modes cmdRes modes hs
      refine ⟨resList, ?_, ?_⟩
      · simp [hm, hlist]
      · rw [scan_mode_skip m (fun h => hm h.2), hrest]

theorem scan_modes_disconnected (cmdRes : List (List Char)) {s : Scan}
    (hs : s.isConnected = false) :
    ∀ modes : List ModeText, scan s (modes.map ModeText.line ++ cmdRes) = scan s cmdRes
  | [] => rfl
  | m :: modes => by
    rw [map_cons, cons_append, scan_mode_skip m (by simp [hs]), scan_modes_disconnected cmdRes hs modes]

theorem scan_output {o : Output} (hvirtual : o.isVirtual = false) (ho : o.connected → o.Told)
    (s : Scan) (cmdRes : List (List Char)) :
    ∃ s' : Scan, scan s (o.lines ++ cmdRes) = scan s' cmdRes ∧ s'.finish.map DevInfo.summary =
    s.finish.map DevInfo.summary ++ if o.connected then [(o.name, o.resolutions)] else [] := by
  have hstart : scan s (o.lines ++ cmdRes) =
      (step s o.header).bind fun s => scan s (o.modes.map ModeText.line ++ cmdRes) := by
    unfold Output.isVirtual at hvirtual
    rw [Output.lines, cons_append, scan, hvirtual]
    rfl
  rw [hstart]
  cases hc : o.connected with
  | false =>
    refine ⟨{ s with isConnected := false }, ?_, ?_⟩
    · rw [Output.step_disconnected hc]
      exact scan_modes_disconnected cmdRes rfl o.modes
    · rw [finish_disconnect]
      simp
  | true =>
    obtain ⟨resList, hlist, hscan⟩ := scan_modes cmdRes o.modes (s := deviceLine s o.header o.name.length) rfl
    refine ⟨(deviceLine s o.header o.name.length).pushAll resList, ?_, ?_⟩
    · rw [Output.step_connected hc (ho hc)]
      exact hscan
    · rw [finish_pushAll_deviceLine, Output.take_header]
      simp [DevInfo.summary, hlist, Output.resolutions]

theorem scan_outputs : ∀ (outputs : List Output) (s : Scan),
    (∀ o ∈ outputs, o.connected → o.Told) →
    ∃ s', scan s (outputs.flatMap Output.lines) = some s' ∧
      s'.finish.map DevInfo.summary = s.finish.map DevInfo.summary ++ devices outputs
  | [], s, _ => ⟨s, rfl, by simp [devices]⟩
  | o :: outputs, s, h => by
    cases hvirtual : o.isVirtual with
    | true =>
      refine ⟨s, ?_, by simp [devices, hvirtual]⟩
      exact if_pos hvirtual
    | false =>
      obtain ⟨s1, hscan, hfinish⟩ := scan_output hvirtual (h o mem_cons_self) s (outputs.flatMap Output.lines)
      obtain ⟨s2, hrest, hall⟩ := scan_outputs outputs s1 fun o' ho' => h o' (mem_cons_of_mem o ho')
      refine ⟨s2, hscan.trans hrest, ?_⟩
      rw [hall, hfinish, append_assoc]
      cases hc : o.connected <;> simp [devices, hvirtual, hc]

variable {screen : List Char}

theorem step_screen (h : ¬ " connected".toList <:+: screen) (devList : List DevInfo) :
    step (Scan.init devList) screen = some (Scan.init devList) := by
  unfold step
  rw [find?_eq_none_iff.mpr h]
  split
  · rfl
  · dsimp only
    split
    · rfl
    · rfl

theorem newline_notMem_report {outputs : List Output} (hline : '\n' ∉ screen)
    {l : List Char} (hl : l ∈ report screen outputs) : '\n' ∉ l := by
  rcases mem_cons.mp hl with rfl | hl
  · exact hline
  · obtain ⟨o, _, hl⟩ := mem_flatMap.mp hl
    exact Output.newline_notMem_lines hl

/-- Every report of lines of at most 1023 characters, whose screen line has no ` connected` and
whose connected headers are told by their first word, is cut into its sections. -/
theorem getResolutionList_report {screen : List Char} {outputs : List Output}
    (hline : '\n' ∉ screen) (hscreen : ¬ " connected".toList <:+: screen)
    (hlength : ∀ l ∈ report screen outputs, l.length ≤ 1023)
    (hheaders : ∀ o ∈ outputs, o.connected → o.Told) : Segmented screen outputs := by
  have hread : ∀ s, scan s (devExec (printed screen outputs)) = scan s (report screen outputs) :=
    fun s => scan_devExec s fun l hl => ⟨newline_notMem_report hline hl, hlength l hl⟩
  unfold Segmented getResolutionList
  simp only [hread]
  unfold report
  by_cases hvirtual : (find? "VIRTUAL1".toList screen).isSome
  · refine ⟨[], ?_, ?_⟩
    · simp only [scan, if_pos hvirtual]
      rfl
    · rw [if_pos hvirtual]
      rfl
  · obtain ⟨s, hscan, hfinish⟩ := scan_outputs outputs (Scan.init []) hheaders
    refine ⟨s.finish, ?_, ?_⟩
    · simp only [scan, if_neg hvirtual, step_screen hscreen, Option.bind_some, hscan, Option.map_some]
    · rw [if_neg hvirtual, hfinish]
      rfl

def fullHd : ModeText :=
  ⟨3, RateLine.plainFirst.width, RateLine.plainFirst.height, false,
    "60.00*+".toList, by simp [isRateChar]⟩

def fullHdInterlaced : ModeText := { fullHd with interlaced := true }

/-- The modes under the output that is off belong to no device, nor does the interlaced one; a name
may hold blanks. -/
theorem getResolutionList_offAndOn :
    Segmented "Screen 0: 8 x 8".toList [⟨['V', 'G', 'A'], false, [], by simp, [fullHd]⟩,
      ⟨"HDMI A".toList, true, " primary".toList, by simp, [fullHd, fullHdInterlaced]⟩] := by
  apply getResolutionList_report
  · decide
  · decide
  · decide
  · intro o ho hc
    rcases mem_cons.mp ho with rfl | ho
    · cases hc
    · obtain rfl := mem_singleton.mp ho
      exact ⟨by decide, by decide, by decide⟩

theorem not_segmented {outputs : List Output} (devList : List DevInfo)
    (h : getResolutionList (some (devExec (printed screen outputs))) [] = some (0, devList))
    (hne : devList.map DevInfo.summary ≠
    if (find? "VIRTUAL1".toList screen).isSome then [] else devices outputs) :
    ¬ Segmented screen outputs := by
  rintro ⟨devList', h', hsummary⟩
  rw [h, Option.some.injEq, Prod.mk.injEq] at h'
  rw [← h'.2] at hsummary
  exact hne hsummary

/-- The buffer is full after the first digit of the width. -/
def longMode : Output := ⟨['D', 'P'], true, [], by simp, [{ fullHd with blanks := 1022 }]⟩

/-- A header with both words is taken for one that is disconnected. -/
def bothWords : Output := ⟨['D', 'P'], true, " disconnected".toList, by simp, []⟩

/-- The name is cut at its own ` connected`. -/
def wordInName : Output := ⟨"DP connected A".toList, true, [], by simp, []⟩

theorem report_not_segmented :
    " x ".toList <:+: "8 x 8".toList ∧ ¬ Segmented "8 x 8".toList [longMode] ∧
      ¬ Segmented "8 x 8".toList [bothWords] ∧ ¬ Segmented "8 x 8".toList [wordInName] ∧
      ¬ Segmented "8 x 8 connected".toList [] := by
  refine ⟨infix_of_find? (i := 1) (by decide), ?_, ?_, ?_, ?_⟩
  · exact not_segmented [⟨['D', 'P'], []⟩] (by decide +kernel) (by decide)
  · exact not_segmented [] (by decide) (by decide)
  · exact not_segmented [⟨['D', 'P'], []⟩] (by decide) (by decide)
  · exact not_segmented [⟨"8 x 8".toList, []⟩] (by decide) (by decide)

end Code365.Video
