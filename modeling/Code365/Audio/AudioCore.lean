import Code365.Lib.Run
import Code365.Lib.Text
import Code365.Lib.OrderedMap

/-! # `AudioCore`: the default sink

Model of the part of `AudioCore` (`interfaces/control/audiocore.cpp`, `sink.cpp`) that chooses the
default sink: `updateSink`, `removeSink`, `updateSinkInput`, `removeSinkInput` and
`Sink::autoDefault`. The PulseAudio calls succeed; of `moveSinkInput` we record, for every input,
the last name it was moved to.

A sink gets its priority type once, when it appears.  `rule` is the choice of the default sink as a
function of what PulseAudio last said of the sinks; `selected_of_careful_run` says that the code
follows it as long as the steps are `Careful`. -/

namespace Code365.Audio

open Option List

open Code365.Text

/-- `termialType`: RJ_VDI_TYPE, RJ_IDV_TYPE, or another string. -/
inductive TermialType where
  | vdi
  | idv
  | other
deriving DecidableEq, Repr

/-- The fields of a `pa_sink_info` that are read, the two properties as `pa_proplist_gets` gives
them. -/
structure SinkInfo where
  index : ℕ
  name : List Char
  alsaName : Option (List Char)
  busPath : Option (List Char)

/-- A `Sink`, with what PulseAudio last said of it. -/
structure Sink where
  name : List Char
  prio_type : List Char
  info : SinkInfo

structure AudioCore where
  termialType : TermialType
  bHDMI : Bool
  sinks : OrderedMap ℕ Sink
  sinkInputs : OrderedMap ℕ (List Char)
  defaultSinkName : List Char

def vdiBuiltInUsb : List Char := "pci-0000:00:14.0-usb-0:3:1.0".toList

def innerAnalog : List Char := "inner analog".toList

/-- `strstr(s, "USB") != NULL || strstr(s, "usb") != NULL`. -/
def hasUsb (s : List Char) : Bool := strstr s "USB".toList || strstr s "usb".toList

def hasHdmi (s : List Char) : Bool := strstr s "HDMI".toList || strstr s "hdmi".toList

/-- The priority type of a new sink.  A property that is missing is a null pointer, which the code
does not expect. -/
def prioType (t : TermialType) (info : SinkInfo) : Option (List Char) :=
  match info.alsaName with
  | none => none
  | some alsa =>
    match t with
    | .vdi =>
      if hasUsb alsa then
        info.busPath.map (fun bus => if vdiBuiltInUsb = cstr bus then innerAnalog else alsa)
      else some alsa
    | .idv =>
      if !strstr alsa "USB".toList || !strstr alsa "usb".toList then some innerAnalog else some alsa
    | .other => some alsa

/-- The loop of `Sink::autoDefault`: `def_name`, `hdmi_name` and `ana_name` at its end. -/
def autoDefaultLoop (bHDMI : Bool) : List Sink → List Char → List Char → List Char × List Char × List Char
  | [], hdmi_name, ana_name => ([], hdmi_name, ana_name)
  | w :: ws, hdmi_name, ana_name =>
    if hasUsb w.prio_type then (w.name, hdmi_name, ana_name)
    else if hasHdmi w.prio_type then
      if !bHDMI then autoDefaultLoop bHDMI ws hdmi_name ana_name
      else autoDefaultLoop bHDMI ws (if hdmi_name.isEmpty then w.name else hdmi_name) ana_name
    else autoDefaultLoop bHDMI ws hdmi_name (if ana_name.isEmpty then w.name else ana_name)

/-- The name that `Sink::autoDefault` decides on. -/
def defName (bHDMI : Bool) (ws : List Sink) : List Char :=
  let (def_name, hdmi_name, ana_name) := autoDefaultLoop bHDMI ws [] []
  if def_name.isEmpty then if hdmi_name.isEmpty then ana_name else hdmi_name else def_name

namespace AudioCore

/-- `paStart` has set the type; no sink is known yet. -/
def start (t : TermialType) (bHDMI : Bool) : AudioCore := ⟨t, bHDMI, .empty, .empty, []⟩

def autoDefault (ac : AudioCore) : AudioCore :=
  let def_name := defName ac.bHDMI ac.sinks.values
  if def_name.isEmpty then ac
  else if def_name = ac.defaultSinkName then ac
  else { ac with defaultSinkName := def_name, sinkInputs := ac.sinkInputs.map (fun _ => def_name) }

def updateSink (ac : AudioCore) (info : SinkInfo) : Option AudioCore :=
  match ac.sinks.get? info.index with
  | some w =>
    some { ac with sinks := ac.sinks.insert info.index { w with name := info.name, info := info } }.autoDefault
  | none =>
    (prioType ac.termialType info).map (fun prio_type =>
      { ac with sinks := ac.sinks.insert info.index ⟨info.name, prio_type, info⟩ }.autoDefault)

def removeSink (ac : AudioCore) (index : ℕ) : AudioCore :=
  match ac.sinks.get? index with
  | none => ac
  | some _ => { ac with sinks := ac.sinks.erase index }

/-- `updateSinkInput`; a known input and a new one are moved alike. -/
def updateSinkInput (ac : AudioCore) (index : ℕ) : AudioCore :=
  { ac with sinkInputs := ac.sinkInputs.insert index ac.defaultSinkName }

def removeSinkInput (ac : AudioCore) (index : ℕ) : AudioCore :=
  match ac.sinkInputs.get? index with
  | none => ac
  | some _ => { ac with sinkInputs := ac.sinkInputs.erase index }

/-- The events of `subscribe_cb`; for a new or changed sink with the answer of PulseAudio. -/
inductive Event where
  | sink (info : SinkInfo)
  | sinkRemoved (index : ℕ)
  | sinkInput (index : ℕ)
  | sinkInputRemoved (index : ℕ)

def step (ac : AudioCore) : Event → Option AudioCore
  | .sink info => ac.updateSink info
  | .sinkRemoved index => some (ac.removeSink index).autoDefault
  | .sinkInput index => some (ac.updateSinkInput index)
  | .sinkInputRemoved index => some (ac.removeSinkInput index)

def Next : AudioCore → Event → AudioCore → Prop := MayStep step

end AudioCore

/-! ### The rule -/

/-- The built-in device of a VDI terminal. -/
def builtIn (t : TermialType) (info : SinkInfo) : Bool :=
  t == .vdi && hasUsb (info.alsaName.getD []) && info.busPath.map cstr == some vdiBuiltInUsb

def usbSink (t : TermialType) (info : SinkInfo) : Bool :=
  hasUsb (info.alsaName.getD []) && !builtIn t info

def hdmiSink (t : TermialType) (info : SinkInfo) : Bool :=
  hasHdmi (info.alsaName.getD []) && !builtIn t info

/-- The default sink among those of a list, the first in map order: a USB sink; else, on VDI, an
HDMI sink if these are wanted, else a sink that is not HDMI; on IDV any sink. -/
def rule (t : TermialType) (bHDMI : Bool) (ws : List Sink) : Option (List Char) :=
  ((ws.find? (fun w => usbSink t w.info)).or
    (match t with
    | .idv => ws.head?
    | _ => (if bHDMI then ws.find? (fun w => hdmiSink t w.info) else none).or
        (ws.find? (fun w => !hdmiSink t w.info)))).map Sink.name

namespace AudioCore

/-- The default sink is the one of the rule, if there is one, and all inputs were last moved to
it. -/
def Selected (ac : AudioCore) : Prop :=
  ∀ name, rule ac.termialType ac.bHDMI ac.sinks.values = some name →
    ac.defaultSinkName = name ∧ ∀ moved ∈ ac.sinkInputs.values, moved = name

/-- A sink has a name.  A new one has an ALSA name, on VDI a USB sink also has a bus path, and on
IDV the ALSA name has both of `USB` and `usb` or neither; what PulseAudio says of a known one leaves
it a USB sink or not, and on other terminals than IDV leaves one that is not USB an HDMI sink or
not. -/
def Careful (ac : AudioCore) : Event → Prop
  | .sink info => info.name ≠ [] ∧
      match ac.sinks.get? info.index with
      | some w => usbSink ac.termialType info = usbSink ac.termialType w.info ∧
          (ac.termialType ≠ .idv → usbSink ac.termialType info = false →
            hdmiSink ac.termialType info = hdmiSink ac.termialType w.info)
      | none => ∃ alsa, info.alsaName = some alsa ∧
          match ac.termialType with
          | .vdi => hasUsb alsa → info.busPath ≠ none
          | .idv => strstr alsa "USB".toList = strstr alsa "usb".toList
          | .other => True
  | _ => True

end AudioCore

/-! ### The loop finds the first sink of each class -/

section loop
variable (bHDMI : Bool)

theorem autoDefaultLoop_usb {w : Sink} (ws : List Sink) : ∀ (h a : List Char), ws.find? (fun w =>
    hasUsb w.prio_type) = some w → (autoDefaultLoop bHDMI ws h a).1 = w.name := by
  induction ws with
  | nil => simp
  | cons v ws ih =>
    intro h a hf
    rw [find?_cons] at hf
    unfold autoDefaultLoop
    cases hv : hasUsb v.prio_type with
    | true =>
      rw [hv] at hf
      rw [if_pos rfl, some.inj hf]
    | false =>
      rw [hv] at hf
      rw [if_neg (by decide)]
      split_ifs <;> exact ih _ _ hf

/-- The name that is kept once one was found, else the first of the list. -/
def orFirst (name : List Char) (w : Option Sink) : List Char :=
  if name.isEmpty then (w.map Sink.name).getD [] else name

theorem orFirst_cons {v : Sink} {ws : List Sink} {p : Sink → Bool} (name : List Char)
    (hv : v.name ≠ []) : orFirst name ((v :: ws).find? p) =
    orFirst (if p v then if name.isEmpty then v.name else name else name) (ws.find? p) := by
  unfold orFirst
  cases hp : p v <;> cases hn : name.isEmpty <;> simp [hp, hn, hv]

theorem autoDefaultLoop_eq (ws : List Sink) : ∀ (h a : List Char), (∀ w ∈ ws, w.name ≠ []) →
    (∀ w ∈ ws, hasUsb w.prio_type = false) → autoDefaultLoop bHDMI ws h a =
    ([], if bHDMI then orFirst h (ws.find? (fun w => hasHdmi w.prio_type)) else h,
    orFirst a (ws.find? (fun w => !hasHdmi w.prio_type))) := by
  induction ws with
  | nil =>
    intro h a _ _
    cases h <;> cases a <;> simp [autoDefaultLoop, orFirst]
  | cons v ws ih =>
    intro h a hname husb
    rw [forall_mem_cons] at hname husb
    rw [orFirst_cons h hname.1, orFirst_cons a hname.1]
    unfold autoDefaultLoop
    rw [if_neg (by rw [husb.1]; decide)]
    cases hv : hasHdmi v.prio_type <;> cases bHDMI <;> simp [ih _ _ hname.2 husb.2]

theorem defName_eq {ws : List Sink} (hname : ∀ w ∈ ws, w.name ≠ []) :
    defName bHDMI ws = (((ws.find? (fun w => hasUsb w.prio_type)).or ((if bHDMI then ws.find?
    (fun w => hasHdmi w.prio_type) else none).or (ws.find? (fun w => !hasHdmi w.prio_type)))).map
    Sink.name).getD [] := by
  unfold defName
  cases hu : ws.find? (fun w => hasUsb w.prio_type) with
  | some w =>
    have hw : w.name ≠ [] := hname w (mem_of_find?_eq_some hu)
    have hd := autoDefaultLoop_usb bHDMI ws [] [] hu
    simp only [hd, List.isEmpty_iff, hw, if_false]
    rfl
  | none =>
    have husb : ∀ w ∈ ws, hasUsb w.prio_type = false := by
      intro w hw
      simpa using find?_eq_none.mp hu w hw
    rw [autoDefaultLoop_eq bHDMI ws [] [] hname husb]
    cases bHDMI with
    | false => simp [orFirst]
    | true =>
      cases hh : ws.find? (fun w => hasHdmi w.prio_type) with
      | none => simp [orFirst]
      | some w =>
        have hw : w.name ≠ [] := hname w (mem_of_find?_eq_some hh)
        simp [orFirst, hw]

end loop

/-! ### The classes of the code and those of the rule -/

/-- The priority type tells the class of the sink: USB or not; if not, on VDI whether it is HDMI,
while on IDV all others are alike. -/
structure Agrees (t : TermialType) (w : Sink) : Prop where
  name : w.name ≠ []
  usb : hasUsb w.prio_type = usbSink t w.info
  hdmi : usbSink t w.info = false → hasHdmi w.prio_type = (t != .idv && hdmiSink t w.info)

theorem exists_of_rule {t : TermialType} {bHDMI : Bool} {ws : List Sink} {name : List Char}
    (h : rule t bHDMI ws = some name) : ∃ w ∈ ws, w.name = name := by
  obtain ⟨w, hw, rfl⟩ := map_eq_some_iff.mp h
  refine ⟨w, ?_, rfl⟩
  have hvdi : ∀ b : Bool, (if b then ws.find? (fun w => hdmiSink t w.info) else none).or
      (ws.find? (fun w => !hdmiSink t w.info)) = some w → w ∈ ws := by
    intro b hb
    rcases or_eq_some_iff.mp hb with hb | ⟨-, hb⟩
    · cases b with
      | false => cases hb
      | true => exact mem_of_find?_eq_some hb
    · exact mem_of_find?_eq_some hb
  rcases or_eq_some_iff.mp hw with hw | ⟨-, hw⟩
  · exact mem_of_find?_eq_some hw
  · cases t with
    | vdi => exact hvdi bHDMI hw
    | idv => exact mem_of_mem_head? hw
    | other => exact hvdi bHDMI hw

theorem hasUsb_innerAnalog : hasUsb innerAnalog = false := by decide

theorem hasHdmi_innerAnalog : hasHdmi innerAnalog = false := by decide

theorem defName_eq_rule {t : TermialType} (bHDMI : Bool) {ws : List Sink}
    (h : ∀ w ∈ ws, Agrees t w) : defName bHDMI ws = (rule t bHDMI ws).getD [] := by
  have husb : ws.find? (fun w => hasUsb w.prio_type) = ws.find? (fun w => usbSink t w.info) :=
    find?_congr fun w hw => (h w hw).usb
  rw [defName_eq bHDMI fun w hw => (h w hw).name, husb]
  unfold rule
  cases hu : ws.find? (fun w => usbSink t w.info) with
  | some w => rfl
  | none =>
    have hno : ∀ w ∈ ws, usbSink t w.info = false := by
      intro w hw
      simpa using find?_eq_none.mp hu w hw
    have hhdmi : ∀ w ∈ ws, hasHdmi w.prio_type = (t != .idv && hdmiSink t w.info) :=
      fun w hw => (h w hw).hdmi (hno w hw)
    rw [find?_congr hhdmi, find?_congr (fun w hw => congrArg (!·) (hhdmi w hw))]
    cases t with
    | vdi => rfl
    | other => rfl
    | idv =>
      have hnone : ws.find? (fun w => TermialType.idv != .idv && hdmiSink .idv w.info) = none := by simp
      rw [hnone]
      cases ws <;> cases bHDMI <;> rfl

variable {info : SinkInfo} {alsa : List Char}

theorem usbSink_of_not_builtIn {t : TermialType} (ha : info.alsaName = some alsa)
    (hb : builtIn t info = false) :
    usbSink t info = hasUsb alsa ∧ hdmiSink t info = hasHdmi alsa := by
  simp [usbSink, hdmiSink, ha, hb]

section prioType

variable (hname : info.name ≠ []) (ha : info.alsaName = some alsa)

include hname ha

theorem agrees_vdi (hbus : hasUsb alsa → info.busPath ≠ none) :
    ∃ prio, prioType .vdi info = some prio ∧ Agrees .vdi ⟨info.name, prio, info⟩ := by
  simp only [prioType, ha]
  cases husb : hasUsb alsa with
  | false =>
    obtain ⟨h1, h2⟩ := usbSink_of_not_builtIn ha (by simp [builtIn, ha, husb])
    exact ⟨alsa, rfl, hname, h1.symm, fun _ => h2.symm⟩
  | true =>
    obtain ⟨bus, hb⟩ := ne_none_iff_exists'.mp (hbus husb)
    refine ⟨_, by rw [hb]; rfl, ?_⟩
    dsimp only
    by_cases hv : vdiBuiltInUsb = cstr bus
    · have hbuilt : builtIn .vdi info = true := by simp [builtIn, ha, husb, hb, hv]
      rw [if_pos hv]
      refine ⟨hname, ?_, fun _ => ?_⟩
      · simp [usbSink, hbuilt, hasUsb_innerAnalog]
      · simp [hdmiSink, hbuilt, hasHdmi_innerAnalog]
    · obtain ⟨h1, h2⟩ := usbSink_of_not_builtIn ha (by simp [builtIn, hb, Ne.symm hv])
      rw [if_neg hv]
      exact ⟨hname, h1.symm, fun _ => h2.symm⟩

theorem agrees_idv (hboth : strstr alsa "USB".toList = strstr alsa "usb".toList) :
    ∃ prio, prioType .idv info = some prio ∧ Agrees .idv ⟨info.name, prio, info⟩ := by
  obtain ⟨h1, -⟩ := usbSink_of_not_builtIn (t := .idv) ha rfl
  have husb : hasUsb alsa = strstr alsa "usb".toList := by rw [hasUsb, hboth, Bool.or_self]
  simp only [prioType, ha, hboth, Bool.or_self]
  cases hu : strstr alsa "usb".toList with
  | false =>
    rw [hu] at husb
    exact ⟨innerAnalog, rfl, hname, by rw [h1, husb, hasUsb_innerAnalog], fun _ => hasHdmi_innerAnalog⟩
  | true =>
    rw [hu] at husb
    exact ⟨alsa, rfl, hname, h1.symm, fun h => by rw [h1, husb] at h; cases h⟩

theorem agrees_other :
    ∃ prio, prioType .other info = some prio ∧ Agrees .other ⟨info.name, prio, info⟩ := by
  obtain ⟨h1, h2⟩ := usbSink_of_not_builtIn (t := .other) ha rfl
  simp only [prioType, ha]
  exact ⟨alsa, rfl, hname, h1.symm, fun _ => h2.symm⟩

end prioType

/-! ### Runs -/

namespace AudioCore

/-- What every state of a careful run satisfies. -/
structure Sound (t : TermialType) (bHDMI : Bool) (ac : AudioCore) : Prop where
  type : ac.termialType = t
  hdmi : ac.bHDMI = bHDMI
  agrees : ∀ w ∈ ac.sinks.values, Agrees ac.termialType w
  moved : ∀ m ∈ ac.sinkInputs.values, m = ac.defaultSinkName
  selected : ac.Selected

section runs
variable {t : TermialType} {bHDMI : Bool} {ac : AudioCore}

theorem sound_start (t : TermialType) (bHDMI : Bool) : Sound t bHDMI (start t bHDMI) := by
  refine ⟨rfl, rfl, ?_, ?_, ?_⟩
  · simp [start, OrderedMap.empty, OrderedMap.values]
  · simp [start, OrderedMap.empty, OrderedMap.values]
  · intro name h
    cases t <;> cases bHDMI <;> cases h

theorem sound_autoDefault (ht : ac.termialType = t) (hb : ac.bHDMI = bHDMI)
    (ha : ∀ w ∈ ac.sinks.values, Agrees ac.termialType w)
    (hm : ∀ m ∈ ac.sinkInputs.values, m = ac.defaultSinkName) : Sound t bHDMI ac.autoDefault := by
  have hdef := defName_eq_rule ac.bHDMI ha
  have hne : ∀ name, rule ac.termialType ac.bHDMI ac.sinks.values = some name → name ≠ [] := by
    intro name h
    obtain ⟨w, hw, rfl⟩ := exists_of_rule h
    exact (ha w hw).name
  unfold autoDefault
  generalize defName ac.bHDMI ac.sinks.values = d at hdef
  simp only
  split_ifs with h1 h2
  · refine ⟨ht, hb, ha, hm, fun name h => ?_⟩
    rw [hdef, h] at h1
    exact absurd (List.isEmpty_iff.mp h1) (hne name h)
  · refine ⟨ht, hb, ha, hm, fun name h => ?_⟩
    rw [hdef, h] at h2
    obtain rfl : name = ac.defaultSinkName := h2
    exact ⟨rfl, hm⟩
  · have hmoved : ∀ m ∈ (ac.sinkInputs.map (fun _ => d)).values, m = d := by
      intro m hm
      obtain ⟨_, _, rfl⟩ := OrderedMap.mem_values_map hm
      rfl
    refine ⟨ht, hb, ha, hmoved, fun name h => ?_⟩
    have hd : d = name := by
      rw [hdef]
      exact congrArg (getD · []) h
    rw [← hd]
    exact ⟨rfl, hmoved⟩

theorem Sound.updateSink (h : Sound t bHDMI ac) (hc : ac.Careful (.sink info)) :
    ∃ u, ac.updateSink info = some u ∧ Sound t bHDMI u := by
  obtain ⟨hname, hc⟩ := hc
  unfold AudioCore.updateSink
  cases hg : ac.sinks.get? info.index with
  | some w =>
    rw [hg] at hc
    refine ⟨_, rfl, sound_autoDefault h.type h.hdmi ?_ h.moved⟩
    intro v hv
    rcases OrderedMap.mem_values_insert hv with rfl | hv
    · have hw := h.agrees w (OrderedMap.mem_values_of_get? hg)
      refine ⟨hname, hw.usb.trans hc.1.symm, fun hu => (hw.hdmi (hc.1.symm.trans hu)).trans ?_⟩
      by_cases ht : ac.termialType = .idv
      · simp [ht]
      · rw [hc.2 ht hu]
    · exact h.agrees v hv
  | none =>
    rw [hg] at hc
    obtain ⟨alsa, ha, hc⟩ := hc
    have hnew : ∃ prio, prioType ac.termialType info = some prio ∧
        Agrees ac.termialType ⟨info.name, prio, info⟩ := by
      cases ht : ac.termialType with
      | vdi =>
        rw [ht] at hc
        exact agrees_vdi hname ha hc
      | idv =>
        rw [ht] at hc
        exact agrees_idv hname ha hc
      | other => exact agrees_other hname ha
    obtain ⟨prio, hp, hagree⟩ := hnew
    rw [hp]
    refine ⟨_, rfl, sound_autoDefault h.type h.hdmi ?_ h.moved⟩
    intro v hv
    rcases OrderedMap.mem_values_insert hv with rfl | hv
    · exact hagree
    · exact h.agrees v hv

theorem Sound.step {e : Event} (h : Sound t bHDMI ac) (hc : ac.Careful e) :
    ∃ u, ac.step e = some u ∧ Sound t bHDMI u := by
  cases e with
  | sink info => exact h.updateSink hc
  | sinkRemoved index =>
    refine ⟨_, rfl, ?_⟩
    unfold removeSink
    cases ac.sinks.get? index with
    | none => exact sound_autoDefault h.type h.hdmi h.agrees h.moved
    | some w =>
      exact sound_autoDefault h.type h.hdmi (fun v hv => h.agrees v (OrderedMap.mem_values_erase hv)) h.moved
  | sinkInput index =>
    have hmoved : ∀ m ∈ (ac.sinkInputs.insert index ac.defaultSinkName).values, m = ac.defaultSinkName := by
      intro m hm
      rcases OrderedMap.mem_values_insert hm with rfl | hm
      · rfl
      · exact h.moved m hm
    refine ⟨_, rfl, h.type, h.hdmi, h.agrees, hmoved, fun name hr => ?_⟩
    obtain ⟨rfl, -⟩ := h.selected name hr
    exact ⟨rfl, hmoved⟩
  | sinkInputRemoved index =>
    refine ⟨_, rfl, ?_⟩
    unfold removeSinkInput
    cases ac.sinkInputs.get? index with
    | none => exact h
    | some m =>
      refine ⟨h.type, h.hdmi, h.agrees, fun m hm => h.moved m (OrderedMap.mem_values_erase hm),
        fun name hr => ?_⟩
      obtain ⟨hd, hm⟩ := h.selected name hr
      exact ⟨hd, fun m hm' => hm m (OrderedMap.mem_values_erase hm')⟩

end runs

/-- **The default sink follows the rule.**  Wherever a run of careful steps leads, the default sink
is the one of the rule, if there is one, and all inputs were last moved to it. -/
theorem selected_of_careful_run {t : TermialType} {bHDMI : Bool} {es : List Event} {ac : AudioCore}
    (h : Run (Guarded Careful Next) (start t bHDMI) es ac) :
    ac.termialType = t ∧ ac.bHDMI = bHDMI ∧ ac.Selected := by
  have hsound : Sound t bHDMI ac := by
    apply h.invariant (sound_start t bHDMI)
    intro s e u hs ⟨hc, hn⟩
    obtain ⟨v, hv, hsound⟩ := hs.step hc
    rw [hn.eq_of_some hv]
    exact hsound
  exact ⟨hsound.type, hsound.hdmi, hsound.selected⟩

/-- On VDI, an analog sink and then a USB sink: the second becomes the default. -/
theorem selected_after_usb : ∃ ac, Run (Guarded Careful Next) (start .vdi false)
      [.sink ⟨0, "analog".toList, some "ALC662 Analog".toList, none⟩, .sink ⟨1, "headset".toList,
      some "USB Audio".toList, some "pci-0000:00:14.0-usb-0:1:1.0".toList⟩] ac ∧
      ac.defaultSinkName = "headset".toList ∧ ac.Selected := by
  have h1 : (start .vdi false).Careful (.sink ⟨0, "analog".toList, some "ALC662 Analog".toList, none⟩) :=
    ⟨by decide, _, rfl, fun h => absurd h (by decide)⟩
  obtain ⟨s, hs, hg, ht⟩ : ∃ s, (start .vdi false).step
      (.sink ⟨0, "analog".toList, some "ALC662 Analog".toList, none⟩) = some s ∧
      s.sinks.get? 1 = none ∧ s.termialType = .vdi := ⟨_, rfl, rfl, rfl⟩
  have h2 : s.Careful (.sink ⟨1, "headset".toList, some "USB Audio".toList,
      some "pci-0000:00:14.0-usb-0:1:1.0".toList⟩) := by
    refine ⟨by decide, ?_⟩
    simp only [hg, ht]
    exact ⟨_, rfl, fun _ => by simp⟩
  obtain ⟨u, hu, hname⟩ : ∃ u, s.step (.sink ⟨1, "headset".toList, some "USB Audio".toList,
      some "pci-0000:00:14.0-usb-0:1:1.0".toList⟩) = some u ∧ u.defaultSinkName = "headset".toList := by
    cases hs
    exact ⟨_, rfl, by decide⟩
  have hrun : Run (Guarded Careful Next) (start .vdi false)
      [.sink ⟨0, "analog".toList, some "ALC662 Analog".toList, none⟩,
        .sink ⟨1, "headset".toList, some "USB Audio".toList, some "pci-0000:00:14.0-usb-0:1:1.0".toList⟩] u :=
    Run.cons ⟨h1, MayStep.of_some hs⟩ (Run.cons ⟨h2, MayStep.of_some hu⟩ (Run.nil u))
  exact ⟨u, hrun, hname, (selected_of_careful_run hrun).2.2⟩

/-- On IDV, a USB sink and then an analog one with a higher index: `USB Audio` has no `usb` in it,
so the USB sink counts as analog, and the other, which comes first, is chosen. -/
theorem idv_usb_not_selected : ∃ ac, Run Next (start .idv false) [.sink ⟨0, "headset".toList,
      some "USB Audio".toList, some "pci-0000:00:14.0-usb-0:1:1.0".toList⟩, .sink ⟨1,
      "analog".toList, some "ALC662 Analog".toList, none⟩] ac ∧ rule .idv false ac.sinks.values =
      some "headset".toList ∧ ac.defaultSinkName = "analog".toList ∧ ¬ ac.Selected := by
  obtain ⟨ac, hac, ht, hb, hrule, hname⟩ : ∃ ac, List.foldlM step (start .idv false)
      [.sink ⟨0, "headset".toList, some "USB Audio".toList, some "pci-0000:00:14.0-usb-0:1:1.0".toList⟩,
        .sink ⟨1, "analog".toList, some "ALC662 Analog".toList, none⟩] = some ac ∧
      ac.termialType = .idv ∧ ac.bHDMI = false ∧
      rule .idv false ac.sinks.values = some "headset".toList ∧ ac.defaultSinkName = "analog".toList :=
    ⟨_, rfl, by decide, by decide, by decide, by decide⟩
  refine ⟨ac, Run.of_foldlM (fun e _ s t h => MayStep.of_some h) hac, hrule, hname, fun h => ?_⟩
  unfold Selected at h
  rw [ht, hb] at h
  have := (h _ hrule).1
  rw [hname] at this
  exact absurd this (by decide)

end AudioCore

end Code365.Audio
