import Code365.Lib.Text

/-! # `onEvent`: splitting a buffer of network events

Model of `onEvent` (`interfaces/network/network_extra.cpp`), the callback that receives what the
network daemon sends: words such as ETH_UP, one after another with nothing between them, and
IP_CONFLICT, which may carry a text between two tabs.  The loop compares the start of the buffer
with every word, calls `mCb`, and goes on with the rest of the buffer from `pos`.

Positions are `size_t` and wrap around at `2 ^ 64`; the two tab positions are kept in `int`
variables.  The loop is run with fuel, `none` standing for a loop that has not ended yet.

`decodes_iff_separable`: the calls of `mCb` are those of the events, each with its own content,
exactly when no event of the buffer carries content and TERMINATING comes last or not at all. -/

namespace Code365.NetworkExtra

open List Option

open Code365.Text

inductive NetStatus where
  | NET_UNAVAILABLE
  | ETH_DOWN
  | ETH_UP
  | WLAN_DOWN
  | WLAN_UP
  | WLAN_NO_IP
  | ETH_NO_IP
  | IP_CONFLICT
  | TERMINATING
deriving DecidableEq, Repr

def NetStatus.code : NetStatus → ℤ
  | NET_UNAVAILABLE => 0x0
  | ETH_DOWN => 0x1
  | ETH_UP => 0x2
  | WLAN_DOWN => 0x4
  | WLAN_UP => 0x8
  | WLAN_NO_IP => 0x10
  | ETH_NO_IP => 0x20
  | IP_CONFLICT => 0x40
  | TERMINATING => 0xff

def Network_Event : List (List Char) :=
  ["ETH_UP".toList, "ETH_DOWN".toList, "WLAN_UP".toList, "WLAN_DOWN".toList, "NET_UNAVAILABLE".toList,
    "IP_UNAVAILABLE_br0".toList, "IP_UNAVAILABLE_eth0".toList, "IP_UNAVAILABLE_wlan0".toList,
    "IP_CONFLICT".toList, "TERMINATING".toList]

def Wifi_Event : List (List Char) :=
  ["CONNECT_SUCCESS".toList, "DISCONNECTED".toList, "SCAN_RESULTS".toList, "CONNECT_START".toList,
    "CONNECT_FAILED".toList, "TIMEOUT".toList]

/-- Index of the first word of the table that occurs in the data, `-1` if none does. -/
def eventJudge (table : List (List Char)) (data : List Char) : ℤ :=
  if data.isEmpty then -1
  else match table.findIdx? (fun w => (find? w data).isSome) with
    | some i => i
    | none => -1

def networkEventJudge (data : List Char) : ℤ := eventJudge Network_Event data

def wifiEventJudge (data : List Char) : ℤ := eventJudge Wifi_Event data

/-- A call of `mCb`. -/
structure Call where
  eventName : List Char
  eventType : ℤ
  eventContent : List Char
deriving DecidableEq, Repr

/-- What `onEvent` does to the outside. -/
inductive Action where
  | reconnect
  | mCb (c : Call)
deriving DecidableEq, Repr

/-- The branches that only compare a word, in the order of the source. -/
inductive FixedEvent where
  | ethDown
  | ethUp
  | wlanDown
  | wlanUp
  | netUnavailable
  | ipUnavailableWlan0
  | ipUnavailableBr0
  | ipUnavailableEth0
deriving DecidableEq, Repr

namespace FixedEvent

def word : FixedEvent → List Char
  | ethDown => "ETH_DOWN".toList
  | ethUp => "ETH_UP".toList
  | wlanDown => "WLAN_DOWN".toList
  | wlanUp => "WLAN_UP".toList
  | netUnavailable => "NET_UNAVAILABLE".toList
  | ipUnavailableWlan0 => "IP_UNAVAILABLE_wlan0".toList
  | ipUnavailableBr0 => "IP_UNAVAILABLE_br0".toList
  | ipUnavailableEth0 => "IP_UNAVAILABLE_eth0".toList

def status : FixedEvent → NetStatus
  | ethDown => .ETH_DOWN
  | ethUp => .ETH_UP
  | wlanDown => .WLAN_DOWN
  | wlanUp => .WLAN_UP
  | netUnavailable => .NET_UNAVAILABLE
  | ipUnavailableWlan0 => .WLAN_NO_IP
  | ipUnavailableBr0 => .ETH_NO_IP
  | ipUnavailableEth0 => .ETH_NO_IP

def all : List FixedEvent :=
  [ethDown, ethUp, wlanDown, wlanUp, netUnavailable, ipUnavailableWlan0, ipUnavailableBr0,
    ipUnavailableEth0]

end FixedEvent

/-- What one pass through the branches leaves: `eventType`, `pos` and `eventContent`, and whether
the connection to the daemon was made anew. -/
structure Parsed where
  eventType : NetStatus
  pos : ℕ
  eventContent : List Char
  reconnect : Bool
deriving DecidableEq, Repr

def ipConflict (event eventContent : List Char) : Parsed :=
  let conflict_pos1 := toInt (find ['\t'] event)
  let pos := "IP_CONFLICT".toList.length
  if 0 < conflict_pos1 then
    let pos := pos + 1
    let conflict_pos2 := toInt (findFrom ['\t'] event (conflict_pos1 + 1).toNat)
    if 0 < conflict_pos2 then
      let conflict_size := conflict_pos2 - conflict_pos1
      { eventType := .IP_CONFLICT, reconnect := false,
        pos := ((pos + (conflict_size + 1)) % 2 ^ 64).toNat,
        eventContent :=
          if 0 < conflict_size then (event.drop (conflict_pos1 + 1).toNat).take conflict_size.toNat
          else eventContent }
    else { eventType := .IP_CONFLICT, pos, eventContent, reconnect := false }
  else { eventType := .IP_CONFLICT, pos, eventContent, reconnect := false }

/-- The chain of branches; `none` is the last one, "invalid event".  The branch of TERMINATING does
not set `pos`, which still holds the result of the search for IP_CONFLICT. -/
def recognize (event eventContent : List Char) : Option Parsed :=
  match FixedEvent.all.find? (fun f => find f.word event == 0) with
  | some f => some { eventType := f.status, pos := f.word.length, eventContent, reconnect := false }
  | none =>
    if find "IP_CONFLICT".toList event = 0 then some (ipConflict event eventContent)
    else if find "TERMINATING".toList event = 0 then
      some { eventType := .TERMINATING, eventContent, reconnect := true,
             pos := (find "IP_CONFLICT".toList event + "TERMINATING".toList.length) % 2 ^ 64 }
    else none

/-- The actions of one pass; `cb` says whether `mCb` is set. -/
def Parsed.actions (p : Parsed) (cb : Bool) : List Action :=
  (if p.reconnect then [.reconnect] else []) ++
    (if cb then [.mCb ⟨"NetworkEvent".toList, p.eventType.code, cstr p.eventContent⟩] else [])

/-- The `while (1)` loop; for an event that is not a network event it does nothing, for ever. -/
def loop (network cb : Bool) : ℕ → List Char → List Char → Option (List Action)
  | 0, _, _ => none
  | fuel + 1, event, eventContent =>
    if network then
      match recognize event eventContent with
      | none => some []
      | some p =>
        if event.length ≤ p.pos then some (p.actions cb)
        else (loop network cb fuel (event.drop p.pos) p.eventContent).map (p.actions cb ++ ·)
    else loop network cb fuel event eventContent

/-- `onEvent(data, len, ctx)`: the result and the actions. -/
def onEvent (cb : Bool) (fuel : ℕ) (data : List Char) : Option (ℤ × List Action) :=
  if networkEventJudge data < 0 then
    if wifiEventJudge data < 0 then some (-1, [])
    else (loop false cb fuel data []).map (0, ·)
  else (loop true cb fuel data []).map (0, ·)

/-- The calls of `mCb` among some actions. -/
def calls (actions : List Action) : List Call :=
  actions.filterMap (fun | .mCb c => some c | .reconnect => none)

/-! ### Events and their encoding -/

/-- What an address conflict may carry: a text without a tab. -/
abbrev Content := {c : List Char // '\t' ∉ c}

/-- An event of the daemon. -/
inductive NetEvent where
  | fixed (f : FixedEvent)
  | conflict (content : Option Content)
  | terminating

namespace NetEvent

def text : NetEvent → List Char
  | fixed f => f.word
  | conflict none => "IP_CONFLICT".toList
  | conflict (some c) => "IP_CONFLICT".toList ++ '\t' :: (c.1 ++ ['\t'])
  | terminating => "TERMINATING".toList

def status : NetEvent → NetStatus
  | fixed f => f.status
  | conflict _ => .IP_CONFLICT
  | terminating => .TERMINATING

/-- The content of the event, empty when it carries none. -/
def content : NetEvent → List Char
  | conflict (some c) => c.1
  | _ => []

def Bare : NetEvent → Prop
  | conflict (some _) => False
  | _ => True

/-- The call of `mCb` that the event stands for. -/
def call (e : NetEvent) : Call := ⟨"NetworkEvent".toList, e.status.code, e.content⟩

end NetEvent

/-- The buffer of a list of events. -/
def encode (es : List NetEvent) : List Char := es.flatMap NetEvent.text

/-- No event carries content, and TERMINATING comes last or not at all. -/
def Separable : List NetEvent → Prop
  | [] => True
  | e :: es => e.Bare ∧ (e = .terminating → es = []) ∧ Separable es

/-! ### One pass -/

theorem find_beq_zero (w s : List Char) : (find w s == 0) = w.isPrefixOf s := by
  rw [Bool.eq_iff_iff, beq_iff_eq, find_eq_zero_iff]

variable (f : FixedEvent)

variable (s : List Char)

theorem recognize_fixed (eventContent : List Char) :
    recognize (f.word ++ s) eventContent = some ⟨f.status, f.word.length, eventContent, false⟩ := by
  unfold recognize
  simp only [find_beq_zero]
  cases f <;> rfl

theorem recognize_conflict (eventContent : List Char) : recognize ("IP_CONFLICT".toList ++
    s) eventContent = some (ipConflict ("IP_CONFLICT".toList ++ s) eventContent) := by
  unfold recognize
  simp only [find_beq_zero, find_eq_zero_iff]
  rfl

theorem recognize_terminating (eventContent : List Char) :
    recognize ("TERMINATING".toList ++ s) eventContent = some ⟨.TERMINATING,
    (find "IP_CONFLICT".toList ("TERMINATING".toList ++ s) + 11) % 2 ^ 64, eventContent, true⟩ := by
  unfold recognize
  simp only [find_beq_zero, find_eq_zero_iff]
  rfl

/-- The first characters of the words. -/
def initials : List Char := "EWNIT".toList

theorem FixedEvent.head?_word : ∃ a ∈ initials, f.word.head? = some a := by
  cases f <;> exact ⟨_, by decide, rfl⟩

theorem not_isPrefixOf_of_initials {event w : List Char} (h : ∀ c ∈ event.head?, c ∉ initials)
    (hw : ∃ a ∈ initials, w.head? = some a) : w.isPrefixOf event = false := by
  obtain ⟨a, ha, hw⟩ := hw
  rw [Bool.eq_false_iff, Ne, isPrefixOf_iff_prefix]
  rintro ⟨t, rfl⟩
  apply h a _ ha
  rw [head?_append, hw]
  rfl

theorem recognize_eq_none {event : List Char} (eventContent : List Char)
    (h : ∀ c ∈ event.head?, c ∉ initials) : recognize event eventContent = none := by
  have hfixed : FixedEvent.all.find? (fun f => f.word.isPrefixOf event) = none := by
    rw [find?_eq_none]
    intro f _
    rw [not_isPrefixOf_of_initials h f.head?_word]
    decide
  have hconflict := not_isPrefixOf_of_initials h ⟨'I', by decide, rfl⟩ (w := "IP_CONFLICT".toList)
  have hterm := not_isPrefixOf_of_initials h ⟨'T', by decide, rfl⟩ (w := "TERMINATING".toList)
  unfold recognize
  simp only [find_beq_zero, find_eq_zero_iff, hfixed, hconflict, hterm]
  rfl

/-- A text between the first two tabs of the buffer becomes the content, with the second tab. -/
theorem ipConflict_content {u c : List Char} (eventContent : List Char) (hu : '\t' ∉ u)
    (hc : '\t' ∉ c) (hpos : 0 < u.length) (hlen : (u ++ '\t' :: (c ++ '\t' :: s)).length < 2 ^ 31) :
    (ipConflict (u ++ '\t' :: (c ++ '\t' :: s)) eventContent).eventContent = c ++ ['\t'] := by
  simp only [length_append, length_cons] at hlen
  have h1 : toInt (find ['\t'] (u ++ '\t' :: (c ++ '\t' :: s))) = u.length := by
    rw [find, find?_singleton_append _ hu, getD_some, toInt_of_lt (by omega)]
  have hd : (u ++ '\t' :: (c ++ '\t' :: s)).drop (u.length + 1) = c ++ '\t' :: s := by
    simp [drop_append]
  have h2 : toInt (findFrom ['\t'] (u ++ '\t' :: (c ++ '\t' :: s)) (u.length + 1)) =
      c.length + (u.length + 1) := by
    rw [findFrom, hd, find?_singleton_append _ hc, map_some, getD_some,
      toInt_of_lt (by omega)]
    omega
  have e1 : ((u.length : ℤ) + 1).toNat = u.length + 1 := by omega
  have e2 : ((c.length : ℤ) + (u.length + 1) - u.length).toNat = c.length + 1 := by omega
  unfold ipConflict
  simp only [h1, e1, h2, hd, e2]
  rw [if_pos (by omega), if_pos (by omega)]
  simp only [if_pos (show (0 : ℤ) < c.length + (u.length + 1) - u.length by omega)]
  simp [take_append]

theorem ipConflict_bare {event : List Char} (eventContent : List Char) (h : '\t' ∉ event) :
    ipConflict event eventContent = ⟨.IP_CONFLICT, 11, eventContent, false⟩ := by
  have h1 : toInt (find ['\t'] event) = -1 := by
    rw [find, find?_singleton_eq_none h, getD_none, toInt_npos]
  unfold ipConflict
  simp only [h1]
  rfl

/-! ### The loop -/

section run

variable {cb : Bool} {event eventContent : List Char} {p : Parsed}

theorem loop_nil (n : ℕ) (eventContent : List Char) :
    loop true cb (n + 1) [] eventContent = some [] := by
  rw [loop, if_pos rfl, recognize_eq_none eventContent (by simp)]

/-- A pass that recognises a word, with fuel for the rest; a pass that ends the loop may go on
with an empty buffer just as well. -/
theorem loop_recognize (n : ℕ) (h : recognize event eventContent = some p) :
    loop true cb (n + 2) event eventContent =
    (loop true cb (n + 1) (event.drop p.pos) p.eventContent).map (p.actions cb ++ ·) := by
  rw [loop, if_pos rfl, h]
  by_cases hl : event.length ≤ p.pos
  · rw [drop_eq_nil_of_le hl, loop_nil]
    simp [hl]
  · simp [hl]

theorem exists_loop_of_recognize {fuel : ℕ} {actions : List Action}
    (h : recognize event eventContent = some p)
    (hl : loop true cb fuel event eventContent = some actions) :
    ∃ fuel' rest, loop true cb fuel' (event.drop p.pos) p.eventContent = some rest ∧
    actions = p.actions cb ++ rest := by
  cases fuel with
  | zero => simp [loop] at hl
  | succ n =>
    rw [loop, if_pos rfl, h] at hl
    by_cases hle : event.length ≤ p.pos
    · simp only [hle, if_true, some.injEq] at hl
      rw [drop_eq_nil_of_le hle]
      exact ⟨1, [], loop_nil 0 _, by simp [hl]⟩
    · simp only [hle, if_false, map_eq_some_iff] at hl
      obtain ⟨rest, hr, rfl⟩ := hl
      exact ⟨n, rest, hr, rfl⟩

theorem calls_nil : calls [] = [] := rfl

theorem calls_actions (p : Parsed) (rest : List Action) : calls (p.actions true ++ rest) =
    ⟨"NetworkEvent".toList, p.eventType.code, cstr p.eventContent⟩ :: calls rest := by
  unfold calls Parsed.actions
  cases p.reconnect <;> simp

theorem nul_notMem_calls (fuel : ℕ) : ∀ {event eventContent : List Char} {actions : List Action},
    loop true true fuel event eventContent = some actions →
    ∀ x ∈ calls actions, '\x00' ∉ x.eventContent := by
  induction fuel with
  | zero => simp [loop]
  | succ n ih =>
    intro event eventContent actions h
    rw [loop, if_pos rfl] at h
    cases hr : recognize event eventContent with
    | none =>
      rw [hr] at h
      rw [← some.inj h, calls_nil]
      simp
    | some p =>
      simp only [hr] at h
      by_cases hl : event.length ≤ p.pos
      · rw [if_pos hl, ← append_nil (p.actions true)] at h
        rw [← some.inj h, calls_actions, forall_mem_cons]
        exact ⟨nul_notMem_cstr _, by simp [calls_nil]⟩
      · rw [if_neg hl, map_eq_some_iff] at h
        obtain ⟨rest, hrest, rfl⟩ := h
        rw [calls_actions, forall_mem_cons]
        exact ⟨nul_notMem_cstr _, ih hrest⟩

end run

/-! ### Buffers of events -/

@[simp] theorem encode_nil : encode [] = [] := rfl

@[simp] theorem encode_cons (e : NetEvent) (es : List NetEvent) :
    encode (e :: es) = e.text ++ encode es := by
  simp [encode]

@[simp] theorem encode_append (es fs : List NetEvent) :
    encode (es ++ fs) = encode es ++ encode fs := by
  simp [encode]

theorem NetEvent.tab_notMem_content (e : NetEvent) : '\t' ∉ e.content := by
  rcases e with f | (_ | c) | _
  · simp [content]
  · simp [content]
  · exact c.2
  · simp [content]

theorem FixedEvent.tab_notMem_word : '\t' ∉ f.word := by cases f <;> decide

variable {e : NetEvent}

theorem NetEvent.Bare.tab_notMem_text (h : e.Bare) : '\t' ∉ e.text := by
  rcases e with f | (_ | c) | _
  · exact f.tab_notMem_word
  · decide
  · exact h.elim
  · decide

variable {es : List NetEvent}

theorem tab_notMem_encode (h : ∀ e ∈ es, e.Bare) : '\t' ∉ encode es := by
  intro ht
  obtain ⟨e, he, hte⟩ := mem_flatMap.mp ht
  exact (h e he).tab_notMem_text hte

/-- Events of which one carries content, split at the first such event. -/
theorem exists_first_content : ∀ {es : List NetEvent}, ¬ (∀ e ∈ es, e.Bare) →
    ∃ (pre : List NetEvent) (c : Content) (post : List NetEvent),
      es = pre ++ .conflict (some c) :: post ∧ ∀ e ∈ pre, e.Bare
  | [], h => by simp at h
  | e :: es, h => by
    by_cases he : e.Bare
    · have hes : ¬ (∀ e ∈ es, e.Bare) := by simpa [he] using h
      obtain ⟨pre, c, post, rfl, hpre⟩ := exists_first_content hes
      exact ⟨e :: pre, c, post, rfl, by simpa [he] using hpre⟩
    · rcases e with f | (_ | c) | _
      · exact absurd trivial he
      · exact absurd trivial he
      · exact ⟨[], c, es, rfl, by simp⟩
      · exact absurd trivial he

theorem NetEvent.text_conflict (c : Option Content) :
    ∃ s, (NetEvent.conflict c).text = "IP_CONFLICT".toList ++ s := by
  cases c with
  | none => exact ⟨[], rfl⟩
  | some c => exact ⟨_, rfl⟩

theorem NetEvent.apart_text (h : ∀ c, e ≠ .conflict c) : apart "IP_CONFLICT".toList e.text := by
  cases e with
  | fixed f => cases f <;> decide
  | conflict c => exact absurd rfl (h c)
  | terminating => decide

theorem find?_encode (es : List NetEvent) : find? "IP_CONFLICT".toList (encode es) = none ∨
    ∃ (pre : List NetEvent) (c : Option Content) (post : List NetEvent), es = pre ++
    .conflict c :: post ∧ find? "IP_CONFLICT".toList (encode es) = some (encode pre).length := by
  induction es with
  | nil => exact .inl rfl
  | cons e es ih =>
    by_cases he : ∃ c, e = .conflict c
    · obtain ⟨c, rfl⟩ := he
      obtain ⟨s, hs⟩ := NetEvent.text_conflict c
      refine .inr ⟨[], c, es, rfl, ?_⟩
      rw [encode_cons, hs, append_assoc, find?_append_self]
      rfl
    · rw [encode_cons, find?_append_of_apart _ (NetEvent.apart_text fun c hc => he ⟨c, hc⟩)]
      rcases ih with h | ⟨pre, c, post, rfl, h⟩
      · exact .inl (by rw [h]; rfl)
      · refine .inr ⟨e :: pre, c, post, rfl, ?_⟩
        rw [h, encode_cons, length_append, add_comm]
        rfl

/-! ### What the loop makes of a buffer of events -/

theorem text_bare : (NetEvent.conflict none).text = "IP_CONFLICT".toList := rfl

theorem text_content (c : Content) :
    (NetEvent.conflict (some c)).text = "IP_CONFLICT".toList ++ '\t' :: (c.1 ++ ['\t']) := rfl

theorem text_terminating : NetEvent.terminating.text = "TERMINATING".toList := rfl

/-- A pass over an event that carries no content, no later event carrying any either, calls `mCb`
for it and goes on with the next event. -/
theorem recognize_bare (eventContent : List Char) (he : e.Bare) (hes : ∀ e ∈ es, e.Bare)
    (ht : e ≠ .terminating) :
    ∃ p, recognize (e.text ++ encode es) eventContent = some p ∧ p.eventType = e.status ∧
    p.eventContent = eventContent ∧ (e.text ++ encode es).drop p.pos = encode es := by
  rcases e with f | (_ | c) | _
  · exact ⟨_, recognize_fixed f _ _, rfl, rfl, drop_left⟩
  · have htab : '\t' ∉ "IP_CONFLICT".toList ++ encode es := by
      rw [mem_append, not_or]
      exact ⟨by decide, tab_notMem_encode hes⟩
    refine ⟨_, recognize_conflict _ _, ?_⟩
    rw [ipConflict_bare _ htab]
    exact ⟨rfl, rfl, rfl⟩
  · exact he.elim
  · exact absurd rfl ht

/-- Where the loop goes on after TERMINATING: at a text that is no event, or behind a later
IP_CONFLICT. -/
theorem drop_terminating (es : List NetEvent) (hlen : (encode es).length < 2 ^ 31) :
    let rest := ("TERMINATING".toList ++ encode es).drop
      ((find "IP_CONFLICT".toList ("TERMINATING".toList ++ encode es) + 11) % 2 ^ 64)
    (∀ eventContent, recognize rest eventContent = none) ∨
      ∃ pre post : List NetEvent, es = pre ++ .conflict none :: post ∧ rest = encode post := by
  have hfind := find?_append_of_apart (encode es) (NetEvent.apart_text (e := .terminating) (by simp))
  rw [text_terminating] at hfind
  rcases find?_encode es with h | ⟨pre, c, post, rfl, h⟩
  · -- `npos + 11` wraps around to ten, and the last letter of the word is left
    rw [h, map_none] at hfind
    have hpos : (find "IP_CONFLICT".toList ("TERMINATING".toList ++ encode es) + 11) % 2 ^ 64 = 10 := by
      rw [find, hfind]
      rfl
    rw [hpos]
    refine .inl fun _ => recognize_eq_none _ fun c hc => ?_
    obtain rfl : 'G' = c := some.inj hc
    decide
  · rw [h, map_some] at hfind
    simp only [encode_append, encode_cons, length_append] at hlen
    have hpos : (find "IP_CONFLICT".toList ("TERMINATING".toList ++ encode (pre ++ .conflict c :: post)) +
        11) % 2 ^ 64 = "TERMINATING".toList.length + (encode pre).length + 11 := by
      rw [find, hfind, getD_some, Nat.mod_eq_of_lt (by simp; omega)]
      omega
    rw [hpos]
    have hdrop : ("TERMINATING".toList ++ encode (pre ++ .conflict c :: post)).drop
        ("TERMINATING".toList.length + (encode pre).length + 11) =
          ((NetEvent.conflict c).text ++ encode post).drop 11 := by
      rw [add_assoc, drop_length_add_append, encode_append, drop_length_add_append,
        encode_cons]
    rw [hdrop]
    cases c with
    | none => exact .inr ⟨pre, post, rfl, rfl⟩
    | some c =>
      refine .inl fun _ => recognize_eq_none _ fun c hc => ?_
      obtain rfl : '\t' = c := some.inj hc
      decide

theorem Separable.bare : ∀ {es : List NetEvent}, Separable es → ∀ e ∈ es, e.Bare
  | [], _ => by simp
  | e :: es, h => by
    rw [forall_mem_cons]
    exact ⟨h.1, h.2.2.bare⟩

theorem NetEvent.call_of_bare (h : e.Bare) :
    e.call = ⟨"NetworkEvent".toList, e.status.code, []⟩ := by
  rcases e with f | (_ | c) | _
  · rfl
  · rfl
  · exact h.elim
  · rfl

theorem exists_loop_of_separable : ∀ {es : List NetEvent}, Separable es →
    ∃ n actions, loop true true (n + 1) (encode es) [] = some actions ∧
      calls actions = es.map NetEvent.call
  | [], _ => ⟨0, [], loop_nil 0 [], rfl⟩
  | e :: es, h => by
    rw [encode_cons]
    by_cases ht : e = .terminating
    · obtain rfl := ht
      obtain rfl := h.2.1 rfl
      refine ⟨1, [.reconnect, .mCb NetEvent.terminating.call], ?_, rfl⟩
      rcases drop_terminating [] (by decide) with hr | ⟨pre, post, he, _⟩
      · rfl
      · simp at he
    · obtain ⟨n, actions, hl, hc⟩ := exists_loop_of_separable h.2.2
      obtain ⟨p, hp, htype, hcontent, hdrop⟩ := recognize_bare [] h.1 h.2.2.bare ht
      refine ⟨n + 1, p.actions true ++ actions, ?_, ?_⟩
      · rw [loop_recognize n hp, hdrop, hcontent, hl]
        rfl
      · rw [calls_actions, hc, htype, hcontent, map_cons, NetEvent.call_of_bare h.1]
        rfl

/-- IP_CONFLICT before a text between two tabs, its own or a later event's: the call for it shows
the second tab. -/
theorem tab_mem_calls {v c s eventContent : List Char} {fuel : ℕ} {actions : List Action}
    (hl : loop true true fuel ("IP_CONFLICT".toList ++ (v ++ '\t' :: (c ++ '\t' :: s)))
    eventContent = some actions) (hv : '\t' ∉ v) (hc : '\t' ∉ c) (hnul : '\x00' ∉ c)
    (hlen : ("IP_CONFLICT".toList ++ (v ++ '\t' :: (c ++ '\t' :: s))).length < 2 ^ 31) :
    ∃ x ∈ calls actions, '\t' ∈ x.eventContent := by
  obtain ⟨fuel', rest, _, ha⟩ := exists_loop_of_recognize (recognize_conflict _ _) hl
  rw [ha, calls_actions]
  have hv' : '\t' ∉ "IP_CONFLICT".toList ++ v := by
    rw [mem_append, not_or]
    exact ⟨by decide, hv⟩
  have hnul' : '\x00' ∉ c ++ ['\t'] := by simpa using hnul
  rw [← append_assoc] at hlen ⊢
  rw [ipConflict_content s eventContent hv' hc (by simp) hlen, cstr_eq_self hnul']
  simp

theorem tab_mem_calls_of_content {c : Option Content} {fuel : ℕ} {eventContent : List Char}
    {actions : List Action}
    (hl : loop true true fuel (encode (.conflict c :: es)) eventContent = some actions)
    (hbare : ¬ ∀ e ∈ .conflict c :: es, e.Bare) (hnul : ∀ e ∈ .conflict c :: es, '\x00' ∉ e.content)
    (hlen : (encode (.conflict c :: es)).length < 2 ^ 31) :
    ∃ x ∈ calls actions, '\t' ∈ x.eventContent := by
  cases c with
  | some c =>
    simp only [encode_cons, text_content, append_assoc, cons_append, nil_append] at hl hlen
    exact tab_mem_calls (v := []) hl (by simp) c.2 (hnul _ mem_cons_self) hlen
  | none =>
    have hes : ¬ ∀ e ∈ es, e.Bare := fun h => hbare (forall_mem_cons.mpr ⟨trivial, h⟩)
    obtain ⟨pre, c, post, rfl, hpre⟩ := exists_first_content hes
    have hv : '\t' ∉ encode pre ++ "IP_CONFLICT".toList := by
      rw [mem_append, not_or]
      exact ⟨tab_notMem_encode hpre, by decide⟩
    simp only [encode_cons, encode_append, text_bare, text_content, append_assoc,
      cons_append, nil_append] at hl hlen
    rw [← append_assoc (encode pre)] at hl hlen
    exact tab_mem_calls hl hv c.2 (hnul (.conflict (some c)) (by simp)) hlen

/-- At most as many calls as events, and as many only if the events are separable. -/
def Counted (es : List NetEvent) (actions : List Action) : Prop :=
  (calls actions).length ≤ es.length ∧ ((calls actions).length = es.length → Separable es)

theorem Counted.cons {e : NetEvent} {es : List NetEvent} {rest : List Action} (h : Counted es rest)
    (p : Parsed) (hb : e.Bare) (ht : e ≠ .terminating) :
    Counted (e :: es) (p.actions true ++ rest) := by
  unfold Counted
  rw [calls_actions, length_cons, length_cons]
  exact ⟨Nat.succ_le_succ h.1, fun heq => ⟨hb, fun he => absurd he ht, h.2 (Nat.succ.inj heq)⟩⟩

/-- Nothing is called for the events behind a TERMINATING that ends the loop. -/
theorem counted_terminating (es : List NetEvent) (p : Parsed) :
    Counted (.terminating :: es) (p.actions true ++ []) := by
  unfold Counted
  rw [calls_actions, calls_nil, length_singleton, length_cons]
  refine ⟨by omega, fun heq => ?_⟩
  obtain rfl : es = [] := eq_nil_of_length_eq_zero (by omega)
  exact ⟨trivial, fun _ => rfl, trivial⟩

theorem Counted.terminating {post : List NetEvent} {rest : List Action} (h : Counted post rest)
    (pre : List NetEvent) (p : Parsed) :
    Counted (.terminating :: (pre ++ .conflict none :: post)) (p.actions true ++ rest) := by
  have hle := h.1
  unfold Counted
  rw [calls_actions, length_cons, length_cons, length_append, length_cons]
  exact ⟨by omega, fun heq => by omega⟩

/-- If no call shows a tab then there are at most as many calls as events, and as many only
for separable events. -/
theorem calls_length_le (es : List NetEvent) : ∀ {fuel : ℕ} {eventContent : List Char}
    {actions : List Action}, loop true true fuel (encode es) eventContent = some actions →
    (∀ e ∈ es, '\x00' ∉ e.content) → (∀ x ∈ calls actions, '\t' ∉ x.eventContent) →
    (encode es).length < 2 ^ 31 → Counted es actions := by
  -- on the number of events, since TERMINATING may jump over some
  induction hk : es.length using Nat.strong_induction_on generalizing es with
  | _ k ih =>
  intro fuel eventContent actions hl hnul htab hlen
  have go : ∀ {e : NetEvent} {es' : List NetEvent} {p : Parsed}, es = e :: es' → e.Bare → e ≠ .terminating →
      recognize (e.text ++ encode es') eventContent = some p →
      (e.text ++ encode es').drop p.pos = encode es' → Counted es actions := by
    rintro e es' p rfl hb ht hp hdrop
    rw [encode_cons] at hl hlen
    obtain ⟨fuel', rest, hrest, rfl⟩ := exists_loop_of_recognize hp hl
    rw [hdrop] at hrest
    rw [calls_actions, forall_mem_cons] at htab
    rw [length_append] at hlen
    have hlt : es'.length < k := by rw [← hk, length_cons]; omega
    exact (ih es'.length hlt es' rfl hrest (forall_mem_cons.mp hnul).2 htab.2 (by omega)).cons p hb ht
  cases es with
  | nil =>
    cases fuel with
    | zero => simp [loop] at hl
    | succ n =>
      rw [encode_nil, loop_nil, some.injEq] at hl
      rw [← hl]
      exact ⟨le_refl _, fun _ => trivial⟩
  | cons e es =>
    rcases e with f | c | _
    · exact go rfl trivial (by simp) (recognize_fixed f _ _) drop_left
    · by_cases hb : ∀ e ∈ NetEvent.conflict c :: es, e.Bare
      · rw [forall_mem_cons] at hb
        obtain ⟨p, hp, _, _, hdrop⟩ := recognize_bare eventContent hb.1 hb.2 (by simp)
        exact go rfl hb.1 (by simp) hp hdrop
      · obtain ⟨x, hx, ht⟩ := tab_mem_calls_of_content hl hb hnul hlen
        exact absurd ht (htab x hx)
    · rw [encode_cons, text_terminating] at hl hlen
      rw [length_append] at hlen
      obtain ⟨fuel', rest, hrest, rfl⟩ := exists_loop_of_recognize (recognize_terminating _ _) hl
      rw [calls_actions, forall_mem_cons] at htab
      rcases drop_terminating es (by omega) with hr | ⟨pre, post, rfl, hdrop⟩
      · obtain rfl : rest = [] := by
          cases fuel' with
          | zero => simp [loop] at hrest
          | succ n =>
            rw [loop, if_pos rfl, hr] at hrest
            exact (some.inj hrest).symm
        exact counted_terminating es _
      · rw [hdrop] at hrest
        simp only [encode_append, encode_cons, length_append] at hlen
        have hlt : post.length < k := by
          rw [← hk, length_cons, length_append, length_cons]
          omega
        have hnul' : ∀ e ∈ post, '\x00' ∉ e.content := fun e he => hnul e (by simp [he])
        exact (ih post.length hlt post rfl hrest hnul' htab.2 (by omega)).terminating pre _

/-! ### `onEvent` -/

/-- `onEvent` ends on the buffer of `es`, and has called `mCb` for these events and no others. -/
def Decodes (es : List NetEvent) : Prop :=
  ∃ fuel ret actions, onEvent true fuel (encode es) = some (ret, actions) ∧
    calls actions = es.map NetEvent.call

theorem FixedEvent.word_mem : f.word ∈ Network_Event := by cases f <;> decide

theorem NetEvent.exists_word (e : NetEvent) : ∃ w ∈ Network_Event, ∃ s, e.text = w ++ s := by
  rcases e with f | (_ | c) | _
  · exact ⟨f.word, f.word_mem, [], (append_nil _).symm⟩
  · exact ⟨"IP_CONFLICT".toList, by decide, [], rfl⟩
  · exact ⟨"IP_CONFLICT".toList, by decide, _, rfl⟩
  · exact ⟨"TERMINATING".toList, by decide, [], rfl⟩

theorem eventJudge_nonneg {table : List (List Char)} {w data : List Char} (hw : w ∈ table)
    (hd : data ≠ []) (hf : (find? w data).isSome) : 0 ≤ eventJudge table data := by
  unfold eventJudge
  rw [if_neg (by simpa using hd)]
  cases hi : table.findIdx? (fun w => (find? w data).isSome) with
  | none => exact absurd hf (by rw [findIdx?_eq_none_iff.mp hi w hw]; decide)
  | some i => exact Int.natCast_nonneg i

theorem networkEventJudge_encode (e : NetEvent) (es : List NetEvent) :
    0 ≤ networkEventJudge (encode (e :: es)) := by
  obtain ⟨w, hw, s, hs⟩ := e.exists_word
  have hfind : find? w (encode (e :: es)) = some 0 := by
    rw [encode_cons, hs, append_assoc, find?_append_self]
  have hne : encode (e :: es) ≠ [] := by
    intro h
    rw [h] at hfind
    have : ∀ w ∈ Network_Event, find? w [] = none := by decide
    rw [this w hw] at hfind
    cases hfind
  exact eventJudge_nonneg hw hne (by rw [hfind]; rfl)

theorem onEvent_encode (fuel : ℕ) (e : NetEvent) (es : List NetEvent) : onEvent true fuel
    (encode (e :: es)) = (loop true true fuel (encode (e :: es)) []).map (0, ·) := by
  rw [onEvent, if_neg]
  have := networkEventJudge_encode e es
  omega

theorem decodes_of_separable (h : Separable es) : Decodes es := by
  cases es with
  | nil => exact ⟨0, -1, [], rfl, rfl⟩
  | cons e es =>
    obtain ⟨n, actions, hl, hc⟩ := exists_loop_of_separable h
    exact ⟨n + 1, 0, actions, by rw [onEvent_encode, hl]; rfl, hc⟩

theorem separable_of_decodes (hlen : (encode es).length < 2 ^ 31) (h : Decodes es) :
    Separable es := by
  cases es with
  | nil => exact trivial
  | cons e es =>
    obtain ⟨fuel, ret, actions, ho, hc⟩ := h
    rw [onEvent_encode, map_eq_some_iff] at ho
    obtain ⟨actions, hl, heq⟩ := ho
    obtain ⟨-, rfl⟩ := Prod.mk.inj heq
    -- a content that arrives as a C string holds no NUL, and that of an event no tab
    have hnul : ∀ e' ∈ e :: es, '\x00' ∉ e'.content := by
      intro e' he'
      apply nul_notMem_calls fuel hl e'.call
      rw [hc]
      exact List.mem_map_of_mem he'
    have htab : ∀ x ∈ calls actions, '\t' ∉ x.eventContent := by
      intro x hx
      rw [hc, List.mem_map] at hx
      obtain ⟨e', _, rfl⟩ := hx
      exact e'.tab_notMem_content
    apply (calls_length_le (e :: es) hl hnul htab hlen).2
    rw [hc, length_map]

/-- **Which buffers are decoded.**  A buffer whose events carry no content, with TERMINATING last or
absent, gives exactly the calls of its events; below `2 ^ 31` bytes no other buffer does. -/
theorem decodes_iff_separable (es : List NetEvent) :
    (Separable es → Decodes es) ∧ ((encode es).length < 2 ^ 31 → Decodes es → Separable es) :=
  ⟨decodes_of_separable, separable_of_decodes⟩

/-- An address conflict with content, then ETH_UP: the content is passed with its closing tab, and
ETH_UP is skipped. -/
theorem conflict_then_ethUp_not_decoded :
    let es := [NetEvent.conflict (some ⟨"10.0.0.9".toList, by decide⟩), .fixed .ethUp]
    onEvent true 2 (encode es) =
      some (0, [.mCb ⟨"NetworkEvent".toList, 0x40, "10.0.0.9\t".toList⟩]) ∧ ¬ Decodes es := by
  refine ⟨by decide, fun h => ?_⟩
  exact (separable_of_decodes (by decide) h).1

end Code365.NetworkExtra
