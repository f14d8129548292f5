import Code365.Network.OnEvent

/-! # Whether `onEvent` ends

The loop of `onEvent` does nothing, for ever, when the buffer has the word of a wifi event and none
of a network event. For a network event every pass shortens the buffer, except one: the positions of
the two tabs after IP_CONFLICT are kept in `int` variables, and when the second one, more than
`2 ^ 32` characters further on, comes out 13 less than the first, `pos` is 0 and the loop stays
where it is (`terminates_iff`). -/

namespace Code365.NetworkExtra

open Option List Code365.Text

variable {cb : Bool} {event eventContent rest : List Char} {p : Parsed} {pos : ℕ}

/-- `conflict_pos1`. -/
def firstTab (event : List Char) : ℤ := toInt (find ['\t'] event)

/-- `conflict_pos2`. -/
def secondTab (event : List Char) : ℤ := toInt (findFrom ['\t'] event (firstTab event + 1).toNat)

/-- IP_CONFLICT with two tabs, the second one at a position that is 13 less in an `int`. -/
structure Stuck (event : List Char) : Prop where
  word : "IP_CONFLICT".toList.isPrefixOf event
  first : 0 < firstTab event
  second : 0 < secondTab event
  apart : firstTab event = secondTab event + 13

/-- Where a pass leaves `pos`. -/
def passPos (event : List Char) : Option ℕ := (recognize event []).map Parsed.pos

/-- The loop goes from a buffer to the rest of it. -/
inductive Reaches : List Char → List Char → Prop
  | refl (event : List Char) : Reaches event event
  | step {event rest : List Char} {pos : ℕ} : passPos event = some pos → pos < event.length →
      Reaches (event.drop pos) rest → Reaches event rest

def Terminates (cb : Bool) (data : List Char) : Prop := ∃ fuel result, onEvent cb fuel data = some result

/-! ### Positions -/

theorem pos_ipConflict (event eventContent : List Char) :
    (ipConflict event eventContent).pos = if 0 < firstTab event then if 0 < secondTab
    event then ((12 + (secondTab event - firstTab event + 1)) % 2 ^ 64).toNat else 12 else 11 := by
  have hword : "IP_CONFLICT".toList.length = 11 := by decide
  have h12 : ((12 : ℕ) : ℤ) = 12 := rfl
  simp only [secondTab, firstTab]
  by_cases h1 : 0 < toInt (find ['\t'] event)
  · by_cases h2 : 0 < toInt (findFrom ['\t'] event (toInt (find ['\t'] event) + 1).toNat)
    · simp only [ipConflict, hword, h1, h2, if_true, Nat.reduceAdd, h12]
    · simp only [ipConflict, hword, h1, h2, if_true, if_false]
  · simp only [ipConflict, hword, h1, if_false]

theorem eventContent_ipConflict (hle : secondTab event ≤ firstTab event) :
    (ipConflict event eventContent).eventContent = eventContent := by
  simp only [secondTab, firstTab] at hle
  simp only [ipConflict]
  split_ifs with h1 h2 h3
  · omega
  · rfl
  · rfl
  · rfl

theorem pos_recognize (event eventContent : List Char) :
    (recognize event eventContent).map Parsed.pos = passPos event := by
  unfold passPos recognize
  cases FixedEvent.all.find? fun f => find f.word event == 0 with
  | some f => rfl
  | none =>
    split_ifs
    · simp only [map_some, pos_ipConflict]
    · rfl
    · rfl

theorem passPos_fixed (f : FixedEvent)
    (hf : FixedEvent.all.find? (fun f => find f.word event == 0) = some f) :
    passPos event = some f.word.length := by
  rw [passPos, recognize, hf]
  rfl

theorem passPos_of_none (hf : FixedEvent.all.find? (fun f => find f.word event == 0) = none) :
    passPos event = if find "IP_CONFLICT".toList event =
    0 then some (ipConflict event []).pos else if find "TERMINATING".toList event = 0 then some
    ((find "IP_CONFLICT".toList event + "TERMINATING".toList.length) % 2 ^ 64) else none := by
  rw [passPos, recognize, hf]
  split_ifs
  · rfl
  · rfl
  · rfl

theorem pos_ipConflict_pos (hword : "IP_CONFLICT".toList.isPrefixOf event)
    (hstuck : ¬ Stuck event) : 0 < (ipConflict event []).pos := by
  rw [pos_ipConflict]
  split_ifs with h1 h2
  · have hne : firstTab event ≠ secondTab event + 13 := fun he => hstuck ⟨hword, h1, h2, he⟩
    have hfirst := toInt_bounds (find ['\t'] event)
    have hsecond := toInt_bounds (findFrom ['\t'] event (firstTab event + 1).toNat)
    rw [← firstTab] at hfirst
    rw [← secondTab] at hsecond
    omega
  · decide
  · decide

/-- The search for IP_CONFLICT does not carry `pos` around to 0. -/
theorem pos_terminating_pos (hlen : event.length < 2 ^ 64) :
    0 < (find "IP_CONFLICT".toList event + "TERMINATING".toList.length) % 2 ^ 64 := by
  have hconflict : "IP_CONFLICT".toList.length = 11 := by decide
  rw [show "TERMINATING".toList.length = 11 by decide, find]
  cases hf : find? "IP_CONFLICT".toList event with
  | none => decide
  | some i =>
    have hle := find?_add_length_le hf
    rw [getD_some]
    omega

/-- A pass that recognises a word moves on, unless the buffer is stuck. -/
theorem passPos_pos (hlen : event.length < 2 ^ 64) (hpos : passPos event = some pos)
    (hstuck : ¬ Stuck event) : 0 < pos := by
  cases hf : FixedEvent.all.find? fun f => find f.word event == 0 with
  | some f =>
    rw [passPos_fixed f hf] at hpos
    cases hpos
    cases f <;> decide
  | none =>
    rw [passPos_of_none hf] at hpos
    split_ifs at hpos with h1 h2
    · obtain rfl := some.inj hpos
      exact pos_ipConflict_pos ((find_eq_zero_iff ..).mp h1) hstuck
    · cases hpos
      exact pos_terminating_pos hlen

/-! ### The loop -/

theorem Stuck.recognize (hs : Stuck event) (eventContent : List Char) : ∃ p,
    recognize event eventContent = some p ∧ p.pos = 0 ∧ p.eventContent = eventContent := by
  obtain ⟨u, rfl⟩ := isPrefixOf_iff_prefix.mp hs.word
  refine ⟨_, recognize_conflict u eventContent, ?_, eventContent_ipConflict (by have := hs.apart; omega)⟩
  rw [pos_ipConflict, if_pos hs.first, if_pos hs.second, hs.apart]
  omega

theorem Stuck.loop (hs : Stuck event) (fuel : ℕ) (eventContent : List Char) :
    loop true cb fuel event eventContent = none := by
  induction fuel with
  | zero => rfl
  | succ n ih =>
    obtain ⟨p, hp, hpos, hcontent⟩ := hs.recognize eventContent
    have hne : ¬ event.length ≤ 0 := by
      have hle := ( isPrefixOf_iff_prefix.mp hs.word).length_le
      rw [show "IP_CONFLICT".toList.length = 11 by decide] at hle
      omega
    rw [NetworkExtra.loop, if_pos rfl, hp]
    show (if event.length ≤ p.pos then _ else _) = _
    rw [hpos, if_neg hne, drop_zero, hcontent, ih]
    rfl

theorem Reaches.length_le (hr : Reaches event rest) : rest.length ≤ event.length := by
  induction hr with
  | refl event => exact le_refl _
  | step _ _ _ ih => exact ih.trans (by rw [length_drop]; omega)

theorem not_stuck_of_loop (hr : Reaches event rest) :
    ∀ {fuel : ℕ} {eventContent : List Char} {actions : List Action},
    loop true cb fuel event eventContent = some actions → ¬ Stuck rest := by
  induction hr with
  | refl event =>
    intro fuel eventContent actions hl hs
    rw [hs.loop] at hl
    cases hl
  | @step event rest pos hpos _ _ ih =>
    intro fuel eventContent actions hl
    rw [← pos_recognize event eventContent] at hpos
    obtain ⟨p, hp, rfl⟩ := map_eq_some_iff.mp hpos
    obtain ⟨fuel', rest', hl', _⟩ := exists_loop_of_recognize hp hl
    exact ih hl'

theorem exists_loop (n : ℕ) : ∀ (event eventContent : List Char), event.length ≤ n →
    event.length < 2 ^ 64 → (∀ rest, Reaches event rest → ¬ Stuck rest) →
    ∃ fuel actions, loop true cb fuel event eventContent = some actions := by
  -- every pass leaves a shorter buffer, so the induction is on a bound for its length
  induction n with
  | zero =>
    intro event eventContent hn _ _
    rw [length_eq_zero_iff.mp (Nat.le_zero.mp hn)]
    exact ⟨1, [], loop_nil 0 eventContent⟩
  | succ n ih =>
    intro event eventContent hn hlen hstuck
    cases hp : recognize event eventContent with
    | none =>
      refine ⟨1, [], ?_⟩
      rw [loop, if_pos rfl, hp]
    | some p =>
      have hpass : passPos event = some p.pos := by
        rw [← pos_recognize event eventContent, hp]
        rfl
      by_cases hle : event.length ≤ p.pos
      · refine ⟨1, p.actions cb, ?_⟩
        rw [loop, if_pos rfl, hp]
        exact if_pos hle
      have hpos := passPos_pos hlen hpass (hstuck event (.refl event))
      have hdrop : (event.drop p.pos).length = event.length - p.pos := length_drop ..
      obtain ⟨fuel, actions, hl⟩ := ih (event.drop p.pos) p.eventContent (by omega) (by omega)
        fun rest hr => hstuck rest (.step hpass (by omega) hr)
      refine ⟨fuel + 1, p.actions cb ++ actions, ?_⟩
      rw [loop, if_pos rfl, hp]
      show (if event.length ≤ p.pos then _ else _) = _
      rw [if_neg hle, hl]
      rfl

theorem loop_ends_iff (cb : Bool) (eventContent : List Char) (hlen : event.length < 2 ^ 64) :
    (∃ fuel actions, loop true cb fuel event eventContent = some actions) ↔
    ∀ rest, Reaches event rest → ¬ Stuck rest := by
  constructor
  · rintro ⟨fuel, actions, hl⟩ rest hr
    exact not_stuck_of_loop hr hl
  · exact exists_loop event.length event eventContent (le_refl _) hlen

theorem loop_wifi (fuel : ℕ) (event eventContent : List Char) :
    loop false cb fuel event eventContent = none := by
  induction fuel with
  | zero => rfl
  | succ n ih => rw [loop, if_neg Bool.false_ne_true, ih]

/-- `onEvent` returns exactly when the buffer has no word of a wifi event, or one of a network
event, and in the second case the loop does not get stuck. -/
theorem terminates_iff (cb : Bool) (data : List Char) (hlen : data.length < 2 ^ 64) :
    Terminates cb data ↔ (networkEventJudge data < 0 → wifiEventJudge data < 0) ∧
      (0 ≤ networkEventJudge data → ∀ rest, Reaches data rest → ¬ Stuck rest) := by
  unfold Terminates onEvent
  by_cases hnet : networkEventJudge data < 0
  · by_cases hwifi : wifiEventJudge data < 0
    · simp only [hnet, hwifi, if_true]
      refine iff_of_true ⟨0, _, rfl⟩ ⟨fun _ => trivial, fun h => absurd hnet (Int.not_lt.mpr h)⟩
    · simp only [hnet, hwifi, if_true, if_false, loop_wifi]
      exact iff_of_false (fun ⟨_, _, h⟩ => by cases h) fun h => h.1 trivial
  · simp only [hnet, if_false, Option.map_eq_some_iff]
    rw [← loop_ends_iff cb [] hlen]
    constructor
    · rintro ⟨fuel, _, actions, hl, _⟩
      exact ⟨fun h => h.elim, fun _ => ⟨fuel, actions, hl⟩⟩
    · rintro ⟨_, h⟩
      obtain ⟨fuel, actions, hl⟩ := h (Int.not_lt.mp hnet)
      exact ⟨fuel, _, actions, hl, rfl⟩

theorem not_stuck_of_lt (hlen : event.length < 2 ^ 31) : ¬ Stuck event := by
  intro hs
  have hapart := hs.apart
  have hsecond := hs.second
  unfold secondTab findFrom at hsecond hapart
  cases hf : find? ['\t'] (event.drop (firstTab event + 1).toNat) with
  | none =>
    rw [hf, map_none, getD_none, toInt_npos] at hsecond
    omega
  | some i =>
    have hle := find?_add_length_le hf
    rw [length_singleton, length_drop] at hle
    rw [hf, map_some, getD_some, toInt_of_lt (by omega)] at hapart
    omega

/-- One network event. -/
theorem terminates_ethUp : Terminates true "ETH_UP".toList := by
  refine (terminates_iff true "ETH_UP".toList (by decide)).mpr ⟨fun h =>
    absurd h (by decide), fun _ rest hr => ?_⟩
  have hle := hr.length_le
  rw [show "ETH_UP".toList.length = 6 by decide] at hle
  exact not_stuck_of_lt (by omega)

/-- A wifi event. -/
theorem scanResults_not_terminates : ¬ Terminates true "SCAN_RESULTS".toList := by
  rintro ⟨fuel, result, h⟩
  rw [onEvent, if_pos (by decide), if_neg (by decide), loop_wifi] at h
  cases h

end Code365.NetworkExtra
