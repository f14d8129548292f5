import Code365.Lib.CInt
import Code365.Lib.Ring
import Code365.Lib.Run

/-! # `CircularBuffer` (`algorithms/java/DataStructures/Buffers/CircularBuffer.java`)

One thread calls `writeToCharBuffer`, one calls `readOutChar`; an event is one atomic step of one of
them, and every interleaving is a run.  The fields are Java `int`s, which wrap.  Whatever happens,
what was read is a prefix of what was written (`Channel.of_run`); but an index that has wrapped is
negative, its remainder too, and the access throws.

`accepted` and `returned` are what the calls accepted and returned; a character is accepted when
`_readable_data` counts it, which is the step that makes it readable. -/

namespace Code365.Algorithms.CircularBuffer

open List Int CInt

attribute [local irreducible] wrap

/-- The thread in `writeToCharBuffer(c)`. -/
inductive Writer where
  | idle
  | checked (c : Char)
  | indexed (c : Char) (i : ℤ)
  | stored (c : Char)
  | counted
  | advancing (i : ℤ)
  | thrown
deriving DecidableEq, Repr

/-- The thread in `readOutChar()`. -/
inductive Reader where
  | idle
  | checked
  | indexed (i : ℤ)
  | fetched (result : Char)
  | counted (result : Char)
  | advancing (result : Char) (i : ℤ)
  | thrown
deriving DecidableEq, Repr

structure State where
  buffer : ℕ → Char
  writeIndex : ℤ
  readIndex : ℤ
  readableData : ℤ
  writer : Writer
  reader : Reader
  accepted : List Char
  returned : List Char

/-- `new CircularBuffer(buffer_size)`; `none` for the `IllegalArgumentException`. -/
def newCircularBuffer (bufferSize : ℕ) : Option State :=
  if bufferSize &&& (bufferSize - 1) = 0 then
    some { buffer := fun _ => '\x00', writeIndex := 0, readIndex := 0, readableData := 0, writer := .idle,
           reader := .idle, accepted := [], returned := [] }
  else none

def getTrueIndex (bufferSize : ℕ) (i : ℤ) : ℤ := i.tmod bufferSize

/-- A step of the writing thread; `c` is the argument if a call begins. -/
def stepWriter (bufferSize : ℕ) (s : State) (c : Char) : Option State :=
  match s.writer with
  | .idle => some { s with writer := if s.readableData < bufferSize then .checked c else .idle }
  | .checked c => some { s with writer := .indexed c s.writeIndex }
  | .indexed c i =>
    if 0 ≤ getTrueIndex bufferSize i ∧ getTrueIndex bufferSize i < bufferSize then
      some { s with buffer := Function.update s.buffer (getTrueIndex bufferSize i).toNat c, writer := .stored c }
    else some { s with writer := .thrown }
  | .stored c =>
    some { s with readableData := wrap (s.readableData + 1), accepted := s.accepted ++ [c], writer := .counted }
  | .counted => some { s with writer := .advancing s.writeIndex }
  | .advancing i => some { s with writeIndex := wrap (i + 1), writer := .idle }
  | .thrown => none

def stepReader (bufferSize : ℕ) (s : State) : Option State :=
  match s.reader with
  | .idle => some { s with reader := if 0 < s.readableData then .checked else .idle }
  | .checked => some { s with reader := .indexed s.readIndex }
  | .indexed i =>
    if 0 ≤ getTrueIndex bufferSize i ∧ getTrueIndex bufferSize i < bufferSize then
      some { s with reader := .fetched (s.buffer (getTrueIndex bufferSize i).toNat) }
    else some { s with reader := .thrown }
  | .fetched result => some { s with readableData := wrap (s.readableData - 1), reader := .counted result }
  | .counted result => some { s with reader := .advancing result s.readIndex }
  | .advancing result i =>
    some { s with readIndex := wrap (i + 1), returned := s.returned ++ [result], reader := .idle }
  | .thrown => none

inductive Event where
  | writer (c : Char)
  | reader
deriving DecidableEq, Repr

def step (bufferSize : ℕ) (s : State) : Event → Option State
  | .writer c => stepWriter bufferSize s c
  | .reader => stepReader bufferSize s

def Next (bufferSize : ℕ) (s : State) (e : Event) (t : State) : Prop := step bufferSize s e = some t

/-! ### Indices -/

theorem wrap_wrap_add_one (x : ℤ) : wrap (wrap x + 1) = wrap (x + 1) := by
  unfold wrap
  exact bmod_add_bmod

variable {k n : ℕ}

theorem wrap_emod (hk : k ≤ 30) (x : ℤ) : wrap x % 2 ^ k = x % 2 ^ k := by
  have hdvd : (2 ^ k : ℤ) ∣ 2 ^ 32 := pow_dvd_pow 2 (by omega)
  rw [← emod_emod_of_dvd (wrap x) hdvd, ← emod_emod_of_dvd x hdvd]
  congr 1
  unfold wrap
  exact bmod_emod

/-- Java's remainder of an index: that of the number of accesses, or negative. -/
theorem getTrueIndex_eq (bufferSize : ℕ) (i : ℤ) : getTrueIndex bufferSize i =
    i % bufferSize - if 0 ≤ i ∨ (bufferSize : ℤ) ∣ i then 0 else (bufferSize : ℤ) := by
  rw [getTrueIndex, tmod_eq_emod, natAbs_natCast, Nat.cast_ite, Nat.cast_zero]

theorem getTrueIndex_wrap (hk : k ≤ 30) (h : 0 ≤ getTrueIndex (2 ^ k) (wrap n)) :
    (getTrueIndex (2 ^ k) (wrap n)).toNat = n % 2 ^ k := by
  rw [getTrueIndex_eq] at h ⊢
  split at h
  next hc =>
    rw [if_pos hc, Int.sub_zero, Nat.cast_pow, Nat.cast_ofNat, wrap_emod hk]
    exact_mod_cast toNat_natCast (n % 2 ^ k)
  · omega

theorem neg_of_out {i : ℤ}
    (h : ¬(0 ≤ getTrueIndex (2 ^ k) i ∧ getTrueIndex (2 ^ k) i < ((2 ^ k : ℕ) : ℤ))) :
    getTrueIndex (2 ^ k) i < 0 := by
  by_contra hneg
  refine h ⟨not_lt.mp hneg, ?_⟩
  exact tmod_lt_of_pos _ (natCast_pos.mpr (Nat.two_pow_pos k))

theorem getTrueIndex_wrap_nonneg (hk : k ≤ 30) (h : k = 0 ∨ n ≤ 2 ^ 31) :
    0 ≤ getTrueIndex (2 ^ k) (wrap n) := by
  have hpos : (0 : ℤ) < ((2 ^ k : ℕ) : ℤ) := natCast_pos.mpr (Nat.two_pow_pos k)
  have hcond : 0 ≤ wrap n ∨ ((2 ^ k : ℕ) : ℤ) ∣ wrap n := by
    rcases h with rfl | hn
    · exact .inr (one_dvd _)
    rcases hn.lt_or_eq with hn | rfl
    · rw [wrap_eq_self (by omega) (by omega)]
      exact .inl (natCast_nonneg n)
    · -- the one negative index with remainder 0
      refine .inr ?_
      have hwrap : wrap ((2 ^ 31 : ℕ) : ℤ) = -2 ^ 31 := wrap_eq_sub (by decide) (by decide)
      rw [hwrap, Nat.cast_pow]
      exact Int.dvd_neg.mpr (pow_dvd_pow 2 (by omega))
  rw [getTrueIndex_eq, if_pos hcond, Int.sub_zero]
  exact emod_nonneg _ hpos.ne'

/-! ### The invariant -/

/-- The writer has accepted `n` characters, and the window has `room` for one more. -/
def WriterAt (size : ℕ) (s : State) (n : ℕ) (room : Prop) : Prop :=
  match s.writer with
  | .idle => s.writeIndex = wrap n
  | .checked _ => s.writeIndex = wrap n ∧ room
  | .indexed _ i => s.writeIndex = wrap n ∧ i = wrap n ∧ room
  | .stored c => s.writeIndex = wrap n ∧ s.buffer (n % size) = c ∧ room
  | .counted => ∃ m : ℕ, n = m + 1 ∧ s.writeIndex = wrap m
  | .advancing i => ∃ m : ℕ, n = m + 1 ∧ i = wrap m
  | .thrown => getTrueIndex size (wrap n) < 0

/-- The reader has taken `n` characters. -/
def ReaderAt (size : ℕ) (s : State) (n : ℕ) : Prop :=
  match s.reader with
  | .idle => s.readIndex = wrap n ∧ s.returned = s.accepted.take n
  | .checked => s.readIndex = wrap n ∧ s.returned = s.accepted.take n ∧ n < s.accepted.length
  | .indexed i => s.readIndex = wrap n ∧ s.returned = s.accepted.take n ∧ n < s.accepted.length ∧ i = wrap n
  | .fetched c => s.readIndex = wrap n ∧ s.returned = s.accepted.take n ∧ s.accepted[n]? = some c
  | .counted c => ∃ m : ℕ, n = m + 1 ∧ s.returned = s.accepted.take m ∧ s.accepted[m]? = some c ∧
      s.readIndex = wrap m
  | .advancing c i => ∃ m : ℕ, n = m + 1 ∧ s.returned = s.accepted.take m ∧
      s.accepted[m]? = some c ∧ i = wrap m
  | .thrown => s.returned = s.accepted.take n ∧ n < s.accepted.length ∧ getTrueIndex size (wrap n) < 0

/-- The characters accepted and not yet taken are in the buffer, and `_readable_data` counts
them. -/
structure Channel (size : ℕ) (s : State) (taken : ℕ) : Prop where
  window : Window s.buffer size s.accepted taken
  readableData : s.readableData = s.accepted.length - taken
  writer : WriterAt size s s.accepted.length (s.accepted.length < taken + size)
  reader : ReaderAt size s taken

variable {s t : State} {taken size : ℕ}

theorem WriterAt.mono {room room' : Prop} (h : WriterAt size s n room) (himp : room → room') :
    WriterAt size s n room' := by
  unfold WriterAt at h ⊢
  cases hpc : s.writer <;> rw [hpc] at h
  case checked => exact ⟨h.1, himp h.2⟩
  case indexed => exact ⟨h.1, h.2.1, himp h.2.2⟩
  case stored => exact ⟨h.1, h.2.1, himp h.2.2⟩
  all_goals exact h

theorem ReaderAt.append (h : ReaderAt size s n) (hn : n ≤ s.accepted.length) (c : Char) :
    ReaderAt size { s with accepted := s.accepted ++ [c] } n := by
  have htake : ∀ m ≤ n, (s.accepted ++ [c]).take m = s.accepted.take m :=
    fun m hm => take_append_of_le_length (hm.trans hn)
  have hget : ∀ {m : ℕ} {d : Char}, s.accepted[m]? = some d → (s.accepted ++ [c])[m]? = some d :=
    fun hm => List.getElem?_append_left (List.getElem?_eq_some_iff.mp hm).1 ▸ hm
  have hlt : n < s.accepted.length → n < (s.accepted ++ [c]).length := by
    rw [length_append]
    omega
  unfold ReaderAt at h ⊢
  cases hpc : s.reader <;> rw [hpc] at h
  case idle => exact ⟨h.1, h.2.trans (htake n le_rfl).symm⟩
  case checked => exact ⟨h.1, h.2.1.trans (htake n le_rfl).symm, hlt h.2.2⟩
  case indexed => exact ⟨h.1, h.2.1.trans (htake n le_rfl).symm, hlt h.2.2.1, h.2.2.2⟩
  case fetched => exact ⟨h.1, h.2.1.trans (htake n le_rfl).symm, hget h.2.2⟩
  case counted =>
    obtain ⟨m, hm, hret, hc, hi⟩ := h
    exact ⟨m, hm, hret.trans (htake m (by omega)).symm, hget hc, hi⟩
  case advancing =>
    obtain ⟨m, hm, hret, hc, hi⟩ := h
    exact ⟨m, hm, hret.trans (htake m (by omega)).symm, hget hc, hi⟩
  case thrown => exact ⟨h.1.trans (htake n le_rfl).symm, hlt h.2.1, h.2.2⟩

theorem Channel.stepWriter (hk : k ≤ 30) (h : Channel (2 ^ k) s taken) {c : Char}
    (hstep : stepWriter (2 ^ k) s c = some t) : Channel (2 ^ k) t taken := by
  obtain ⟨buffer, writeIndex, readIndex, readableData, writer, reader, accepted, returned⟩ := s
  obtain ⟨hwin, hdata, hw, hr⟩ := h
  have hsize : (2 : ℕ) ^ k ≤ 2 ^ 30 := Nat.pow_le_pow_right (by omega) hk
  cases writer with
  | idle =>
    cases hstep
    refine ⟨hwin, hdata, ?_, hr⟩
    simp only at hdata
    by_cases hlt : readableData < ((2 ^ k : ℕ) : ℤ)
    · simp only [WriterAt, if_pos hlt]
      exact ⟨hw, by omega⟩
    · simp only [WriterAt, if_neg hlt]
      exact hw
  | checked c =>
    cases hstep
    exact ⟨hwin, hdata, ⟨hw.1, hw.1, hw.2⟩, hr⟩
  | indexed c i =>
    obtain ⟨hi, hi', hroom⟩ := hw
    simp only [CircularBuffer.stepWriter, hi'] at hstep
    split at hstep
    next hin =>
      cases hstep
      rw [getTrueIndex_wrap hk hin.1]
      exact ⟨hwin.write hroom c, hdata, ⟨hi, Function.update_self .., hroom⟩, hr⟩
    next hout =>
      cases hstep
      exact ⟨hwin, hdata, neg_of_out hout, hr⟩
  | stored c =>
    obtain ⟨hi, hc, hroom⟩ := hw
    cases hstep
    refine ⟨hwin.push hroom hc, ?_, ⟨accepted.length, length_append, hi⟩, hr.append hwin.le c⟩
    have hle : taken ≤ accepted.length := hwin.le
    change wrap (readableData + 1) = ((accepted ++ [c]).length : ℤ) - taken
    simp only at hdata hroom
    rw [hdata, wrap_eq_self (by omega) (by omega), length_append, length_singleton]
    omega
  | counted =>
    obtain ⟨m, hm, hi⟩ := hw
    cases hstep
    exact ⟨hwin, hdata, ⟨m, hm, hi⟩, hr⟩
  | advancing i =>
    obtain ⟨m, hm, hi⟩ := hw
    cases hstep
    refine ⟨hwin, hdata, ?_, hr⟩
    change wrap (i + 1) = wrap accepted.length
    rw [hi, hm, wrap_wrap_add_one, Nat.cast_succ]
  | thrown => cases hstep

theorem Channel.stepReader (hk : k ≤ 30) (h : Channel (2 ^ k) s taken)
    (hstep : stepReader (2 ^ k) s = some t) : ∃ taken', Channel (2 ^ k) t taken' := by
  obtain ⟨buffer, writeIndex, readIndex, readableData, writer, reader, accepted, returned⟩ := s
  obtain ⟨hwin, hdata, hw, hr⟩ := h
  have hsize : (2 : ℕ) ^ k ≤ 2 ^ 30 := Nat.pow_le_pow_right (by omega) hk
  have hle : taken ≤ accepted.length := hwin.le
  have hle' : accepted.length ≤ taken + 2 ^ k := hwin.le_add
  simp only at hdata
  cases reader with
  | idle =>
    cases hstep
    refine ⟨taken, hwin, hdata, hw, ?_⟩
    by_cases hpos : 0 < readableData
    · simp only [ReaderAt, if_pos hpos]
      exact ⟨hr.1, hr.2, by omega⟩
    · simp only [ReaderAt, if_neg hpos]
      exact hr
  | checked =>
    cases hstep
    exact ⟨taken, hwin, hdata, hw, hr.1, hr.2.1, hr.2.2, hr.1⟩
  | indexed i =>
    obtain ⟨hi, hret, hlt, hi'⟩ := hr
    simp only [CircularBuffer.stepReader, hi'] at hstep
    split at hstep
    next hin =>
      cases hstep
      rw [getTrueIndex_wrap hk hin.1]
      exact ⟨taken, hwin, hdata, hw, hi, hret, hwin.getElem? taken le_rfl hlt⟩
    next hout =>
      cases hstep
      exact ⟨taken, hwin, hdata, hw, hret, hlt, neg_of_out hout⟩
  | fetched c =>
    obtain ⟨hi, hret, hc⟩ := hr
    have hlt : taken < accepted.length := (List.getElem?_eq_some_iff.mp hc).1
    cases hstep
    refine ⟨taken + 1, hwin.pop hlt, ?_, hw.mono fun hroom => hroom.trans_le (by omega), taken, rfl,
      hret, hc, hi⟩
    change wrap (readableData - 1) = (accepted.length : ℤ) - ((taken + 1 : ℕ) : ℤ)
    rw [hdata, wrap_eq_self (by omega) (by omega)]
    omega
  | counted c =>
    obtain ⟨m, hm, hret, hc, hi⟩ := hr
    cases hstep
    exact ⟨taken, hwin, hdata, hw, m, hm, hret, hc, hi⟩
  | advancing c i =>
    obtain ⟨m, hm, hret, hc, hi⟩ := hr
    cases hstep
    refine ⟨taken, hwin, hdata, hw, ?_, ?_⟩
    · change wrap (i + 1) = wrap taken
      rw [hi, hm, wrap_wrap_add_one, Nat.cast_succ]
    · change returned ++ [c] = accepted.take taken
      rw [hm, take_add_one, hc, ← hret]
      rfl
  | thrown => cases hstep

theorem newCircularBuffer_two_pow (k : ℕ) :
    ∃ s, newCircularBuffer (2 ^ k) = some s ∧ Channel (2 ^ k) s 0 := by
  have hpow : 2 ^ k &&& (2 ^ k - 1) = 0 := by
    rw [Nat.and_two_pow_sub_one_eq_mod, Nat.mod_self]
  have hzero : 0 = wrap ((0 : ℕ) : ℤ) := (wrap_eq_self (by decide) (by decide)).symm
  exact ⟨_, if_pos hpow, Window.nil _ _, rfl, hzero, hzero, rfl⟩

theorem Channel.of_run {es : List Event} (hk : k ≤ 30) (h : Channel (2 ^ k) s taken)
    (hrun : Run (Next (2 ^ k)) s es t) : ∃ taken, Channel (2 ^ k) t taken := by
  refine hrun.invariant (I := fun s => ∃ taken, Channel (2 ^ k) s taken) ⟨taken, h⟩ ?_
  rintro s e t ⟨taken, h⟩ hstep
  cases e with
  | writer c => exact ⟨taken, h.stepWriter hk hstep⟩
  | reader => exact h.stepReader hk hstep

theorem ReaderAt.returned_eq (h : ReaderAt size s n) : ∃ m, s.returned = s.accepted.take m := by
  unfold ReaderAt at h
  cases hpc : s.reader <;> rw [hpc] at h
  case idle => exact ⟨n, h.2⟩
  case checked => exact ⟨n, h.2.1⟩
  case indexed => exact ⟨n, h.2.1⟩
  case fetched => exact ⟨n, h.2.1⟩
  case counted =>
    obtain ⟨m, _, hret, _⟩ := h
    exact ⟨m, hret⟩
  case advancing =>
    obtain ⟨m, _, hret, _⟩ := h
    exact ⟨m, hret⟩
  case thrown => exact ⟨n, h.1⟩

theorem Channel.writer_ne_thrown (hk : k ≤ 30) (h : Channel (2 ^ k) s taken)
    (hfew : k = 0 ∨ s.accepted.length ≤ 2 ^ 31) : s.writer ≠ .thrown := by
  intro hpc
  have hneg := h.writer
  rw [WriterAt, hpc] at hneg
  exact absurd (getTrueIndex_wrap_nonneg hk hfew) (not_le.mpr hneg)

theorem Channel.reader_ne_thrown (hk : k ≤ 30) (h : Channel (2 ^ k) s taken)
    (hfew : k = 0 ∨ s.accepted.length ≤ 2 ^ 31 + 1) : s.reader ≠ .thrown := by
  intro hpc
  have hneg := h.reader
  rw [ReaderAt, hpc] at hneg
  obtain ⟨_, hlt, hneg⟩ := hneg
  exact absurd (getTrueIndex_wrap_nonneg hk (hfew.imp_right fun hle => by omega)) (not_le.mpr hneg)

/-- Every power of two that is an `int` is a size.  At every moment of every interleaving the
characters returned are a prefix of those accepted; no write throws while at most `2 ^ 31`
characters were accepted, no read while at most one more was, and no access at all if there is one
cell only. -/
theorem fifo_of_few_accepted (bufferSize : ℕ) (hpow : ∃ k ≤ 30, bufferSize = 2 ^ k) :
    ∃ s0, newCircularBuffer bufferSize = some s0 ∧ ∀ es s, Run (Next bufferSize) s0 es s →
      s.returned <+: s.accepted ∧
        (bufferSize = 1 ∨ s.accepted.length ≤ 2 ^ 31 → s.writer ≠ .thrown) ∧
        (bufferSize = 1 ∨ s.accepted.length ≤ 2 ^ 31 + 1 → s.reader ≠ .thrown) := by
  obtain ⟨k, hk, rfl⟩ := hpow
  obtain ⟨s0, hnew, hstart⟩ := newCircularBuffer_two_pow k
  refine ⟨s0, hnew, fun es s hrun => ?_⟩
  obtain ⟨taken, h⟩ := hstart.of_run hk hrun
  have hcell : 2 ^ k = 1 → k = 0 := fun hone => by simpa using hone
  refine ⟨?_, fun hfew => h.writer_ne_thrown hk (hfew.imp_left hcell),
    fun hfew => h.reader_ne_thrown hk (hfew.imp_left hcell)⟩
  obtain ⟨m, hret⟩ := h.reader.returned_eq
  rw [hret]
  exact List.take_prefix m _

theorem fifo_of_few_accepted_thousand :
    ∃ s0, newCircularBuffer 1024 = some s0 ∧ ∀ es s, Run (Next 1024) s0 es s →
      s.returned <+: s.accepted ∧
        (1024 = 1 ∨ s.accepted.length ≤ 2 ^ 31 → s.writer ≠ .thrown) ∧
        (1024 = 1 ∨ s.accepted.length ≤ 2 ^ 31 + 1 → s.reader ≠ .thrown) :=
  fifo_of_few_accepted 1024 ⟨10, by decide, by decide⟩

/-! ### The access that throws -/

/-- Between two rounds of writing and reading one character. -/
structure Quiet (s : State) (i : ℤ) : Prop where
  writeIndex : s.writeIndex = i
  readIndex : s.readIndex = i
  readableData : s.readableData = 0
  writer : s.writer = .idle
  reader : s.reader = .idle

theorem Quiet.round {b : ℕ} {i : ℤ} (hb : 0 < b) (h : Quiet s i) (hin : 0 ≤ getTrueIndex b i) :
    ∃ es t, Run (Next b) s es t ∧ Quiet t (wrap (i + 1)) := by
  obtain ⟨hw, hr, hdata, hwriter, hreader⟩ := h
  have hlt : getTrueIndex b i < b := tmod_lt_of_pos i (natCast_pos.mpr hb)
  have hone : wrap 1 = 1 := wrap_eq_self (by decide) (by decide)
  have hzero : wrap 0 = 0 := wrap_eq_self (by decide) (by decide)
  let t : State := { s with
    buffer := Function.update s.buffer (getTrueIndex b i).toNat 'a'
    writeIndex := wrap (i + 1)
    readIndex := wrap (i + 1)
    accepted := s.accepted ++ ['a']
    returned := s.returned ++ ['a'] }
  refine ⟨replicate 6 (.writer 'a') ++ replicate 6 .reader, t, Run.of_foldlM (fun _ _ _ _ h => h) ?_,
    ⟨rfl, rfl, hdata, hwriter, hreader⟩⟩
  simp [replicate, step, stepWriter, stepReader, hw, hr, hdata, hwriter, hreader, hin, hlt, hone, hzero, hb, t]

theorem exists_quiet (h : Quiet s (wrap 0)) (hn : n ≤ 2 ^ 31 + 1) :
    ∃ es t, Run (Next 2) s es t ∧ Quiet t (wrap n) := by
  induction n with
  | zero => exact ⟨[], s, .nil s, h⟩
  | succ n ih =>
    obtain ⟨es, t, hrun, hquiet⟩ := ih (by omega)
    have hin : 0 ≤ getTrueIndex (2 ^ 1) (wrap n) := getTrueIndex_wrap_nonneg (by decide) (.inr (by omega))
    obtain ⟨es', u, hrun', hquiet'⟩ := hquiet.round Nat.two_pos hin
    rw [wrap_wrap_add_one, ← Nat.cast_succ] at hquiet'
    exact ⟨es ++ es', u, hrun.append hrun', hquiet'⟩

/-- Two cells, and `2 ^ 31 + 1` characters written and read one by one: the next write throws. -/
theorem index_throws :
    ∃ s0 es s, newCircularBuffer 2 = some s0 ∧ Run (Next 2) s0 es s ∧ s.writer = .thrown := by
  obtain ⟨s0, hnew⟩ : ∃ s0, newCircularBuffer 2 = some s0 := ⟨_, rfl⟩
  have hstart : Quiet s0 (wrap 0) := by
    cases hnew
    have hzero : 0 = wrap 0 := (wrap_eq_self (by decide) (by decide)).symm
    exact ⟨hzero, hzero, rfl, rfl, rfl⟩
  obtain ⟨es, t, hrun, hw, _, hdata, hwriter, _⟩ := exists_quiet hstart le_rfl
  have hneg : getTrueIndex 2 (wrap ((2 ^ 31 + 1 : ℕ) : ℤ)) = -1 := by
    rw [wrap_eq_sub (by decide) (by decide)]
    rfl
  generalize wrap ((2 ^ 31 + 1 : ℕ) : ℤ) = i at hw hneg
  have hlast : Run (Next 2) t (List.replicate 3 (.writer 'a')) { t with writer := .thrown } := by
    refine Run.of_foldlM (fun _ _ _ _ h => h) ?_
    simp [List.replicate, step, stepWriter, hw, hdata, hwriter, hneg]
  exact ⟨s0, _, _, hnew, hrun.append hlast, rfl⟩

end Code365.Algorithms.CircularBuffer
