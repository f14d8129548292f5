import Code365.Lib.MaximalRuns

/-! # The silent fragments of a recording (`utils/audio-utils/find-empty-fragment/fef.cpp`)

`main` reads a file of 16-bit samples in blocks of 1024 bytes and counts silent samples.  At a loud
sample it reports the silent samples before it if there are more than 100, at the offset of the loud
sample; at the end of the file it reports nothing (`mem_fragments_iff`). -/

namespace Code365.AudioUtils

open List

/-- A sample that is below the threshold. -/
def sThreshold : ℚ := 0.00001

def sSamples : ℕ := 100

structure EmptyFragmentInfo where
  localCounter : ℕ
  maxAbsSampleValue : ℚ
  position : ℕ
deriving DecidableEq

/-- The variables of the loop. -/
structure Scan where
  localCounter : ℕ
  localMaxAbsDoubleValue : ℚ
  fragmentList : List EmptyFragmentInfo

/-- The body of the inner loop, for a sample at an offset of the file. -/
def scanSample (s : Scan) (sample : ℤ) (offset : ℕ) : Scan :=
  let absDoubleValue : ℚ := |sample / 2 ^ 15|
  if absDoubleValue < sThreshold then
    { s with
      localCounter := s.localCounter + 1
      localMaxAbsDoubleValue :=
        if absDoubleValue > s.localMaxAbsDoubleValue then absDoubleValue else s.localMaxAbsDoubleValue }
  else
    { localCounter := 0
      localMaxAbsDoubleValue := 0
      fragmentList :=
        if s.localCounter > sSamples then s.fragmentList ++ [⟨s.localCounter, s.localMaxAbsDoubleValue, offset⟩]
        else s.fragmentList }

/-- The inner loop from `index` on. -/
def scanBuffer (totalFileSize fileSizeRemain : ℕ) : ℕ → Scan → List ℤ → Scan
  | _, s, [] => s
  | index, s, sample :: buffer =>
    scanBuffer totalFileSize fileSizeRemain (index + 1)
      (scanSample s sample (totalFileSize - fileSizeRemain + index * 2)) buffer

/-- The size of the next block; once it is cut the loop ends. -/
def readerBufferSize (fileSizeRemain : ℕ) : ℕ := if 2 ^ 10 > fileSizeRemain then fileSizeRemain else 2 ^ 10

theorem readerBufferSize_pos {fileSizeRemain : ℕ} (h : fileSizeRemain > 0) :
    0 < readerBufferSize fileSizeRemain := by
  unfold readerBufferSize
  split
  · exact h
  · decide

/-- The loop over the blocks; `samples` are those not read yet. -/
def scanBlocks (totalFileSize fileSizeRemain : ℕ) (s : Scan) (samples : List ℤ) : Scan :=
  if _h : fileSizeRemain > 0 then
    let count := readerBufferSize fileSizeRemain / 2
    scanBlocks totalFileSize (fileSizeRemain - readerBufferSize fileSizeRemain)
      (scanBuffer totalFileSize fileSizeRemain 0 s (samples.take count)) (samples.drop count)
  else s
termination_by fileSizeRemain
decreasing_by exact Nat.sub_lt _h (readerBufferSize_pos _h)

/-- The `fragmentList` of `main` for a file of these samples. -/
def fragments (samples : List ℤ) : List EmptyFragmentInfo :=
  (scanBlocks (2 * samples.length) (2 * samples.length) ⟨0, 0, []⟩ samples).fragmentList

/-! ### Without the blocks -/

/-- The samples one by one, the first at the offset `2 * i`. -/
def scanFrom : ℕ → Scan → List ℤ → Scan
  | _, s, [] => s
  | i, s, sample :: samples => scanFrom (i + 1) (scanSample s sample (2 * i)) samples

theorem scanFrom_append (i : ℕ) (s : Scan) (l l' : List ℤ) :
    scanFrom i s (l ++ l') = scanFrom (i + l.length) (scanFrom i s l) l' := by
  induction l generalizing i s with
  | nil => rfl
  | cons x l ih =>
    rw [cons_append, scanFrom, ih, scanFrom, length_cons]
    congr 1
    omega

theorem scanBuffer_eq {total remain i : ℕ} (h : total - remain = 2 * i) (index : ℕ) (s : Scan)
    (buffer : List ℤ) : scanBuffer total remain index s buffer = scanFrom (i + index) s buffer := by
  induction buffer generalizing index s with
  | nil => rfl
  | cons x buffer ih =>
    rw [scanBuffer, scanFrom, ih, h, show 2 * i + index * 2 = 2 * (i + index) by omega, add_assoc]

theorem scanBlocks_eq {total i : ℕ} (s : Scan) (samples : List ℤ)
    (h : total = 2 * (i + samples.length)) :
    scanBlocks total (2 * samples.length) s samples = scanFrom i s samples := by
  induction hn : samples.length using Nat.strong_induction_on generalizing i s samples with
  | _ n ih =>
    unfold scanBlocks
    by_cases hpos : 2 * n > 0
    · obtain ⟨c, hc, hle, hsize⟩ : ∃ c, 0 < c ∧ c ≤ n ∧ readerBufferSize (2 * n) = 2 * c := by
        unfold readerBufferSize
        split
        · exact ⟨n, by omega, le_rfl, rfl⟩
        · exact ⟨2 ^ 9, by decide, by omega, rfl⟩
      have hdrop : (samples.drop c).length = n - c := by rw [length_drop, hn]
      have htake : (samples.take c).length = c := by rw [length_take]; omega
      have hrest := ih (n - c) (by omega) (i :=
        i + c) (scanFrom i s (samples.take c)) (samples.drop c) (by omega) hdrop
      rw [dif_pos hpos, hsize, Nat.mul_div_cancel_left c (by decide)]
      dsimp only
      rw [scanBuffer_eq (i := i) (by omega), add_zero, show 2 * n - 2 * c = 2 * (n - c) by omega, hrest]
      conv_rhs => rw [← take_append_drop c samples, scanFrom_append, htake]
    · obtain rfl : samples = [] := eq_nil_of_length_eq_zero (by omega)
      rw [dif_neg hpos]
      rfl

variable (samples : List ℤ)

theorem fragments_eq : fragments samples = (scanFrom 0 ⟨0, 0, []⟩ samples).fragmentList := by
  unfold fragments
  rw [scanBlocks_eq (i := 0) _ _ (by omega)]

/-! ### What is reported -/

theorem below_threshold_iff (sample : ℤ) : |(sample : ℚ) / 2 ^ 15| < sThreshold ↔ sample = 0 := by
  constructor
  · intro h
    by_contra hne
    have hone : (1 : ℚ) ≤ |(sample : ℚ)| := by exact_mod_cast Int.one_le_abs hne
    rw [abs_div, sThreshold, div_lt_iff₀ (by norm_num)] at h
    linarith
  · rintro rfl
    norm_num [sThreshold]

variable {p : ℕ → Prop} {s : Scan} {sample : ℤ} {i : ℕ}

/-- What the scan knows before the sample `i`: `p` says which samples are silent. -/
structure Scanned (p : ℕ → Prop) (i : ℕ) (s : Scan) : Prop where
  run : RunBefore p i s.localCounter
  quiet : s.localMaxAbsDoubleValue = 0
  reported : ∀ f, f ∈ s.fragmentList ↔ sSamples < f.localCounter ∧ f.maxAbsSampleValue = 0 ∧
    ∃ start, MaximalRun p start f.localCounter ∧ start + f.localCounter < i ∧
    f.position = 2 * (start + f.localCounter)
  ordered : s.fragmentList.Pairwise fun f g => f.position < g.position

theorem scanned_zero (p : ℕ → Prop) : Scanned p 0 ⟨0, 0, []⟩ where
  run := RunBefore.zero p
  quiet := rfl
  reported f := by simp
  ordered := List.Pairwise.nil

theorem scanSample_silent (s : Scan) (offset : ℕ) (hquiet : s.localMaxAbsDoubleValue = 0) :
    scanSample s 0 offset = { s with localCounter := s.localCounter + 1 } := by
  have hbelow := (below_threshold_iff 0).mpr rfl
  simp only [scanSample, if_pos hbelow, hquiet]
  simp

theorem Scanned.silent (h : Scanned p i s) (hp : p i) :
    Scanned p (i + 1) { s with localCounter := s.localCounter + 1 } where
  run := h.run.grow hp
  quiet := h.quiet
  reported f := by
    rw [h.reported f]
    refine and_congr_right fun _ => and_congr_right fun _ => exists_congr fun start =>
      and_congr_right fun hrun => ?_
    -- no run ends at a silent sample
    have hne : start + f.localCounter ≠ i := fun he => hrun.right (he ▸ hp)
    omega
  ordered := h.ordered

theorem Scanned.ends_iff (h : Scanned p i s) (hp : ¬ p i) (f : EmptyFragmentInfo) : (sSamples <
    f.localCounter ∧ f.maxAbsSampleValue = 0 ∧ ∃ start, MaximalRun p start f.localCounter ∧
    start + f.localCounter = i ∧ f.position = 2 * (start + f.localCounter)) ↔
    sSamples < s.localCounter ∧ f = ⟨s.localCounter, s.localMaxAbsDoubleValue, 2 * i⟩ := by
  obtain ⟨len, maxAbs, position⟩ := f
  dsimp only
  rw [h.quiet]
  constructor
  · rintro ⟨hlen, rfl, start, hrun, hend, rfl⟩
    obtain ⟨_, rfl, _⟩ := (h.run.ends_iff hp).mp ⟨hrun, hend⟩
    exact ⟨hlen, by rw [hend]⟩
  · rintro ⟨hlen, he⟩
    obtain ⟨rfl, rfl, rfl⟩ := EmptyFragmentInfo.mk.inj he
    obtain ⟨hrun, hend⟩ := (h.run.ends_iff hp).mpr ⟨by omega, rfl, rfl⟩
    exact ⟨hlen, rfl, _, hrun, hend, by rw [hend]⟩

theorem Scanned.loud (h : Scanned p i s) (hp : ¬ p i) (hsample : sample ≠ 0) :
    Scanned p (i + 1) (scanSample s sample (2 * i)) := by
  have hloud := mt (below_threshold_iff sample).mp hsample
  simp only [scanSample, if_neg hloud]
  refine ⟨RunBefore.reset hp, rfl, fun f => ?_, ?_⟩
  · have hnew := h.ends_iff hp f
    have hsplit : (∃ start, MaximalRun p start f.localCounter ∧ start + f.localCounter < i + 1 ∧
        f.position = 2 * (start + f.localCounter)) ↔
        (∃ start, MaximalRun p start f.localCounter ∧ start + f.localCounter < i ∧
          f.position = 2 * (start + f.localCounter)) ∨
        ∃ start, MaximalRun p start f.localCounter ∧ start + f.localCounter = i ∧
          f.position = 2 * (start + f.localCounter) := by
      simp only [Nat.lt_succ_iff_lt_or_eq, ← exists_or, ← and_or_left, ← or_and_right]
    rw [hsplit, and_or_left, and_or_left, ← h.reported f, hnew]
    split
    next hlen => simp [hlen]
    next hlen => simp [hlen]
  · split
    · refine pairwise_append.mpr ⟨h.ordered, pairwise_singleton _ _, fun f hf g hg => ?_⟩
      obtain rfl := mem_singleton.mp hg
      obtain ⟨_, _, start, _, hlt, hpos⟩ := (h.reported f).mp hf
      dsimp only
      omega
    · exact h.ordered

theorem scanned_scanFrom (h : Scanned p i s) (hp : ∀ j (hj : j < samples.length), p (i + j) ↔
    samples[j] = 0) : Scanned p (i + samples.length) (scanFrom i s samples) := by
  induction samples generalizing i s with
  | nil => exact h
  | cons x samples ih =>
    have hhead : p i ↔ x = 0 := hp 0 (Nat.succ_pos _)
    have htail : ∀ j (hj : j < samples.length), p (i + 1 + j) ↔ samples[j] = 0 := by
      intro j hj
      have hnext := hp (j + 1) (Nat.succ_lt_succ hj)
      rwa [show i + (j + 1) = i + 1 + j by omega] at hnext
    have hstep : Scanned p (i + 1) (scanSample s x (2 * i)) := by
      by_cases hx : x = 0
      · rw [hx, scanSample_silent s _ h.quiet]
        exact h.silent (hhead.mpr hx)
      · exact h.loud (mt hhead.mp hx) hx
    rw [scanFrom, length_cons, show i + (samples.length + 1) = i + 1 + samples.length by omega]
    exact ih hstep htail

def Silent (samples : List ℤ) (i : ℕ) : Prop := samples[i]? = some 0

theorem scanned_all : Scanned (Silent samples) samples.length (scanFrom 0 ⟨0, 0, []⟩ samples) := by
  have h := scanned_scanFrom samples (scanned_zero (Silent samples)) fun j hj => by
    rw [zero_add, Silent, getElem?_eq_getElem hj, Option.some.injEq]
  rwa [zero_add] at h

/-- The fragments are the long runs that end before the end of the file, each with the offset of its
end. -/
theorem mem_fragments_iff (f : EmptyFragmentInfo) :
    f ∈ fragments samples ↔ sSamples < f.localCounter ∧ f.maxAbsSampleValue = 0 ∧
    ∃ start, MaximalRun (Silent samples) start f.localCounter ∧
    start + f.localCounter < samples.length ∧ f.position = 2 * (start + f.localCounter) := by
  rw [fragments_eq]
  exact (scanned_all samples).reported f

/-- The report is exact: the runs of more than 100 silent samples in their order, each with its
length and the offset at which it starts. -/
structure Exact (samples : List ℤ) : Prop where
  ordered : (fragments samples).Pairwise fun f g => f.position < g.position
  reported : ∀ len position, (∃ f ∈ fragments samples, f.localCounter = len ∧ f.position = position) ↔
    ∃ start, MaximalRun (Silent samples) start len ∧ 100 < len ∧ position = 2 * start

/-- The report is exact just when there is nothing to report. -/
theorem silent_fragments_exact_iff (samples : List ℤ) :
    Exact samples ↔ ∀ start len, MaximalRun (Silent samples) start len → len ≤ 100 := by
  constructor
  · intro h start len hrun
    by_contra hlong
    obtain ⟨f, hf, rfl, hposition⟩ := (h.reported len (2 * start)).mpr ⟨start, hrun, by omega, rfl⟩
    obtain ⟨_, _, start', hrun', _, hposition'⟩ := (mem_fragments_iff samples f).mp hf
    -- the reported offset is that of a loud sample
    have hloud := hrun'.right
    rw [show start' + f.localCounter = start by omega] at hloud
    exact hloud (hrun.holds start le_rfl (Nat.lt_add_of_pos_right hrun.pos))
  · intro h
    have hnone : ∀ f, f ∉ fragments samples := by
      intro f hf
      obtain ⟨hlong, _, start, hrun, _⟩ := (mem_fragments_iff samples f).mp hf
      have hle := h start _ hrun
      unfold sSamples at hlong
      omega
    refine ⟨by rw [eq_nil_iff_forall_not_mem.mpr hnone]; exact List.Pairwise.nil, fun len position => ?_⟩
    constructor
    · rintro ⟨f, hf, _⟩
      exact absurd hf (hnone f)
    · rintro ⟨start, hrun, hlong, _⟩
      have hle := h start len hrun
      omega

theorem silent_replicate {n : ℕ} (h : i < n) (t : List ℤ) : Silent (List.replicate n 0 ++ t) i := by
  unfold Silent
  rw [getElem?_append_left (by simpa using h), getElem?_replicate_of_lt h]

theorem maximalRun_replicate {n : ℕ} (hn : 0 < n) {t : List ℤ} (ht : t.head? ≠ some 0) :
    MaximalRun (Silent (List.replicate n 0 ++ t)) 0 n := by
  refine ⟨hn, fun i _ hi => silent_replicate (by omega) t, .inl rfl, ?_⟩
  unfold Silent
  rw [getElem?_append_right (by simp), ← head?_drop]
  simpa using ht

/-- 101 silent samples and a loud one are reported at the offset of the loud one; without it nothing
is reported. -/
theorem silent_fragments_misreported :
    (∃ f ∈ fragments (List.replicate 101 0 ++ [1]), f.localCounter = 101 ∧ f.position = 202) ∧
      MaximalRun (Silent (List.replicate 101 0 ++ [1])) 0 101 ∧ fragments (List.replicate 101 0 ++
      []) = [] ∧ MaximalRun (Silent (List.replicate 101 0 ++ [])) 0 101 := by
  have hrun := maximalRun_replicate (n := 101) (by decide) (t := [1]) (by decide)
  refine ⟨⟨⟨101, 0, 202⟩, ?_, rfl, rfl⟩, hrun, ?_, maximalRun_replicate (by decide) (by decide)⟩
  · rw [mem_fragments_iff]
    exact ⟨by decide, rfl, 0, hrun, by decide, rfl⟩
  · rw [eq_nil_iff_forall_not_mem]
    intro f hf
    obtain ⟨_, _, start, hrun, hend, _⟩ := (mem_fragments_iff _ f).mp hf
    exact hrun.right (silent_replicate (by simpa using hend) [])

end Code365.AudioUtils
