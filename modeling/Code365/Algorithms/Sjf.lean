import Mathlib

/-! # `SJF.java` (`algorithms/java/Others`)

The process that is entered as number `i` is the object `i`; its `pid` is `i`.  The lists
`processes` and `remainingProcess` hold references to the same objects.  Times are natural numbers
and nothing overflows.  `List.sort` of Java is stable, as `List.insertionSort` is.  An index out of
range ends the program with an exception; a loop that goes on longer than `fuel` is an error of its
own. -/

namespace Code365.Algorithms.Sjf

open List Function

inductive Error where
  | indexOutOfBounds
  | fuel
deriving DecidableEq, Repr

/-- What is entered for a process. -/
structure Entry where
  arrivalTime : ℕ
  burstTime : ℕ
  priority : ℤ
deriving DecidableEq, Repr

/-- The fields of a `Process` that are written after the constructor. -/
structure Process where
  priority : ℤ
  waitTime : ℕ
  remainingTime : ℕ
deriving DecidableEq, Repr

structure Schedule (n : ℕ) where
  timer : ℕ
  objects : Fin n → Process
  processes : List (Fin n)
  remainingProcess : List (Fin n)
  gantChart : List (Fin n)
  arrivals : ℕ → Option (List (Fin n))

variable {n : ℕ} (input : Fin n → Entry)

/-- A process is put into the map of the arrivals. -/
def addArrival (arrivals : ℕ → Option (List (Fin n))) (p : Fin n) : ℕ → Option (List (Fin n)) :=
  update arrivals (input p).arrivalTime (some ((arrivals (input p).arrivalTime).getD [] ++ [p]))

/-- The constructor. -/
def schedule : Schedule n where
  timer := 0
  objects p := { priority := (input p).priority, waitTime := 0, remainingTime := (input p).burstTime }
  processes := List.finRange n
  remainingProcess := []
  gantChart := []
  arrivals := (List.finRange n).foldl (addArrival input) fun _ => none

variable (s : Schedule n)

def setWaitTime (p : Fin n) (waitTime : ℕ) : Schedule n :=
  { s with objects := update s.objects p { s.objects p with waitTime } }

/-- The body of the second loop of `removeFinishedProcess`, for an index in `completed`. -/
def removeStep (i : ℕ) : Except Error (Schedule n) :=
  match s.remainingProcess[i]? with
  | none => .error .indexOutOfBounds
  | some p =>
    match s.processes[p.val]? with
    | none => .error .indexOutOfBounds
    | some q =>
      let s := setWaitTime s q (s.objects p).waitTime
      .ok { s with remainingProcess := s.remainingProcess.erase p }

/-- The indices of the processes that have no time remaining. -/
def completed : List ℕ :=
  (List.range s.remainingProcess.length).filter fun i =>
    ∃ p ∈ s.remainingProcess[i]?, (s.objects p).remainingTime = 0

def removeFinishedProcess : Except Error (Schedule n) := (completed s).foldlM removeStep s

/-- The processes that arrive at the time of the timer are added. -/
def addArrived : Schedule n :=
  match s.arrivals s.timer with
  | none => s
  | some l => { s with remainingProcess := s.remainingProcess ++ l, arrivals := update s.arrivals s.timer none }

/-- What `remainingProcess` is sorted by. -/
def key (p : Process) : ℤ := 6 * p.remainingTime + 1 * p.priority

def sortRemaining : Schedule n :=
  { s with remainingProcess := s.remainingProcess.insertionSort fun a b => key (s.objects a) ≤ key (s.objects b) }

/-- `gantChart.add(i, pid)`. -/
def addAt (l : List (Fin n)) (i : ℕ) (p : Fin n) : Except Error (List (Fin n)) :=
  if i ≤ l.length then .ok (l.insertIdx i p) else .error .indexOutOfBounds

def timeElapsed (i : ℕ) : Except Error (ℕ × Schedule n) :=
  match s.remainingProcess with
  | [] => .ok (0, s)
  | p :: _ => do
    let gantChart ← addAt s.gantChart i p
    let q := s.objects p
    return (1, { s with
      gantChart
      objects := update s.objects p { q with remainingTime := q.remainingTime - 1 } })

/-- The body of the loop of `ageing`, for one process. -/
def age (p : Process) : Process :=
  let p := { p with waitTime := p.waitTime + 1 }
  if p.waitTime % 7 = 0 then { p with priority := p.priority - 1 } else p

def ageStep (objects : Fin n → Process) (p : Fin n) : Fin n → Process := update objects p (age (objects p))

def ageing (k : ℕ) : Schedule n := { s with objects := (s.remainingProcess.drop k).foldl ageStep s.objects }

/-- The first half of the body of the loop: the list of the processes is made up. -/
def prepare : Except Error (Schedule n) := do
  let s ← removeFinishedProcess s
  return sortRemaining (addArrived s)

/-- The second half: the first process of the list runs. -/
def runFirst : Except Error (Schedule n) := do
  let (k, s) ← timeElapsed s s.timer
  let s := ageing s k
  return { s with timer := s.timer + 1 }

/-- The body of the loop of `startScheduling`. -/
def tick : Except Error (Schedule n) := do
  let s ← prepare s
  runFirst s

/-- `arrivals.size() == 0 && remainingProcess.size() == 0`; the keys of the map are times of
arrival. -/
def Finished : Prop := (∀ p, s.arrivals (input p).arrivalTime = none) ∧ s.remainingProcess = []

instance : Decidable (Finished input s) := inferInstanceAs (Decidable (_ ∧ _))

def scheduleLoop : ℕ → Schedule n → Except Error (Schedule n)
  | 0, s => if Finished input s then .ok s else .error .fuel
  | fuel + 1, s =>
    if Finished input s then .ok s
    else do
      let s ← tick s
      scheduleLoop fuel s

def startScheduling (fuel : ℕ) : Except Error (Schedule n) :=
  scheduleLoop input fuel
    { s with processes := s.processes.insertionSort fun a b => (input a).arrivalTime ≤ (input b).arrivalTime }

/-- The lines of `solve`: for each number the wait time and the turn around time. -/
def solve : Except Error (List (ℕ × ℕ)) :=
  (List.finRange n).mapM fun i =>
    match s.processes[i.val]? with
    | none => .error .indexOutOfBounds
    | some p => .ok ((s.objects p).waitTime, (s.objects p).waitTime + (input p).burstTime)

/-! ### The parts of a tick -/

variable {input} {s}

theorem filter_range_eq_singleton {m c : ℕ} {P : ℕ → Prop} [DecidablePred P] (hc : c < m)
    (hP : ∀ i < m, P i ↔ i = c) : (range m).filter P = [c] := by
  have hbeq : (range m).filter P = (range m).filter (· == c) :=
    filter_congr fun i hi => by simp only [hP i (mem_range.mp hi)]; rfl
  rw [hbeq, filter_beq, count_eq_one_of_mem nodup_range (mem_range.mpr hc), replicate_one]

/-- At most one process has finished, and it is removed.  If the processes are in the order of their
numbers, no wait time changes. -/
theorem removeFinishedProcess_spec (hlen : s.processes.length = n) (hnodup : s.remainingProcess.Nodup)
    (hone : ∀ p ∈ s.remainingProcess, ∀ q ∈ s.remainingProcess,
      (s.objects p).remainingTime = 0 → (s.objects q).remainingTime = 0 → p = q) :
    ∃ objects, removeFinishedProcess s = .ok { s with
        objects, remainingProcess := s.remainingProcess.filter fun p => (s.objects p).remainingTime ≠ 0 } ∧
      (∀ p, (objects p).remainingTime = (s.objects p).remainingTime) ∧
      (s.processes = finRange n → objects = s.objects) := by
  by_cases hex : ∃ p ∈ s.remainingProcess, (s.objects p).remainingTime = 0
  · obtain ⟨p, hp, hzero⟩ := hex
    obtain ⟨c, hc⟩ := getElem?_of_mem hp
    have hclt : c < s.remainingProcess.length := (List.getElem?_eq_some_iff.mp hc).1
    have hcompleted : completed s = [c] := by
      refine filter_range_eq_singleton hclt fun i hi => ⟨?_, ?_⟩
      · rintro ⟨q, hq, hq0⟩
        obtain rfl := hone p hp q (mem_of_getElem? hq) hzero hq0
        exact (getElem?_inj hi hnodup).mp (hq.trans hc.symm)
      · rintro rfl
        exact ⟨p, hc, hzero⟩
    obtain ⟨q, hq⟩ : ∃ q, s.processes[p.val]? = some q := by
      have hplt : p.val < s.processes.length := by rw [hlen]; exact p.isLt
      exact ⟨s.processes[p.val], getElem?_eq_getElem hplt⟩
    have hfilter : s.remainingProcess.erase p = s.remainingProcess.filter fun p =>
      (s.objects p).remainingTime ≠ 0 := by
      rw [hnodup.erase_eq_filter]
      refine filter_congr fun q hq => ?_
      by_cases he : q = p
      · simp [he, hzero]
      · have hne : (s.objects q).remainingTime ≠ 0 := fun h0 => he (hone q hq p hp h0 hzero)
        simp [he, hne]
    refine ⟨update s.objects q { s.objects q with waitTime := (s.objects p).waitTime },
      ?_, fun p' => ?_, fun hid => ?_⟩
    · rw [removeFinishedProcess, hcompleted, ← hfilter]
      simp [removeStep, hc, hq, setWaitTime]
    · by_cases he : p' = q
      · rw [he, update_self]
      · rw [update_of_ne he]
    · obtain rfl : p = q := by simpa [hid] using hq
      exact update_eq_self ..
  · have hkeep : ∀ p ∈ s.remainingProcess, (s.objects p).remainingTime ≠ 0 := fun p hp h0 => hex ⟨p, hp, h0⟩
    have hcompleted : completed s = [] := by
      refine filter_eq_nil_iff.mpr fun i _ => ?_
      simp only [decide_eq_true_eq]
      rintro ⟨p, hp, hzero⟩
      exact hkeep p (mem_of_getElem? hp) hzero
    have hfilter : (s.remainingProcess.filter fun p => (s.objects p).remainingTime ≠ 0) = s.remainingProcess :=
      filter_eq_self.mpr fun p hp => decide_eq_true (hkeep p hp)
    refine ⟨s.objects, ?_, fun _ => rfl, fun _ => rfl⟩
    rw [removeFinishedProcess, hcompleted, hfilter]
    rfl

variable (input)

/-- The processes with one time of arrival. -/
def arrivedAt (t : ℕ) : List (Fin n) := (List.finRange n).filter fun p => (input p).arrivalTime = t

/-- The map of the arrivals when the processes that arrived before `t` have been removed. -/
def waiting (t u : ℕ) : Option (List (Fin n)) :=
  if u < t ∨ arrivedAt input u = [] then none else some (arrivedAt input u)

theorem foldl_addArrival (l : List (Fin n)) :
    ∀ (arrivals : ℕ → Option (List (Fin n))) (u : ℕ), l.foldl (addArrival input) arrivals u =
    if (l.filter fun p => (input p).arrivalTime = u) = [] then arrivals u else some
    ((arrivals u).getD [] ++ l.filter fun p => (input p).arrivalTime = u) := by
  induction l with
  | nil => simp
  | cons p l ih =>
    intro arrivals u
    rw [foldl_cons, ih, addArrival]
    by_cases hu : (input p).arrivalTime = u
    · subst hu
      by_cases hnil : (l.filter fun q => (input q).arrivalTime = (input p).arrivalTime) = [] <;> simp [hnil]
    · simp [hu, Ne.symm hu]

theorem arrivals_schedule : (schedule input).arrivals = waiting input 0 := by
  funext u
  refine (foldl_addArrival input (finRange n) (fun _ => none) u).trans ?_
  simp [waiting, arrivedAt]

variable {input}

theorem waiting_succ (t : ℕ) : waiting input (t + 1) = update (waiting input t) t none := by
  funext u
  by_cases hu : u = t
  · rw [hu, update_self]
    exact if_pos (.inl (Nat.lt_succ_self _))
  · have hlt : u < t + 1 ↔ u < t := by omega
    simp only [update_of_ne hu, waiting, hlt]

theorem addArrived_spec (h : s.arrivals = waiting input s.timer) :
    addArrived s = { s with
      remainingProcess := s.remainingProcess ++ arrivedAt input s.timer
      arrivals := waiting input (s.timer + 1) } := by
  rw [addArrived, waiting_succ, ← h]
  by_cases hnil : arrivedAt input s.timer = []
  · have hnone : s.arrivals s.timer = none := by rw [h]; exact if_pos (.inr hnil)
    have hsame : update s.arrivals s.timer none = s.arrivals := by rw [← hnone, update_eq_self]
    rw [hnone, hnil, append_nil, hsame]
  · have hsome : s.arrivals s.timer = some (arrivedAt input s.timer) := by
      rw [h]
      exact if_neg (not_or.mpr ⟨lt_irrefl _, hnil⟩)
    rw [hsome]

theorem remainingTime_age (p : Process) : (age p).remainingTime = p.remainingTime := by
  unfold age
  dsimp only
  split_ifs <;> rfl

theorem waitTime_age (p : Process) : (age p).waitTime = p.waitTime + 1 := by
  unfold age
  dsimp only
  split_ifs <;> rfl

theorem foldl_ageStep {l : List (Fin n)} (hl : l.Nodup) (objects : Fin n → Process) (p : Fin n) :
    l.foldl ageStep objects p = if p ∈ l then age (objects p) else objects p := by
  induction l generalizing objects with
  | nil => simp
  | cons q l ih =>
    obtain ⟨hq, hl⟩ := nodup_cons.mp hl
    rw [foldl_cons, ih hl, ageStep]
    by_cases hp : p = q
    · subst hp
      simp [hq]
    · simp [hp]

end Code365.Algorithms.Sjf
