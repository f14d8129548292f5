import Code365.Algorithms.Sjf

/-! # What `SJF.java` reports

While no tick is idle the Gantt chart has an entry for every tick that has passed (`Running`).  From
it follows how often and when a process runs.  `removeFinishedProcess` writes the wait time of a
process to `processes.get(pid)`, and `processes` is sorted by arrival; so the wait times (`Waits`)
are right if the processes are entered in the order of their arrival. -/

namespace Code365.Algorithms.Sjf

open List Finset

variable {n : ℕ} (input : Fin n → Entry)

/-- The state at the head of the loop.  Of the processes in the list only the one that ran last may
be finished. -/
structure Running (s : Schedule n) : Prop where
  gant : s.gantChart.length = s.timer
  work : ∀ p, s.gantChart.count p + (s.objects p).remainingTime = (input p).burstTime
  early : ∀ u p, s.gantChart[u]? = some p → (input p).arrivalTime ≤ u
  arrivals : s.arrivals = waiting input s.timer
  processes : s.processes.length = n
  nodup : s.remainingProcess.Nodup
  arrived : ∀ p ∈ s.remainingProcess, (input p).arrivalTime < s.timer
  ready : ∀ p, (input p).arrivalTime < s.timer → (s.objects p).remainingTime ≠ 0 → p ∈ s.remainingProcess
  once : ∀ p ∈ s.remainingProcess, ∀ q ∈ s.remainingProcess,
    (s.objects p).remainingTime = 0 → (s.objects q).remainingTime = 0 → p = q

/-- The tick `u` is the last one of the process, and `waitTime` the time it has not run since its
arrival. -/
def Completed (s : Schedule n) (p : Fin n) (waitTime : ℕ) : Prop :=
  ∃ u, s.gantChart[u]? = some p ∧ (∀ u', u < u' → s.gantChart[u']? ≠ some p) ∧
    waitTime + (input p).burstTime + (input p).arrivalTime = u + 1

/-- The wait times at the head of the loop. -/
structure Waits (s : Schedule n) : Prop where
  future : ∀ p, s.timer ≤ (input p).arrivalTime → (s.objects p).waitTime = 0
  active : ∀ p, (input p).arrivalTime < s.timer → (s.objects p).remainingTime ≠ 0 →
    (s.objects p).waitTime + s.gantChart.count p + (input p).arrivalTime = s.timer
  done : ∀ p, (s.objects p).remainingTime = 0 → Completed input s p (s.objects p).waitTime

/-- The list holds the processes that can run. -/
structure Prepared (s s1 : Schedule n) : Prop where
  timer : s1.timer = s.timer
  gant : s1.gantChart = s.gantChart
  processes : s1.processes = s.processes
  arrivals : s1.arrivals = waiting input (s.timer + 1)
  nodup : s1.remainingProcess.Nodup
  mem : ∀ p, p ∈ s1.remainingProcess ↔ (input p).arrivalTime ≤ s.timer ∧ (s.objects p).remainingTime ≠ 0
  remaining : ∀ p, (s1.objects p).remainingTime = (s.objects p).remainingTime
  objects : s.processes = List.finRange n → s1.objects = s.objects

variable {input} {s s1 s' : Schedule n} {p : Fin n}

theorem Running.count_eq_zero (h : Running input s) (hp : s.timer ≤ (input p).arrivalTime) :
    s.gantChart.count p = 0 := by
  refine List.count_eq_zero.mpr fun hmem => ?_
  obtain ⟨u, hu⟩ := getElem?_of_mem hmem
  have hearly := h.early u p hu
  have hlt := (List.getElem?_eq_some_iff.mp hu).1
  rw [h.gant] at hlt
  omega

theorem prepare_spec (hburst : ∀ p, 1 ≤ (input p).burstTime) (h : Running input s) :
    ∃ s1, prepare s = .ok s1 ∧ Prepared input s s1 := by
  obtain ⟨objects, hremove, hrem, hobjects⟩ := removeFinishedProcess_spec h.processes h.nodup h.once
  have hadd := addArrived_spec (s := { s with
    objects, remainingProcess :=
      s.remainingProcess.filter fun p => (s.objects p).remainingTime ≠ 0 }) h.arrivals
  have hnew : ∀ p, (input p).arrivalTime = s.timer → (s.objects p).remainingTime ≠ 0 := by
    intro p hp
    have hcount := h.count_eq_zero hp.ge
    have hwork := h.work p
    have := hburst p
    omega
  have hmem : ∀ p, p ∈ (s.remainingProcess.filter fun p => (s.objects p).remainingTime ≠ 0) ++
      arrivedAt input s.timer ↔ (input p).arrivalTime ≤ s.timer ∧
      (s.objects p).remainingTime ≠ 0 := by
    intro p
    simp only [arrivedAt, mem_append, mem_filter, decide_eq_true_eq, mem_finRange, true_and]
    constructor
    · rintro (⟨hp, hrem⟩ | hp)
      · exact ⟨(h.arrived p hp).le, hrem⟩
      · exact ⟨hp.le, hnew p hp⟩
    · rintro ⟨hle, hrem⟩
      rcases hle.lt_or_eq with hlt | heq
      · exact .inl ⟨h.ready p hlt hrem, hrem⟩
      · exact .inr heq
  have hnodup : ((s.remainingProcess.filter fun p => (s.objects p).remainingTime ≠ 0) ++
      arrivedAt input s.timer).Nodup := by
    refine nodup_append.mpr ⟨h.nodup.filter _, (nodup_finRange n).filter _, fun p hp q hq => ?_⟩
    rintro rfl
    have hlt := h.arrived p (mem_of_mem_filter hp)
    have heq : (input p).arrivalTime = s.timer := of_decide_eq_true (mem_filter.mp hq).2
    omega
  refine ⟨sortRemaining (addArrived _), by rw [prepare, hremove]; rfl, ?_⟩
  rw [hadd]
  refine ⟨rfl, rfl, rfl, rfl, ?_, fun p => ?_, hrem, hobjects⟩
  · exact (perm_insertionSort _ _).nodup_iff.mpr hnodup
  · exact (perm_insertionSort _ _).mem_iff.trans (hmem p)

theorem runFirst_nil (hlist : s.remainingProcess = []) :
    runFirst s = .ok { s with timer := s.timer + 1 } := by
  simp [runFirst, timeElapsed, hlist, ageing, bind, Except.bind, pure, Except.pure]

theorem runFirst_cons {q : Fin n} {l : List (Fin n)} (hlist : s.remainingProcess = q :: l)
    (hgant : s.gantChart.length = s.timer) : runFirst s = .ok { s with
      timer := s.timer + 1
      gantChart := s.gantChart ++ [q]
      objects := l.foldl ageStep
        (Function.update s.objects q
          { s.objects q with remainingTime := (s.objects q).remainingTime - 1 }) } := by
  have hadd : addAt s.gantChart s.timer q = .ok (s.gantChart ++ [q]) := by
    rw [addAt, if_pos hgant.ge, ← hgant, insertIdx_length_self]
  simp [runFirst, timeElapsed, hlist, ageing, bind, Except.bind, pure, Except.pure, hadd]

/-- From one head of the loop to the next: `q` runs and the processes of `l` wait. -/
structure Ticked (input : Fin n → Entry) (s s' : Schedule n) (q : Fin n) (l : List (Fin n)) : Prop where
  timer : s'.timer = s.timer + 1
  gant : s'.gantChart = s.gantChart ++ [q]
  processes : s'.processes = s.processes
  arrivals : s'.arrivals = waiting input (s.timer + 1)
  list : s'.remainingProcess = q :: l
  nodup : (q :: l).Nodup
  mem : ∀ p, p ∈ q :: l ↔ (input p).arrivalTime ≤ s.timer ∧ (s.objects p).remainingTime ≠ 0
  remaining : ∀ p, (s'.objects p).remainingTime =
    if p = q then (s.objects p).remainingTime - 1 else (s.objects p).remainingTime
  waitTime : s.processes = List.finRange n → ∀ p, (s'.objects p).waitTime =
    if p ∈ l then (s.objects p).waitTime + 1 else (s.objects p).waitTime

theorem tick_spec (hburst : ∀ p, 1 ≤ (input p).burstTime) (h : Running input s)
    (hready : ∃ p, (input p).arrivalTime ≤ s.timer ∧ (s.objects p).remainingTime ≠ 0) :
    ∃ s' q l, tick s = .ok s' ∧ Ticked input s s' q l := by
  obtain ⟨s1, hprepare, hs1⟩ := prepare_spec hburst h
  obtain ⟨p0, hp0⟩ := hready
  obtain ⟨q, l, hlist⟩ : ∃ q l, s1.remainingProcess = q :: l :=
    exists_cons_of_ne_nil (ne_nil_of_mem ((hs1.mem p0).mpr hp0))
  have hgant : s1.gantChart.length = s1.timer := by rw [hs1.gant, hs1.timer, h.gant]
  have hnodup := hs1.nodup
  rw [hlist] at hnodup
  have hl := (nodup_cons.mp hnodup).2
  have htick : tick s = runFirst s1 := by rw [tick, hprepare]; rfl
  refine ⟨_, q, l, htick.trans (runFirst_cons hlist hgant), ?_⟩
  refine ⟨by rw [hs1.timer], by rw [hs1.gant], hs1.processes, hs1.arrivals, hlist, hnodup, fun p => ?_, fun p => ?_,
    fun hid p => ?_⟩
  · rw [← hlist, hs1.mem]
  · dsimp only
    rw [foldl_ageStep hl, Function.update_apply, ← hs1.remaining]
    split_ifs with hp hq hq
    · rw [remainingTime_age, hq]
    · rw [remainingTime_age]
    · rw [hq]
    · rfl
  · dsimp only
    rw [foldl_ageStep hl, Function.update_apply, ← hs1.objects hid]
    split_ifs with hp hq hq
    · rw [waitTime_age, hq]
    · rw [waitTime_age]
    · rw [hq]
    · rfl

theorem getElem?_concat_iff {l : List (Fin n)} {q : Fin n} {u : ℕ} :
    (l ++ [q])[u]? = some p ↔ l[u]? = some p ∨ u = l.length ∧ p = q := by
  rcases lt_trichotomy u l.length with hu | hu | hu
  · rw [getElem?_append_left hu]
    exact (or_iff_left fun h => hu.ne h.1).symm
  · subst hu
    simp [eq_comm]
  · rw [getElem?_eq_none (by simp; omega), getElem?_eq_none hu.le]
    simp [hu.ne']

variable {q : Fin n} {l : List (Fin n)}

namespace Ticked

variable (h : Ticked input s s' q l)

include h

theorem count_eq (p : Fin n) :
    s'.gantChart.count p = if p = q then s.gantChart.count p + 1 else s.gantChart.count p := by
  rw [h.gant, count_append, count_singleton]
  by_cases hp : p = q
  · simp [hp]
  · simp [hp, Ne.symm hp]

theorem mem_of_remaining (hlt : (input p).arrivalTime < s'.timer)
    (hrem : (s'.objects p).remainingTime ≠ 0) : p ∈ q :: l := by
  rw [h.mem]
  rw [h.timer] at hlt
  refine ⟨Nat.le_of_lt_succ hlt, fun h0 => hrem ?_⟩
  rw [h.remaining, h0]
  split_ifs <;> rfl

variable (hs : Running input s)

include hs

theorem running : Running input s' := by
  obtain ⟨hqarr, hqrem⟩ := (h.mem q).mp (by simp)
  have hzero : ∀ p ∈ q :: l, (s'.objects p).remainingTime = 0 → p = q := by
    intro p hp h0
    by_contra hne
    rw [h.remaining, if_neg hne] at h0
    exact ((h.mem p).mp hp).2 h0
  refine ⟨?_, fun p => ?_, fun u p hu => ?_, ?_, ?_,
    ?_, fun p hp => ?_, fun p hlt hrem => ?_, fun p hp p' hp' h0 h0' => ?_⟩
  · rw [h.gant, h.timer, length_append, hs.gant]
    rfl
  · have hwork := hs.work p
    rw [h.count_eq, h.remaining]
    split_ifs with hp
    · subst hp
      omega
    · exact hwork
  · rw [h.gant, getElem?_concat_iff] at hu
    rcases hu with hu | ⟨rfl, rfl⟩
    · exact hs.early u p hu
    · rwa [hs.gant]
  · rw [h.arrivals, h.timer]
  · rw [h.processes, hs.processes]
  · rw [h.list]
    exact h.nodup
  · rw [h.list] at hp
    rw [h.timer]
    exact Nat.lt_succ_of_le ((h.mem p).mp hp).1
  · rw [h.list]
    exact h.mem_of_remaining hlt hrem
  · rw [h.list] at hp hp'
    rw [hzero p hp h0, hzero p' hp' h0']

/-- The processes of the list have waited since their arrival whenever they did not run. -/
theorem waited (hw : Waits input s) : ∀ p ∈ q :: l,
    (s.objects p).waitTime + s.gantChart.count p + (input p).arrivalTime = s.timer := by
  intro p hp
  obtain ⟨harr, hrem⟩ := (h.mem p).mp hp
  rcases harr.lt_or_eq with hlt | heq
  · exact hw.active p hlt hrem
  · rw [hw.future p heq.ge, hs.count_eq_zero heq.ge, heq]
    omega

theorem waits_active (hid : s.processes = finRange n) (hw : Waits input s) (p : Fin n)
    (hlt : (input p).arrivalTime < s'.timer) (hrem : (s'.objects p).remainingTime ≠ 0) :
    (s'.objects p).waitTime + s'.gantChart.count p + (input p).arrivalTime = s'.timer := by
  have hql : q ∉ l := (nodup_cons.mp h.nodup).1
  have hmem := h.mem_of_remaining hlt hrem
  have hsum := h.waited hs hw p hmem
  rw [h.waitTime hid, h.count_eq, h.timer]
  by_cases hp : p = q
  · rw [if_pos hp, if_neg (hp ▸ hql)]
    omega
  · rw [if_neg hp, if_pos ((mem_cons.mp hmem).resolve_left hp)]
    omega

theorem waits (hid : s.processes = finRange n) (hw : Waits input s) : Waits input s' := by
  have hql : q ∉ l := (nodup_cons.mp h.nodup).1
  refine ⟨fun p hp => ?_, h.waits_active hs hid hw, fun p h0 => ?_⟩
  · rw [h.timer] at hp
    have hpl : p ∉ l := fun hmem => by
      have := ((h.mem p).mp (mem_cons_of_mem _ hmem)).1
      omega
    rw [h.waitTime hid, if_neg hpl]
    exact hw.future p (by omega)
  · rw [h.remaining] at h0
    by_cases hp : p = q
    · -- the process that runs has come to its end
      subst hp
      rw [if_pos rfl] at h0
      have hsum := h.waited hs hw p (by simp)
      obtain ⟨_, hqrem⟩ := (h.mem p).mp (by simp)
      have hwork := hs.work p
      refine ⟨s.gantChart.length, ?_, fun u' hu' => ?_, ?_⟩
      · rw [h.gant, getElem?_concat_iff]
        exact .inr ⟨rfl, rfl⟩
      · rw [h.gant, getElem?_eq_none (by simp; omega)]
        simp
      · rw [h.waitTime hid, if_neg hql, hs.gant]
        omega
    · rw [if_neg hp] at h0
      have hpl : p ∉ l := fun hmem => ((h.mem p).mp (mem_cons_of_mem _ hmem)).2 h0
      obtain ⟨u, hu, hlast, hsum⟩ := hw.done p h0
      refine ⟨u, ?_, fun u' hu' => ?_, ?_⟩
      · rw [h.gant, getElem?_concat_iff]
        exact .inl hu
      · rw [h.gant, Ne, getElem?_concat_iff, not_or]
        exact ⟨hlast u' hu', fun hlast' => hp hlast'.2⟩
      · rwa [h.waitTime hid, if_neg hpl]

end Ticked

/-! ### The loop -/

variable (input)

/-- The work of all processes. -/
def totalBurst : ℕ := ∑ p, (input p).burstTime

/-- The work of the processes that have arrived. -/
def arrivedWork (t : ℕ) : ℕ := ∑ p with (input p).arrivalTime ≤ t, (input p).burstTime

/-- At every time before the end, the processes that have arrived have more work than the time that
has passed. -/
def NoGap : Prop := ∀ t < totalBurst input, t < ∑ p with (input p).arrivalTime ≤ t, (input p).burstTime

/-- What holds when the loop ends. -/
structure Ended (s : Schedule n) : Prop where
  work : ∀ p, s.gantChart.count p = (input p).burstTime
  early : ∀ u p, s.gantChart[u]? = some p → (input p).arrivalTime ≤ u

variable {input} {fuel : ℕ}

theorem waiting_eq_none_iff {t : ℕ} :
    waiting input t (input p).arrivalTime = none ↔ (input p).arrivalTime < t := by
  have hne : arrivedAt input (input p).arrivalTime ≠ [] := by
    simp [arrivedAt]
  simp [waiting, hne]

namespace Running

variable (h : Running input s)

include h

theorem sum_count : ∑ p, s.gantChart.count p = s.timer := by
  have hcard := Multiset.sum_count_eq_card (m := (s.gantChart : Multiset (Fin n)))
    fun p _ => mem_univ p
  simpa [h.gant] using hcard

theorem arrivedWork_eq : arrivedWork input s.timer =
    s.timer + ∑ p with (input p).arrivalTime ≤ s.timer, (s.objects p).remainingTime := by
  have hcount : ∑ p with (input p).arrivalTime ≤ s.timer, s.gantChart.count p = s.timer := by
    rw [sum_filter_of_ne, h.sum_count]
    intro q _ hq
    by_contra hle
    exact hq (h.count_eq_zero (not_le.mp hle).le)
  rw [arrivedWork, ← sum_congr rfl fun q _ => h.work q, sum_add_distrib, hcount]

theorem exists_ready (hgap : s.timer < arrivedWork input s.timer) :
    ∃ p, (input p).arrivalTime ≤ s.timer ∧ (s.objects p).remainingTime ≠ 0 := by
  rw [h.arrivedWork_eq] at hgap
  obtain ⟨p, hp, hrem⟩ := exists_ne_zero_of_sum_ne_zero (Nat.pos_of_lt_add_right hgap).ne'
  exact ⟨p, (Finset.mem_filter.mp hp).2, hrem⟩

/-- When the processes that have arrived have no more work, none of them can run. -/
theorem none_ready (hgap : arrivedWork input s.timer ≤ s.timer) (p : Fin n)
    (hp : (input p).arrivalTime ≤ s.timer) : (s.objects p).remainingTime = 0 := by
  rw [h.arrivedWork_eq] at hgap
  exact Finset.sum_eq_zero_iff.mp (Nat.le_zero.mp (Nat.add_le_add_iff_left.mp hgap)) p (by simp [hp])

theorem sum_remaining : s.timer + ∑ p, (s.objects p).remainingTime = totalBurst input := by
  rw [← h.sum_count, ← sum_add_distrib]
  exact sum_congr rfl fun p _ => h.work p

theorem all_done (htimer : s.timer = totalBurst input) (p : Fin n) :
    (s.objects p).remainingTime = 0 := by
  have hsum := h.sum_remaining
  have hzero : ∑ p, (s.objects p).remainingTime = 0 := by omega
  exact Finset.sum_eq_zero_iff.mp hzero p (mem_univ p)

theorem not_finished (hrem : (s.objects p).remainingTime ≠ 0) : ¬ Finished input s := by
  rintro ⟨hnone, hnil⟩
  have hp := hnone p
  rw [h.arrivals, waiting_eq_none_iff] at hp
  have hmem := h.ready p hp hrem
  rw [hnil] at hmem
  exact absurd hmem (by simp)

end Running

theorem scheduleLoop_of_finished (h : Finished input s) : scheduleLoop input fuel s = .ok s := by
  cases fuel <;> exact if_pos h

theorem scheduleLoop_of_tick (h : ¬ Finished input s) (htick : tick s = .ok s') :
    scheduleLoop input (fuel + 1) s = scheduleLoop input fuel s' := by
  rw [scheduleLoop, if_neg h, htick]
  rfl

theorem scheduleLoop_busy (hburst : ∀ p, 1 ≤ (input p).burstTime) {t : ℕ}
    (hbusy : ∀ u < t, u < arrivedWork input u) : ∀ (k : ℕ) {s : Schedule n}, Running input s →
    s.timer + k = t → ∃ s', (∀ fuel, scheduleLoop input (fuel + k) s = scheduleLoop input fuel s') ∧
    Running input s' ∧ s'.timer = t ∧
    (s.processes = finRange n → Waits input s → s'.processes = finRange n ∧ Waits input s')
  | 0, s, h, htimer => ⟨s, fun _ => rfl, h, htimer, fun hid hw => ⟨hid, hw⟩⟩
  | k + 1, s, h, htimer => by
    obtain ⟨p, harr, hrem⟩ := h.exists_ready (hbusy s.timer (by omega))
    obtain ⟨s1, q, l, htick, hticked⟩ := tick_spec hburst h ⟨p, harr, hrem⟩
    have htimer1 : s1.timer + k = t := by
      rw [hticked.timer]
      omega
    obtain ⟨s', hrun, h', htimer', hwaits⟩ := scheduleLoop_busy hburst hbusy k (hticked.running h) htimer1
    refine ⟨s', fun fuel => (scheduleLoop_of_tick (h.not_finished hrem) htick).trans (hrun fuel),
      h', htimer', fun hid hw => ?_⟩
    exact hwaits (hticked.processes.trans hid) (hticked.waits h hid hw)

/-! ### A gap -/

theorem prepare_of_nil (hnil : s.remainingProcess = [])
    (harrivals : s.arrivals = waiting input s.timer) :
    prepare s = .ok (sortRemaining { s with
      remainingProcess := arrivedAt input s.timer
      arrivals := waiting input (s.timer + 1) }) := by
  have hremove : removeFinishedProcess s =
    .ok s := by simp [removeFinishedProcess, completed, hnil, pure, Except.pure]
  rw [prepare, hremove]
  simp only [bind, Except.bind, pure, Except.pure]
  rw [addArrived_spec harrivals, hnil, nil_append]

theorem runFirst_throws (hlist : s.remainingProcess = q :: l)
    (hgant : s.gantChart.length < s.timer) : runFirst s = .error .indexOutOfBounds := by
  have hadd : addAt s.gantChart s.timer q = .error .indexOutOfBounds := if_neg (not_le.mpr hgant)
  simp [runFirst, timeElapsed, hlist, bind, Except.bind, hadd]

theorem tick_throws (hnil : s.remainingProcess = [])
    (harrivals : s.arrivals = waiting input s.timer) (hgant : s.gantChart.length < s.timer)
    (hsome : arrivedAt input s.timer ≠ []) : tick s = .error .indexOutOfBounds := by
  rw [tick, prepare_of_nil hnil harrivals]
  obtain ⟨p, hp⟩ := exists_mem_of_ne_nil _ hsome
  obtain ⟨q, l, hlist⟩ := exists_cons_of_ne_nil (ne_nil_of_mem ((perm_insertionSort
    (fun a b => key (s.objects a) ≤ key (s.objects b)) _).mem_iff.mpr hp))
  exact runFirst_throws (l := l) hlist hgant

theorem tick_idle (hnil : s.remainingProcess = []) (harrivals : s.arrivals = waiting input s.timer)
    (hnone : arrivedAt input s.timer = []) :
    tick s = .ok { s with timer := s.timer + 1, arrivals := waiting input (s.timer + 1) } := by
  have hsort : sortRemaining { s with remainingProcess := [], arrivals := waiting input (s.timer + 1) } =
      { s with arrivals := waiting input (s.timer + 1) } := by
    simp [sortRemaining, hnil]
  rw [tick, prepare_of_nil hnil harrivals, hnone, hsort]
  exact runFirst_nil hnil

theorem scheduleLoop_of_error {e : Error} (h : ¬ Finished input s) (htick : tick s = .error e) :
    scheduleLoop input (fuel + 1) s = .error e := by
  rw [scheduleLoop, if_neg h, htick]
  rfl

/-- After an idle tick the chart is too short for the time, and the next process cannot be added to
it. -/
theorem scheduleLoop_idle {p : Fin n} : ∀ (k : ℕ) {s : Schedule n}, s.remainingProcess = [] →
    s.arrivals = waiting input s.timer → s.gantChart.length < s.timer →
    (input p).arrivalTime = s.timer + k → scheduleLoop input (k + 1) s = .error .indexOutOfBounds
  | k, s, hnil, harrivals, hgant, hp => by
    have hgoing : ¬ Finished input s := by
      rintro ⟨hnone, _⟩
      have hlt := hnone p
      rw [harrivals, waiting_eq_none_iff] at hlt
      omega
    by_cases hsome : arrivedAt input s.timer = []
    · obtain _ | k := k
      · have hmem : p ∈ arrivedAt input s.timer := by simp [arrivedAt, hp]
        rw [hsome] at hmem
        exact absurd hmem (by simp)
      · rw [scheduleLoop_of_tick hgoing (tick_idle hnil harrivals hsome)]
        exact scheduleLoop_idle (p := p) k hnil rfl (Nat.lt_succ_of_lt hgant) (by dsimp only; omega)
    · exact scheduleLoop_of_error hgoing (tick_throws hnil harrivals hgant hsome)

section

variable (hburst : ∀ p, 1 ≤ (input p).burstTime) (h : Running input s)

include hburst h

theorem tick_none (hnone : ∀ p, (input p).arrivalTime ≤ s.timer → (s.objects p).remainingTime = 0) :
    ∃ s', tick s = .ok s' ∧ s'.timer = s.timer + 1 ∧ s'.remainingProcess = [] ∧
    s'.arrivals = waiting input (s.timer + 1) ∧ s'.gantChart = s.gantChart ∧
    s'.processes = s.processes ∧ (s.processes = finRange n → s'.objects = s.objects) := by
  obtain ⟨s1, hprepare, hs1⟩ := prepare_spec hburst h
  have hnil : s1.remainingProcess = [] := by
    refine eq_nil_iff_forall_not_mem.mpr fun p hp => ?_
    obtain ⟨harr, hrem⟩ := (hs1.mem p).mp hp
    exact hrem (hnone p harr)
  refine ⟨{ s1 with timer := s1.timer + 1 }, ?_, congrArg (· + 1) hs1.timer, hnil, hs1.arrivals,
    hs1.gant, hs1.processes, hs1.objects⟩
  rw [tick, hprepare]
  exact runFirst_nil hnil

theorem scheduleLoop_done (htimer : s.timer = totalBurst input) : ∃ s', scheduleLoop input 1 s =
    .ok s' ∧ Ended input s' ∧ (s.processes = finRange n → Waits input s →
    s'.processes = finRange n ∧ ∀ p, Completed input s' p (s'.objects p).waitTime) := by
  have hdone := h.all_done htimer
  have hended : Ended input s := ⟨fun p => by
    have hwork := h.work p
    rw [hdone p] at hwork
    exact hwork, h.early⟩
  by_cases hfin : Finished input s
  · exact ⟨s, scheduleLoop_of_finished hfin, hended, fun hid hw => ⟨hid, fun p => hw.done p (hdone p)⟩⟩
  obtain ⟨s', htick, _, hnil, harrivals, hgant, hproc, hobj⟩ := tick_none hburst h fun p _ => hdone p
  have hfin' : Finished input s' := by
    refine ⟨fun p => ?_, hnil⟩
    rw [harrivals, waiting_eq_none_iff]
    by_contra hlt
    have hwork := h.work p
    rw [h.count_eq_zero (by omega), hdone p] at hwork
    have := hburst p
    omega
  refine ⟨s', (scheduleLoop_of_tick hfin htick).trans (scheduleLoop_of_finished hfin'),
    ⟨?_, ?_⟩, fun hid hw => ?_⟩
  · rw [hgant]
    exact hended.work
  · rw [hgant]
    exact hended.early
  · refine ⟨hproc.trans hid, fun p => ?_⟩
    obtain ⟨u, hu⟩ := hw.done p (hdone p)
    refine ⟨u, ?_⟩
    rwa [hgant, hobj hid]

theorem scheduleLoop_gap (ht : s.timer < totalBurst input)
    (hgap : arrivedWork input s.timer ≤ s.timer) :
    ∃ fuel, scheduleLoop input fuel s = .error .indexOutOfBounds := by
  have hnone := h.none_ready hgap
  obtain ⟨p, hrem⟩ : ∃ p, (s.objects p).remainingTime ≠ 0 := by
    by_contra hall
    have hsum := h.sum_remaining
    rw [Finset.sum_eq_zero fun p _ => not_not.mp fun hp => hall ⟨p, hp⟩] at hsum
    omega
  have hlate : s.timer < (input p).arrivalTime := not_le.mp fun hle => hrem (hnone p hle)
  obtain ⟨s', htick, htimer', hnil, harrivals, hgant, _⟩ := tick_none hburst h hnone
  refine ⟨(input p).arrivalTime - (s.timer + 1) + 1 + 1, ?_⟩
  rw [scheduleLoop_of_tick (h.not_finished hrem) htick]
  refine scheduleLoop_idle (p := p) _ hnil (by rw [harrivals, htimer']) ?_ ?_
  · rw [hgant, h.gant, htimer']
    exact Nat.lt_succ_self _
  · omega

end

theorem exists_gap (h : ¬ NoGap input) :
    ∃ t < totalBurst input, arrivedWork input t ≤ t ∧ ∀ u < t, u < arrivedWork input u := by
  have hex : ∃ t, t < totalBurst input ∧ arrivedWork input t ≤ t := by
    simpa [NoGap, arrivedWork] using h
  refine ⟨Nat.find hex, (Nat.find_spec hex).1, (Nat.find_spec hex).2, fun u hu => ?_⟩
  by_contra hle
  exact Nat.find_min hex hu ⟨hu.trans (Nat.find_spec hex).1, not_lt.mp hle⟩

/-! ### From the start -/

/-- The processes are sorted by `startScheduling` before the loop. -/
def sortedSchedule (input : Fin n → Entry) : Schedule n :=
  { schedule input with
    processes := (List.finRange n).insertionSort fun a b => (input a).arrivalTime ≤ (input b).arrivalTime }

theorem running_sortedSchedule : Running input (sortedSchedule input) := by
  refine ⟨rfl, fun p => zero_add _, fun u p hu => ?_, arrivals_schedule input, ?_, nodup_nil, fun p hp => ?_,
    fun p hlt => absurd hlt (Nat.not_lt_zero _), fun p hp => ?_⟩
  · cases hu
  · exact (perm_insertionSort _ _).length_eq.trans (length_finRange)
  · cases hp
  · cases hp

theorem waits_sortedSchedule (hburst : ∀ p, 1 ≤ (input p).burstTime) :
    Waits input (sortedSchedule input) := by
  refine ⟨fun p _ => rfl, fun p hlt => absurd hlt (Nat.not_lt_zero _), fun p h0 => ?_⟩
  have hburst := hburst p
  have h0 : (input p).burstTime = 0 := h0
  omega

theorem processes_sortedSchedule (hsorted : ∀ p q, p ≤ q → (input p).arrivalTime ≤
    (input q).arrivalTime) : (sortedSchedule input).processes = finRange n := by
  apply List.Pairwise.insertionSort_eq
  exact (pairwise_le_finRange n).imp fun h => hsorted _ _ h

theorem mapM_ok {α β : Type} {f : α → Except Error β} {g : α → β} :
    ∀ {l : List α}, (∀ a ∈ l, f a = .ok (g a)) → l.mapM f = .ok (l.map g)
  | [], _ => rfl
  | a :: l, h => by
    rw [mapM_cons, h a (by simp), mapM_ok fun b hb => h b (mem_cons_of_mem _ hb)]
    rfl

theorem solve_spec (hid : s.processes = finRange n) : solve input s = .ok ((finRange n).map fun p =>
    ((s.objects p).waitTime, (s.objects p).waitTime + (input p).burstTime)) := by
  refine mapM_ok fun p _ => ?_
  have hget : s.processes[p.val]? = some p := by simp [hid]
  rw [hget]

/-- Without a gap every process runs as often as it has to and not before it has arrived; if the
processes are entered in the order of their arrival, the wait times are right too.  With a gap the
chart is written out of range. -/
theorem scheduling_accounts (input : Fin n → Entry) (hburst : ∀ p, 1 ≤ (input p).burstTime) :
    (NoGap input → ∃ s, startScheduling input (schedule input) (totalBurst input + 1) = .ok s ∧
      (∀ p, s.gantChart.count p = (input p).burstTime) ∧ (∀ t p, s.gantChart[t]? = some p →
      (input p).arrivalTime ≤ t) ∧ ((∀ p q, p ≤ q → (input p).arrivalTime ≤ (input q).arrivalTime) →
      ∃ report, solve input s = .ok report ∧ ∀ p, ∃ waitTime, report[p.val]? = some (waitTime,
      waitTime + (input p).burstTime) ∧ Completed input s p waitTime)) ∧ (¬ NoGap input →
      ∃ fuel, startScheduling input (schedule input) fuel = .error .indexOutOfBounds) := by
  constructor
  · intro hgap
    obtain ⟨s0, hbusy, h, htimer, hwaits0⟩ :=
      scheduleLoop_busy hburst hgap (totalBurst input) running_sortedSchedule (zero_add _)
    obtain ⟨s, hrun, hended, hwaits⟩ := scheduleLoop_done hburst h htimer
    refine ⟨s, ?_, hended.work, hended.early, fun hsorted => ?_⟩
    · rw [add_comm]
      exact (hbusy 1).trans hrun
    obtain ⟨hid0, hw0⟩ := hwaits0 (processes_sortedSchedule hsorted) (waits_sortedSchedule hburst)
    obtain ⟨hid, hcompleted⟩ := hwaits hid0 hw0
    refine ⟨_, solve_spec hid, fun p => ⟨(s.objects p).waitTime, ?_, hcompleted p⟩⟩
    simp
  · intro hgap
    obtain ⟨t, ht, hle, hbusy⟩ := exists_gap hgap
    obtain ⟨s, hbusy, h, rfl, _⟩ := scheduleLoop_busy hburst hbusy t running_sortedSchedule (zero_add _)
    obtain ⟨fuel, hrun⟩ := scheduleLoop_gap hburst h ht hle
    exact ⟨_, (hbusy fuel).trans hrun⟩

def twoProcesses : Fin 2 → Entry := ![⟨0, 2, 0⟩, ⟨1, 1, 0⟩]

theorem scheduling_accounts_two : ∃ s, startScheduling twoProcesses (schedule twoProcesses) 4 =
      .ok s ∧ (∀ p, s.gantChart.count p = (twoProcesses p).burstTime) ∧ (∀ t p, s.gantChart[t]? =
      some p → (twoProcesses p).arrivalTime ≤ t) ∧ ∃ report, solve twoProcesses s = .ok report ∧
      ∀ p, ∃ waitTime, report[p.val]? = some (waitTime, waitTime + (twoProcesses p).burstTime) ∧
      Completed twoProcesses s p waitTime := by
  have hgap : NoGap twoProcesses := by
    unfold NoGap
    decide
  obtain ⟨s, hrun, hwork, hearly, hwaits⟩ := (scheduling_accounts twoProcesses (by decide)).1 hgap
  exact ⟨s, hrun, hwork, hearly, hwaits (by decide)⟩

/-- Nothing can run in the first tick. -/
def lateProcess : Fin 1 → Entry := ![⟨1, 1, 0⟩]

/-- The second process arrives first: it is the first of the sorted list. -/
def swappedProcesses : Fin 2 → Entry := ![⟨1, 1, 0⟩, ⟨0, 2, 0⟩]

theorem swapped_outcome :
    (startScheduling swappedProcesses (schedule swappedProcesses) 4).toOption.map (fun s =>
    (s.gantChart, (solve swappedProcesses s).toOption)) =
    some ([1, 1, 0], some [(0, 2), (0, 1)]) := by
  decide +kernel

/-- Process number 0 waits for one tick, and 0 is reported. -/
theorem late_and_swapped :
    startScheduling lateProcess (schedule lateProcess) 2 = .error .indexOutOfBounds ∧
      ∃ s, startScheduling swappedProcesses (schedule swappedProcesses) 4 = .ok s ∧
      solve swappedProcesses s = .ok [(0, 2), (0, 1)] ∧ Completed swappedProcesses s 0 1 := by
  refine ⟨rfl, ?_⟩
  have houtcome := swapped_outcome
  cases hrun : startScheduling swappedProcesses (schedule swappedProcesses) 4 with
  | error e =>
    rw [hrun] at houtcome
    cases houtcome
  | ok s =>
    rw [hrun] at houtcome
    obtain ⟨hgant, hsolve⟩ := Prod.mk.inj (Option.some.inj houtcome)
    cases hreport : solve swappedProcesses s with
    | error e =>
      rw [hreport] at hsolve
      cases hsolve
    | ok report =>
      rw [hreport] at hsolve
      refine ⟨s, rfl, hreport.trans (congrArg Except.ok (Option.some.inj hsolve)), 2,
        ?_, fun u' hu' => ?_, rfl⟩
      · rw [hgant]
        rfl
      · rw [hgant, getElem?_eq_none (Nat.succ_le_of_lt hu')]
        simp

end Code365.Algorithms.Sjf
