import Code365.Video.VideoCore

/-! # The resolutions that are offered

`VideoManager::getResolutionList` takes the devices that `VideoCore` found: the modes of a single
monitor, or for two monitors those of the first that the second has too, with the flags both agree
on.  A non-empty list gets its first entry flagged as best or current if no entry is.  The three
other functions read that list: all of it as `;`-terminated items, and the last entry with a flag.

For two monitors an entry is pushed for every match in the second list, so a resolution that the
second monitor lists twice is offered twice (`selected_iff`). -/

namespace Code365.Video.VideoManager

open List Text

structure DevResInfo where
  res : List Char
  flag : ℕ
deriving DecidableEq, Repr

/-- A single monitor. -/
def singleList (srcList : List ResInfo) : List DevResInfo := srcList.map fun it => ⟨it.res, it.flag⟩

/-- Two monitors. -/
def dualList (srcList0 srcList1 : List ResInfo) : List DevResInfo :=
  srcList0.flatMap fun it0 =>
    srcList1.filterMap fun it1 => if it0.res = it1.res then some ⟨it0.res, it0.flag &&& it1.flag⟩ else none

/-- `finalFlag` after all entries. -/
def finalFlag (resList : List DevResInfo) : ℕ := resList.foldl (fun flag dst => flag ||| dst.flag) 0

/-- The first entry gets a flag that no entry has. -/
def addDefault (final bit : ℕ) : List DevResInfo → List DevResInfo
  | [] => []
  | it :: resList =>
      if final &&& bit = 0 then { it with flag := it.flag ||| bit } :: resList else it :: resList

def withDefaults (resList : List DevResInfo) : List DevResInfo :=
  addDefault (finalFlag resList) devResCur (addDefault (finalFlag resList) devResBest resList)

/-- `VideoManager::getResolutionList`, from what `VideoCore::getResolutionList` returned: the return
value and `resList`. -/
def getResolutionList (ret : ℤ) (devList : List DevInfo) : ℤ × List DevResInfo :=
  if ret < 0 then (-1, [])
  else match devList with
    | [] => (0, [])
    | [dev] => (0, withDefaults (singleList dev.resList))
    | [dev0, dev1] => (0, withDefaults (dualList dev0.resList dev1.resList))
    | _ => (-1, [])

def getSupportResolution (ret : ℤ) (devList : List DevInfo) : List Char :=
  (getResolutionList ret devList).2.flatMap fun it => it.res ++ [';']

/-- The last entry with a flag. -/
def lastWith (bit : ℕ) (resList : List DevResInfo) : List Char :=
  resList.foldl (fun res it => if it.flag &&& bit ≠ 0 then it.res else res) []

def getCurrentResolution (ret : ℤ) (devList : List DevInfo) : List Char :=
  lastWith devResCur (getResolutionList ret devList).2

def getOptimumResolution (ret : ℤ) (devList : List DevInfo) : List Char :=
  lastWith devResBest (getResolutionList ret devList).2

/-- `item` is one of the `;`-terminated items of a text. -/
def IsItem (item text : List Char) : Prop := ∃ u v, text = u ++ (item ++ ';' :: v) ∧ EndsWith ';' u

/-- What is offered for the devices of a report that could be read. -/
def offered (devList : List DevInfo) : List DevResInfo := (getResolutionList 0 devList).2

/-- The list and its three readers are as they should be. -/
structure Selected (devList : List DevInfo) : Prop where
  single : ∀ dev, devList = [dev] → (offered devList).map DevResInfo.res = dev.resList.map ResInfo.res
  dual : ∀ dev0 dev1, devList = [dev0, dev1] → (offered devList).map DevResInfo.res =
    (dev0.resList.map ResInfo.res).filter fun res => res ∈ dev1.resList.map ResInfo.res
  best : offered devList ≠ [] → ∃ it ∈ offered devList, it.flag &&& devResBest ≠ 0
  cur : offered devList ≠ [] → ∃ it ∈ offered devList, it.flag &&& devResCur ≠ 0
  current : offered devList ≠ [] → IsItem (getCurrentResolution 0 devList) (getSupportResolution 0 devList)
  optimum : offered devList ≠ [] → IsItem (getOptimumResolution 0 devList) (getSupportResolution 0 devList)
  empty : offered devList = [] → getSupportResolution 0 devList = [] ∧ getCurrentResolution 0 devList = [] ∧
    getOptimumResolution 0 devList = []

/-! ### Flags -/

theorem or_and_ne_zero_iff (a b bit : ℕ) :
    (a ||| b) &&& bit ≠ 0 ↔ a &&& bit ≠ 0 ∨ b &&& bit ≠ 0 := by
  rw [Nat.and_or_distrib_right, Ne, Nat.or_eq_zero_iff, not_and_or]

theorem foldl_flag_iff (bit : ℕ) (resList : List DevResInfo) (flag : ℕ) :
    resList.foldl (fun flag dst => flag ||| dst.flag) flag &&& bit ≠ 0 ↔ flag &&& bit ≠ 0 ∨
    ∃ it ∈ resList, it.flag &&& bit ≠ 0 := by
  induction resList generalizing flag with
  | nil => simp
  | cons it resList ih =>
    rw [foldl_cons, ih, or_and_ne_zero_iff, or_assoc]
    simp only [mem_cons, exists_eq_or_imp]

theorem finalFlag_iff (bit : ℕ) (resList : List DevResInfo) :
    finalFlag resList &&& bit ≠ 0 ↔ ∃ it ∈ resList, it.flag &&& bit ≠ 0 := by
  unfold finalFlag
  rw [foldl_flag_iff]
  simp

@[simp]
theorem addDefault_res (final bit : ℕ) (resList : List DevResInfo) :
    (addDefault final bit resList).map DevResInfo.res = resList.map DevResInfo.res := by
  cases resList with
  | nil => rfl
  | cons it resList =>
    rw [addDefault]
    split <;> rfl

variable {final bit : ℕ} {resList : List DevResInfo}

theorem exists_flag_addDefault {bit' : ℕ} (h : ∃ it ∈ resList, it.flag &&& bit ≠ 0) :
    ∃ it ∈ addDefault final bit' resList, it.flag &&& bit ≠ 0 := by
  obtain ⟨it, hmem, hflag⟩ := h
  cases resList with
  | nil => cases hmem
  | cons first resList =>
    rw [addDefault]
    split
    · rcases mem_cons.mp hmem with rfl | hmem
      · exact ⟨{ it with flag := it.flag ||| bit' }, mem_cons_self,
          (or_and_ne_zero_iff _ _ _).mpr (.inl hflag)⟩
      · exact ⟨it, mem_cons_of_mem _ hmem, hflag⟩
    · exact ⟨it, hmem, hflag⟩

theorem exists_flag_of_default (hbit : bit ≠ 0) (hne : resList ≠ [])
    (h : final &&& bit ≠ 0 → ∃ it ∈ resList, it.flag &&& bit ≠ 0) :
    ∃ it ∈ addDefault final bit resList, it.flag &&& bit ≠ 0 := by
  by_cases hfinal : final &&& bit = 0
  · obtain ⟨first, resList, rfl⟩ := exists_cons_of_ne_nil hne
    refine ⟨{ first with flag := first.flag ||| bit }, ?_, (or_and_ne_zero_iff _ _ _).mpr (.inr ?_)⟩
    · rw [addDefault, if_pos hfinal]
      exact mem_cons_self
    · rwa [Nat.and_self]
  · exact exists_flag_addDefault (h hfinal)

theorem addDefault_ne_nil (h : resList ≠ []) : addDefault final bit resList ≠ [] := by
  intro he
  have hres := addDefault_res final bit resList
  rw [he] at hres
  exact h (map_eq_nil_iff.mp hres.symm)

theorem withDefaults_res (resList : List DevResInfo) :
    (withDefaults resList).map DevResInfo.res = resList.map DevResInfo.res := by
  unfold withDefaults
  simp

theorem exists_flag_withDefaults (hbit : bit = devResBest ∨ bit = devResCur)
    (h : withDefaults resList ≠ []) : ∃ it ∈ withDefaults resList, it.flag &&& bit ≠ 0 := by
  have hne : resList ≠ [] := by
    rintro rfl
    exact h rfl
  rcases hbit with rfl | rfl
  · exact exists_flag_addDefault (exists_flag_of_default (by decide) hne (finalFlag_iff _ _).mp)
  · exact exists_flag_of_default (by decide) (addDefault_ne_nil hne) fun hfinal =>
      exists_flag_addDefault ((finalFlag_iff _ _).mp hfinal)

/-! ### The readers -/

theorem foldl_lastWith (bit : ℕ) : ∀ (resList : List DevResInfo) (res : List Char),
    resList.foldl (fun res it => if it.flag &&& bit ≠ 0 then it.res else res) res ∈
    res :: resList.map DevResInfo.res
  | [], res => mem_cons_self
  | it :: resList, res => by
    have hrest := foldl_lastWith bit resList (if it.flag &&& bit ≠ 0 then it.res else res)
    rw [foldl_cons, map_cons]
    rcases mem_cons.mp hrest with heq | hmem
    · rw [heq]
      split <;> simp
    · exact mem_cons_of_mem _ (mem_cons_of_mem _ hmem)

theorem lastWith_mem :
    ∀ {resList : List DevResInfo} {res : List Char}, (∃ it ∈ resList, it.flag &&& bit ≠ 0) →
    resList.foldl (fun res it => if it.flag &&& bit ≠ 0 then it.res else res) res ∈
    resList.map DevResInfo.res
  | it :: resList, res, h => by
    rw [foldl_cons, map_cons]
    by_cases hflag : it.flag &&& bit ≠ 0
    · rw [if_pos hflag]
      exact foldl_lastWith bit resList it.res
    · obtain ⟨it', hmem, hflag'⟩ := h
      have hrest : it' ∈ resList := (mem_cons.mp hmem).resolve_left fun he => hflag (he ▸ hflag')
      exact mem_cons_of_mem _ (lastWith_mem ⟨it', hrest, hflag'⟩)

theorem endsWith_items :
    ∀ resList : List DevResInfo, EndsWith ';' (resList.flatMap fun it => it.res ++ [';'])
  | [] => .inl rfl
  | it :: resList => by
    rw [flatMap_cons]
    rcases endsWith_items resList with hnil | hends
    · rw [hnil]
      exact .inr ⟨it.res, append_nil _⟩
    · exact EndsWith.append_left hends _

theorem isItem_of_mem {res : List Char} (h : res ∈ resList.map DevResInfo.res) :
    IsItem res (resList.flatMap fun it => it.res ++ [';']) := by
  obtain ⟨it, hmem, rfl⟩ := mem_map.mp h
  obtain ⟨u, v, rfl⟩ := append_of_mem hmem
  refine ⟨u.flatMap fun it => it.res ++ [';'], v.flatMap fun it => it.res ++ [';'], ?_, endsWith_items u⟩
  simp

/-! ### Two monitors -/

theorem res_dualList (srcList0 srcList1 : List ResInfo) :
    (dualList srcList0 srcList1).map DevResInfo.res = (srcList0.map ResInfo.res).flatMap fun res =>
    List.replicate ((srcList1.map ResInfo.res).count res) res := by
  have hmatch : ∀ (it0 : ResInfo) (l : List ResInfo), (l.filterMap fun it1 =>
      if it0.res = it1.res then some (⟨it0.res, it0.flag &&& it1.flag⟩ : DevResInfo) else none).map
        DevResInfo.res = List.replicate ((l.map ResInfo.res).count it0.res) it0.res := by
    intro it0 l
    induction l with
    | nil => rfl
    | cons it1 l ih =>
      rw [filterMap_cons, map_cons, count_cons]
      by_cases hres : it0.res = it1.res
      · rw [if_pos hres, map_cons, ih, if_pos (beq_iff_eq.mpr hres.symm), replicate_succ]
      · simp [hres, Ne.symm hres, ih]
  unfold dualList
  rw [map_flatMap, flatMap_map]
  exact congrArg (fun f => srcList0.flatMap f) (funext fun it0 => hmatch it0 srcList1)

section Copies

variable {α : Type*} (times : α → ℕ)

theorem length_filter_le_copies (l : List α) : (l.filter fun a => 0 < times a).length ≤
    (l.flatMap fun a => List.replicate (times a) a).length := by
  induction l with
  | nil => exact le_refl 0
  | cons a l ih =>
    rw [filter_cons, flatMap_cons, length_append, length_replicate]
    split
    next h =>
      rw [decide_eq_true_eq] at h
      rw [length_cons]
      omega
    · omega

/-- Copies of the entries make up a selection exactly when there is at most one of each. -/
theorem copies_eq_filter_iff (l : List α) : (l.flatMap fun a => List.replicate (times a) a) =
    l.filter (fun a => 0 < times a) ↔ ∀ a ∈ l, times a ≤ 1 := by
  induction l with
  | nil => simp
  | cons a l ih =>
    have hle := length_filter_le_copies times l
    rw [forall_mem_cons, ← ih, flatMap_cons, filter_cons]
    obtain h0 | h1 | h2 : times a = 0 ∨ times a = 1 ∨ 2 ≤ times a := by omega
    · simp [h0]
    · simp [h1]
    · refine iff_of_false (fun he => ?_) fun h => absurd h.1 (by omega)
      have hlen := congrArg List.length he
      rw [if_pos (by simp; omega), length_append, length_replicate, length_cons] at hlen
      omega

end Copies

theorem dual_iff (srcList0 srcList1 : List ResInfo) : (dualList srcList0 srcList1).map
    DevResInfo.res = (srcList0.map ResInfo.res).filter (fun res => res ∈ srcList1.map ResInfo.res) ↔
    ∀ res ∈ srcList0.map ResInfo.res, (srcList1.map ResInfo.res).count res ≤ 1 := by
  rw [res_dualList, ← copies_eq_filter_iff]
  simp only [count_pos_iff]

/-! ### The selection -/

theorem offered_eq (devList : List DevInfo) :
    ∃ resList, offered devList = withDefaults resList := by
  unfold offered getResolutionList
  rw [if_neg (by decide)]
  split
  · exact ⟨[], rfl⟩
  · exact ⟨_, rfl⟩
  · exact ⟨_, rfl⟩
  · exact ⟨[], rfl⟩

theorem selected_of_dual {devList : List DevInfo} (hdual : ∀ dev0 dev1, devList = [dev0, dev1] →
    (offered devList).map DevResInfo.res = (dev0.resList.map ResInfo.res).filter fun res =>
    res ∈ dev1.resList.map ResInfo.res) : Selected devList := by
  obtain ⟨resList, heq⟩ := offered_eq devList
  have hflag : ∀ bit, bit = devResBest ∨ bit = devResCur → offered devList ≠ [] →
      ∃ it ∈ offered devList, it.flag &&& bit ≠ 0 := by
    rw [heq]
    exact fun _ => exists_flag_withDefaults
  have hbest := hflag devResBest (.inl rfl)
  have hcur := hflag devResCur (.inr rfl)
  refine ⟨?_, hdual, hbest, hcur, fun h => isItem_of_mem (lastWith_mem (hcur h)),
    fun h => isItem_of_mem (lastWith_mem (hbest h)), ?_⟩
  · rintro dev rfl
    apply (withDefaults_res _).trans
    simp [singleList, Function.comp_def]
  · intro hempty
    unfold offered at hempty
    unfold getSupportResolution getCurrentResolution getOptimumResolution
    rw [hempty]
    exact ⟨rfl, rfl, rfl⟩

/-- The selection is right exactly when, of two monitors, the second lists no resolution of the
first more than once. -/
theorem selected_iff (devList : List DevInfo) : Selected devList ↔
    ∀ dev0 dev1, devList = [dev0, dev1] →
      ∀ res ∈ dev0.resList.map ResInfo.res, (dev1.resList.map ResInfo.res).count res ≤ 1 := by
  have hoffered : ∀ dev0 dev1, (offered [dev0, dev1]).map DevResInfo.res =
      (dualList dev0.resList dev1.resList).map DevResInfo.res := fun dev0 dev1 => withDefaults_res _
  constructor
  · rintro hsel dev0 dev1 rfl
    have hdual := hsel.dual dev0 dev1 rfl
    rw [hoffered] at hdual
    exact (dual_iff _ _).mp hdual
  · intro hcount
    apply selected_of_dual
    rintro dev0 dev1 rfl
    rw [hoffered]
    exact (dual_iff _ _).mpr (hcount dev0 dev1 rfl)

/-- A report in which the second monitor lists a mode twice. -/
def modeTwice : List (List Char) :=
  ["A connected".toList, " 1024x768 60.0".toList, "B connected".toList, " 1024x768 60.0".toList,
    " 1024x768 75.0".toList]

/-- The mode is offered twice, although the first monitor has it once. -/
theorem modeTwice_not_selected : ∃ devList, Video.getResolutionList (some modeTwice) [] =
      some (0, devList) ∧ devList.length = 2 ∧ ¬ Selected devList := by
  refine ⟨[⟨['A'], [⟨"1024x768".toList, 0, [⟨"60.0".toList, 0⟩]⟩]⟩,
    ⟨['B'], [⟨"1024x768".toList, 0, [⟨"60.0".toList, 0⟩]⟩, ⟨"1024x768".toList, 0, [⟨"75.0".toList, 0⟩]⟩]⟩],
    by decide, rfl, fun hsel => ?_⟩
  have hdual := hsel.dual _ _ rfl
  revert hdual
  decide

end Code365.Video.VideoManager
