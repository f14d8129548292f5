import Code365.Lib.Run

/-! # The two tables of `exp_1` (`main.c`)

The parent draws a message, sends it through a message queue and then applies it to `localDatebase`;
the child receives the messages and applies them to `shareDatabase`.  After a `SIGTERM` each process
prints its table the next time it looks at its flag.  The child does so without emptying the
queue, so what the two print differs by the messages that are left there
(`printed_eq_iff`).

`mq_send` waits while the queue holds `maxmsg` messages and `mq_receive` while it is empty; all
messages have the same priority, so the queue is first in, first out.  An update that leaves the
range of `int` has no meaning and no successor. -/

namespace Code365.OsLesson.Exp1

open Option

abbrev MAXSIZE : ℕ := 10

structure MsgType where
  index : Fin MAXSIZE
  op : ℕ
deriving DecidableEq, Repr

abbrev Table := Fin MAXSIZE → ℤ

/-- What an operation adds to its entry; any other operation is reported and ignored. -/
def MsgType.delta (msg : MsgType) : ℤ :=
  if msg.op = 0 then -1 else if msg.op = 1 then 1 else 0

/-- The update of a table, undefined outside the range of `int`. -/
def applyMsg (table : Table) (msg : MsgType) : Option Table :=
  if -2 ^ 31 ≤ table msg.index + msg.delta ∧ table msg.index + msg.delta < 2 ^ 31 then
    some (Function.update table msg.index (table msg.index + msg.delta))
  else none

/-- Where the parent stands. -/
inductive Parent where
  /-- At the head of its loop. -/
  | send
  /-- Has sent the message and not yet applied it. -/
  | update (msg : MsgType)
  /-- In `sleep`, before the test of `iExtFlag`. -/
  | check
  /-- Has printed the table and left the queue. -/
  | printed (table : Table)
  /-- Has sent `SIGTERM` to the process group and waits for the child. -/
  | wait (table : Table)
  /-- `mq_send` failed: `exit(1)`. -/
  | failed

/-- Where the child stands. -/
inductive Child where
  /-- Before `signal`: the handler is still the one of the parent. -/
  | start
  /-- Before the test of `iExtFlag_c`. -/
  | check
  | receive
  /-- Has printed the table and left its loop. -/
  | printed (table : Table)
  /-- `mq_receive` failed: `exit(1)`. -/
  | failed

structure State where
  localDatebase : Table
  shareDatabase : Table
  /-- The message queue, the oldest message first. -/
  msgq : List MsgType
  msgCnt : ℕ
  parent : Parent
  child : Child
  iExtFlag : Bool
  iExtFlagC : Bool

/-- Equal tables and an empty queue. -/
def start (table : Table) : State :=
  { localDatebase := table, shareDatabase := table, msgq := [], msgCnt := 0, parent := .send, child := .start,
    iExtFlag := false, iExtFlagC := false }

inductive Event where
  /-- A step of the parent; `r1` and `r2` are what `rand()` returns and `ok` whether `mq_send`
  succeeds, where the step calls them. -/
  | parent (r1 r2 : ℕ) (ok : Bool)
  /-- A step of the child; `ok` is whether `mq_receive` succeeds. -/
  | child (ok : Bool)
  | sigtermParent
  | sigtermChild

/-- `SIGTERM` at the child: until `signal` is called it sets a flag that the child does not read. -/
def State.signalChild (s : State) : State :=
  match s.child with
  | .start => s
  | _ => { s with iExtFlagC := true }

def stepParent (maxmsg : ℕ) (s : State) (r1 r2 : ℕ) (ok : Bool) : Option State :=
  match s.parent with
  | .send =>
    if ¬ ok then some { s with parent := .failed }
    else if s.msgq.length < maxmsg then
      some { s with msgq := s.msgq ++ [⟨⟨r1 % MAXSIZE, Nat.mod_lt _ (by decide)⟩, r2 % 2⟩]
                    parent := .update ⟨⟨r1 % MAXSIZE, Nat.mod_lt _ (by decide)⟩, r2 % 2⟩ }
    else none
  | .update msg => (applyMsg s.localDatebase msg).map fun table =>
      { s with localDatebase := table, parent := .check }
  | .check => some { s with parent := if s.iExtFlag then .printed s.localDatebase else .send }
  | .printed table => some { s.signalChild with iExtFlag := true, parent := .wait table }
  | .wait _ => none
  | .failed => none

def stepChild (s : State) (ok : Bool) : Option State :=
  match s.child with
  | .start => some { s with child := .check }
  | .check => some { s with child := if s.iExtFlagC then .printed s.shareDatabase else .receive }
  | .receive =>
    if ¬ ok then some { s with child := .failed }
    else
      match s.msgq with
      | [] => none
      | msg :: msgq => (applyMsg s.shareDatabase msg).map fun table =>
        { s with shareDatabase := table, msgq := msgq, msgCnt := s.msgCnt + 1, child := .check }
  | .printed _ => none
  | .failed => none

/-- One step of either process or the arrival of a signal. -/
def step (maxmsg : ℕ) (s : State) : Event → Option State
  | .parent r1 r2 ok => stepParent maxmsg s r1 r2 ok
  | .child ok => stepChild s ok
  | .sigtermParent => some { s with iExtFlag := true }
  | .sigtermChild => some s.signalChild

def Next (maxmsg : ℕ) (s : State) (e : Event) (t : State) : Prop := step maxmsg s e = some t

/-! ### The balance of the tables -/

def MsgType.effect (i : Fin MAXSIZE) (msg : MsgType) : ℤ := if msg.index = i then msg.delta else 0

/-- The net effect of the queued messages on an entry. -/
def net (msgq : List MsgType) (i : Fin MAXSIZE) : ℤ := (msgq.map (MsgType.effect i)).sum

/-- The effect of the message that is sent and not yet applied by the parent. -/
def unapplied : Parent → Fin MAXSIZE → ℤ
  | .update msg, i => msg.effect i
  | _, _ => 0

def Parent.printout : Parent → Option Table
  | .printed table | .wait table => some table
  | _ => none

def Child.printout : Child → Option Table
  | .printed table => some table
  | _ => none

def Balanced (s : State) : Prop :=
  ∀ i, s.localDatebase i - s.shareDatabase i = net s.msgq i - unapplied s.parent i

/-- The balance, and that a table does not change once it is printed. -/
structure Replicated (s : State) : Prop where
  balanced : Balanced s
  parent : ∀ table, s.parent.printout = some table → table = s.localDatebase
  child : ∀ table, s.child.printout = some table → table = s.shareDatabase

theorem applyMsg_apply {table table' : Table} {msg : MsgType} (h : applyMsg table msg = some table')
    (i : Fin MAXSIZE) : table' i = table i + msg.effect i := by
  unfold applyMsg at h
  split_ifs at h
  cases h
  unfold MsgType.effect
  by_cases hi : i = msg.index
  · subst hi
    rw [Function.update_self, if_pos rfl]
  · rw [Function.update_of_ne hi, if_neg (Ne.symm hi), add_zero]

@[simp] theorem net_nil (i : Fin MAXSIZE) : net [] i = 0 := rfl

theorem net_concat (msgq : List MsgType) (msg : MsgType) (i : Fin MAXSIZE) :
    net (msgq ++ [msg]) i = net msgq i + msg.effect i := by
  simp [net]

theorem net_cons (msgq : List MsgType) (msg : MsgType) (i : Fin MAXSIZE) :
    net (msg :: msgq) i = msg.effect i + net msgq i := by
  simp [net]

variable {maxmsg : ℕ} {s t : State} {e : Event}

theorem replicated_start (table : Table) : Replicated (start table) where
  balanced i := by simp [start, net, unapplied]
  parent _ h := by cases h
  child _ h := by cases h

theorem signalChild_eq (s : State) : ∃ flag, s.signalChild = { s with iExtFlagC := flag } := by
  unfold State.signalChild
  split
  · exact ⟨s.iExtFlagC, rfl⟩
  · exact ⟨true, rfl⟩

theorem Replicated.stepParent (h : Replicated s) {r1 r2 : ℕ} {ok : Bool}
    (hs : stepParent maxmsg s r1 r2 ok = some t) : Replicated t := by
  have hb := h.balanced
  unfold Exp1.stepParent at hs
  unfold Balanced at hb
  split at hs
  next hp =>
    rw [hp] at hb
    split_ifs at hs
    · cases hs
      refine ⟨fun i => ?_, nofun, h.child⟩
      have hi := hb i
      rw [net_concat]
      simp only [unapplied] at hi ⊢
      omega
    · cases hs
      exact ⟨hb, nofun, h.child⟩
  next msg hp =>
    obtain ⟨table, ht, rfl⟩ := map_eq_some_iff.mp hs
    rw [hp] at hb
    refine ⟨fun i => ?_, nofun, h.child⟩
    have hi := hb i
    simp only [unapplied, applyMsg_apply ht i] at hi ⊢
    omega
  next hp =>
    cases hs
    rw [hp] at hb
    split
    · exact ⟨hb, fun table hv => (some.inj hv).symm, h.child⟩
    · exact ⟨hb, nofun, h.child⟩
  next table hp =>
    obtain ⟨flag, hf⟩ := signalChild_eq s
    rw [hf] at hs
    cases hs
    rw [hp] at hb
    have hparent := h.parent table (by rw [hp]; rfl)
    exact ⟨hb, fun table' hv => (some.inj hv).symm.trans hparent, h.child⟩
  · cases hs
  · cases hs

theorem Replicated.stepChild (h : Replicated s) {ok : Bool} (hs : stepChild s ok = some t) :
    Replicated t := by
  unfold Exp1.stepChild at hs
  split at hs
  · cases hs
    exact ⟨h.balanced, h.parent, nofun⟩
  · cases hs
    split
    · exact ⟨h.balanced, h.parent, fun table hv => (some.inj hv).symm⟩
    · exact ⟨h.balanced, h.parent, nofun⟩
  · split at hs
    · cases hs
      exact ⟨h.balanced, h.parent, nofun⟩
    split at hs
    · cases hs
    next msg msgq hq =>
      obtain ⟨table, ht, rfl⟩ := map_eq_some_iff.mp hs
      refine ⟨fun i => ?_, h.parent, nofun⟩
      have hi := h.balanced i
      rw [hq, net_cons] at hi
      simp only [applyMsg_apply ht i]
      omega
  · cases hs
  · cases hs

theorem Replicated.next (h : Replicated s) (hn : Next maxmsg s e t) : Replicated t := by
  unfold Next at hn
  cases e with
  | parent r1 r2 ok => exact h.stepParent hn
  | child ok => exact h.stepChild hn
  | sigtermParent =>
    cases hn
    exact ⟨h.balanced, h.parent, h.child⟩
  | sigtermChild =>
    obtain ⟨flag, hf⟩ := signalChild_eq s
    rw [step, hf] at hn
    cases hn
    exact ⟨h.balanced, h.parent, h.child⟩

/-- In every state of every run the tables differ by the messages in the queue less the one that the
parent has not applied yet; and once both processes have printed, what they printed agrees exactly
when the messages left in the queue cancel out. -/
theorem printed_eq_iff {table : Table} {es : List Event}
    (h : Run (Next maxmsg) (start table) es s) :
    Balanced s ∧ ∀ localTable shareTable, s.parent.printout = some localTable →
      s.child.printout = some shareTable → (localTable = shareTable ↔ ∀ i, net s.msgq i = 0) := by
  have hr : Replicated s := h.invariant (replicated_start table) fun _ _ _ hr hn => hr.next hn
  refine ⟨hr.balanced, fun localTable shareTable hl hs => ?_⟩
  have hunapplied : ∀ i, unapplied s.parent i = 0 := by
    intro i
    unfold unapplied
    split
    next hp =>
      rw [hp] at hl
      cases hl
    · rfl
  rw [hr.parent _ hl, hr.child _ hs, funext_iff]
  refine forall_congr' fun i => ?_
  have hb := hr.balanced i
  rw [hunapplied] at hb
  omega

/-- One message is sent and applied by the parent; both processes get `SIGTERM` before the child has
received it. -/
def earlySigterm : List Event :=
  [.parent 0 1 true, .parent 0 0 true, .child true, .sigtermParent, .sigtermChild, .parent 0 0 true,
    .child true]

theorem earlySigterm_differ :
    ∃ s localTable shareTable, Run (Next 10) (start fun _ => 0) earlySigterm s ∧ s.parent.printout =
      some localTable ∧ s.child.printout = some shareTable ∧ localTable ≠ shareTable := by
  have hend : (earlySigterm.foldlM (step 10) (start fun _ => 0)).map
      (fun s => (s.parent.printout.map (· 0), s.child.printout.map (· 0))) =
        some (some 1, some 0) := by decide +kernel
  obtain ⟨s, hs, heq⟩ := Option.map_eq_some_iff.mp hend
  rw [Prod.mk.injEq] at heq
  obtain ⟨localTable, hl, hl0⟩ := Option.map_eq_some_iff.mp heq.1
  obtain ⟨shareTable, hc, hc0⟩ := Option.map_eq_some_iff.mp heq.2
  refine ⟨s, localTable, shareTable, Run.of_foldlM (fun _ _ _ _ hst => hst) hs, hl, hc, fun h => ?_⟩
  rw [h, hc0] at hl0
  exact absurd hl0 (by decide)

/-- The child receives the message before it looks at its flag again. -/
def lateSigterm : List Event :=
  [.parent 0 1 true, .parent 0 0 true, .child true, .child true, .child true, .sigtermParent, .sigtermChild,
    .parent 0 0 true, .child true]

theorem lateSigterm_agree :
    ∃ s localTable shareTable, Run (Next 10) (start fun _ => 0) lateSigterm s ∧ s.parent.printout =
      some localTable ∧ s.child.printout = some shareTable ∧ localTable = shareTable := by
  have hend : (lateSigterm.foldlM (step 10) (start fun _ => 0)).map
      (fun s => (s.parent.printout.isSome, s.child.printout.isSome, s.msgq)) = some (true, true, []) := by
    decide +kernel
  obtain ⟨s, hs, heq⟩ := Option.map_eq_some_iff.mp hend
  simp only [Prod.mk.injEq] at heq
  obtain ⟨localTable, hl⟩ := Option.isSome_iff_exists.mp heq.1
  obtain ⟨shareTable, hc⟩ := Option.isSome_iff_exists.mp heq.2.1
  have hr : Run (Next 10) (start fun _ => 0) lateSigterm s := Run.of_foldlM (fun _ _ _ _ hst => hst) hs
  refine ⟨s, localTable, shareTable, hr, hl, hc, ((printed_eq_iff hr).2 _ _ hl hc).mpr fun i => ?_⟩
  rw [heq.2.2, net_nil]

end Code365.OsLesson.Exp1
