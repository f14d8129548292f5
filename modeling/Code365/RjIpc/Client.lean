import Code365.Lib.Run
import Code365.Lib.Ledger

/-! # `RjClient`: the descriptors of a client

Model of `RjClient` (`interfaces/network/rj_ipc.cpp`) as far as its descriptors go: the
socket `mSockFd`, the pair `mExitSockets`, and what the constructor, `attach`, `detach`, `reconnect`
and the destructor open, close and send.  A `Ledger` keeps account of it.  The kernel never hands
out a number that the client still holds, but it may hand out one that the client has
closed.

`tidy_of_careful_run`: in a life whose steps are all `Careful` no number is closed or used after it
was closed, and nothing is left open at the end; a life that ends so has been careful all along. -/

namespace Code365.RjIpc

/-- What `socket` and `bind` return in `createSocket`. -/
inductive SocketResult where
  | failed
  | unbound (fd : ℤ)
  | bound (fd : ℤ)
deriving DecidableEq, Repr

/-- One pass of the loop of `connectService`: `connect` fails, it succeeds and no PONG comes, or
a PONG comes. -/
inductive Attempt where
  | refused
  | silent
  | pong
deriving DecidableEq, Repr

/-- Before the constructor, between two operations, inside a loop of `connectService`
that has not ended, after the destructor. -/
inductive Phase where
  | raw
  | alive
  | waiting
  | gone
deriving DecidableEq, Repr

structure Client where
  phase : Phase
  mSockFd : ℤ
  mConnected : Bool
  mAttach : Bool
  mThread : Bool
  mExitSockets : ℤ × ℤ
  ledger : Ledger

def TRY_CONNECT_TIME : ℤ := 5

/-- The number that `createSocket` returns; when `bind` fails that is `-1`, and the socket stays
open. -/
def createSocket : SocketResult → Ledger → ℤ × Ledger
  | .failed, l => (-1, l)
  | .unbound fd, l => (-1, l.obtain fd)
  | .bound fd, l => (fd, l.obtain fd)

/-- The loop of `connectService`, which sends PING over every connection; no result means that it is
still trying. -/
def connectLoop (sfd timeout : ℤ) : ℤ → List Attempt → Ledger → Option Bool × Ledger
  | _, [], l => (none, l)
  | _, .pong :: _, l => (some true, l.send sfd)
  | try_time, .silent :: as, l => connectLoop sfd timeout try_time as (l.send sfd)
  | try_time, .refused :: as, l =>
    if 0 < timeout then
      if try_time - 1 ≤ 0 then (some false, l) else connectLoop sfd timeout (try_time - 1) as l
    else connectLoop sfd timeout try_time as l

def connectService (sfd timeout : ℤ) (attempts : List Attempt) (l : Ledger) : Option Bool × Ledger :=
  connectLoop sfd timeout timeout attempts l

namespace Client

/-- The members as the constructor finds them. -/
def init : Client := ⟨.raw, -1, false, false, false, (-1, -1), .empty⟩

/-- The common end of the constructor and of `reconnect`. -/
def establish (c : Client) (time : ℤ) (sock : SocketResult) (attempts : List Attempt) : Client :=
  let s := createSocket sock c.ledger
  let r := connectService s.1 time attempts s.2
  { c with
    phase := if r.1.isSome then .alive else .waiting
    mSockFd := s.1
    mConnected := r.1 == some true
    ledger := r.2 }

/-- The constructor; `rj_assert` only aborts a debug run. -/
def construct (c : Client) (sock : SocketResult) (attempts : List Attempt) : Client :=
  c.establish TRY_CONNECT_TIME sock attempts

/-- `attach`, with the numbers that `socketpair` hands out if it succeeds. -/
def attach (c : Client) (pair : Option (ℤ × ℤ)) : ℤ × Client :=
  if c.mConnected then
    let l := c.ledger.send c.mSockFd
    let c := match pair with
      | some p => { c with mExitSockets := p, ledger := (l.obtain p.1).obtain p.2 }
      | none => { c with ledger := l }
    (0, { c with mThread := true, mAttach := true })
  else (-1, c)

/-- `detach`: the thread is told to stop, the socket is closed, and DETACH is sent on it. -/
def detach (c : Client) : ℤ × Client :=
  let l := if c.mThread then c.ledger.send c.mExitSockets.1 else c.ledger
  let l := if 0 ≤ c.mSockFd then l.close c.mSockFd else l
  let l := if c.mConnected then l.send c.mSockFd else l
  (0, { c with mThread := false, mExitSockets := (-1, -1), mAttach := false, ledger := l })

/-- The socket of before is closed. -/
def hangUp (c : Client) : Client :=
  if 0 < c.mSockFd then { c with mSockFd := -1, ledger := c.ledger.close c.mSockFd } else c

def reconnect (c : Client) (time : ℤ) (sock : SocketResult) (attempts : List Attempt) : Client :=
  ({ c with mConnected := false } : Client).hangUp.establish time sock attempts

def destruct (c : Client) : Client :=
  let c := if c.mAttach then c.detach.2 else c
  { c.hangUp with phase := .gone }

inductive Op where
  | construct (sock : SocketResult) (attempts : List Attempt)
  | attach (pair : Option (ℤ × ℤ))
  | detach
  | reconnect (time : ℤ) (sock : SocketResult) (attempts : List Attempt)
  | destruct

def step (c : Client) : Op → Client
  | .construct sock attempts => c.construct sock attempts
  | .attach pair => (c.attach pair).2
  | .detach => c.detach.2
  | .reconnect time sock attempts => c.reconnect time sock attempts
  | .destruct => c.destruct

/-- What the kernel may answer to `createSocket` and the `connect` calls after it: a number that
is not held, and no connection without a bound socket. -/
def SocketPossible (l : Ledger) : SocketResult → List Attempt → Prop
  | .failed, attempts => ∀ a ∈ attempts, a = .refused
  | .unbound fd, attempts => 0 ≤ fd ∧ fd ∉ l.held ∧ ∀ a ∈ attempts, a = .refused
  | .bound fd, _ => 0 ≤ fd ∧ fd ∉ l.held

/-- The operation can be called, and the kernel can answer so. -/
def Possible (c : Client) : Op → Prop
  | .construct sock attempts => c.phase = .raw ∧ SocketPossible c.ledger sock attempts
  | .attach pair => c.phase = .alive ∧ ∀ p ∈ pair,
      0 ≤ p.1 ∧ 0 ≤ p.2 ∧ p.1 ≠ p.2 ∧ p.1 ∉ c.ledger.held ∧ p.2 ∉ c.ledger.held
  | .detach => c.phase = .alive
  | .reconnect _ sock attempts => c.phase = .alive ∧ SocketPossible c.hangUp.ledger sock attempts
  | .destruct => c.phase = .alive

def Next (c : Client) (op : Op) (d : Client) : Prop := c.Possible op ∧ d = c.step op

/-- No number was used after it was closed, and at the end of the destructor all are closed. -/
def Tidy (c : Client) : Prop := c.ledger.misused = false ∧ (c.phase = .gone → c.ledger.held = ∅)

/-- `detach` finds no socket; or it finds number 0, still open, and sends nothing. -/
def DetachCareful (c : Client) : Prop :=
  c.mSockFd < 0 ∨ c.mSockFd = 0 ∧ c.mConnected = false ∧ c.mSockFd ∈ c.ledger.held

/-- The steps that do not reach a defect: `bind` does not fail, `socketpair` does not succeed,
`detach` (called by the destructor too) finds no socket to close, and number 0, which `reconnect`
and the destructor do not close, is not open when they run. -/
def Careful (c : Client) : Op → Prop
  | .construct sock _ => ∀ fd, sock ≠ .unbound fd
  | .attach pair => c.mConnected → pair = none
  | .detach => c.DetachCareful
  | .reconnect _ sock _ => (∀ fd, sock ≠ .unbound fd) ∧ (c.mSockFd = 0 → c.mSockFd ∉ c.ledger.held)
  | .destruct => if c.mAttach then c.DetachCareful else c.mSockFd = 0 → c.mSockFd ∉ c.ledger.held

/-! ### What the loop of `connectService` does -/

section connect
variable (sfd timeout : ℤ)

/-- The loop only sends, and sending twice is sending once. -/
theorem connectLoop_ledger (as : List Attempt) :
    ∀ (try_time : ℤ) (l : Ledger), (connectLoop sfd timeout try_time as l).2 = l ∨
    (connectLoop sfd timeout try_time as l).2 = l.send sfd := by
  induction as with
  | nil => exact fun _ _ => .inl rfl
  | cons a as ih =>
    intro try_time l
    cases a with
    | refused =>
      simp only [connectLoop]
      split_ifs
      · exact .inl rfl
      · exact ih _ l
      · exact ih _ l
    | silent =>
      have h := ih try_time (l.send sfd)
      rw [Ledger.send_send, or_self] at h
      exact .inr h
    | pong => exact .inr rfl

theorem not_connected_of_refused (as : List Attempt) : ∀ (try_time : ℤ) (l : Ledger),
    (∀ a ∈ as, a = .refused) → (connectLoop sfd timeout try_time as l).1 ≠ some true := by
  induction as with
  | nil => simp [connectLoop]
  | cons a as ih =>
    intro try_time l h
    rw [List.forall_mem_cons] at h
    obtain ⟨rfl, h⟩ := h
    simp only [connectLoop]
    split_ifs
    · simp
    · exact ih _ l h
    · exact ih _ l h

end connect

/-! ### Invariants of every life -/

/-- The numbers of a ledger are numbers of descriptors. -/
def NonNeg (l : Ledger) : Prop := ∀ n, n ∈ l.held ∨ n ∈ l.dead → 0 ≤ n

variable {l : Ledger}

theorem NonNeg.obtain {fd : ℤ} (h : NonNeg l) (hfd : 0 ≤ fd) : NonNeg (l.obtain fd) := by
  intro n hn
  rw [Ledger.mem_held_obtain, Ledger.mem_dead_obtain] at hn
  rcases hn with (rfl | hn) | hn
  · exact hfd
  · exact h n (.inl hn)
  · exact h n (.inr hn.2)

/-- The socket number is one that the client obtained. -/
structure Known (c : Client) : Prop where
  nonneg : NonNeg c.ledger
  sock : 0 ≤ c.mSockFd → c.mSockFd ∈ c.ledger.held ∨ c.mSockFd ∈ c.ledger.dead
  raw : c.phase = .raw → c.mSockFd < 0

variable {c : Client} {time : ℤ} {sock : SocketResult} {attempts : List Attempt}
  {pair : Option (ℤ × ℤ)} {op : Op} {n : ℤ}

@[simp] theorem establish_mSockFd :
    (c.establish time sock attempts).mSockFd = (createSocket sock c.ledger).1 := rfl

theorem establish_ledger (c : Client) (time : ℤ) (sock : SocketResult) (attempts : List Attempt) :
    (c.establish time sock attempts).ledger = (createSocket sock c.ledger).2 ∨
    (c.establish time sock attempts).ledger =
    (createSocket sock c.ledger).2.send (createSocket sock c.ledger).1 :=
  connectLoop_ledger _ _ _ _ _

@[simp] theorem establish_held :
    (c.establish time sock attempts).ledger.held = (createSocket sock c.ledger).2.held := by
  rcases establish_ledger c time sock attempts with h | h <;> simp [h]

@[simp] theorem establish_dead :
    (c.establish time sock attempts).ledger.dead = (createSocket sock c.ledger).2.dead := by
  rcases establish_ledger c time sock attempts with h | h <;> simp [h]

@[simp] theorem createSocket_misused (l : Ledger) :
    (createSocket sock l).2.misused = l.misused := by
  cases sock <;> rfl

theorem mem_held_createSocket (h : n ∈ l.held) : n ∈ (createSocket sock l).2.held := by
  cases sock <;> simp [createSocket, h]

theorem createSocket_notMem_dead (hl : ∀ n ∈ l.dead, 0 ≤ n) :
    (createSocket sock l).1 ∉ (createSocket sock l).2.dead := by
  cases sock with
  | failed => exact fun h => absurd (hl _ h) (by simp [createSocket])
  | unbound fd =>
    intro h
    simp only [createSocket, Ledger.mem_dead_obtain] at h
    exact absurd (hl _ h.2) (by decide)
  | bound fd => simp [createSocket]

theorem establish_misused (hl : ∀ n ∈ c.ledger.dead, 0 ≤ n) :
    (c.establish time sock attempts).ledger.misused = c.ledger.misused := by
  rw [Bool.eq_iff_iff]
  rcases establish_ledger c time sock attempts with h | h <;>
    simp [h, createSocket_notMem_dead hl]

theorem establish_phase : (c.establish time sock attempts).phase = .alive ∨
    (c.establish time sock attempts).phase = .waiting := by
  unfold establish
  simp only
  split_ifs <;> simp

theorem Known.establish (h : NonNeg c.ledger) (hp : SocketPossible c.ledger sock attempts) :
    (c.establish time sock attempts).Known := by
  refine ⟨?_, ?_, ?_⟩
  · intro n hn
    rw [establish_held, establish_dead] at hn
    cases sock with
    | failed => exact h n hn
    | unbound fd | bound fd => exact h.obtain hp.1 n hn
  · intro h0
    cases sock with
    | failed | unbound fd => simp [createSocket] at h0
    | bound fd => simp [createSocket]
  · intro hr
    rcases @establish_phase c time sock attempts with hp | hp <;> rw [hp] at hr <;> cases hr

/-! ### What the operations do to the ledger -/

theorem mem_held_hangUp :
    n ∈ c.hangUp.ledger.held ↔ n ∈ c.ledger.held ∧ ¬ (0 < c.mSockFd ∧ n = c.mSockFd) := by
  unfold hangUp
  split_ifs with h
  · simp [h, and_comm]
  · simp [h]

theorem mem_dead_hangUp :
    n ∈ c.hangUp.ledger.dead ↔ n ∈ c.ledger.dead ∨ 0 < c.mSockFd ∧ n = c.mSockFd := by
  unfold hangUp
  split_ifs with h
  · simp [h, or_comm]
  · simp [h]

theorem misused_hangUp : c.hangUp.ledger.misused = true ↔
    c.ledger.misused = true ∨ 0 < c.mSockFd ∧ c.mSockFd ∈ c.ledger.dead := by
  unfold hangUp
  split_ifs with h
  · simp [h]
  · simp [h]

theorem mem_held_detach :
    n ∈ c.detach.2.ledger.held ↔ n ∈ c.ledger.held ∧ ¬ (0 ≤ c.mSockFd ∧ n = c.mSockFd) := by
  unfold detach
  by_cases h : 0 ≤ c.mSockFd <;> cases c.mThread <;> cases c.mConnected <;> simp [h, and_comm]

theorem mem_dead_detach :
    n ∈ c.detach.2.ledger.dead ↔ n ∈ c.ledger.dead ∨ 0 ≤ c.mSockFd ∧ n = c.mSockFd := by
  unfold detach
  by_cases h : 0 ≤ c.mSockFd <;> cases c.mThread <;> cases c.mConnected <;> simp [h, or_comm]

/-- With a socket, `detach` misuses its number if it was closed before or if there is DETACH to
send. -/
theorem misused_detach : c.detach.2.ledger.misused = true ↔ (c.ledger.misused = true ∨ c.mThread =
    true ∧ c.mExitSockets.1 ∈ c.ledger.dead) ∨ if 0 ≤ c.mSockFd then c.mSockFd ∈ c.ledger.dead ∨
    c.mConnected = true else c.mConnected = true ∧ c.mSockFd ∈ c.ledger.dead := by
  unfold detach
  by_cases h : 0 ≤ c.mSockFd <;> cases c.mThread <;> cases c.mConnected <;> simp [h, or_assoc]

theorem mem_held_attach : n ∈ (c.attach pair).2.ledger.held ↔
    n ∈ c.ledger.held ∨ c.mConnected = true ∧ ∃ p ∈ pair, n = p.1 ∨ n = p.2 := by
  unfold attach
  cases c.mConnected <;> cases pair <;> simp
  tauto

theorem misused_attach : (c.attach pair).2.ledger.misused = true ↔
    c.ledger.misused = true ∨ c.mConnected = true ∧ c.mSockFd ∈ c.ledger.dead := by
  unfold attach
  cases c.mConnected <;> cases pair <;> simp

@[simp] theorem mSockFd_attach (pair : Option (ℤ × ℤ)) : (c.attach pair).2.mSockFd = c.mSockFd := by
  unfold attach
  cases c.mConnected <;> cases pair <;> rfl

@[simp] theorem mSockFd_detach : c.detach.2.mSockFd = c.mSockFd := rfl

theorem hangUp_ledger_disconnected :
    ({ c with mConnected := false } : Client).hangUp.ledger = c.hangUp.ledger := by
  unfold hangUp
  split_ifs <;> rfl

theorem NonNeg.hangUp (h : NonNeg c.ledger) : NonNeg c.hangUp.ledger := by
  intro n hn
  rw [mem_held_hangUp, mem_dead_hangUp] at hn
  rcases hn with hn | hn | ⟨h0, rfl⟩
  · exact h n (.inl hn.1)
  · exact h n (.inr hn)
  · exact h0.le

theorem Known.attach (h : c.Known) (hp : ∀ p ∈ pair, 0 ≤ p.1 ∧ 0 ≤ p.2) :
    (c.attach pair).2.Known := by
  unfold Client.attach
  split_ifs with hc
  · cases pair with
    | none => exact ⟨h.nonneg, h.sock, h.raw⟩
    | some p =>
      obtain ⟨h1, h2⟩ := hp p rfl
      have hs : NonNeg (c.ledger.send c.mSockFd) := h.nonneg
      refine ⟨(hs.obtain h1).obtain h2, ?_, h.raw⟩
      intro h0
      have := h.sock h0
      simp only [Ledger.mem_held_obtain, Ledger.mem_dead_obtain, Ledger.held_send, Ledger.dead_send]
      tauto
  · exact h

theorem Known.detach (h : c.Known) : c.detach.2.Known := by
  refine ⟨?_, ?_, h.raw⟩
  · intro n hn
    rw [mem_held_detach, mem_dead_detach] at hn
    rcases hn with hn | hn | ⟨h0, rfl⟩
    · exact h.nonneg n (.inl hn.1)
    · exact h.nonneg n (.inr hn)
    · exact h0
  · intro h0
    rw [mSockFd_detach, mem_dead_detach]
    exact .inr (.inr ⟨h0, rfl⟩)

theorem known_init :
    init.Known := ⟨by simp [NonNeg, init, Ledger.empty], by simp [init], by simp [init]⟩

theorem Known.step (h : c.Known) (hp : c.Possible op) (hd : op ≠ .destruct) :
    (c.step op).Known := by
  cases op with
  | construct sock attempts => exact Known.establish h.nonneg hp.2
  | attach pair => exact h.attach fun p hpp => ⟨(hp.2 p hpp).1, (hp.2 p hpp).2.1⟩
  | detach => exact h.detach
  | reconnect time sock attempts =>
    apply Known.establish
    · rw [hangUp_ledger_disconnected]
      exact h.nonneg.hangUp
    · rw [hangUp_ledger_disconnected]
      exact hp.2
  | destruct => exact absurd rfl hd

/-! ### Careful lives -/

/-- While the steps are careful the client holds its socket at most, and holds it when the number is
positive or the connection stands. -/
structure Sound (c : Client) : Prop where
  clean : c.ledger.misused = false
  only : ∀ n ∈ c.ledger.held, n = c.mSockFd
  sock : 0 < c.mSockFd → c.mSockFd ∈ c.ledger.held
  connected : c.mConnected = true → c.mSockFd ∈ c.ledger.held
  pair : c.mExitSockets.1 = -1

theorem Sound.held_eq_empty (h : c.Sound) (hs : c.mSockFd ∉ c.ledger.held) : c.ledger.held = ∅ := by
  rw [Finset.eq_empty_iff_forall_notMem]
  intro n hn
  rw [← h.only n hn] at hs
  exact hs hn

theorem Known.notMem_held_of_neg (h : c.Known) (hs : c.mSockFd < 0) : c.mSockFd ∉ c.ledger.held :=
  fun hm => absurd (h.nonneg _ (.inl hm)) (by omega)

theorem Known.notMem_dead_of_neg (h : c.Known) (hn : n < 0) : n ∉ c.ledger.dead :=
  fun hm => absurd (h.nonneg _ (.inr hm)) (by omega)

theorem sound_init :
    init.Sound := ⟨rfl, by simp [init, Ledger.empty], by simp [init], by simp [init], rfl⟩

theorem Sound.establish (hclean : c.ledger.misused = false) (hheld : c.ledger.held = ∅)
    (hpair : c.mExitSockets.1 = -1) (hn : NonNeg c.ledger)
    (hp : SocketPossible c.ledger sock attempts) (hc : ∀ fd, sock ≠ .unbound fd) :
    (c.establish time sock attempts).Sound := by
  have hmis : (c.establish time sock attempts).ledger.misused = false := by
    rw [establish_misused fun n hd => hn n (.inr hd), hclean]
  cases sock with
  | unbound fd => exact absurd rfl (hc fd)
  | failed =>
    refine ⟨hmis, ?_, ?_, ?_, hpair⟩
    · simp [createSocket, hheld]
    · simp [createSocket]
    · intro hcon
      have hr := not_connected_of_refused (-1) time attempts time c.ledger hp
      exact absurd (beq_iff_eq.mp hcon) hr
  | bound fd =>
    refine ⟨hmis, ?_, ?_, ?_, hpair⟩ <;> simp [createSocket, hheld]

/-- The socket of before is closed by `reconnect` and the destructor, unless its number is 0. -/
theorem Sound.hangUp (h : c.Sound) (hk : c.Known) (h0 : c.mSockFd = 0 → c.mSockFd ∉ c.ledger.held) :
    c.hangUp.ledger.misused = false ∧ c.hangUp.ledger.held = ∅ := by
  constructor
  · rw [Bool.eq_false_iff, Ne, misused_hangUp, not_or, h.clean]
    exact ⟨by decide, fun hd => c.ledger.apart _ (h.sock hd.1) hd.2⟩
  · rw [Finset.eq_empty_iff_forall_notMem]
    intro n hn
    rw [mem_held_hangUp] at hn
    obtain rfl := h.only n hn.1
    have := hk.nonneg _ (.inl hn.1)
    rcases lt_or_eq_of_le this with hlt | heq
    · exact hn.2 ⟨hlt, rfl⟩
    · exact h0 heq.symm hn.1

theorem Sound.detach (h : c.Sound) (hk : c.Known) (hc : c.DetachCareful) : c.detach.2.Sound := by
  have hcon : c.mConnected = false := by
    rcases hc with hlt | ⟨-, hcon, -⟩
    · rw [Bool.eq_false_iff]
      exact fun hcon => hk.notMem_held_of_neg hlt (h.connected hcon)
    · exact hcon
  have hle : c.mSockFd ≤ 0 := by
    rcases hc with hlt | ⟨heq, -, -⟩ <;> omega
  refine ⟨?_, ?_, ?_, ?_, rfl⟩
  · rw [Bool.eq_false_iff, Ne, misused_detach, h.pair, h.clean, hcon]
    have hexit : (-1 : ℤ) ∉ c.ledger.dead := hk.notMem_dead_of_neg (by decide)
    have hsock : 0 ≤ c.mSockFd → c.mSockFd ∉ c.ledger.dead := by
      intro h0
      rcases hc with hlt | ⟨-, -, hm⟩
      · omega
      · exact c.ledger.apart _ hm
    split_ifs with h0
    · simp [hexit, hsock h0]
    · simp [hexit]
  · intro n hn
    rw [mem_held_detach] at hn
    exact h.only n hn.1
  · rw [mSockFd_detach]
    omega
  · intro hcon'
    exact absurd (hcon.symm.trans hcon') (by decide)

theorem Sound.attach (h : c.Sound) (hc : c.mConnected → pair = none) : (c.attach pair).2.Sound := by
  unfold Client.attach
  split_ifs with hcon
  · obtain rfl := hc hcon
    refine ⟨?_, h.only, h.sock, h.connected, h.pair⟩
    rw [Bool.eq_false_iff, Ne, Ledger.misused_send, not_or, h.clean]
    exact ⟨by decide, c.ledger.apart _ (h.connected hcon)⟩
  · exact h

theorem Sound.step (h : c.Sound) (hk : c.Known) (hp : c.Possible op) (hc : c.Careful op)
    (hd : op ≠ .destruct) : (c.step op).Sound := by
  cases op with
  | construct sock attempts =>
    exact Sound.establish h.clean (h.held_eq_empty (hk.notMem_held_of_neg (hk.raw hp.1))) h.pair
      hk.nonneg hp.2 hc
  | attach pair => exact h.attach hc
  | detach => exact h.detach hk hc
  | reconnect time sock attempts =>
    obtain ⟨h1, h2⟩ := h.hangUp hk hc.2
    have hpair : ({ c with mConnected := false } : Client).hangUp.mExitSockets.1 = -1 := by
      unfold Client.hangUp
      split_ifs <;> exact h.pair
    apply Sound.establish _ _ hpair _ _ hc.1 <;> rw [hangUp_ledger_disconnected]
    · exact h1
    · exact h2
    · exact hk.nonneg.hangUp
    · exact hp.2
  | destruct => exact absurd rfl hd

theorem Sound.destruct (h : c.Sound) (hk : c.Known) (hc : c.Careful .destruct) :
    c.destruct.Tidy := by
  unfold Client.destruct Tidy
  unfold Careful at hc
  by_cases ha : c.mAttach
  · rw [if_pos ha] at hc
    simp only [ha, if_true]
    have h0 : c.detach.2.mSockFd = 0 → c.detach.2.mSockFd ∉ c.detach.2.ledger.held := by
      intro h0 hm
      rw [mem_held_detach] at hm
      exact hm.2 ⟨h0.ge, rfl⟩
    obtain ⟨h1, h2⟩ := (h.detach hk hc).hangUp hk.detach h0
    exact ⟨h1, fun _ => h2⟩
  · rw [if_neg ha] at hc
    simp only [ha]
    obtain ⟨h1, h2⟩ := h.hangUp hk hc
    exact ⟨h1, fun _ => h2⟩

/-! ### Careless lives -/

/-- A fault was made, a descriptor is held that the client no longer knows, or the socket number is
closed and will be closed again. -/
def Doomed (c : Client) : Prop :=
  c.ledger.misused = true ∨ (∃ n ∈ c.ledger.held, n ≠ c.mSockFd) ∨ 0 < c.mSockFd ∧ c.mSockFd ∈ c.ledger.dead

theorem doomed_establish (hn : NonNeg c.ledger) (hp : SocketPossible c.ledger sock attempts)
    (h : c.ledger.misused = true ∨ (∃ n, n ∈ c.ledger.held) ∨ ∃ fd, sock = .unbound fd) :
    (c.establish time sock attempts).Doomed := by
  rcases h with h | ⟨n, h⟩ | ⟨fd, rfl⟩
  · exact .inl (by rw [establish_misused fun n hd => hn n (.inr hd), h])
  · refine .inr (.inl ⟨n, ?_, ?_⟩)
    · rw [establish_held]
      exact mem_held_createSocket h
    · rintro rfl
      cases sock with
      | failed | unbound fd => exact absurd (hn _ (.inl h)) (by simp [createSocket])
      | bound fd => exact hp.2 h
  · refine .inr (.inl ⟨fd, ?_, ?_⟩)
    · simp [createSocket]
    · have := hp.1
      simp only [establish_mSockFd, createSocket]
      omega

/-- A number in `Doomed`'s sense is a fault once the socket is closed or the client forgets it. -/
theorem Doomed.hangUp (h : c.Doomed) :
    c.hangUp.ledger.misused = true ∨ ∃ n, n ∈ c.hangUp.ledger.held := by
  rcases h with h | ⟨n, hn, hne⟩ | h
  · exact .inl (misused_hangUp.mpr (.inl h))
  · exact .inr ⟨n, mem_held_hangUp.mpr ⟨hn, fun hs => hne hs.2⟩⟩
  · exact .inl (misused_hangUp.mpr (.inr h))

theorem Doomed.detach (h : c.Doomed) : c.detach.2.Doomed := by
  rcases h with h | ⟨n, hn, hne⟩ | h
  · exact .inl (misused_detach.mpr (.inl (.inl h)))
  · exact .inr (.inl ⟨n, mem_held_detach.mpr ⟨hn, fun hs => hne hs.2⟩, hne⟩)
  · refine .inl (misused_detach.mpr (.inr ?_))
    rw [if_pos h.1.le]
    exact .inl h.2

/-- `detach` with a socket to close dooms the client, for the number is kept and closed again. -/
theorem doomed_detach (hk : c.Known) (h : ¬ c.DetachCareful) : c.detach.2.Doomed := by
  unfold DetachCareful at h
  push Not at h
  obtain ⟨h0, h⟩ := h
  by_cases hm : c.mSockFd ∈ c.ledger.dead ∨ c.mConnected = true
  · refine .inl (misused_detach.mpr (.inr ?_))
    rw [if_pos h0]
    exact hm
  rw [not_or, Bool.not_eq_true] at hm
  have hne : c.mSockFd ≠ 0 := fun h1 => (hk.sock h0).elim (h h1 hm.2) hm.1
  refine .inr (.inr ⟨?_, ?_⟩)
  · rw [mSockFd_detach]
    omega
  · rw [mSockFd_detach, mem_dead_detach]
    exact .inr ⟨h0, rfl⟩

theorem Doomed.attach (h : c.Doomed) : (c.attach pair).2.Doomed := by
  by_cases hc : c.mConnected
  · rcases h with h | ⟨n, hn, hne⟩ | h
    · exact .inl (misused_attach.mpr (.inl h))
    · exact .inr (.inl ⟨n, mem_held_attach.mpr (.inl hn), by rwa [mSockFd_attach]⟩)
    · exact .inl (misused_attach.mpr (.inr ⟨hc, h.2⟩))
  · have : (c.attach pair).2 = c := by
      unfold Client.attach
      rw [if_neg hc]
    rwa [this]

theorem doomed_attach {p : ℤ × ℤ} (hc : c.mConnected) (hp : p.1 ≠ p.2) :
    (c.attach (some p)).2.Doomed := by
  by_cases h1 : p.1 = c.mSockFd
  · refine .inr (.inl ⟨p.2, mem_held_attach.mpr (.inr ⟨hc, p, rfl, .inr rfl⟩), ?_⟩)
    rw [mSockFd_attach, ← h1]
    exact hp.symm
  · refine .inr (.inl ⟨p.1, mem_held_attach.mpr (.inr ⟨hc, p, rfl, .inl rfl⟩), ?_⟩)
    rwa [mSockFd_attach]

theorem doomed_step (hk : c.Known) (hp : c.Possible op) (hd : op ≠ .destruct)
    (h : c.Doomed ∨ ¬ c.Careful op) : (c.step op).Doomed := by
  cases op with
  | construct sock attempts =>
    apply doomed_establish hk.nonneg hp.2
    rcases h with (h | ⟨n, hn, -⟩ | h) | h
    · exact .inl h
    · exact .inr (.inl ⟨n, hn⟩)
    · exact absurd (hk.raw hp.1) (by omega)
    · unfold Careful at h
      push Not at h
      exact .inr (.inr h)
  | attach pair =>
    rcases h with h | h
    · exact h.attach
    · unfold Careful at h
      push Not at h
      obtain ⟨hc, hpair⟩ := h
      obtain ⟨p, rfl⟩ := Option.ne_none_iff_exists'.mp hpair
      exact doomed_attach hc (hp.2 p rfl).2.2.1
  | detach =>
    rcases h with h | h
    · exact h.detach
    · exact doomed_detach hk h
  | reconnect time sock attempts =>
    apply doomed_establish
    · rw [hangUp_ledger_disconnected]
      exact hk.nonneg.hangUp
    · rw [hangUp_ledger_disconnected]
      exact hp.2
    · rw [hangUp_ledger_disconnected]
      rcases h with h | h
      · exact h.hangUp.imp_right .inl
      unfold Careful at h
      rw [not_and_or] at h
      rcases h with h | h
      · push Not at h
        exact .inr (.inr h)
      · push Not at h
        refine .inr (.inl ⟨c.mSockFd, mem_held_hangUp.mpr ⟨h.2, fun hs => ?_⟩⟩)
        omega
  | destruct => exact absurd rfl hd

theorem not_tidy_destruct (hk : c.Known) (h : c.Doomed ∨ ¬ c.Careful .destruct) :
    ¬ c.destruct.Tidy := by
  suffices hs : c.destruct.ledger.misused = true ∨ ∃ n, n ∈ c.destruct.ledger.held by
    rintro ⟨h1, h2⟩
    rcases hs with hs | ⟨n, hn⟩
    · rw [h1] at hs
      cases hs
    · rw [h2 rfl] at hn
      cases hn
  unfold Careful at h
  unfold Client.destruct
  by_cases ha : c.mAttach
  · rw [if_pos ha] at h
    simp only [ha, if_true]
    rcases h with h | h
    · exact h.detach.hangUp
    · exact (doomed_detach hk h).hangUp
  · rw [if_neg ha] at h
    simp only [ha]
    rcases h with h | h
    · exact h.hangUp
    · push Not at h
      refine .inr ⟨c.mSockFd, mem_held_hangUp.mpr ⟨h.2, fun hs => ?_⟩⟩
      omega

/-! ### Whole lives -/

section lives
variable {d : Client} {ops : List Op}

theorem not_possible_of_gone (h : c.phase = .gone) : ¬ c.Possible op := by
  cases op <;> simp [Possible, h]

theorem step_phase (hp : c.Possible op) (hd : op ≠ .destruct) : (c.step op).phase ≠ .gone := by
  cases op with
  | construct sock attempts =>
    rcases @establish_phase c TRY_CONNECT_TIME sock attempts with h | h <;>
      simp [step, construct, h]
  | attach pair =>
    have ha : (c.attach pair).2.phase = c.phase := by
      unfold attach
      cases c.mConnected <;> cases pair <;> rfl
    simp [step, ha, hp.1]
  | detach => simp [step, detach, show c.phase = .alive from hp]
  | reconnect time sock attempts =>
    rcases @establish_phase ({ c with mConnected := false } : Client).hangUp time sock attempts with h | h <;>
      simp [step, reconnect, h]
  | destruct => exact absurd rfl hd

theorem tidy_step (hI : c.Tidy ∧ (c.phase ≠ .gone → c.Known ∧ c.Sound))
    (hn : Guarded Careful Next c op d) : d.Tidy ∧ (d.phase ≠ .gone → d.Known ∧ d.Sound) := by
  obtain ⟨hc, hp, rfl⟩ := hn
  obtain ⟨hk, hs⟩ := hI.2 fun hg => not_possible_of_gone hg hp
  by_cases hd : op = .destruct
  · subst hd
    exact ⟨hs.destruct hk hc, fun h => absurd rfl h⟩
  · have hs' := hs.step hk hp hc hd
    exact ⟨⟨hs'.clean, fun h => absurd h (step_phase hp hd)⟩, fun _ => ⟨hk.step hp hd, hs'⟩⟩

theorem not_tidy_of_doomed (h : Run Next c ops d) (hk : c.Known) (hdoom : c.Doomed)
    (hc : c.phase ≠ .gone) (hd : d.phase = .gone) : ¬ d.Tidy := by
  induction h with
  | nil c => exact absurd hd hc
  | @cons c e d op ops hn hr ih =>
    obtain ⟨hp, rfl⟩ := hn
    by_cases hop : op = .destruct
    · subst hop
      cases hr with
      | nil => exact not_tidy_destruct hk (.inl hdoom)
      | cons hn' _ => exact absurd hn'.1 (not_possible_of_gone rfl)
    · exact ih (hk.step hp hop) (doomed_step hk hp hop (.inl hdoom)) (step_phase hp hop) hd

theorem careful_of_tidy (h : Run Next c ops d) (hk : c.Known) (hd : d.phase = .gone) (ht : d.Tidy) :
    Run (Guarded Careful Next) c ops d := by
  induction h with
  | nil c => exact Run.nil c
  | @cons c e d op ops hn hr ih =>
    obtain ⟨hp, rfl⟩ := hn
    by_cases hop : op = .destruct
    · subst hop
      cases hr with
      | nil =>
        have hc : c.Careful .destruct := by
          by_contra hc
          exact not_tidy_destruct hk (.inr hc) ht
        exact Run.cons ⟨hc, hp, rfl⟩ (Run.nil _)
      | cons hn' _ => exact absurd hn'.1 (not_possible_of_gone rfl)
    · have hk' := hk.step hp hop
      have hc : c.Careful op := by
        by_contra hc
        exact not_tidy_of_doomed hr hk' (doomed_step hk hp hop (.inr hc)) (step_phase hp hop) hd ht
      exact Run.cons ⟨hc, hp, rfl⟩ (ih hk' hd ht)

end lives

/-- **The descriptors of a client.**  Wherever a careful life stands, no number was used after it
was closed, and after the destructor none is open; and only a careful life ends so. -/
theorem tidy_of_careful_run (ops : List Op) (c : Client) :
    (Run (Guarded Careful Next) init ops c → c.Tidy) ∧
      (Run Next init ops c → c.phase = .gone → c.Tidy → Run (Guarded Careful Next) init ops c) := by
  constructor
  · intro h
    have h0 : init.Tidy ∧ (init.phase ≠ .gone → init.Known ∧ init.Sound) :=
      ⟨⟨rfl, fun h => by cases h⟩, fun _ => ⟨known_init, sound_init⟩⟩
    exact (h.invariant h0 fun _ _ _ hI hn => tidy_step hI hn).1
  · exact fun h hg ht => careful_of_tidy h known_init hg ht

/-- Attach once, then destroy: DETACH is sent on number 3 after it was closed, and the exit sockets
4 and 5 stay open. -/
theorem attach_destruct_not_tidy : ∃ c : Client,
      Run Next init [.construct (.bound 3) [.pong], .attach (some (4, 5)), .destruct] c ∧ c.phase =
      .gone ∧ c.ledger.misused = true ∧ 4 ∈ c.ledger.held ∧ 5 ∈ c.ledger.held ∧ ¬ c.Tidy := by
  refine ⟨_, Run.cons ⟨?_, rfl⟩ (Run.cons ⟨?_, rfl⟩ (Run.cons ⟨?_, rfl⟩ (Run.nil _))), rfl, rfl, ?_, ?_, ?_⟩
  · exact ⟨rfl, by decide, by decide⟩
  · refine ⟨rfl, fun p hp => ?_⟩
    cases hp
    decide
  · rfl
  · decide
  · decide
  · exact fun h => absurd h.1 (by decide)

end Client

end Code365.RjIpc
