import Code365.Lib.Run
import Code365.Lib.Text

/-! # `RjService`: the descriptor lists of the IPC service

Model of `class RjService` (`interfaces/network/rj_ipc.cpp`): the two lists `mClientFd` and
`mAttachFd`, the handlers that `threadLoop` calls for one epoll event, and `sendMessage`.

The kernel side is the table `opened` of the process: what every descriptor number refers to
at present.  Accepted connections are numbered in the order in which they are accepted, so a
descriptor number that is closed and handed out again refers to another connection.  A node
of `mAttachFd` carries, besides the number the list holds, the connection whose ATTACH put it
there; no function of the service reads that second component.

Both overloads of `sendMessage` are one function here: they differ in how the bytes of the
message are passed. -/

namespace Code365.RjIpc

open Function Code365.Text

abbrev Fd := ℕ

/-- What an open descriptor number of the process refers to. -/
inductive Handle where
  /-- The listening socket, the epoll instance, or a file of other code of the process. -/
  | other
  /-- The `n`-th accepted connection. -/
  | conn (n : ℕ)
deriving DecidableEq, Repr

/-- A node of `mAttachFd`: the number, and the connection that sent the ATTACH. -/
structure Attached where
  fd : Fd
  sender : ℕ
deriving DecidableEq, Repr

structure Service where
  mClientFd : List Fd
  mAttachFd : List Attached
  /-- The descriptor table of the process. -/
  opened : Fd → Option Handle
  /-- Connections accepted so far. -/
  accepted : ℕ
  /-- Completed writes, oldest first. -/
  sent : List (Fd × List Char)

/-- How the last `recv` of a `handleRead` ends the loop. -/
inductive RecvEnd where
  /-- `EAGAIN`, `EWOULDBLOCK` or `EINTR`. -/
  | again
  /-- Result `0`: the peer closed the connection. -/
  | closed
  /-- Any other error. -/
  | error
deriving DecidableEq, Repr

/-- `event_e`. -/
inductive EventCode where
  | NORMAL
  | ATTACH
  | DETACH
deriving DecidableEq, Repr

namespace Service

/-- The state that the constructor leaves; `others` are the descriptors of the process that
are open then, `mSockFd` and `mEpollFd` among them. -/
def new (others : List Fd) : Service :=
  { mClientFd := [], mAttachFd := [], accepted := 0, sent := [],
    opened := fun fd => if fd ∈ others then some .other else none }

variable (s : Service)

def attachFds : List Fd := s.mAttachFd.map Attached.fd

def attachFd (fd : Fd) (sender : ℕ) : Service :=
  { s with mAttachFd := s.mAttachFd ++ [⟨fd, sender⟩] }

/-- Erases the first node that holds the number. -/
def detachFd (fd : Fd) : Service :=
  { s with mAttachFd := s.mAttachFd.eraseP (fun a => a.fd == fd) }

/-- `epollAdd` is the outcome of `epoll_ctl`; the number stays open when it fails. -/
def addClientFd (fd : Fd) (epollAdd : Bool) : Service :=
  if epollAdd then { s with mClientFd := s.mClientFd ++ [fd] } else s

/-- Drops the number from `mClientFd` and closes it, whatever it refers to. -/
def removeClientFd (fd : Fd) : Service :=
  { s with mClientFd := s.mClientFd.filter (· ≠ fd), opened := update s.opened fd none }

def handleAccept (fd : Fd) (epollAdd : Bool) : Service :=
  addClientFd { s with opened := update s.opened fd (some (.conn s.accepted)),
                       accepted := s.accepted + 1 } fd epollAdd

def written (fd : Fd) (message : List Char) : Service :=
  { s with sent := s.sent ++ [(fd, message)] }

/-- `sendMessage(message, fd)` with `fd >= 0`; `ok` is the outcome of `handleWrite`. -/
def sendTo (message : List Char) (fd : Fd) (ok : Bool) : Service :=
  if ok then s.written fd message else s.removeClientFd fd

/-- The loop of `sendMessage(message, -1)`: the iterator stands at the head of `todo` and has
passed the nodes `done`; `writes k` is the outcome of the `k`-th `handleWrite`.  On a failed
write `detachFd` erases the first node that holds the number.  When that is the node of the
iterator itself, `++it` advances an erased iterator and the loop has no meaning. -/
def broadcastLoop (message : List Char) (writes : ℕ → Bool) :
    ℕ → Service → List Attached → List Attached → Option Service
  | _, s, _, [] => some s
  | k, s, done, a :: todo =>
    if writes k then broadcastLoop message writes (k + 1) (s.written a.fd message) (done ++ [a]) todo
    else if a.fd ∈ done.map Attached.fd then
      broadcastLoop message writes (k + 1) ((s.detachFd a.fd).removeClientFd a.fd)
        (done.eraseP (fun b => b.fd == a.fd) ++ [a]) todo
    else none

def sendMessage (message : List Char) (fd : ℤ) (writes : ℕ → Bool) : Option Service :=
  if 0 ≤ fd then some (s.sendTo message fd.toNat (writes 0))
  else broadcastLoop message writes 0 s [] s.mAttachFd

/-- `onEvent(fd, buf, len)` for the bytes `buf` received from connection `sender`; `ok` is the
outcome of the `handleWrite` of the reply. -/
def onEvent (fd : Fd) (sender : ℕ) (buf : List Char) (ok : Bool) : EventCode × Service :=
  if strstr buf "ATTACH".toList then (.ATTACH, s.attachFd fd sender)
  else if strstr buf "DETACH".toList then (.DETACH, (s.sendTo "EXIT".toList fd ok).detachFd fd)
  else if strstr buf "PING".toList then (.NORMAL, s.sendTo "PONG".toList fd ok)
  else (.NORMAL, s)

/-- `handleRead(fd)`: `recvs` are the buffers of the successful `recv` calls, in order.  The
result is `none` where the source returns `-1`: bytes received before a close or an error are
dropped. -/
def handleRead (fd : Fd) (sender : ℕ) (recvs : List (List Char)) (last : RecvEnd) (ok : Bool) :
    Option EventCode × Service :=
  match last with
  | .again =>
    if recvs.flatten.isEmpty then (some .NORMAL, s)
    else
      let (code, s') := s.onEvent fd sender recvs.flatten ok
      (some code, s')
  | .closed => (none, s)
  | .error => (none, s)

end Service

/-- One thing that happens to the service: an epoll event that `threadLoop` handles, or a call
of `sendMessage` by the application. -/
inductive Event where
  | acceptFailed
  | accept (fd : Fd) (epollAdd : Bool)
  /-- `EPOLLERR`, `EPOLLHUP`, or no `EPOLLIN`. -/
  | hangup (fd : Fd)
  /-- `EPOLLIN`: `handleRead`, with `sender` the connection the bytes come from. -/
  | read (fd : Fd) (sender : ℕ) (recvs : List (List Char)) (last : RecvEnd) (ok : Bool)
  | send (message : List Char) (fd : ℤ) (writes : ℕ → Bool)

namespace Service

variable (s : Service)

/-- The handling of one event; `none` when the language gives it no meaning. -/
def step : Event → Option Service
  | .acceptFailed => some s
  | .accept fd epollAdd => some (s.handleAccept fd epollAdd)
  | .hangup fd => some ((s.removeClientFd fd).detachFd fd)
  | .read fd sender recvs last ok =>
    match s.handleRead fd sender recvs last ok with
    | (none, s') => some ((s'.removeClientFd fd).detachFd fd)
    | (some _, s') => some s'
  | .send message fd writes => s.sendMessage message fd writes

/-- What the kernel guarantees of an event: `accept` returns a number that is not open, and
bytes are received only on a number that refers to the connection they come from.  An epoll
event may be stale: it may name a number that was closed, or closed and handed out again,
after `epoll_wait` returned. -/
def Possible : Event → Prop
  | .accept fd _ => s.opened fd = none
  | .read fd sender recvs last _ =>
    last = .again → recvs.flatten ≠ [] → s.opened fd = some (.conn sender)
  | _ => True

end Service

def Next (s : Service) (e : Event) (t : Service) : Prop :=
  s.Possible e ∧ MayStep Service.step s e t

namespace Service

/-- The membership property: `mAttachFd` holds no number twice, and every number in it is in
`mClientFd`, is open, and refers to the connection that sent the ATTACH. -/
structure Membership (s : Service) : Prop where
  nodup : s.attachFds.Nodup
  client : ∀ a ∈ s.mAttachFd, a.fd ∈ s.mClientFd
  owner : ∀ a ∈ s.mAttachFd, s.opened a.fd = some (.conn a.sender)

/-- The steps that the service handles without damage.  An ATTACH comes from a number of
`mClientFd` that is not attached yet; a reply to PING or a directed message fails only on a
number that is not attached; no write of a broadcast fails. -/
def Careful (s : Service) : Event → Prop
  | .read fd _ recvs .again ok =>
    if strstr recvs.flatten "ATTACH".toList then fd ∈ s.mClientFd ∧ fd ∉ s.attachFds
    else if strstr recvs.flatten "DETACH".toList then True
    else strstr recvs.flatten "PING".toList → ok = false → fd ∉ s.attachFds
  | .send _ fd writes =>
    if 0 ≤ fd then writes 0 = false → fd.toNat ∉ s.attachFds
    else ∀ k < s.mAttachFd.length, writes k = true
  | _ => True

/-! ### What the operations do to the lists -/

section lists
variable (s : Service) (fd : Fd)

@[simp] theorem attachFds_attachFd (n : ℕ) : (s.attachFd fd n).attachFds = s.attachFds ++ [fd] := by
  simp [attachFds, attachFd]

theorem mem_of_mem_detachFd {a : Attached} (h : a ∈ (s.detachFd fd).mAttachFd) : a ∈ s.mAttachFd :=
  List.mem_of_mem_eraseP h

end lists

theorem eraseP_fd_eq_filter (fd : Fd) : ∀ l : List Attached, (l.map Attached.fd).Nodup →
    l.eraseP (fun a => a.fd == fd) = l.filter (fun a => a.fd ≠ fd)
  | [], _ => rfl
  | a :: l, h => by
    rw [List.map_cons, List.nodup_cons] at h
    by_cases ha : a.fd = fd
    · rw [List.eraseP_cons_of_pos (by simpa using ha), List.filter_cons_of_neg (by simpa using ha)]
      symm
      rw [List.filter_eq_self]
      intro b hb
      have : b.fd ≠ a.fd := fun hba => h.1 (hba ▸ List.mem_map_of_mem hb)
      simpa [← ha] using this
    · rw [List.eraseP_cons_of_neg (by simpa using ha), List.filter_cons_of_pos (by simpa using ha),
        eraseP_fd_eq_filter fd l h.2]

namespace Membership

variable {s : Service} {fd : Fd}

theorem written (h : s.Membership) (m : List Char) : (s.written fd m).Membership :=
  ⟨h.nodup, h.client, h.owner⟩

theorem broadcastLoop {m : List Char} {writes : ℕ → Bool} :
    ∀ (todo : List Attached) (k : ℕ) (s : Service) (done : List Attached), s.Membership →
    (∀ i < todo.length, writes (k + i) = true) →
    ∃ t, Service.broadcastLoop m writes k s done todo = some t ∧ t.Membership
  | [], _, s, _, h, _ => ⟨s, rfl, h⟩
  | a :: todo, k, s, done, h, hw => by
    have h0 : writes k = true := hw 0 (by simp)
    unfold Service.broadcastLoop
    rw [if_pos h0]
    apply broadcastLoop todo (k + 1) _ _ (h.written m)
    intro i hi
    have := hw (i + 1) (by simpa using hi)
    rwa [show k + 1 + i = k + (i + 1) by omega]

variable (h : s.Membership)

include h

theorem detachFd_ne {a : Attached} (ha : a ∈ (s.detachFd fd).mAttachFd) : a.fd ≠ fd := by
  unfold detachFd at ha
  rw [eraseP_fd_eq_filter fd _ h.nodup] at ha
  simpa using (List.mem_filter.mp ha).2

theorem detachFd (fd : Fd) : (s.detachFd fd).Membership where
  nodup := (List.eraseP_sublist.map Attached.fd).nodup h.nodup
  client a ha := h.client a (s.mem_of_mem_detachFd fd ha)
  owner a ha := h.owner a (s.mem_of_mem_detachFd fd ha)

theorem attachFd {n : ℕ} (hc : fd ∈ s.mClientFd) (hn : fd ∉ s.attachFds)
    (ho : s.opened fd = some (.conn n)) : (s.attachFd fd n).Membership where
  nodup := by
    rw [attachFds_attachFd, List.nodup_append]
    refine ⟨h.nodup, List.nodup_singleton _, ?_⟩
    intro a ha b hb
    rw [List.mem_singleton] at hb
    rintro rfl
    exact hn (hb ▸ ha)
  client a ha := by
    rcases List.mem_append.mp ha with ha | ha
    · exact h.client a ha
    · rw [List.mem_singleton] at ha
      rw [ha]
      exact hc
  owner a ha := by
    rcases List.mem_append.mp ha with ha | ha
    · exact h.owner a ha
    · rw [List.mem_singleton] at ha
      rw [ha]
      exact ho

theorem removeClientFd (hn : fd ∉ s.attachFds) : (s.removeClientFd fd).Membership := by
  have hne : ∀ a ∈ s.mAttachFd, a.fd ≠ fd := fun a ha he => hn (he ▸ List.mem_map_of_mem ha)
  refine ⟨h.nodup, fun a ha => ?_, fun a ha => ?_⟩
  · exact List.mem_filter.mpr ⟨h.client a ha, by simpa using hne a ha⟩
  · simp only [Service.removeClientFd]
    rw [update_of_ne (hne a ha)]
    exact h.owner a ha

theorem removeClientFd_detachFd (fd : Fd) : ((s.removeClientFd fd).detachFd fd).Membership := by
  have hn : fd ∉ (s.detachFd fd).attachFds := by
    intro hm
    obtain ⟨a, ha, he⟩ := List.mem_map.mp hm
    exact h.detachFd_ne ha he
  exact (h.detachFd fd).removeClientFd hn

theorem handleAccept (hf : s.opened fd = none) (epollAdd : Bool) :
    (s.handleAccept fd epollAdd).Membership := by
  have hne : ∀ a ∈ s.mAttachFd, a.fd ≠ fd := by
    rintro a ha rfl
    rw [h.owner a ha] at hf
    cases hf
  have key : ∀ l : List Fd, (∀ a ∈ s.mAttachFd, a.fd ∈ l) →
      Membership { s with opened := update s.opened fd (some (.conn s.accepted)),
                          accepted := s.accepted + 1, mClientFd := l } := fun l hl =>
    ⟨h.nodup, hl, fun a ha => by
      dsimp only
      rw [update_of_ne (hne a ha)]
      exact h.owner a ha⟩
  cases epollAdd with
  | true => exact key _ fun a ha => List.mem_append_left _ (h.client a ha)
  | false => exact key _ h.client

theorem sendTo {m : List Char} {ok : Bool} (hn : ok = false → fd ∉ s.attachFds) :
    (s.sendTo m fd ok).Membership := by
  cases ok with
  | true => exact h.written m
  | false => exact h.removeClientFd (hn rfl)

theorem onEvent {n : ℕ} {recvs : List (List Char)} {ok : Bool}
    (ho : s.opened fd = some (.conn n)) (hs : s.Careful (.read fd n recvs .again ok)) :
    (s.onEvent fd n recvs.flatten ok).2.Membership := by
  simp only [Careful] at hs
  unfold Service.onEvent
  split_ifs with h1 h2 h3
  · rw [if_pos h1] at hs
    exact h.attachFd hs.1 hs.2 ho
  · -- the order of the source, closing before detaching, is the one of `threadLoop`
    cases ok with
    | true => exact (h.written _).detachFd fd
    | false => exact h.removeClientFd_detachFd fd
  · rw [if_neg h1, if_neg h2] at hs
    exact h.sendTo (hs h3)
  · exact h

theorem step {e : Event} {t : Service} (hs : s.Careful e) (hn : Next s e t) : t.Membership := by
  obtain ⟨hp, hm⟩ := hn
  cases e with
  | acceptFailed => rw [hm.eq_of_some rfl]; exact h
  | accept fd epollAdd => rw [hm.eq_of_some rfl]; exact h.handleAccept hp epollAdd
  | hangup fd => rw [hm.eq_of_some rfl]; exact h.removeClientFd_detachFd fd
  | read fd n recvs last ok =>
    cases last with
    | closed | error => rw [hm.eq_of_some rfl]; exact h.removeClientFd_detachFd fd
    | again =>
      by_cases he : recvs.flatten = []
      · rw [hm.eq_of_some (u := s) (by simp [Service.step, handleRead, he])]
        exact h
      · rw [hm.eq_of_some (u := (s.onEvent fd n recvs.flatten ok).2)
          (by simp [Service.step, handleRead, he])]
        exact h.onEvent (hp rfl he) hs
  | send m fd writes =>
    by_cases hf : 0 ≤ fd
    · rw [hm.eq_of_some (u := s.sendTo m fd.toNat (writes 0)) (by simp [Service.step, sendMessage, hf])]
      simp only [Careful, if_pos hf] at hs
      exact h.sendTo hs
    · simp only [Careful, if_neg hf] at hs
      obtain ⟨u, hu, hmem⟩ := broadcastLoop (m := m) s.mAttachFd 0 s [] h (by simpa using hs)
      rw [hm.eq_of_some (u := u) (by simp [Service.step, sendMessage, hf, hu])]
      exact hmem

end Membership

theorem membership_new (others : List Fd) : (new others).Membership where
  nodup := List.nodup_nil
  client _ ha := absurd ha List.not_mem_nil
  owner _ ha := absurd ha List.not_mem_nil

/-! ### The steps that are not careful

From a state with the membership property every other step either loses it or has no meaning,
so `Careful` leaves out no step that the service handles well. -/

theorem not_membership_removeClientFd {s : Service} {fd : Fd} (h : fd ∈ s.attachFds) :
    ¬ (s.removeClientFd fd).Membership := by
  intro hm
  obtain ⟨a, ha, rfl⟩ := List.mem_map.mp h
  have := hm.client a ha
  simp [removeClientFd] at this

theorem broadcastLoop_eq_none {m : List Char} {writes : ℕ → Bool} : ∀ (todo : List Attached) (k : ℕ)
    (s : Service) (done : List Attached), ((done ++ todo).map Attached.fd).Nodup →
    (∃ i < todo.length, writes (k + i) = false) → broadcastLoop m writes k s done todo = none
  | [], _, _, _, _, ⟨_, hi, _⟩ => absurd hi (by simp)
  | a :: todo, k, s, done, hnd, ⟨i, hi, hw⟩ => by
    unfold broadcastLoop
    cases h0 : writes k with
    | true =>
      obtain ⟨i, rfl⟩ : ∃ j, i = j + 1 := by
        cases i with
        | zero => rw [add_zero, h0] at hw; cases hw
        | succ j => exact ⟨j, rfl⟩
      refine broadcastLoop_eq_none todo (k + 1) _ _ (by simpa using hnd) ⟨i, by simpa using hi, ?_⟩
      rwa [show k + 1 + i = k + (i + 1) by omega]
    | false =>
      have hna : a.fd ∉ done.map Attached.fd := by
        rw [List.map_append, List.map_cons, List.nodup_append] at hnd
        intro hm
        exact hnd.2.2 _ hm _ List.mem_cons_self rfl
      rw [if_neg Bool.false_ne_true, if_neg hna]

theorem not_membership_of_not_careful {s t : Service} {e : Event} (h : s.Membership)
    (hc : ¬ s.Careful e) (ht : s.step e = some t) : ¬ t.Membership := by
  cases e with
  | acceptFailed | accept fd epollAdd | hangup fd => exact absurd trivial hc
  | read fd n recvs last ok =>
    cases last with
    | closed | error => exact absurd trivial hc
    | again =>
      have hne : recvs.flatten ≠ [] := by
        rintro he
        simp [Careful, he, strstr, cstr, find?] at hc
      simp only [step, handleRead, List.isEmpty_iff, if_neg hne, Option.some.injEq] at ht
      simp only [Careful] at hc
      subst ht
      unfold onEvent
      split_ifs at hc ⊢ with h1 h2 h3
      · intro hm
        refine hc ⟨hm.client ⟨fd, n⟩ (by simp [attachFd]), ?_⟩
        have := hm.nodup
        rw [attachFds_attachFd, List.nodup_append] at this
        exact fun hf => this.2.2 fd hf fd (by simp) rfl
      · exact absurd trivial hc
      · push Not at hc
        obtain ⟨_, rfl, hf⟩ := hc
        exact not_membership_removeClientFd hf
      · exact absurd (fun h => absurd h h3) hc
  | send m fd writes =>
    simp only [step, sendMessage] at ht
    simp only [Careful] at hc
    split_ifs at hc ht with hf
    · push Not at hc
      rw [← Option.some.inj ht, sendTo, hc.1]
      exact not_membership_removeClientFd hc.2
    · push Not at hc
      obtain ⟨k, hk, hw⟩ := hc
      rw [broadcastLoop_eq_none s.mAttachFd 0 s [] h.nodup ⟨k, hk, by simpa using hw⟩] at ht
      cases ht

theorem attached_twice_not_membership :
    ¬ ((((new []).handleAccept 5 true).attachFd 5 0).attachFd 5 0).Membership :=
  not_membership_of_not_careful (e := .read 5 0 ["ATTACH".toList] .again true)
    (((membership_new []).handleAccept rfl true).attachFd (by decide) (by decide) rfl)
    (by rw [Careful, if_pos (by decide)]; decide) rfl

/-! ### Whole runs -/

/-- **Membership along every careful run**: in every state that a run of careful steps reaches
from the constructor, `mAttachFd` holds no number twice and only open numbers of `mClientFd`
that refer to the connection that sent the ATTACH. -/
theorem membership_of_careful_run (others : List Fd) {es : List Event} {t : Service}
    (h : Run (Guarded Careful Next) (new others) es t) : t.Membership :=
  h.invariant (membership_new others) fun _ _ _ hI hn => hI.step hn.1 hn.2

/-- A client is accepted on number 5, attaches, and gets a broadcast. -/
theorem membership_after_broadcast :
    ∃ t, Run (Guarded Careful Next) (new [0, 1, 2, 3, 4]) [.accept 5 true,
      .read 5 0 ["ATTACH".toList] .again true, .send "ETH_UP".toList (-1) fun _ => true] t ∧
      t.mAttachFd = [⟨5, 0⟩] ∧ t.Membership := by
  have hrun : Run (Guarded Careful Next) (new [0, 1, 2, 3, 4])
      [.accept 5 true, .read 5 0 ["ATTACH".toList] .again true, .send "ETH_UP".toList (-1) fun _ => true]
      ((((new [0, 1, 2, 3, 4]).handleAccept 5 true).attachFd 5 0).written 5 "ETH_UP".toList) := by
    refine .cons ⟨trivial, rfl, .of_some rfl⟩ ?_
    refine .cons ⟨by rw [Careful, if_pos (by decide)]; decide, fun _ _ => rfl, .of_some rfl⟩ ?_
    refine .cons ⟨fun _ _ => rfl, trivial, .of_some rfl⟩ (.nil _)
  exact ⟨_, hrun, rfl, membership_of_careful_run _ hrun⟩

/-- A client that sends ATTACH twice is in `mAttachFd` twice. -/
theorem attach_twice_not_membership : ∃ t, Run Next (new [0, 1, 2, 3, 4])
        [.accept 5 true, .read 5 0 ["ATTACH".toList] .again true,
          .read 5 0 ["ATTACH".toList] .again true] t ∧ ¬ t.Membership := by
  refine ⟨(((new [0, 1, 2, 3, 4]).handleAccept 5 true).attachFd 5 0).attachFd 5 0, ?_, ?_⟩
  · refine .cons ⟨rfl, .of_some rfl⟩ ?_
    refine .cons ⟨fun _ _ => rfl, .of_some rfl⟩ ?_
    refine .cons ⟨fun _ _ => rfl, .of_some rfl⟩ (.nil _)
  · intro h
    exact absurd h.nodup (by decide)

end Service

end Code365.RjIpc
