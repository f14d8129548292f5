import Code365.RjIpc.Service

/-! # Broadcasts

`sendMessage(message, -1)` writes to every number of `mAttachFd`.  A failed write erases the node at
which the iterator of the loop stands, and the loop goes on from it: `delivered_iff`. -/

namespace Code365.RjIpc.Service

/-- The numbers that the loop of `sendMessage(message, -1)` writes to, in order; arguments and
result as in `broadcastLoop`. -/
def attempts (writes : ℕ → Bool) : ℕ → List Attached → List Attached → Option (List Fd)
  | _, _, [] => some []
  | k, done, a :: todo =>
    (if writes k then attempts writes (k + 1) (done ++ [a]) todo
    else if a.fd ∈ done.map Attached.fd then
      attempts writes (k + 1) (done.eraseP (fun b => b.fd == a.fd) ++ [a]) todo
    else none).map (a.fd :: ·)

/-- The outcome of the `k`-th write, when `ok` has the outcome for every number. -/
def outcomes (s : Service) (ok : Fd → Bool) (k : ℕ) : Bool := (s.attachFds[k]?).all ok

/-- Every attached number is written to once, no erased iterator is advanced, and the numbers whose
write succeeded stay attached. -/
def Delivered (s : Service) (message : List Char) (ok : Fd → Bool) : Prop :=
  attempts (s.outcomes ok) 0 [] s.mAttachFd = some s.attachFds ∧
    ∃ t, s.sendMessage message (-1) (s.outcomes ok) = some t ∧
    t.mAttachFd = s.mAttachFd.filter fun a => ok a.fd

variable {s : Service} {message : List Char} {ok : Fd → Bool} {writes : ℕ → Bool}

theorem writes_cons {a : Attached} {todo : List Attached} {k : ℕ}
    (hw : ∀ i < (a :: todo).length, writes (k + i) = true) :
    writes k = true ∧ ∀ i < todo.length, writes (k + 1 + i) = true := by
  refine ⟨hw 0 (Nat.zero_lt_succ _), fun i hi => ?_⟩
  rw [add_assoc, add_comm 1]
  exact hw (i + 1) (Nat.succ_lt_succ hi)

theorem attempts_eq : ∀ (todo : List Attached) (k : ℕ) (done : List Attached), (∀ i < todo.length,
    writes (k + i) = true) → attempts writes k done todo = some (todo.map Attached.fd)
  | [], _, _, _ => rfl
  | a :: todo, k, done, hw => by
    obtain ⟨h0, hrest⟩ := writes_cons hw
    rw [attempts, if_pos h0, attempts_eq todo (k + 1) _ hrest]
    rfl

theorem broadcastLoop_mAttachFd : ∀ (todo : List Attached) (k : ℕ) (s : Service)
    (done : List Attached), (∀ i < todo.length, writes (k + i) = true) →
    ∃ t, broadcastLoop message writes k s done todo = some t ∧ t.mAttachFd = s.mAttachFd
  | [], _, s, _, _ => ⟨s, rfl, rfl⟩
  | a :: todo, k, s, done, hw => by
    obtain ⟨h0, hrest⟩ := writes_cons hw
    obtain ⟨t, ht, hattach⟩ :=
      broadcastLoop_mAttachFd todo (k + 1) (s.written a.fd message) (done ++ [a]) hrest
    exact ⟨t, by rw [broadcastLoop, if_pos h0, ht], hattach⟩

theorem sendMessage_broadcast :
    s.sendMessage message (-1) writes = broadcastLoop message writes 0 s [] s.mAttachFd :=
  if_neg (by decide)

theorem outcomes_iff :
    (∀ k < s.mAttachFd.length, s.outcomes ok k = true) ↔ ∀ fd ∈ s.attachFds, ok fd = true := by
  have hlen : s.attachFds.length = s.mAttachFd.length := List.length_map ..
  constructor
  · intro h fd hfd
    obtain ⟨k, hk, rfl⟩ := List.mem_iff_getElem.mp hfd
    have hok := h k (hlen ▸ hk)
    rwa [outcomes, List.getElem?_eq_getElem hk, Option.all_some] at hok
  · intro h k hk
    rw [← hlen] at hk
    rw [outcomes, List.getElem?_eq_getElem hk, Option.all_some]
    exact h _ (List.getElem_mem hk)

/-- A broadcast to different numbers is delivered exactly when every write succeeds. -/
theorem delivered_iff (s : Service) (message : List Char) (ok : Fd → Bool)
    (hnodup : s.attachFds.Nodup) : s.Delivered message ok ↔ ∀ fd ∈ s.attachFds, ok fd = true := by
  constructor
  · rintro ⟨_, t, ht, _⟩
    by_contra hfail
    rw [← outcomes_iff, not_forall] at hfail
    obtain ⟨k, hk⟩ := hfail
    obtain ⟨hk, hw⟩ := Classical.not_imp.mp hk
    rw [sendMessage_broadcast,
      broadcastLoop_eq_none s.mAttachFd 0 s [] hnodup ⟨k, hk, by simpa using hw⟩] at ht
    cases ht
  · intro hall
    have hw : ∀ i < s.mAttachFd.length, s.outcomes ok (0 + i) = true := by
      simpa only [zero_add] using outcomes_iff.mpr hall
    obtain ⟨t, ht, hattach⟩ := broadcastLoop_mAttachFd s.mAttachFd 0 s [] hw
    refine ⟨attempts_eq s.mAttachFd 0 [] hw, t, sendMessage_broadcast.trans ht, ?_⟩
    rw [hattach, List.filter_eq_self.mpr]
    exact fun a ha => hall _ (List.mem_map_of_mem ha)

/-- A service with two attached clients. -/
def twoAttached : Service := ((new [0, 1, 2]).attachFd 5 0).attachFd 6 1

theorem delivered_twoAttached : twoAttached.Delivered "ETH_UP".toList fun _ => true :=
  (delivered_iff twoAttached "ETH_UP".toList (fun _ => true) (by decide)).mpr fun _ _ => rfl

/-- The first client cannot be written to, and the loop goes on from its erased node. -/
theorem firstFails_not_delivered : ¬ twoAttached.Delivered "ETH_UP".toList fun fd => fd != 5 := by
  rintro ⟨hattempts, _⟩
  exact absurd hattempts (by decide)

end Code365.RjIpc.Service
