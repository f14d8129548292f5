import Code365.Algorithms.AesSteps

/-! # The round trip of `AES`

Encryption returns exactly if no text that it writes takes a leading zero, and decryption of its
result returns exactly if moreover no cell of a state before a substitution does.  When both return,
the block is the one that was encrypted (`roundTrips_iff`): the tables are right, and only the
padding loops go wrong. -/

namespace Code365.Algorithms.AesBlock

open Option List
open scoped Aes

variable {fuel : ℕ} {roundKeys : List ℕ} {s : Aes.State}

theorem Full.first (h : Full s) : 128 ≤ (s 0 0).toNat := h 0 0

theorem full_shiftRows_iff : Full (Aes.shiftRows s) ↔ Full s := by
  constructor
  · intro h c r
    have hs := h (c - r) r
    have hc : ∀ c r : Fin 4, c - r + r = c := by decide
    unfold Aes.shiftRows at hs
    rw [hc] at hs
    exact hs
  · exact fun h c r => h (c + r) r

/-! ### Encryption -/

/-- A main round on `s` returns. -/
def RoundFull (s : Aes.State) : Prop :=
  128 ≤ (s 0 0).toNat ∧ Full (Aes.subBytes sbox s) ∧
    Full (Aes.mixColumns (Aes.shiftRows (Aes.subBytes sbox s)))

theorem mainRound_yields {i : ℕ} {k : Aes.State} (hk : roundKeys.getD i 0 = toBlock k)
    (s : Aes.State) : Yields (mainRound fuel roundKeys (toBlock s) i) (RoundFull s)
    (toBlock (Aes.round sbox k s)) := by
  unfold mainRound RoundFull
  rw [hk, ← and_assoc]
  refine (subBytes_does fuel s).bind fun hsub => ?_
  have hshift := full_shiftRows_iff.mpr hsub.2
  rw [(shiftRows_does fuel _).eq_some ⟨hsub.2.first, hshift⟩]
  exact ((mixColumns_does fuel _).congr (and_iff_right hshift.first)).bind_eq
    (congrArg some (addRoundKey_toBlock _ _))

theorem foldlM_mainRound {w : ℕ → Aes.State} (s : Aes.State) {n : ℕ}
    (hw : ∀ i ≤ n, roundKeys.getD i 0 = toBlock (w i)) :
    Yields ((List.range' 1 n).foldlM (mainRound fuel roundKeys) (toBlock (Aes.states sbox w s 0)))
    (∀ i < n, RoundFull (Aes.states sbox w s i)) (toBlock (Aes.states sbox w s n)) := by
  have h := Yields.foldlM (g := mainRound fuel roundKeys) (s := fun i => toBlock (Aes.states sbox w s i))
    (l := List.range' 1 n) fun i x hx => by
      obtain ⟨hi, rfl⟩ := List.getElem?_eq_some_iff.mp hx
      rw [length_range'] at hi
      rw [getElem_range', one_mul, add_comm 1 i]
      exact mainRound_yields (hw (i + 1) hi) _
  rwa [length_range'] at h

/-- The state before the substitution of round `i + 1`. -/
def stateAt (plain key : Aes.State) (i : ℕ) : Aes.State := Aes.states sbox (Aes.roundKeys sbox key) plain i

theorem encrypt_yields (plain key : Aes.State) :
    Yields (encrypt fuel (toBlock plain) (toBlock key)) ((∀ i < 10,
    KeyFull (i + 1) (Aes.roundKeys sbox key i)) ∧ (∀ i < 9, RoundFull (stateAt plain key i)) ∧
    128 ≤ (stateAt plain key 9 0 0).toNat ∧ Full (Aes.subBytes sbox (stateAt plain key 9)))
    (toBlock (Aes.encrypt sbox (Aes.roundKeys sbox key) plain)) := by
  have hkeys : ∀ i ≤ 10, (firstKeys key 10 0).getD i 0 = toBlock (Aes.roundKeys sbox key i) :=
    fun i hi => firstKeys_getD key hi 0
  have hstart : addRoundKey (toBlock plain) ((firstKeys key 10 0).getD 0 0) =
      toBlock (stateAt plain key 0) := by
    rw [hkeys 0 (by omega), addRoundKey_toBlock]
    rfl
  refine (keyExpansion_yields fuel key).bind fun _ => ?_
  rw [hstart]
  refine (foldlM_mainRound plain fun i hi => hkeys i (by omega)).bind fun _ => ?_
  refine ((subBytes_does fuel _).bind fun hsub => ?_).congr (and_iff_left trivial)
  rw [(shiftRows_does fuel _).eq_some ⟨hsub.2.first, full_shiftRows_iff.mpr hsub.2⟩, hkeys 10 le_rfl]
  exact .of_eq (congrArg some (addRoundKey_toBlock _ _)) trivial

/-! ### Decryption of what was encrypted -/

theorem unsubstitute_yields (h : Full (Aes.subBytes sbox s)) :
    Yields ((shiftRowsDec fuel (toBlock (Aes.shiftRows (Aes.subBytes sbox s)))).bind
    (subBytesDec fuel)) (Full s) (toBlock s) := by
  have hshift := shiftRowsDec_does fuel (Aes.shiftRows (Aes.subBytes sbox s))
  rw [Aes.invShiftRows_shiftRows] at hshift
  have hsub := subBytesDec_does fuel (Aes.subBytes sbox s)
  rw [Aes.invSubBytes_subBytes] at hsub
  rw [hshift.eq_some ⟨h.first, h⟩]
  exact hsub.congr (and_iff_right h.first)

theorem mainRoundDec_yields {i : ℕ} {k : Aes.State} (hk : roundKeys.getD i 0 = toBlock k)
    (hs : RoundFull s) :
    Yields (mainRoundDec fuel roundKeys (toBlock (Aes.round sbox k s)) i) (Full s) (toBlock s) := by
  obtain ⟨_, hsub, hmix⟩ := hs
  have hmixDec := mixColumnsDec_does fuel (Aes.mixColumns (Aes.shiftRows (Aes.subBytes sbox s)))
  rw [Aes.invMixColumns_mixColumns] at hmixDec
  unfold mainRoundDec Aes.round
  rw [hk, addRoundKey_toBlock, Aes.addRoundKey_addRoundKey,
    hmixDec.eq_some ⟨hmix.first, full_shiftRows_iff.mpr hsub⟩]
  exact unsubstitute_yields hsub

theorem foldlM_mainRoundDec {w : ℕ → Aes.State} (s : Aes.State) : ∀ {n : ℕ},
    (∀ i ≤ n, roundKeys.getD i 0 = toBlock (w i)) → (∀ i < n, RoundFull (Aes.states sbox w s i)) →
    Yields ((List.range' 1 n).reverse.foldlM (mainRoundDec fuel roundKeys) (toBlock (Aes.states sbox
    w s n))) (∀ i < n, Full (Aes.states sbox w s i)) (toBlock (Aes.states sbox w s 0))
  | 0, _, _ => .of_eq rfl nofun
  | n + 1, hw, hs => by
    obtain ⟨hs, hlast⟩ := Nat.forall_lt_succ_right.mp hs
    rw [range'_1_concat, reverse_append, reverse_singleton, singleton_append, foldlM_cons, add_comm 1 n,
      Nat.forall_lt_succ_right, and_comm]
    exact (mainRoundDec_yields (hw (n + 1) le_rfl) hlast).bind fun _ =>
      foldlM_mainRoundDec s (fun i hi => hw i (by omega)) hs

theorem decrypt_yields {plain key : Aes.State}
    (hkey : ∀ i < 10, KeyFull (i + 1) (Aes.roundKeys sbox key i))
    (hrounds : ∀ i < 9, RoundFull (stateAt plain key i))
    (hlast : Full (Aes.subBytes sbox (stateAt plain key 9))) :
    Yields (decrypt fuel (toBlock (Aes.encrypt sbox (Aes.roundKeys sbox key) plain)) (toBlock key))
    (∀ i < 10, Full (stateAt plain key i)) (toBlock plain) := by
  have hkeys : ∀ i ≤ 10, (firstKeys key 10 0).getD i 0 = toBlock (Aes.roundKeys sbox key i) :=
    fun i hi => firstKeys_getD key hi 0
  have hkey10 : addRoundKey (toBlock (Aes.encrypt sbox (Aes.roundKeys sbox key) plain))
      (toBlock (Aes.roundKeys sbox key 10)) =
        toBlock (Aes.shiftRows (Aes.subBytes sbox (stateAt plain key 9))) := by
    unfold Aes.encrypt Aes.lastRound
    rw [addRoundKey_toBlock, Aes.addRoundKey_addRoundKey]
    rfl
  have hkey0 : addRoundKey (toBlock (stateAt plain key 0)) (toBlock (Aes.roundKeys sbox key 0)) =
      toBlock plain := by
    rw [addRoundKey_toBlock]
    exact congrArg toBlock (Aes.addRoundKey_addRoundKey _ _)
  unfold decrypt
  simp only [bind_eq_bind]
  rw [(keyExpansion_yields fuel key).eq_some hkey, bind_some, hkeys 10 le_rfl, hkeys 0 (by omega), hkey10,
    ← bind_assoc, Nat.forall_lt_succ_right, and_comm]
  exact (unsubstitute_yields hlast).bind fun _ =>
    (foldlM_mainRoundDec plain (fun i hi => hkeys i (by omega)) hrounds).bind_eq (congrArg some hkey0)

/-! ### The round trip -/

/-- Both functions return, the ciphertext is a block, and its decryption is the plaintext. -/
def RoundTrips (plain key : ℕ) : Prop :=
  ∃ fuel cipher, encrypt fuel plain key = some cipher ∧ cipher < 2 ^ 128 ∧
    ∃ fuel', decrypt fuel' cipher key = some plain

/-- No text takes a leading zero: neither in the key expansion, nor for the cells before and after a
substitution and after a `mixColumns`. -/
def Unpadded (plain key : Aes.State) : Prop :=
  (∀ i < 10, KeyFull (i + 1) (Aes.roundKeys sbox key i)) ∧
    (∀ i < 10, Full (stateAt plain key i) ∧ Full (Aes.subBytes sbox (stateAt plain key i))) ∧
    ∀ i < 9, Full (Aes.mixColumns (Aes.shiftRows (Aes.subBytes sbox (stateAt plain key i))))

theorem roundTrips_toBlock_iff (plain key : Aes.State) :
    RoundTrips (toBlock plain) (toBlock key) ↔ Unpadded plain key := by
  constructor
  · rintro ⟨fuel, cipher, henc, _, fuel', hdec⟩
    obtain ⟨⟨hkeys, hrounds, _, hlast⟩, rfl⟩ := (encrypt_yields plain key _).mp henc
    obtain ⟨hfull, _⟩ := (decrypt_yields hkeys hrounds hlast _).mp hdec
    have hsub : ∀ i < 10, Full (Aes.subBytes sbox (stateAt plain key i)) :=
      Nat.forall_lt_succ_right.mpr ⟨fun i hi => (hrounds i hi).2.1, hlast⟩
    exact ⟨hkeys, fun i hi => ⟨hfull i hi, hsub i hi⟩, fun i hi => (hrounds i hi).2.2⟩
  · rintro ⟨hkeys, hfull, hmix⟩
    have hrounds : ∀ i < 9, RoundFull (stateAt plain key i) := by
      intro i hi
      obtain ⟨hstate, hsub⟩ := hfull i (by omega)
      exact ⟨hstate.first, hsub, hmix i hi⟩
    obtain ⟨hstate, hlast⟩ := hfull 9 (by omega)
    have henc := (@encrypt_yields 0 plain key).eq_some ⟨hkeys, hrounds, hstate.first, hlast⟩
    have hdec := (@decrypt_yields 0 plain key hkeys hrounds hlast).eq_some fun i hi => (hfull i hi).1
    exact ⟨0, _, henc, toBlock_lt _, 0, hdec⟩

/-- The round trip of a block under a key. -/
theorem roundTrips_iff (plain key : ℕ) (hplain : plain < 2 ^ 128) (hkey : key < 2 ^ 128) :
    RoundTrips plain key ↔ Unpadded (ofBlock plain) (ofBlock key) := by
  have h := roundTrips_toBlock_iff (ofBlock plain) (ofBlock key)
  rw [toBlock_ofBlock hplain, toBlock_ofBlock hkey] at h
  exact h

theorem roundTrips_iff_ones : RoundTrips (2 ^ 128 - 1) (2 ^ 128 - 1) ↔
    Unpadded (ofBlock (2 ^ 128 - 1)) (ofBlock (2 ^ 128 - 1)) :=
  roundTrips_iff _ _ (by decide) (by decide)

/-- Nothing is encrypted under the key 0: the text `0` of its last word is filled up forever. -/
theorem not_roundTrips_zero : ¬RoundTrips 0 0 := by
  rintro ⟨fuel, cipher, henc, _⟩
  obtain ⟨keys, hkeys, _⟩ := bind_eq_some_iff.mp henc
  obtain ⟨hfull, _⟩ := (keyExpansion_yields fuel (ofBlock 0) _).mp hkeys
  exact absurd (hfull 0 (by decide)).1 (by decide)

end Code365.Algorithms.AesBlock
