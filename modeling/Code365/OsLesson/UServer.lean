import Code365.Lib.CString
import Code365.Lib.Run
import Code365.Lib.Slots
import Code365.OsLesson.Hash

/-! # The user echo server (`echo/u_server/server.c`)

The command loop of `main` and the thread `server_process` share the table of clients and, as
scratch space, the record `cfg`.  A step of the system is a section under `info_mutex` of one of the
two, or what one does between two sections.  A command whose words do not fit the arrays `client`
and `mode` has no meaning and no successor; an `accept` that fails, or that gives a descriptor of
`FD_SETSIZE` or more, is left out.

Of every client we also record the mode it was given when it connected, and whether a `mode` command
for it was executed since.

A `mode` command copies the record of its client to `cfg` in one section and stores `cfg` under the
name of the client in a second one.  `isolated_of_fresh_run` says what holds in the runs in which,
at the second section, `cfg` still is the record of a client that is still connected. -/

namespace Code365.OsLesson.UServer

open List Function Text CString

abbrev FD_SETSIZE : ℕ := 1024
def SHOW_INFO : List Char := "show".toList
def QUIT : List Char := "quit".toList
def MODE : List Char := "mode".toList
def UPPER : List Char := "upper".toList
def LOWER : List Char := "lower".toList

abbrev Fd := Fin FD_SETSIZE

structure ServerInfo where
  clientId : ℤ
  mode : List Char
deriving DecidableEq, Repr

/-- `memcpy(dst, src, strlen(src))`. -/
def memcpy (dst src : List Char) : List Char := cstr src ++ dst.drop (cstr src).length

/-! ### The two threads -/

/-- Where `main` stands in its command loop. -/
inductive Main where
  /-- At `fgets`. -/
  | prompt
  /-- Before the section that prints the counters. -/
  | show
  /-- Before the section that sets the global mode. -/
  | setGlobal (mode : List Char)
  /-- Before the section that looks the client up. -/
  | get (client mode : List Char)
  /-- Before the section that stores the record of the client. -/
  | set (client mode : List Char)
  | stopped
deriving DecidableEq, Repr

/-- Where `server_process` stands; `ready` has the descriptors of `testfsd` that the loop has not
reached. -/
inductive Server where
  /-- At the head of the loop, in `select` if nothing is left. -/
  | scan (ready : List Fd)
  /-- Has accepted a client and not yet entered it. -/
  | register (fd : Fd) (ready : List Fd)
  /-- Has removed a client and not yet counted it. -/
  | leave (ready : List Fd)
  /-- Before the section that looks up the client of a message. -/
  | lookup (fd : Fd) (ready : List Fd)
  /-- Before `read`. -/
  | read (fd : Fd) (ready : List Fd)
  /-- Before the section that converts the text. -/
  | process (fd : Fd) (buf : List Char) (ready : List Fd)
  /-- Before `write`. -/
  | write (fd : Fd) (buf : List Char) (ready : List Fd)
deriving DecidableEq, Repr

structure State where
  cfg : ServerInfo
  hashTable : Hash ServerInfo
  charCnt : ℤ
  clientCnt : ℤ
  gMode : List Char
  readfds : Fd → Bool
  main : Main
  server : Server
  /-- The mode given to the last client of this name when it connected. -/
  given : List Char → List Char
  /-- A `mode` command for this name was executed since. -/
  moded : List Char → Bool

inductive Event where
  /-- `fgets` and the parsing of the command. -/
  | command (buf : List Char)
  | mainSection
  /-- `select` returns. -/
  | select (ready : List Fd)
  /-- `accept` returns a new descriptor. -/
  | accept (fd : Fd)
  /-- `ioctl` finds nothing to read. -/
  | hangup
  /-- `ioctl` finds a message. -/
  | arrival
  | serverSection
  /-- `read` leaves this string in `buf`. -/
  | read (buf : List Char)
  | write
deriving DecidableEq, Repr

/-- The name of a client. -/
def keyTag (fd : Fd) : List Char := decimal (fd : ℕ)

/-- The state when `main` enters its loop; `sock` is the descriptor of the server. -/
def start (sock : Fd) : State :=
  { cfg := { clientId := 0, mode := memcpy (List.replicate 10 '\x00') UPPER }
    hashTable := hashNew
    charCnt := 0
    clientCnt := 0
    gMode := memcpy (List.replicate 10 '\x00') UPPER
    readfds := fun fd => fd = sock
    main := .prompt
    server := .scan []
    given := fun _ => []
    moded := fun _ => false }

/-- `sscanf(buf, "mode %[0-9] %[a-z]", client, mode)`: the two arrays, empty where a conversion
fails; none if a word overflows its array. -/
def sscanfMode (buf : List Char) : Option (List Char × List Char) :=
  match (literal MODE buf).bind fun rest => scanSet Char.isDigit (rest.dropWhile isspace) with
  | none => some ([], [])
  | some (client, rest) =>
    if 5 ≤ client.length then none
    else match scanSet Char.isLower (rest.dropWhile isspace) with
      | none => some (client, [])
      | some (mode, _) => if 10 ≤ mode.length then none else some (client, mode)

/-- What `main` does between `fgets` and the next section. -/
def dispatch (buf : List Char) : Option Main :=
  if SHOW_INFO.isPrefixOf buf then some .show
  else if QUIT.isPrefixOf buf then some .stopped
  else if MODE.isPrefixOf buf then
    (sscanfMode buf).map fun w => if w.1.head? = some '0' then .setGlobal w.2 else .get w.1 w.2
  else some .prompt

def mainSection (s : State) : Option State :=
  match s.main with
  | .prompt | .stopped => none
  | .show => some { s with main := .prompt }
  | .setGlobal mode => some { s with gMode := memcpy s.gMode mode, main := .prompt }
  | .get client mode =>
    match hashGet s.hashTable client with
    | none => some { s with main := .prompt }
    | some value => some { s with cfg := value, main := .set client mode }
  | .set client mode =>
    some { s with
      cfg := { clientId := s.cfg.clientId, mode := memcpy s.cfg.mode mode }
      hashTable := hashSet s.hashTable client { clientId := s.cfg.clientId, mode := memcpy s.cfg.mode mode }
      main := .prompt
      moded := update s.moded client true }

/-- `upper_process`, `lower_process` or `normal_process`, whichever the mode selects. -/
def convert (mode buf : List Char) : List Char :=
  if UPPER.isPrefixOf mode then buf.map Char.toUpper
  else if LOWER.isPrefixOf mode then buf.map Char.toLower
  else buf

def serverSection (s : State) : Option State :=
  match s.server with
  | .register fd ready =>
    some { s with
      clientCnt := s.clientCnt + 1
      cfg := { clientId := (fd : ℕ), mode := memcpy s.cfg.mode s.gMode }
      hashTable := hashSet s.hashTable (keyTag fd) { clientId := (fd : ℕ), mode := memcpy s.cfg.mode s.gMode }
      server := .scan ready
      given := update s.given (keyTag fd) (memcpy s.cfg.mode s.gMode)
      moded := update s.moded (keyTag fd) false }
  | .leave ready => some { s with clientCnt := s.clientCnt - 1, server := .scan ready }
  | .lookup fd ready =>
    match hashGet s.hashTable (keyTag fd) with
    | none => some { s with server := .scan ready }
    | some value => some { s with cfg := value, server := .read fd ready }
  | .process fd buf ready =>
    some { s with charCnt := s.charCnt + (buf.length - 1), server := .write fd (convert s.cfg.mode buf) ready }
  | _ => none

/-- One step of the system, `none` where the thread does not stand before it. -/
def step (sock : Fd) (s : State) : Event → Option State
  | .command buf => if s.main = .prompt then (dispatch buf).map fun m => { s with main := m } else none
  | .mainSection => mainSection s
  | .select ready =>
    if s.server = .scan [] ∧ ready.Pairwise (· < ·) ∧ ∀ fd ∈ ready, s.readfds fd then
      some { s with server := .scan ready }
    else none
  | .accept fd' =>
    match s.server with
    | .scan (fd :: ready) =>
      if fd = sock ∧ s.readfds fd' = false then
        some { s with readfds := update s.readfds fd' true, server := .register fd' ready }
      else none
    | _ => none
  | .hangup =>
    match s.server with
    | .scan (fd :: ready) =>
      if fd = sock then none
      else some { s with
        readfds := update s.readfds fd false
        hashTable := hashRemove s.hashTable (keyTag fd)
        server := .leave ready }
    | _ => none
  | .arrival =>
    match s.server with
    | .scan (fd :: ready) => if fd = sock then none else some { s with server := .lookup fd ready }
    | _ => none
  | .serverSection => serverSection s
  | .read buf =>
    match s.server with
    | .read fd ready => some { s with server := .process fd buf ready }
    | _ => none
  | .write =>
    match s.server with
    | .write _ _ ready => some { s with server := .scan ready }
    | _ => none

def Next (sock : Fd) (s : State) (e : Event) (t : State) : Prop := step sock s e = some t

/-! ### Connected clients -/

variable {sock : Fd} {s t : State} {e : Event}

/-- The client that is accepted and not yet entered. -/
def Server.registering : Server → Option Fd
  | .register fd _ => some fd
  | _ => none

/-- The descriptors that the loop has not reached. -/
def Server.ready : Server → List Fd
  | .scan ready | .register _ ready | .leave ready | .lookup _ ready | .read _ ready | .process _ _ ready
  | .write _ _ ready => ready

/-- A client is removed and not yet counted. -/
def Server.leaving : Server → Bool
  | .leave _ => true
  | _ => false

/-- The descriptor of a client whose registration is done. -/
def connected (sock : Fd) (s : State) (fd : Fd) : Bool :=
  s.readfds fd && fd ≠ sock && s.server.registering ≠ some fd

def clients (sock : Fd) (s : State) : ℕ := Slots.tally (· = true) (connected sock s)

theorem keyTag_injective {a b : Fd} (h : keyTag a = keyTag b) : a = b := by
  unfold keyTag at h
  have h' := congrArg strtol h
  rw [strtol_decimal, strtol_decimal] at h'
  · exact Fin.ext (by omega)
  all_goals
    have ha := a.isLt
    have hb := b.isLt
    unfold FD_SETSIZE at ha hb
    omega

theorem connected_iff {fd : Fd} : connected sock s fd = true ↔ s.readfds fd = true ∧ fd ≠ sock ∧
    s.server.registering ≠ some fd := by
  unfold connected
  simp [and_assoc]

variable {ready : List Fd}

/-- The client that is accepted counts as connected only after its registration. -/
theorem connected_accept {fd : Fd} (hs : s.server = .scan (sock :: ready))
    (hf : s.readfds fd = false) :
    connected sock { s with readfds := update s.readfds fd true, server := .register fd ready } =
      connected sock s := by
  funext fd'
  rw [Bool.eq_iff_iff, connected_iff, connected_iff, hs]
  by_cases h : fd' = fd
  · subst h
    simp [hf, Server.registering]
  · simp [update_of_ne h, Server.registering, Ne.symm h]

theorem connected_register {fd : Fd} (hs : s.server = .register fd ready)
    (hf : s.readfds fd = true) (hsock : fd ≠ sock) (t : State) (hr : t.readfds = s.readfds)
    (ht : t.server = .scan ready) : connected sock t = update (connected sock s) fd true := by
  funext fd'
  by_cases h : fd' = fd
  · subst h
    rw [update_self, connected_iff, hr, ht]
    exact ⟨hf, hsock, nofun⟩
  · rw [update_of_ne h, Bool.eq_iff_iff, connected_iff, connected_iff, hr, ht, hs]
    simp [Server.registering, Ne.symm h]

theorem connected_hangup {fd : Fd} (hs : s.server = .scan (fd :: ready)) (t : State)
    (hr : t.readfds = update s.readfds fd false) (ht : t.server = .leave ready) :
    connected sock t = update (connected sock s) fd false := by
  funext fd'
  by_cases h : fd' = fd
  · subst h
    rw [update_self, Bool.eq_false_iff, ne_eq, connected_iff, hr]
    simp
  · rw [update_of_ne h, Bool.eq_iff_iff, connected_iff, connected_iff, hr, ht, hs, update_of_ne h]
    simp [Server.registering]

theorem exists_update_iff {f : Fd → Bool} {fd : Fd} {b : Bool} {key : List Char}
    (hk : ¬key = keyTag fd) : (∃ fd', f fd' = true ∧ key = keyTag fd') ↔
    ∃ fd', update f fd b fd' = true ∧ key = keyTag fd' := by
  have hf : ∀ fd', key = keyTag fd' → update f fd b fd' = f fd' := by
    rintro fd' rfl
    exact update_of_ne (fun he => hk (congrArg keyTag he)) ..
  constructor
  · rintro ⟨fd', hfd', hkey⟩
    exact ⟨fd', (hf fd' hkey).trans hfd', hkey⟩
  · rintro ⟨fd', hfd', hkey⟩
    exact ⟨fd', (hf fd' hkey).symm.trans hfd', hkey⟩

/-! ### The invariant -/

/-- What the table says of the clients. -/
structure Isolated (sock : Fd) (s : State) : Prop where
  /-- The record under a name is that of the client of this name. -/
  own : ∀ key value, hashGet s.hashTable key = some value → key = decimal value.clientId
  /-- There is a record for each connected client, and no other. -/
  one : ∀ key, (hashGet s.hashTable key).isSome ↔ ∃ fd, connected sock s fd = true ∧ key = keyTag fd
  count : ∀ ready, s.server = .scan ready → s.clientCnt = clients sock s
  /-- The mode of a client is the one given when it connected, unless a command for it was
  executed. -/
  mode : ∀ key value, hashGet s.hashTable key = some value → value.mode ≠ s.given key → s.moded key = true

/-- The part of the invariant that is about the table, for the clients `conn`. -/
structure Records (table : Hash ServerInfo) (conn : Fd → Bool) (given : List Char → List Char)
    (moded : List Char → Bool) : Prop where
  own : ∀ key value, hashGet table key = some value → key = decimal value.clientId
  one : ∀ key, (hashGet table key).isSome ↔ ∃ fd, conn fd = true ∧ key = keyTag fd
  mode : ∀ key value, hashGet table key = some value → value.mode ≠ given key → moded key = true

structure Inv (sock : Fd)
    (s : State) : Prop extends Records s.hashTable (connected sock s) s.given s.moded where
  count : s.clientCnt = clients sock s + (if s.server.leaving then 1 else 0)
  listening : s.readfds sock = true
  ready : s.server.ready.Pairwise (· < ·)
  readable : ∀ fd ∈ s.server.ready, s.readfds fd = true
  accepted : ∀ fd, s.server.registering = some fd → s.readfds fd = true ∧ fd ≠ sock

/-- When a `mode` command stores `cfg`, it is the record of its client, which is still connected. -/
def Fresh (sock : Fd) (s : State) (e : Event) : Prop :=
  ∀ client mode, e = .mainSection → s.main = .set client mode →
    decimal s.cfg.clientId = client ∧ ∃ fd, connected sock s fd = true ∧ client = keyTag fd

theorem Inv.isolated (h : Inv sock s) : Isolated sock s where
  own := h.own
  one := h.one
  count ready hs := by
    have hc := h.count
    rw [hs] at hc
    change s.clientCnt = clients sock s + 0 at hc
    omega
  mode := h.mode

theorem Inv.at_server (h : Inv sock s) {server : Server} (hs : s.server = server) :
    s.clientCnt = clients sock s + (if server.leaving then 1 else 0) ∧
    server.ready.Pairwise (· < ·) ∧ ∀ fd ∈ server.ready, s.readfds fd = true := by
  subst hs
  exact ⟨h.count, h.ready, h.readable⟩

theorem not_connected_start (fd : Fd) : ¬connected sock (start sock) fd = true := by
  intro hfd
  obtain ⟨hr, hne, _⟩ := connected_iff.mp hfd
  exact absurd (of_decide_eq_true hr) hne

theorem inv_start (sock : Fd) : Inv sock (start sock) where
  own := nofun
  one key := by
    constructor
    · exact nofun
    · rintro ⟨fd, hfd, _⟩
      exact absurd hfd (not_connected_start fd)
  count := by
    have hzero : clients sock (start sock) = 0 := Slots.tally_eq_zero not_connected_start
    rw [hzero]
    rfl
  mode := nofun
  listening := decide_eq_true rfl
  ready := List.Pairwise.nil
  readable := nofun
  accepted := nofun

section records

variable {table : Hash ServerInfo} {conn : Fd → Bool} {given given' : List Char → List Char}
  {moded moded' : List Char → Bool} {fd : Fd} {value : ServerInfo}

theorem Records.inv (h : Records s.hashTable conn s.given s.moded) (hconn : connected sock s = conn)
    (hcount : s.clientCnt = Slots.tally (· = true) conn + (if s.server.leaving then 1 else 0))
    (hlistening : s.readfds sock = true) (hready : s.server.ready.Pairwise (· < ·))
    (hreadable : ∀ fd ∈ s.server.ready, s.readfds fd = true)
    (haccepted : ∀ fd, s.server.registering = some fd → s.readfds fd = true ∧ fd ≠ sock) :
    Inv sock s := by
  subst hconn
  exact ⟨h, hcount, hlistening, hready, hreadable, haccepted⟩

theorem Records.set (h : Records table conn given moded) (hid : decimal value.clientId = keyTag fd)
    (hmode : value.mode ≠ given' (keyTag fd) → moded' (keyTag fd) = true)
    (hgiven : ∀ key ≠ keyTag fd, given' key = given key)
    (hmoded : ∀ key ≠ keyTag fd, moded' key = moded key) :
    Records (hashSet table (keyTag fd) value) (update conn fd true) given' moded' := by
  refine ⟨fun key other hv => ?_, fun key => ?_, fun key other hv hne => ?_⟩
  · rw [hashGet_set] at hv
    split at hv
    next hk =>
      cases hv
      exact hk.trans hid.symm
    next => exact h.own key other hv
  · rw [hashGet_set]
    split
    next hk => exact ⟨fun _ => ⟨fd, update_self .., hk⟩, fun _ => rfl⟩
    next hk =>
      rw [h.one key]
      exact exists_update_iff hk
  · rw [hashGet_set] at hv
    split at hv
    next hk =>
      cases hv
      subst hk
      exact hmode hne
    next hk =>
      rw [hgiven key hk] at hne
      rw [hmoded key hk]
      exact h.mode key other hv hne

theorem Records.remove (h : Records table conn given moded) (fd : Fd) :
    Records (hashRemove table (keyTag fd)) (update conn fd false) given moded := by
  refine ⟨fun key other hv => ?_, fun key => ?_, fun key other hv => ?_⟩
  · rw [hashGet_remove] at hv
    split at hv
    next => cases hv
    next => exact h.own key other hv
  · rw [hashGet_remove]
    split
    next hk =>
      refine ⟨nofun, ?_⟩
      rintro ⟨fd', hfd', hk'⟩
      obtain rfl := keyTag_injective (hk.symm.trans hk')
      rw [update_self] at hfd'
      cases hfd'
    next hk =>
      rw [h.one key]
      exact exists_update_iff hk
  · rw [hashGet_remove] at hv
    split at hv
    next => cases hv
    next => exact h.mode key other hv

end records

theorem Inv.frame (h : Inv sock s) (htable : t.hashTable = s.hashTable) (hread : t.readfds =
    s.readfds) (hcount : t.clientCnt = s.clientCnt) (hgiven : t.given = s.given)
    (hmoded : t.moded = s.moded) (hserver : t.server.registering = s.server.registering)
    (hleaving : t.server.leaving = s.server.leaving) (hready : t.server.ready.Pairwise (· < ·))
    (hreadable : ∀ fd ∈ t.server.ready, s.readfds fd = true) : Inv sock t := by
  have hconn : connected sock t = connected sock s := by
    unfold connected
    rw [hread, hserver]
  refine Records.inv ?_ hconn ?_ ?_ hready ?_ ?_
  · rw [htable, hgiven, hmoded]
    exact h.toRecords
  · rw [hcount, hleaving]
    exact h.count
  · rw [hread]
    exact h.listening
  · rw [hread]
    exact hreadable
  · rw [hserver, hread]
    exact h.accepted

theorem Inv.set (h : Inv sock s) {client : List Char} {value : ServerInfo}
    (hid : decimal value.clientId = client)
    (hfd : ∃ fd, connected sock s fd = true ∧ client = keyTag fd) : Inv sock { s with
      cfg := value
      hashTable := hashSet s.hashTable client value
      main := .prompt
      moded := update s.moded client true } := by
  obtain ⟨fd, hfd, rfl⟩ := hfd
  have hset : Records (hashSet s.hashTable (keyTag fd) value) (update (connected sock s) fd true) s.given
      (update s.moded (keyTag fd) true) :=
    h.toRecords.set hid (fun _ => update_self ..) (fun _ _ => rfl) fun _ hk => update_of_ne hk ..
  have hsame : update (connected sock s) fd true = connected sock s := by
    conv_lhs => rw [← hfd]
    exact update_eq_self ..
  rw [hsame] at hset
  exact hset.inv rfl h.count h.listening h.ready h.readable h.accepted

theorem Inv.accept (h : Inv sock s) {fd : Fd} (hs : s.server = .scan (sock :: ready))
    (hf : s.readfds fd = false) :
    Inv sock { s with readfds := update s.readfds fd true, server := .register fd ready } := by
  obtain ⟨hcount, hready, hreadable⟩ := h.at_server hs
  have hsock : fd ≠ sock := by
    rintro rfl
    rw [h.listening] at hf
    cases hf
  refine Records.inv h.toRecords (connected_accept hs hf) hcount ?_ (pairwise_cons.mp hready).2 ?_ ?_
  · change update s.readfds fd true sock = true
    rw [update_of_ne hsock.symm]
    exact h.listening
  · intro fd' hfd'
    change update s.readfds fd true fd' = true
    by_cases he : fd' = fd
    · rw [he, update_self]
    · rw [update_of_ne he]
      exact hreadable fd' (mem_cons_of_mem _ hfd')
  · intro fd' hfd'
    cases hfd'
    exact ⟨update_self .., hsock⟩

theorem Inv.hangup (h : Inv sock s) {fd : Fd} (hs : s.server = .scan (fd :: ready))
    (hsock : fd ≠ sock) : Inv sock { s with
      readfds := update s.readfds fd false
      hashTable := hashRemove s.hashTable (keyTag fd)
      server := .leave ready } := by
  obtain ⟨hcount, hready, hreadable⟩ := h.at_server hs
  obtain ⟨hlt, hready⟩ := pairwise_cons.mp hready
  have hfd : connected sock s fd = true := by
    rw [connected_iff, hs]
    exact ⟨hreadable fd mem_cons_self, hsock, nofun⟩
  refine (h.toRecords.remove fd).inv (connected_hangup hs _ rfl rfl) ?_ ?_ hready ?_ nofun
  · have htally := Slots.tally_update (· = true) (connected sock s) fd false
    rw [if_pos hfd, if_neg Bool.false_ne_true] at htally
    unfold clients at hcount
    change s.clientCnt = _ + 0 at hcount
    change s.clientCnt = _ + 1
    omega
  · change update s.readfds fd false sock = true
    rw [update_of_ne hsock.symm]
    exact h.listening
  · intro fd' hfd'
    change update s.readfds fd false fd' = true
    rw [update_of_ne (ne_of_gt (hlt fd' hfd'))]
    exact hreadable fd' (mem_cons_of_mem _ hfd')

theorem Inv.register (h : Inv sock s) {fd : Fd} (hs : s.server = .register fd ready)
    (mode : List Char) : Inv sock { s with
      clientCnt := s.clientCnt + 1
      cfg := { clientId := (fd : ℕ), mode := mode }
      hashTable := hashSet s.hashTable (keyTag fd) { clientId := (fd : ℕ), mode := mode }
      server := .scan ready
      given := update s.given (keyTag fd) mode
      moded := update s.moded (keyTag fd) false } := by
  obtain ⟨hcount, hready, hreadable⟩ := h.at_server hs
  obtain ⟨hread, hsock⟩ := h.accepted fd (by rw [hs]; rfl)
  have hfd : ¬connected sock s fd = true := by
    rw [connected_iff, hs]
    exact fun hc => hc.2.2 rfl
  refine Records.inv ?_ (connected_register hs hread hsock _ rfl rfl) ?_ h.listening hready hreadable nofun
  · exact h.toRecords.set rfl (fun hne => absurd (update_self (keyTag fd) mode s.given).symm hne)
      (fun _ hk => update_of_ne hk ..) fun _ hk => update_of_ne hk ..
  · have htally := Slots.tally_update (· = true) (connected sock s) fd true
    rw [if_neg hfd, if_pos rfl] at htally
    unfold clients at hcount
    change s.clientCnt = _ + 0 at hcount
    change s.clientCnt + 1 = _ + 0
    omega

theorem Inv.leave (h : Inv sock s) (hs : s.server = .leave ready) :
    Inv sock { s with clientCnt := s.clientCnt - 1, server := .scan ready } := by
  have hconn : connected sock { s with clientCnt := s.clientCnt - 1, server := .scan ready } =
      connected sock s := by
    unfold connected
    rw [hs]
    rfl
  obtain ⟨hcount, hready, hreadable⟩ := h.at_server hs
  refine Records.inv h.toRecords hconn ?_ h.listening hready hreadable nofun
  unfold clients at hcount
  change s.clientCnt = _ + 1 at hcount
  change s.clientCnt - 1 = _ + 0
  omega

theorem Inv.mainSection (h : Inv sock s) (hg : Fresh sock s .mainSection)
    (hn : UServer.mainSection s = some t) : Inv sock t := by
  -- but for the last section, nothing that the invariant is about changes
  have hframe : ∀ cfg gMode main, Inv sock { s with cfg, gMode, main } := fun _ _ _ =>
    h.frame rfl rfl rfl rfl rfl rfl rfl h.ready h.readable
  unfold UServer.mainSection at hn
  split at hn
  next => cases hn
  next => cases hn
  next => cases hn; exact hframe ..
  next => cases hn; exact hframe ..
  next =>
    split at hn
    next => cases hn; exact hframe ..
    next => cases hn; exact hframe ..
  next client mode hm =>
    cases hn
    obtain ⟨hid, hfd⟩ := hg client mode rfl hm
    exact h.set hid hfd

/-- The server goes on with the same descriptors, or without the first one. -/
theorem Inv.goesOn (h : Inv sock s) {a b : Server} {cfg : ServerInfo} {charCnt : ℤ}
    (hs : s.server = a) (hready : b.ready.Sublist a.ready) (hreg : b.registering = a.registering)
    (hleaving : b.leaving = a.leaving) : Inv sock { s with cfg, charCnt, server := b } := by
  subst hs
  exact h.frame rfl rfl rfl rfl rfl hreg hleaving (h.ready.sublist hready)
    fun fd hfd => h.readable fd (hready.subset hfd)

theorem Inv.serverSection (h : Inv sock s) (hn : UServer.serverSection s = some t) :
    Inv sock t := by
  unfold UServer.serverSection at hn
  split at hn
  next hs => cases hn; exact h.register hs _
  next hs => cases hn; exact h.leave hs
  next hs =>
    split at hn
    next => cases hn; exact h.goesOn hs (.refl _) rfl rfl
    next => cases hn; exact h.goesOn hs (.refl _) rfl rfl
  next hs => cases hn; exact h.goesOn hs (.refl _) rfl rfl
  next => cases hn

theorem Inv.next (h : Inv sock s) (hg : Fresh sock s e) (hn : Next sock s e t) : Inv sock t := by
  unfold Next at hn
  cases e with
  | mainSection => exact h.mainSection hg hn
  | serverSection => exact h.serverSection hn
  | command buf =>
    simp only [step] at hn
    split at hn
    next =>
      obtain ⟨m, _, rfl⟩ := Option.map_eq_some_iff.mp hn
      exact h.frame rfl rfl rfl rfl rfl rfl rfl h.ready h.readable
    next => cases hn
  | select ready =>
    simp only [step] at hn
    split at hn
    next hr =>
      cases hn
      exact h.frame rfl rfl rfl rfl rfl (by rw [hr.1]; rfl) (by rw [hr.1]; rfl) hr.2.1 hr.2.2
    next => cases hn
  | accept fd' =>
    simp only [step] at hn
    split at hn
    next fd ready hs =>
      split at hn
      next hf =>
        obtain ⟨rfl, hf⟩ := hf
        cases hn
        exact h.accept hs hf
      next => cases hn
    next => cases hn
  | hangup =>
    simp only [step] at hn
    split at hn
    next hs =>
      split at hn
      next => cases hn
      next hf => cases hn; exact h.hangup hs hf
    next => cases hn
  | arrival =>
    simp only [step] at hn
    split at hn
    next hs =>
      split at hn
      next => cases hn
      next => cases hn; exact h.goesOn hs (sublist_cons_self ..) rfl rfl
    next => cases hn
  | read buf =>
    simp only [step] at hn
    split at hn
    next hs => cases hn; exact h.goesOn hs (.refl _) rfl rfl
    next => cases hn
  | write =>
    simp only [step] at hn
    split at hn
    next hs => cases hn; exact h.goesOn hs (.refl _) rfl rfl
    next => cases hn

/-- The table keeps the clients apart in every run in which a `mode` command stores the record of
its client, while the client is connected. -/
theorem isolated_of_fresh_run {es : List Event}
    (h : Run (Guarded (Fresh sock) (Next sock)) (start sock) es s) : Isolated sock s :=
  (h.invariant (inv_start sock) fun _ _ _ hi hg => hi.next hg.1 hg.2).isolated

/-- Client 4 connects. -/
def connectFour : List Event := [.select [3], .accept 4, .serverSection]

/-- A command for client 4, up to its first section. -/
def getFour : List Event := connectFour ++ [.command "mode 4 lower\n".toList, .mainSection]

/-- The steps that are fresh for client 4. -/
def freshStep (s : State) (e : Event) : Option State :=
  match s.main with
  | .set client _ =>
    if decimal s.cfg.clientId = client ∧ connected 3 s 4 = true ∧ client = keyTag 4 then step 3 s e else none
  | _ => step 3 s e

theorem run_of_freshStep {es : List Event} (h : es.foldlM freshStep s = some t) :
    Run (Guarded (Fresh 3) (Next 3)) s es t := by
  refine Run.of_foldlM (fun e _ s t hst => ?_) h
  unfold freshStep at hst
  split at hst
  next client mode hm =>
    split at hst
    next hf =>
      refine ⟨fun client' mode' _ hm' => ?_, hst⟩
      rw [hm] at hm'
      cases hm'
      exact ⟨hf.1, 4, hf.2⟩
    next => cases hst
  next hm => exact ⟨fun client mode _ hm' => absurd hm' (hm client mode), hst⟩

theorem modeFour_isolated : ∃ s,
      Run (Guarded (Fresh 3) (Next 3)) (start 3) (getFour ++ [.mainSection]) s ∧ Isolated 3 s := by
  have hend : ((getFour ++ [Event.mainSection]).foldlM freshStep (start 3)).isSome := by decide +kernel
  obtain ⟨s, hs⟩ := Option.isSome_iff_exists.mp hend
  have hr := run_of_freshStep hs
  exact ⟨s, hr, isolated_of_fresh_run hr⟩

/-- In a run of fresh steps, the next one keeps the table right exactly if it is fresh. -/
theorem isolated_next_iff {es : List Event}
    (h : Run (Guarded (Fresh sock) (Next sock)) (start sock) es s) (hn : Next sock s e t) :
    Isolated sock t ↔ Fresh sock s e := by
  have hinv : Inv sock s := h.invariant (inv_start sock) fun _ _ _ hi hg => hi.next hg.1 hg.2
  refine ⟨fun ht client mode he hm => ?_, fun hg => (hinv.next hg hn).isolated⟩
  subst he
  simp only [Next, step, mainSection, hm] at hn
  cases hn
  have hget : hashGet
    (hashSet s.hashTable client { clientId := s.cfg.clientId, mode := memcpy s.cfg.mode mode })
      client = some { clientId := s.cfg.clientId, mode := memcpy s.cfg.mode mode } := by
    rw [hashGet_set, if_pos rfl]
  exact ⟨(ht.own client _ hget).symm, (ht.one client).mp (Option.isSome_iff_exists.mpr ⟨_, hget⟩)⟩

/-- Client 4 is connected, and `main` stands before the second section of a command for it. -/
theorem isolated_next_four : ∃ s t, Run (Guarded (Fresh 3) (Next 3)) (start 3) getFour s ∧
      connected 3 s 4 = true ∧ s.main = .set (keyTag 4) LOWER ∧ Next 3 s .mainSection t ∧
      Fresh 3 s .mainSection ∧ (Isolated 3 t ↔ Fresh 3 s .mainSection) := by
  have hend : (getFour.foldlM freshStep (start 3)).map (fun s =>
      decide (connected 3 s 4 = true ∧ s.main = .set (keyTag 4) LOWER ∧ decimal s.cfg.clientId = keyTag 4)) =
        some true := by decide +kernel
  obtain ⟨s, hs, hv⟩ := Option.map_eq_some_iff.mp hend
  obtain ⟨hconn, hmain, hid⟩ := of_decide_eq_true hv
  obtain ⟨t, hn⟩ : ∃ t, Next 3 s .mainSection t := by
    simp [Next, step, mainSection, hmain]
  refine ⟨s, t, run_of_freshStep hs, hconn, hmain, hn, fun client mode _ hm => ?_,
    isolated_next_iff (run_of_freshStep hs) hn⟩
  rw [hmain] at hm
  cases hm
  exact ⟨hid, 4, hconn, rfl⟩

/-- Client 5 connects between the two sections of the command for client 4. -/
def modeRace : List Event :=
  connectFour ++ [.command "mode 4 lower\n".toList, .mainSection, .select [3], .accept 5,
    .serverSection, .mainSection]

theorem modeRace_not_isolated : ∃ s, Run (Next 3) (start 3) modeRace s ∧ ¬Isolated 3 s := by
  have hend : (modeRace.foldlM (step 3) (start 3)).map
      (fun s => (hashGet s.hashTable ['4']).map fun value => value.clientId) =
        some (some 5) := by decide +kernel
  obtain ⟨s, hs, hv⟩ := Option.map_eq_some_iff.mp hend
  obtain ⟨value, hget, hid⟩ := Option.map_eq_some_iff.mp hv
  refine ⟨s, Run.of_foldlM (fun _ _ _ _ hst => hst) hs, fun h => ?_⟩
  have hown := h.own ['4'] value hget
  rw [hid] at hown
  exact absurd hown (by decide)

end Code365.OsLesson.UServer
