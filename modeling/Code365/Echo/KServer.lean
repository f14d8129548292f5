import Code365.Lib.Run
import Code365.Lib.Slots
import Code365.Lib.Text

/-! # The kernel echo server and its table of clients

Model of `os_lesson/echo/k_server/server.c`: the netlink callback `nl_recv_msg`, the write operation
of `/proc/socket_config`, and the table `info` of ten clients that both look up, and fill, through
`find_clinet`.  A step that writes outside an array, or reads past the end of one, has no value.

Of every state we also record which pids have sent a message and have not quit since, and
whether a registration has ever hit the entry of such a client.

`consistent_of_careful_run` is about the table in runs, `served_iff` about a message of a client
that is registered. -/

namespace Code365.Echo

open Finset Function Code365.Text

/-! ### Functions of the kernel -/

def isspace (c : Char) : Bool :=
  (9 ≤ c.toNat && c.toNat ≤ 13) || c.toNat == 32 || c.toNat == 160

def islower (c : Char) : Bool :=
  (97 ≤ c.toNat && c.toNat ≤ 122) || (223 ≤ c.toNat && c.toNat ≤ 255 && c.toNat != 247)

def isupper (c : Char) : Bool :=
  (65 ≤ c.toNat && c.toNat ≤ 90) || (192 ≤ c.toNat && c.toNat ≤ 222 && c.toNat != 215)

def toupper (c : Char) : Char := if islower c then Char.ofNat (c.toNat - 32) else c

def tolower (c : Char) : Char := if isupper c then Char.ofNat (c.toNat + 32) else c

/-- The buffer from its first character that is no blank. -/
def skipSpaces : List Char → Option (List Char)
  | [] => none
  | c :: s => if isspace c then skipSpaces s else some (c :: s)

/-- A word of the buffer and what follows it. -/
def scanWord : List Char → Option (List Char × List Char)
  | [] => none
  | c :: s =>
    if c = '\x00' ∨ isspace c then some ([], c :: s) else (scanWord s).map (fun r => (c :: r.1, r.2))

/-- The conversion `%s` into an array of ten bytes: the text after it, and the word unless the
text has ended. -/
def scanField (s : List Char) : Option (Option (List Char) × List Char) := do
  let s ← skipSpaces s
  if s.head? = some '\x00' then
    return (none, s)
  let (w, s) ← scanWord s
  if 10 ≤ w.length then none else return (some w, s)

/-- `sscanf(buf, "mode %s %s", key_tag, mode_buf)`: the two words, if both are there. -/
def sscanfMode (buf : List Char) : Option (Option (List Char × List Char)) := do
  if "mode".toList.isPrefixOf buf then
    let (key, s) ← scanField (buf.drop 4)
    match key with
    | none => return none
    | some key =>
      let (mode, _) ← scanField s
      return mode.map (key, ·)
  else return none

/-- The number of a run of decimal digits. -/
def strtoul (s : List Char) : ℕ :=
  (s.takeWhile Char.isDigit).foldl (fun n c => 10 * n + (c.toNat - 48)) 0

def simpleStrtol : List Char → ℤ
  | '-' :: s => -strtoul s
  | s => strtoul s

/-- `strncpy(dst, src, strlen(src))`, and `memcpy` of that many bytes: no NUL is written. -/
def copyTo (dst src : List Char) : List Char := src ++ dst.drop src.length

/-! ### The server -/

def BUF_SIZE : ℕ := 1024
def CLIENTS : ℕ := 10
def PROCFS_MAX_SIZE : ℕ := 1024
def QUIT : List Char := "quit".toList
def UPPER : List Char := "upper".toList
def LOWER : List Char := "lower".toList

/-- An entry of `info`. -/
structure Entry where
  clientId : ℤ
  mode : List Char
deriving DecidableEq, Repr

/-- `memset(&info_buf, 0, sizeof(info_buf))`. -/
def Entry.zero : Entry := ⟨0, List.replicate 10 '\x00'⟩

structure Server where
  info : Fin CLIENTS → Entry
  charCnt : ℤ
  clientCnt : ℤ
  gMode : List Char
  procfsBuffer : List Char
  active : Finset ℤ
  clobbered : Bool

/-- The text of a netlink message, a C string. -/
abbrev Message := {t : List Char // '\x00' ∉ t}

/-- What the mode of a client makes of its text. -/
def process (mode msg : List Char) : List Char :=
  if UPPER.isPrefixOf mode then msg.map toupper
  else if LOWER.isPrefixOf mode then msg.map tolower
  else msg

def slot? (n : ℤ) : Option (Fin CLIENTS) :=
  if h : n.toNat < CLIENTS then if 0 ≤ n then some ⟨n.toNat, h⟩ else none else none

namespace Server

def init : Server where
  info _ := Entry.zero
  charCnt := 0
  clientCnt := 0
  gMode := copyTo (List.replicate 10 '\x00') UPPER
  procfsBuffer := List.replicate PROCFS_MAX_SIZE '\x00'
  active := ∅
  clobbered := false

def clientId (s : Server) (i : Fin CLIENTS) : ℤ := (s.info i).clientId

/-- The first entry of a client. -/
def lookup (s : Server) (id : ℤ) : Option (Fin CLIENTS) :=
  (List.finRange CLIENTS).find? (fun i => s.clientId i == id)

/-- A new client in entry `k`. -/
def register (s : Server) (k : Fin CLIENTS) (id : ℤ) : Server :=
  { s with
    info := update s.info k ⟨id, copyTo (s.info k).mode (cstr s.gMode)⟩
    clientCnt := s.clientCnt + 1
    clobbered := s.clobbered || (s.clientId k != 0 && decide (s.clientId k ∈ s.active)) }

/-- `find_clinet(id, val)`: the result, `val` and the table. -/
def findClinet (s : Server) (id : ℤ) (val : Entry) : Option (ℤ × Entry × Server) :=
  if s.clientCnt = CLIENTS - 1 then some (2, val, s)
  else match s.lookup id with
    | some i => some (1, { val with mode := copyTo val.mode (cstr (s.info i).mode) }, s)
    | none => (slot? s.clientCnt).map (fun k =>
      let t := s.register k id
      (0, { val with mode := copyTo val.mode (cstr (t.info k).mode) }, t))

def updateClinet (s : Server) (id : ℤ) (val : Entry) : Server :=
  if s.clientCnt = CLIENTS - 1 then s
  else match s.lookup id with
    | some i => { s with
        info := update s.info i ⟨val.clientId, copyTo (s.info i).mode (cstr val.mode)⟩ }
    | none => s

/-- `nl_recv_msg` after the look-up, with the reply; `skb` says whether `nlmsg_new` succeeds.  A
text that does not fit into `msg` with its NUL is copied over what follows, or read past its end,
except that `quit` needs no NUL. -/
def answer (s : Server) (pid : ℤ) (infoBuf : Entry) (text : Message) (skb : Bool) :
    Option (Server × Option (List Char)) :=
  if BUF_SIZE < text.1.length then none
  else if QUIT.isPrefixOf text.1 then
    let s := s.updateClinet pid { infoBuf with clientId := 0 }
    some ({ s with clientCnt := s.clientCnt - 1 }, if skb then some text.1 else none)
  else if text.1.length = BUF_SIZE then none
  else
    let msg := process infoBuf.mode text.1
    some ({ s with charCnt := s.charCnt + (msg.length - 1) }, if skb then some msg else none)

def nlRecvMsg (s : Server) (pid : ℤ) (text : Message) (skb : Bool) : Option (Server × Option (List Char)) :=
  match s.findClinet pid Entry.zero with
  | none => none
  | some (ret, infoBuf, s) => if ret = 2 then some (s, none) else s.answer pid infoBuf text skb

/-- `procfile_write` once the configuration is read. -/
def configure (s : Server) (keyTag modeBuf : List Char) : Option Server :=
  if keyTag.head? = some '0' then some { s with gMode := copyTo s.gMode modeBuf }
  else
    let pid := simpleStrtol keyTag
    match s.findClinet pid Entry.zero with
    | none => none
    | some (ret, infoBuf, s) =>
      if ret = 1 then some (s.updateClinet pid ⟨pid, copyTo infoBuf.mode modeBuf⟩) else some s

/-- `procfile_write`; `fault` says that `copy_from_user` fails, after `data` has arrived. -/
def procfileWrite (s : Server) (data : List Char) (fault : Bool) : Option (ℤ × Server) :=
  let size : ℤ := min data.length PROCFS_MAX_SIZE
  let s := { s with procfsBuffer := copyTo s.procfsBuffer (data.take PROCFS_MAX_SIZE) }
  if fault then some (-14, s)
  else match sscanfMode s.procfsBuffer with
    | none => none
    | some none => some (size, s)
    | some (some (keyTag, modeBuf)) => (s.configure keyTag modeBuf).map (size, ·)

inductive Event where
  | message (pid : ℤ) (text : Message) (skb : Bool)
  | write (data : List Char) (fault : Bool)

def note (s : Server) (pid : ℤ) (text : Message) : Server :=
  { s with active := if QUIT.isPrefixOf text.1 then s.active.erase pid else insert pid s.active }

def step (s : Server) : Event → Option Server
  | .message pid text skb => (s.nlRecvMsg pid text skb).map (fun r => r.1.note pid text)
  | .write data fault => (s.procfileWrite data fault).map Prod.snd

/-- Pids are positive. -/
def Possible (_ : Server) : Event → Prop
  | .message pid _ _ => 0 < pid
  | .write _ _ => True

/-- A possible step; after an undefined one the server may be in any state. -/
def Next (s : Server) (e : Event) (t : Server) : Prop := s.Possible e ∧ MayStep step s e t

theorem possible_message {pid : ℤ} {text : Message} {skb : Bool} (s : Server) (h : 0 < pid) :
    s.Possible (.message pid text skb) := h

/-- The table is in order: the count is right, no client has two entries, the clients of the table
have sent a message and not quit since, and no registration has hit the entry of such a client. -/
structure Consistent (s : Server) : Prop where
  count : s.clientCnt = Slots.live 0 s.clientId
  distinct : Slots.Distinct 0 s.clientId
  active : ∀ i, s.clientId i ≠ 0 → s.clientId i ∈ s.active
  intact : s.clobbered = false

def Registered (s : Server) (id : ℤ) : Prop := ∃ i, s.clientId i = id

/-- The entry with index `client_cnt` exists and is free. -/
def NextFree (s : Server) : Prop := ∃ k, slot? s.clientCnt = some k ∧ s.clientId k = 0

/-- The text fits into `msg`. -/
def Fits (text : Message) : Prop :=
  text.1.length < BUF_SIZE ∨ text.1.length = BUF_SIZE ∧ QUIT.isPrefixOf text.1

/-- The steps that do not reach a defect.  With nine clients counted, no client quits; otherwise a
client that is not registered finds the entry `client_cnt` free, and does not quit at once when it
is the ninth; a write names no unknown client, except one that has sent a message and not quit.  No
text or word is too long for its array. -/
def Careful (s : Server) : Event → Prop
  | .message pid text _ =>
    (s.clientCnt ≠ CLIENTS - 1 → Fits text) ∧
      (s.Registered pid → QUIT.isPrefixOf text.1 → s.clientCnt ≠ CLIENTS - 1) ∧
      (¬ s.Registered pid → s.clientCnt ≠ CLIENTS - 1 →
        s.NextFree ∧ (QUIT.isPrefixOf text.1 → s.clientCnt + 1 ≠ CLIENTS - 1))
  | .write data fault => fault = false →
      ∃ r, sscanfMode (copyTo s.procfsBuffer (data.take PROCFS_MAX_SIZE)) = some r ∧
        ∀ key mode, r = some (key, mode) → key.head? ≠ some '0' → ¬ s.Registered (simpleStrtol key) →
          s.clientCnt ≠ CLIENTS - 1 → s.NextFree ∧ simpleStrtol key ∈ s.active

/-! ### The table functions -/

section table
variable {s : Server} {id : ℤ} {i k : Fin CLIENTS}

theorem clientId_of_lookup (h : s.lookup id = some i) : s.clientId i = id := by
  simpa using List.find?_some h

theorem lookup_eq_none (h : ¬ s.Registered id) : s.lookup id = none := by
  unfold lookup
  rw [List.find?_eq_none]
  intro i _ hi
  exact h ⟨i, by simpa using hi⟩

theorem exists_lookup (h : s.Registered id) : ∃ i, s.lookup id = some i ∧ s.clientId i = id := by
  obtain ⟨i, hi⟩ := h
  cases hl : s.lookup id with
  | none =>
    rw [lookup, List.find?_eq_none] at hl
    exact absurd hi (by simpa using hl i (List.mem_finRange i))
  | some j => exact ⟨j, rfl, clientId_of_lookup hl⟩

theorem clientId_of_info {t : Server} {e : Entry} (h : t.info = update s.info k e) :
    t.clientId = update s.clientId k e.clientId := by
  show Entry.clientId ∘ t.info = _
  rw [h, comp_update]
  rfl

@[simp] theorem clientId_register : (s.register k id).clientId = update s.clientId k id :=
  clientId_of_info (e := ⟨id, _⟩) rfl

theorem lookup_register (h : ¬ s.Registered id) : (s.register k id).lookup id = some k := by
  obtain ⟨j, hj, hid⟩ := exists_lookup (show (s.register k id).Registered id from ⟨k, by simp⟩)
  rw [hj]
  by_contra hne
  have hjk : j ≠ k := fun he => hne (by rw [he])
  rw [clientId_register, update_of_ne hjk] at hid
  exact h ⟨j, hid⟩

theorem findClinet_full {val : Entry} (h : s.clientCnt = CLIENTS - 1) :
    s.findClinet id val = some (2, val, s) := by
  rw [findClinet, if_pos h]

theorem findClinet_registered {val : Entry} (h : s.clientCnt ≠ CLIENTS - 1)
    (hl : s.lookup id = some i) : s.findClinet id val =
    some (1, { val with mode := copyTo val.mode (cstr (s.info i).mode) }, s) := by
  rw [findClinet, if_neg h, hl]

theorem findClinet_new (val : Entry) (h : s.clientCnt ≠ CLIENTS - 1) (hr : ¬ s.Registered id)
    (hk : slot? s.clientCnt = some k) :
    ∃ val', s.findClinet id val = some (0, val', s.register k id) := by
  rw [findClinet, if_neg h, lookup_eq_none hr, hk]
  exact ⟨_, rfl⟩

theorem updateClinet_eq {val : Entry} (h : s.clientCnt ≠ CLIENTS - 1) (hl : s.lookup id = some i) :
    s.updateClinet id val =
    { s with info := update s.info i ⟨val.clientId, copyTo (s.info i).mode (cstr val.mode)⟩ } := by
  rw [updateClinet, if_neg h, hl]

end table

/-! ### Messages -/

section messages
variable {s : Server} {pid : ℤ} {text : Message} {skb : Bool} {i k : Fin CLIENTS}

theorem nlRecvMsg_full (h : s.clientCnt = CLIENTS - 1) :
    s.nlRecvMsg pid text skb = some (s, none) := by
  rw [nlRecvMsg, findClinet_full h]
  rfl

theorem nlRecvMsg_registered (h : s.clientCnt ≠ CLIENTS - 1) (hl : s.lookup pid = some i) :
    s.nlRecvMsg pid text skb =
    s.answer pid ⟨0, copyTo Entry.zero.mode (cstr (s.info i).mode)⟩ text skb := by
  rw [nlRecvMsg, findClinet_registered h hl]
  rfl

theorem nlRecvMsg_new (text : Message) (skb : Bool) (h : s.clientCnt ≠ CLIENTS - 1)
    (hr : ¬ s.Registered pid) (hk : slot? s.clientCnt = some k) :
    ∃ val, s.nlRecvMsg pid text skb = (s.register k pid).answer pid val text skb := by
  obtain ⟨val, hv⟩ := findClinet_new Entry.zero h hr hk
  refine ⟨val, ?_⟩
  rw [nlRecvMsg, hv]
  rfl

/-- The table after a client has quit. -/
def release (s : Server) (i : Fin CLIENTS) (mode : List Char) : Server :=
  { s with info := update s.info i ⟨0, mode⟩, clientCnt := s.clientCnt - 1 }

theorem clientId_release (mode : List Char) : (s.release i mode).clientId = update s.clientId i 0 :=
  clientId_of_info (e := ⟨0, mode⟩) rfl

theorem Fits.le (hf : Fits text) : ¬ BUF_SIZE < text.1.length := by
  rcases hf with hf | hf <;> omega

theorem Fits.lt (hf : Fits text) (hq : ¬ QUIT.isPrefixOf text.1) : text.1.length < BUF_SIZE :=
  hf.resolve_right fun h => hq h.2

theorem answer_quit (val : Entry) (skb : Bool) (h : s.clientCnt ≠ CLIENTS - 1)
    (hl : s.lookup pid = some i) (hf : Fits text) (hq : QUIT.isPrefixOf text.1) : ∃ mode,
    s.answer pid val text skb = some (s.release i mode, if skb then some text.1 else none) := by
  refine ⟨copyTo (s.info i).mode (cstr val.mode), ?_⟩
  rw [answer, if_neg hf.le, if_pos hq, updateClinet_eq h hl]
  rfl

theorem answer_text (s : Server) (pid : ℤ) (val : Entry) (skb : Bool)
    (hf : text.1.length < BUF_SIZE) (hq : ¬ QUIT.isPrefixOf text.1) : ∃ n, s.answer pid val text
    skb = some ({ s with charCnt := n }, if skb then some (process val.mode text.1) else none) := by
  refine ⟨s.charCnt + ((process val.mode text.1).length - 1), ?_⟩
  rw [answer, if_neg hf.not_gt, if_neg hq, if_neg hf.ne]

theorem answer_eq_none {val : Entry} (hf : ¬ Fits text) : s.answer pid val text skb = none := by
  unfold Fits at hf
  push Not at hf
  unfold answer
  by_cases hlt : BUF_SIZE < text.1.length
  · rw [if_pos hlt]
  · have heq : text.1.length = BUF_SIZE := by omega
    rw [if_neg hlt, if_neg (hf.2 heq), if_pos heq]

end messages

/-! ### The table stays in order -/

section order
variable {s t : Server} {pid : ℤ} {text : Message} {skb : Bool} {i k : Fin CLIENTS}

theorem consistent_init : init.Consistent := by
  refine ⟨?_, ?_, ?_, rfl⟩
  · decide
  · exact fun i j hi _ => absurd rfl hi
  · exact fun i hi => absurd rfl hi

theorem step_message {reply : Option (List Char)} (h : s.nlRecvMsg pid text skb = some (t, reply)) :
    s.step (.message pid text skb) = some (t.note pid text) := by
  rw [step, h]
  rfl

theorem note_quit (hq : QUIT.isPrefixOf text.1) :
    (s.note pid text).active = s.active.erase pid := if_pos hq

theorem note_text (hq : ¬ QUIT.isPrefixOf text.1) :
    (s.note pid text).active = insert pid s.active := if_neg hq

namespace Consistent

variable (h : s.Consistent)
include h

theorem congr (hcnt : t.clientCnt = s.clientCnt)
    (hid : t.clientId = s.clientId) (hact : ∀ i, s.clientId i ∈ s.active → s.clientId i ∈ t.active)
    (hclob : t.clobbered = s.clobbered) : t.Consistent := by
  refine ⟨?_, ?_, ?_, ?_⟩
  · rw [hcnt, hid, h.count]
  · rw [hid]
    exact h.distinct
  · rw [hid]
    exact fun i hi => hact i (h.active i hi)
  · rw [hclob, h.intact]

theorem register (hr : ¬ s.Registered pid) (hk : s.clientId k = 0)
    (hcnt : t.clientCnt = s.clientCnt + 1) (hid : t.clientId = update s.clientId k pid)
    (hact : insert pid s.active ⊆ t.active) (hclob : t.clobbered = (s.register k pid).clobbered) :
    t.Consistent := by
  have hpid : pid ≠ 0 := fun h0 => hr ⟨k, by rw [hk, h0]⟩
  refine ⟨?_, ?_, ?_, ?_⟩
  · rw [hcnt, hid, Slots.live_fill hk hpid, h.count]
    rfl
  · rw [hid]
    exact h.distinct.fill fun i hi => hr ⟨i, hi⟩
  · rw [hid]
    intro i hi
    by_cases hik : i = k
    · subst hik
      rw [update_self]
      exact hact (mem_insert_self _ _)
    · rw [update_of_ne hik] at hi ⊢
      exact hact (mem_insert_of_mem (h.active i hi))
  · rw [hclob, Server.register, h.intact, hk]
    rfl

theorem release (hpid : pid ≠ 0) (hi : s.clientId i = pid)
    (hcnt : t.clientCnt = s.clientCnt - 1) (hid : t.clientId = update s.clientId i 0)
    (hact : t.active = s.active.erase pid) (hclob : t.clobbered = s.clobbered) : t.Consistent := by
  have hi0 : s.clientId i ≠ 0 := by rwa [hi]
  refine ⟨?_, ?_, ?_, ?_⟩
  · have := Slots.live_free hi0
    rw [hcnt, hid, h.count]
    omega
  · rw [hid]
    exact h.distinct.free
  · rw [hid]
    intro j hj
    by_cases hji : j = i
    · subst hji
      rw [update_self] at hj
      exact absurd rfl hj
    · rw [update_of_ne hji] at hj ⊢
      rw [hact, mem_erase]
      refine ⟨fun he => hji (h.distinct j i hj ?_), h.active j hj⟩
      rw [he, hi]
  · rw [hclob, h.intact]

theorem message_registered (hp : 0 < pid) (hfull : s.clientCnt ≠ CLIENTS - 1)
    (hr : s.Registered pid) (hf : Fits text) :
    ∃ t, s.step (.message pid text skb) = some t ∧ t.Consistent := by
  obtain ⟨i, hl, hi⟩ := exists_lookup hr
  by_cases hq : QUIT.isPrefixOf text.1
  · obtain ⟨mode, ha⟩ := answer_quit _ skb hfull hl hf hq
    rw [step_message ((nlRecvMsg_registered hfull hl).trans ha)]
    refine ⟨_, rfl, h.release hp.ne' hi rfl (clientId_release mode) ?_ rfl⟩
    rw [note_quit hq]
    rfl
  · obtain ⟨n, ha⟩ := answer_text s pid _ skb (hf.lt hq) hq
    rw [step_message ((nlRecvMsg_registered hfull hl).trans ha)]
    refine ⟨_, rfl, h.congr rfl rfl ?_ rfl⟩
    rw [note_text hq]
    exact fun i hi => mem_insert_of_mem hi

theorem message_new (hfull : s.clientCnt ≠ CLIENTS - 1) (hr : ¬ s.Registered pid) (hf : Fits text)
    (hk : s.NextFree) (hlast : QUIT.isPrefixOf text.1 → s.clientCnt + 1 ≠ CLIENTS - 1) :
    ∃ t, s.step (.message pid text skb) = some t ∧ t.Consistent := by
  obtain ⟨k, hslot, hk⟩ := hk
  obtain ⟨val, hv⟩ := nlRecvMsg_new text skb hfull hr hslot
  by_cases hq : QUIT.isPrefixOf text.1
  · obtain ⟨mode, ha⟩ := answer_quit val skb (hlast hq) (lookup_register hr) hf hq
    rw [step_message (hv.trans ha)]
    refine ⟨_, rfl, h.congr ?_ ?_ ?_ ?_⟩
    · exact Int.add_sub_cancel _ _
    · rw [show ∀ t : Server, (t.note pid text).clientId = t.clientId from fun _ => rfl, clientId_release,
        clientId_register, update_idem, ← hk, update_eq_self]
    · rw [note_quit hq]
      exact fun i hi => mem_erase.mpr ⟨fun he => hr ⟨i, he⟩, hi⟩
    · show (s.register k pid).clobbered = s.clobbered
      rw [Server.register, hk]
      simp
  · obtain ⟨n, ha⟩ := answer_text (s.register k pid) pid val skb (hf.lt hq) hq
    rw [step_message (hv.trans ha)]
    refine ⟨_, rfl, h.register hr hk rfl clientId_register ?_ rfl⟩
    rw [note_text hq]
    exact subset_rfl

theorem message (hp : 0 < pid) (hc : s.Careful (.message pid text skb)) :
    ∃ t, s.step (.message pid text skb) = some t ∧ t.Consistent := by
  obtain ⟨hfits, hreg, hnew⟩ := hc
  by_cases hfull : s.clientCnt = CLIENTS - 1
  · rw [step_message (nlRecvMsg_full hfull)]
    refine ⟨_, rfl, h.congr rfl rfl ?_ rfl⟩
    intro i hi
    by_cases hq : QUIT.isPrefixOf text.1
    · rw [note_quit hq, mem_erase]
      exact ⟨fun he => hreg ⟨i, he⟩ hq hfull, hi⟩
    · rw [note_text hq]
      exact mem_insert_of_mem hi
  · by_cases hr : s.Registered pid
    · exact h.message_registered hp hfull hr (hfits hfull)
    · exact h.message_new hfull hr (hfits hfull) (hnew hr hfull).1 (hnew hr hfull).2

/-- The configuration of a client that is not registered, unless all are counted, registers it. -/
theorem configure {key : List Char} (mode : List Char) (hc : key.head? ≠ some '0' →
    ¬ s.Registered (simpleStrtol key) → s.clientCnt ≠ CLIENTS - 1 → s.NextFree ∧
    simpleStrtol key ∈ s.active) : ∃ t, s.configure key mode = some t ∧ t.Consistent := by
  unfold Server.configure
  by_cases hg : key.head? = some '0'
  · rw [if_pos hg]
    exact ⟨_, rfl, h.congr rfl rfl (fun _ hi => hi) rfl⟩
  rw [if_neg hg]
  by_cases hfull : s.clientCnt = CLIENTS - 1
  · simp only [findClinet_full hfull]
    exact ⟨s, rfl, h⟩
  by_cases hr : s.Registered (simpleStrtol key)
  · obtain ⟨i, hl, hi⟩ := exists_lookup hr
    simp only [findClinet_registered hfull hl, updateClinet_eq hfull hl]
    refine ⟨_, rfl, h.congr rfl ?_ (fun _ hi => hi) rfl⟩
    rw [clientId_of_info rfl, ← hi, update_eq_self]
  · obtain ⟨⟨k, hslot, hk⟩, hact⟩ := hc hg hr hfull
    obtain ⟨val, hv⟩ := findClinet_new Entry.zero hfull hr hslot
    simp only [hv]
    exact ⟨_, rfl, h.register hr hk rfl clientId_register (insert_subset hact subset_rfl) rfl⟩

theorem write {data : List Char} {fault : Bool} (hc : s.Careful (.write data fault)) :
    ∃ t, s.step (.write data fault) = some t ∧ t.Consistent := by
  have hbuf : ∀ b, ({ s with procfsBuffer := b } : Server).Consistent :=
    fun b => h.congr rfl rfl (fun _ hi => hi) rfl
  unfold step procfileWrite
  cases fault with
  | true => exact ⟨_, rfl, hbuf _⟩
  | false =>
    obtain ⟨r, hscan, hconf⟩ := hc rfl
    simp only [hscan]
    cases r with
    | none => exact ⟨_, rfl, hbuf _⟩
    | some r =>
      obtain ⟨t, ht, hcons⟩ := (hbuf (copyTo s.procfsBuffer (data.take PROCFS_MAX_SIZE))).configure
        r.2 (hconf r.1 r.2 rfl)
      simp only [ht]
      exact ⟨t, rfl, hcons⟩

theorem step {e : Event} {t : Server} (hn : Guarded Careful Next s e t) : t.Consistent := by
  obtain ⟨hc, hp, hm⟩ := hn
  cases e with
  | message pid text skb =>
    obtain ⟨u, hu, hcons⟩ := h.message hp hc
    rw [hm.eq_of_some hu]
    exact hcons
  | write data fault =>
    obtain ⟨u, hu, hcons⟩ := h.write hc
    rw [hm.eq_of_some hu]
    exact hcons

end Consistent

end order

/-! ### Steps that are not careful -/

section careless
variable {s : Server} {pid : ℤ} {text : Message} {skb : Bool} {k : Fin CLIENTS} {e : Event}

theorem exists_inconsistent_of_undefined (hp : s.Possible e) (h : s.step e = none) :
    ∃ t, Next s e t ∧ ¬ t.Consistent :=
  ⟨{ s with clobbered := true }, ⟨hp, .inl h⟩, fun hc => absurd hc.intact (by simp)⟩

theorem register_clobbered (h : s.Consistent) (hk : s.clientId k ≠ 0) :
    (s.register k pid).clobbered = true := by
  unfold register
  simp [hk, h.active k hk]

theorem answer_clobbered {t : Server} {val : Entry} {reply : Option (List Char)}
    (h : s.answer pid val text skb = some (t, reply)) : t.clobbered = s.clobbered := by
  have hu : ∀ v, (s.updateClinet pid v).clobbered = s.clobbered := by
    intro v
    unfold updateClinet
    split_ifs
    · rfl
    · cases s.lookup pid <;> rfl
  unfold answer at h
  split_ifs at h <;> cases h
  · exact hu _
  · exact hu _
  · rfl
  · rfl

theorem exists_answer (pid : ℤ) (skb : Bool) (s : Server) (val : Entry) (hf : Fits text) :
    ∃ t reply, s.answer pid val text skb = some (t, reply) := by
  unfold answer
  rw [if_neg hf.le]
  by_cases hq : QUIT.isPrefixOf text.1
  · rw [if_pos hq]
    exact ⟨_, _, rfl⟩
  · rw [if_neg hq, if_neg (hf.lt hq).ne]
    exact ⟨_, _, rfl⟩

theorem findClinet_undefined {val : Entry} (h : s.clientCnt ≠ CLIENTS - 1) (hr : ¬ s.Registered pid)
    (hk : slot? s.clientCnt = none) : s.findClinet pid val = none := by
  rw [findClinet, if_neg h, lookup_eq_none hr, hk]
  rfl

/-- With nine clients counted, one of them quits and stays in the table. -/
theorem exists_inconsistent_full (hp : 0 < pid) (hfull : s.clientCnt = CLIENTS - 1)
    (hr : s.Registered pid) (hq : QUIT.isPrefixOf text.1) :
    ∃ t, Next s (.message pid text skb) t ∧ ¬ t.Consistent := by
  obtain ⟨i, hi⟩ := hr
  refine ⟨_, ⟨hp, MayStep.of_some (step_message (nlRecvMsg_full hfull))⟩, fun ht => ?_⟩
  have hid : (s.note pid text).clientId i = pid := hi
  have hact := ht.active i (by omega)
  rw [note_quit hq, hid] at hact
  exact notMem_erase _ _ hact

/-- The ninth client quits at once and stays in the table. -/
theorem exists_inconsistent_last (hp : 0 < pid) (hfull : s.clientCnt ≠ CLIENTS - 1)
    (hr : ¬ s.Registered pid) (hk : slot? s.clientCnt = some k) (hf : Fits text)
    (hq : QUIT.isPrefixOf text.1) (hlast : s.clientCnt + 1 = CLIENTS - 1) :
    ∃ t, Next s (.message pid text skb) t ∧ ¬ t.Consistent := by
  obtain ⟨val, hv⟩ := nlRecvMsg_new text skb hfull hr hk
  have hup : ∀ v, (s.register k pid).updateClinet pid v = s.register k pid := fun v => if_pos hlast
  rw [answer, if_neg hf.le, if_pos hq, hup] at hv
  refine ⟨_, ⟨hp, MayStep.of_some (step_message hv)⟩, fun ht => ?_⟩
  have hid : (s.register k pid).clientId k = pid := by simp
  have hact := ht.active k (fun h0 => by rw [← hid] at hp; exact hp.ne' h0)
  rw [note_quit hq] at hact
  exact (mem_erase.mp hact).1 hid

theorem exists_inconsistent_message (h : s.Consistent) (hp : 0 < pid)
    (hc : ¬ s.Careful (.message pid text skb)) :
    ∃ t, Next s (.message pid text skb) t ∧ ¬ t.Consistent := by
  by_cases hfull : s.clientCnt = CLIENTS - 1
  · have hq : s.Registered pid ∧ QUIT.isPrefixOf text.1 := by
      by_contra hq
      exact hc ⟨fun h => absurd hfull h, fun hr hq' => absurd ⟨hr, hq'⟩ hq, fun _ h => absurd hfull h⟩
    exact exists_inconsistent_full hp hfull hq.1 hq.2
  by_cases hr : s.Registered pid
  · obtain ⟨i, hl, -⟩ := exists_lookup hr
    have hf : ¬ Fits text := fun hf => hc ⟨fun _ => hf, fun _ _ => hfull, fun h => absurd hr h⟩
    apply exists_inconsistent_of_undefined (possible_message s hp)
    rw [step, nlRecvMsg_registered hfull hl, answer_eq_none hf]
    rfl
  cases hslot : slot? s.clientCnt with
  | none =>
    apply exists_inconsistent_of_undefined (possible_message s hp)
    rw [step, nlRecvMsg, findClinet_undefined hfull hr hslot]
    rfl
  | some k =>
    obtain ⟨val, hv⟩ := nlRecvMsg_new text skb hfull hr hslot
    by_cases hf : Fits text
    · by_cases hk : s.clientId k = 0
      · have hq : QUIT.isPrefixOf text.1 ∧ s.clientCnt + 1 = CLIENTS - 1 := by
          by_contra hq
          rw [not_and] at hq
          exact hc ⟨fun _ => hf, fun h => absurd h hr, fun _ _ => ⟨⟨k, hslot, hk⟩, hq⟩⟩
        exact exists_inconsistent_last hp hfull hr hslot hf hq.1 hq.2
      · obtain ⟨t, reply, ha⟩ := exists_answer pid skb (s.register k pid) val hf
        refine ⟨t.note pid text, ⟨hp, MayStep.of_some (step_message (hv.trans ha))⟩, fun ht => ?_⟩
        have hclob : t.clobbered = false := ht.intact
        rw [answer_clobbered ha, register_clobbered h hk] at hclob
        cases hclob
    · apply exists_inconsistent_of_undefined (possible_message s hp)
      rw [step, hv, answer_eq_none hf]
      rfl

theorem configure_inconsistent {key : List Char} (mode : List Char) (h : s.Consistent)
    (hg : key.head? ≠ some '0') (hr : ¬ s.Registered (simpleStrtol key))
    (hfull : s.clientCnt ≠ CLIENTS - 1) (hfree : s.NextFree → simpleStrtol key ∉ s.active) :
    s.configure key mode = none ∨ ∃ t, s.configure key mode = some t ∧ ¬ t.Consistent := by
  unfold configure
  rw [if_neg hg]
  cases hslot : slot? s.clientCnt with
  | none => exact .inl (by simp only [findClinet_undefined hfull hr hslot])
  | some k =>
    obtain ⟨val, hv⟩ := findClinet_new Entry.zero hfull hr hslot
    refine .inr ⟨s.register k (simpleStrtol key), by simp only [hv]; rfl, fun ht => ?_⟩
    by_cases hk : s.clientId k = 0
    · have hid : (s.register k (simpleStrtol key)).clientId k = simpleStrtol key := by simp
      have hact := ht.active k (by rw [hid]; exact fun h0 => hr ⟨k, by rw [hk, h0]⟩)
      rw [hid] at hact
      exact hfree ⟨k, hslot, hk⟩ hact
    · have hclob := ht.intact
      rw [register_clobbered h hk] at hclob
      cases hclob

theorem exists_inconsistent_write {data : List Char} {fault : Bool} (h : s.Consistent)
    (hc : ¬ s.Careful (.write data fault)) :
    ∃ t, Next s (.write data fault) t ∧ ¬ t.Consistent := by
  have hp : s.Possible (.write data fault) := trivial
  unfold Careful at hc
  push Not at hc
  obtain ⟨rfl, hc⟩ := hc
  cases hscan : sscanfMode (copyTo s.procfsBuffer (data.take PROCFS_MAX_SIZE)) with
  | none =>
    apply exists_inconsistent_of_undefined hp
    simp [step, procfileWrite, hscan]
  | some r =>
    obtain ⟨key, mode, rfl, hg, hr, hfull, hfree⟩ := hc r hscan
    have hbuf : ({ s with procfsBuffer := copyTo s.procfsBuffer (data.take PROCFS_MAX_SIZE) } :
        Server).Consistent := h.congr rfl rfl (fun _ hi => hi) rfl
    rcases configure_inconsistent mode hbuf hg hr hfull hfree with hnone | ⟨t, ht, hcons⟩
    · apply exists_inconsistent_of_undefined hp
      simp [step, procfileWrite, hscan, hnone]
    · refine ⟨t, ⟨hp, MayStep.of_some ?_⟩, hcons⟩
      simp [step, procfileWrite, hscan, ht]

/-- A step that is not careful can spoil the table. -/
theorem not_consistent_of_not_careful (h : s.Consistent) (hp : s.Possible e) (hc : ¬ s.Careful e) :
    ∃ t, Next s e t ∧ ¬ t.Consistent := by
  cases e with
  | message pid text skb => exact exists_inconsistent_message h hp hc
  | write data fault => exact exists_inconsistent_write h hc

end careless

theorem long_message_not_consistent :
    ∃ t, Next init (.message 1 ⟨.replicate (BUF_SIZE + 1) 'a', by simp⟩ true) t ∧ ¬ t.Consistent :=
  not_consistent_of_not_careful consistent_init
    (possible_message init one_pos) fun h => by simpa [Fits] using h.1 (by decide)

/-- **The table in runs.**  Wherever a run of careful steps leads, the table is in order. -/
theorem consistent_of_careful_run {es : List Event} {s : Server}
    (h : Run (Guarded Careful Next) init es s) : s.Consistent :=
  h.invariant consistent_init fun _ _ _ hI hn => hI.step hn

/-- A client that comes and goes. -/
theorem consistent_after_quit : ∃ s, Run (Guarded Careful Next) init
    [.message 7 ⟨"hello".toList, by decide⟩ true, .message 7 ⟨"quit".toList, by decide⟩ true] s ∧
      s.clientCnt = 0 ∧ s.Consistent := by
  have h1 : init.Careful (.message 7 ⟨"hello".toList, by decide⟩ true) :=
    ⟨fun _ => .inl (by decide), fun _ h => absurd h (by decide),
      fun _ _ => ⟨⟨⟨0, by decide⟩, rfl, rfl⟩, fun h => absurd h (by decide)⟩⟩
  obtain ⟨s, hs, hcnt, hid⟩ : ∃ s, init.step (.message 7 ⟨"hello".toList, by decide⟩ true) = some s ∧
      s.clientCnt = 1 ∧ s.clientId ⟨0, by decide⟩ = 7 := ⟨_, rfl, by decide, by decide⟩
  have h2 : s.Careful (.message 7 ⟨"quit".toList, by decide⟩ true) :=
    ⟨fun _ => .inl (by decide), fun _ _ => by rw [hcnt]; decide, fun h => absurd ⟨_, hid⟩ h⟩
  obtain ⟨t, ht, hcnt'⟩ : ∃ t, s.step (.message 7 ⟨"quit".toList, by decide⟩ true) = some t ∧
      t.clientCnt = 0 := by
    cases hs
    exact ⟨_, rfl, by decide⟩
  have hrun : Run (Guarded Careful Next) init [.message 7 ⟨"hello".toList, by decide⟩ true,
      .message 7 ⟨"quit".toList, by decide⟩ true] t :=
    Run.cons ⟨h1, by simp [Possible], MayStep.of_some hs⟩
      (Run.cons ⟨h2, by simp [Possible], MayStep.of_some ht⟩ (Run.nil t))
  exact ⟨t, hrun, hcnt', consistent_of_careful_run hrun⟩

/-- Client 5 leaves entry 0 and client 7 comes: it gets entry 1, where client 6 is. -/
theorem join_leave_join_not_consistent : ∃ s, Run Next init
    [.message 5 ⟨"a".toList, by decide⟩ true, .message 6 ⟨"b".toList, by decide⟩ true,
      .message 5 ⟨"quit".toList, by decide⟩ true, .message 7 ⟨"c".toList, by decide⟩ true] s ∧
    s.clientCnt = 2 ∧ Slots.live 0 s.clientId = 1 ∧ s.clobbered = true ∧ ¬ s.Consistent := by
  obtain ⟨s, hs, h1, h2, h3⟩ : ∃ s, List.foldlM step init
      [.message 5 ⟨"a".toList, by decide⟩ true, .message 6 ⟨"b".toList, by decide⟩ true,
        .message 5 ⟨"quit".toList, by decide⟩ true, .message 7 ⟨"c".toList, by decide⟩ true] = some s ∧
      s.clientCnt = 2 ∧ Slots.live 0 s.clientId = 1 ∧ s.clobbered = true :=
    ⟨_, rfl, by decide, by decide, by decide⟩
  refine ⟨s, Run.of_foldlM ?_ hs, h1, h2, h3, fun h => ?_⟩
  · intro e he s t hst
    refine ⟨?_, MayStep.of_some hst⟩
    simp only [List.mem_cons, List.not_mem_nil, or_false] at he
    rcases he with rfl | rfl | rfl | rfl <;> simp [Possible]
  · rw [h.intact] at h3
    cases h3

/-! ### Messages of registered clients -/

/-- A possible step that is defined. -/
def NextDefined (s : Server) (e : Event) (t : Server) : Prop := s.Possible e ∧ s.step e = some t

/-- A message of the client in entry `i` is answered with its text in the client's mode; if it is
`quit`, with the text as it is, the entry is freed and the count goes down. -/
def Served (s : Server) (i : Fin CLIENTS) (text : Message) : Prop :=
  ∃ t reply, s.nlRecvMsg (s.clientId i) text true = some (t, some reply) ∧
    if QUIT.isPrefixOf text.1 then
      reply = text.1 ∧ ¬ t.Registered (s.clientId i) ∧ t.clientId i = 0 ∧ t.clientCnt = s.clientCnt - 1
    else reply = process (cstr (s.info i).mode) text.1

section served
variable {s t : Server} {id pid : ℤ} {text : Message} {i : Fin CLIENTS}

theorem findClinet_some {val val' : Entry} {ret : ℤ}
    (h : s.findClinet id val = some (ret, val', t)) :
    t = s ∨ ¬ s.Registered id ∧ ∃ k, t = s.register k id := by
  by_cases hfull : s.clientCnt = CLIENTS - 1
  · rw [findClinet_full hfull] at h
    exact .inl (by cases h; rfl)
  by_cases hr : s.Registered id
  · obtain ⟨i, hl, -⟩ := exists_lookup hr
    rw [findClinet_registered hfull hl] at h
    exact .inl (by cases h; rfl)
  · rw [findClinet, if_neg hfull, lookup_eq_none hr, Option.map_eq_some_iff] at h
    obtain ⟨k, -, hk⟩ := h
    exact .inr ⟨hr, k, by cases hk; rfl⟩

section

variable (hd : Slots.Distinct 0 s.clientId)

include hd

theorem distinct_findClinet {val val' : Entry} {ret : ℤ}
    (h : s.findClinet id val = some (ret, val', t)) : Slots.Distinct 0 t.clientId := by
  rcases findClinet_some h with rfl | ⟨hr, k, rfl⟩
  · exact hd
  · rw [clientId_register]
    exact hd.fill fun i hi => hr ⟨i, hi⟩

theorem distinct_updateClinet {val : Entry}
    (hv : val.clientId = 0 ∨ val.clientId = id) :
    Slots.Distinct 0 (s.updateClinet id val).clientId := by
  by_cases hfull : s.clientCnt = CLIENTS - 1
  · rwa [updateClinet, if_pos hfull]
  cases hl : s.lookup id with
  | none => rwa [updateClinet, if_neg hfull, hl]
  | some i =>
    rw [updateClinet_eq hfull hl, clientId_of_info rfl]
    rcases hv with hv | hv
    · rw [hv]
      exact hd.free
    · rw [hv, ← clientId_of_lookup hl, update_eq_self]
      exact hd

theorem distinct_answer {val : Entry} {skb : Bool} {reply : Option (List Char)}
    (h : s.answer pid val text skb = some (t, reply)) :
    Slots.Distinct 0 t.clientId := by
  unfold answer at h
  split_ifs at h <;> cases h
  · exact distinct_updateClinet hd (.inl rfl)
  · exact distinct_updateClinet hd (.inl rfl)
  · exact hd
  · exact hd

theorem distinct_configure {key mode : List Char}
    (h : s.configure key mode = some t) : Slots.Distinct 0 t.clientId := by
  unfold configure at h
  by_cases hg : key.head? = some '0'
  · rw [if_pos hg] at h
    cases h
    exact hd
  rw [if_neg hg] at h
  cases hf : s.findClinet (simpleStrtol key) Entry.zero with
  | none => simp [hf] at h
  | some r =>
    have hd' := distinct_findClinet hd hf
    simp only [hf] at h
    split_ifs at h <;> cases h
    · exact distinct_updateClinet hd' (.inr rfl)
    · exact hd'

theorem distinct_step {e : Event} (h : s.step e = some t) :
    Slots.Distinct 0 t.clientId := by
  cases e with
  | message pid text skb =>
    rw [step, Option.map_eq_some_iff] at h
    obtain ⟨⟨u, reply⟩, hu, rfl⟩ := h
    show Slots.Distinct 0 u.clientId
    unfold nlRecvMsg at hu
    cases hf : s.findClinet pid Entry.zero with
    | none => simp [hf] at hu
    | some r =>
      have hd' := distinct_findClinet hd hf
      simp only [hf] at hu
      split_ifs at hu
      · cases hu
        exact hd'
      · exact distinct_answer hd' hu
  | write data fault =>
    rw [step, Option.map_eq_some_iff] at h
    obtain ⟨⟨size, u⟩, hu, rfl⟩ := h
    unfold procfileWrite at hu
    cases fault with
    | true =>
      cases hu
      exact hd
    | false =>
      simp only [Bool.false_eq_true, if_false] at hu
      cases hscan : sscanfMode (copyTo s.procfsBuffer (data.take PROCFS_MAX_SIZE)) with
      | none => simp [hscan] at hu
      | some r =>
        simp only [hscan] at hu
        cases r with
        | none =>
          cases hu
          exact hd
        | some r =>
          rw [Option.map_eq_some_iff] at hu
          obtain ⟨v, hv, heq⟩ := hu
          cases heq
          exact distinct_configure
            (s := { s with procfsBuffer := copyTo s.procfsBuffer (data.take PROCFS_MAX_SIZE) }) hd hv

end

theorem distinct_of_run {es : List Event} (h : Run NextDefined init es s) :
    Slots.Distinct 0 s.clientId :=
  h.invariant (fun _ _ hi _ => absurd rfl hi) fun _ _ _ hd hn => distinct_step hd hn.2

theorem process_copyTo_zero (mode msg : List Char) :
    process (copyTo Entry.zero.mode (cstr mode)) msg = process (cstr mode) msg := by
  have h : ∀ w : List Char, '\x00' ∉ w →
      w.isPrefixOf (copyTo Entry.zero.mode (cstr mode)) = w.isPrefixOf (cstr mode) := by
    intro w hw
    rw [copyTo, Entry.zero, List.drop_replicate]
    exact isPrefixOf_append_nul _ hw
  unfold process
  rw [h UPPER (by decide), h LOWER (by decide)]

end served

/-- **Whom the server serves.**  In every state that a run of defined steps leads to, a client of
the table is served exactly when the count is not nine and the text fits. -/
theorem served_iff {es : List Event} {s : Server} (h : Run NextDefined init es s) (i : Fin CLIENTS)
    (hi : 0 < s.clientId i) (text : Message) :
    s.Served i text ↔ s.clientCnt ≠ CLIENTS - 1 ∧ Fits text := by
  have hd := distinct_of_run h
  constructor
  · rintro ⟨t, reply, hrecv, -⟩
    have hfull : s.clientCnt ≠ CLIENTS - 1 := by
      intro hfull
      rw [nlRecvMsg_full hfull] at hrecv
      cases hrecv
    refine ⟨hfull, ?_⟩
    by_contra hf
    obtain ⟨j, hl, -⟩ := exists_lookup (⟨i, rfl⟩)
    rw [nlRecvMsg_registered hfull hl, answer_eq_none hf] at hrecv
    cases hrecv
  · rintro ⟨hfull, hf⟩
    obtain ⟨j, hl, hj⟩ := exists_lookup (⟨i, rfl⟩)
    obtain rfl : i = j := hd i j hi.ne' hj.symm
    by_cases hq : QUIT.isPrefixOf text.1
    · obtain ⟨mode, ha⟩ := answer_quit ⟨0, copyTo Entry.zero.mode (cstr (s.info i).mode)⟩ true hfull hl hf hq
      refine ⟨s.release i mode, text.1, by rw [nlRecvMsg_registered hfull hl, ha]; rfl, ?_⟩
      rw [if_pos hq, clientId_release, update_self]
      refine ⟨rfl, ?_, rfl, rfl⟩
      rintro ⟨j, hj⟩
      rw [clientId_release] at hj
      by_cases hji : j = i
      · subst hji
        rw [update_self] at hj
        omega
      · rw [update_of_ne hji] at hj
        exact hji (hd j i (by omega) hj)
    · obtain ⟨n, ha⟩ := answer_text s (s.clientId i) ⟨0, copyTo Entry.zero.mode (cstr (s.info i).mode)⟩ true
        (hf.lt hq) hq
      refine ⟨_, _, by rw [nlRecvMsg_registered hfull hl, ha]; rfl, ?_⟩
      rw [if_neg hq, process_copyTo_zero]

/-- The first client is served. -/
theorem served_first : ∃ s, Run NextDefined init [.message 7 ⟨"hello".toList, by decide⟩ true] s ∧
    s.Served ⟨0, by decide⟩ ⟨"abc".toList, by decide⟩ := by
  obtain ⟨s, hs, hcnt, hid⟩ : ∃ s, init.step (.message 7 ⟨"hello".toList, by decide⟩ true) = some s ∧
      s.clientCnt = 1 ∧ s.clientId ⟨0, by decide⟩ = 7 := ⟨_, rfl, by decide, by decide⟩
  have hrun : Run NextDefined init [.message 7 ⟨"hello".toList, by decide⟩ true] s :=
    Run.cons ⟨possible_message _ (by decide), hs⟩ (Run.nil s)
  refine ⟨s, hrun, (served_iff hrun ⟨0, by decide⟩ (by rw [hid]; decide) _).mpr ⟨?_, .inl (by decide)⟩⟩
  rw [hcnt]
  decide

/-- Nine clients send a message; then the first of them sends another, and gets no answer. -/
theorem nine_clients_not_served :
    ∃ s, Run NextDefined init (([1, 2, 3, 4, 5, 6, 7, 8, 9] : List ℤ).map (fun pid =>
      .message pid ⟨"a".toList, by decide⟩ true)) s ∧ s.clientId ⟨0, by decide⟩ = 1 ∧ 1 ∈ s.active ∧
      s.nlRecvMsg 1 ⟨"hello".toList, by decide⟩ true = some (s, none) ∧
      ¬ s.Served ⟨0, by decide⟩ ⟨"hello".toList, by decide⟩ := by
  obtain ⟨s, hs, hcnt, hid, hact⟩ : ∃ s, List.foldlM step init
      (([1, 2, 3, 4, 5, 6, 7, 8, 9] : List ℤ).map (fun pid => .message pid ⟨"a".toList, by decide⟩ true)) =
        some s ∧ s.clientCnt = CLIENTS - 1 ∧ s.clientId ⟨0, by decide⟩ = 1 ∧ 1 ∈ s.active :=
    ⟨_, rfl, by decide +kernel, by decide +kernel, by decide +kernel⟩
  refine ⟨s, Run.of_foldlM ?_ hs, hid, hact, nlRecvMsg_full hcnt, ?_⟩
  · intro e he s t hst
    obtain ⟨pid, hpid, rfl⟩ := List.mem_map.mp he
    have hpos : ∀ pid ∈ ([1, 2, 3, 4, 5, 6, 7, 8, 9] : List ℤ), 0 < pid := by decide
    exact ⟨possible_message s (hpos pid hpid), hst⟩
  · rintro ⟨t, reply, hrecv, -⟩
    rw [nlRecvMsg_full hcnt] at hrecv
    cases hrecv

end Server

end Code365.Echo
