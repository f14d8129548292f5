import Code365.RjIpc.Service

/-! # `RjService`: commands on a byte stream

A client writes the words PING, ATTACH and DETACH one after another on a stream socket, with
nothing between them.  The service sees the stream in drains: each `handleRead` takes what one
run of `recv` calls returns, and `onEvent` looks for the three words in it.

A drain is obeyed as at most one command (`handleRead_drain`): one of those whose words lie whole
in the drain, ATTACH before DETACH before PING.  A command that is cut by a drain boundary, or
that shares its drain with one that goes first, is lost.  `serve_same_iff` says exactly when
the losses do not show in the attach list and the replies. -/

namespace Code365.RjIpc

open List Code365.Text

/-- The commands of a client. -/
inductive Command where
  | ping
  | attach
  | detach
deriving DecidableEq, Repr

namespace Command

def word : Command → List Char
  | ping => "PING".toList
  | attach => "ATTACH".toList
  | detach => "DETACH".toList

/-- The reply of the service to a command that it obeys. -/
def reply : Command → Option (List Char)
  | ping => some "PONG".toList
  | attach => none
  | detach => some "EXIT".toList

theorem word_length_pos (c : Command) : 0 < c.word.length := by cases c <;> decide

theorem word_ne_nil (c : Command) : c.word ≠ [] := ne_nil_of_length_pos c.word_length_pos

theorem eq_of_head?_word {c e : Command} : c.word.head? = e.word.head? → c = e := by
  cases c <;> cases e <;> decide

theorem nul_notMem_word (c : Command) : '\x00' ∉ c.word := by cases c <;> decide

end Command

/-- The bytes of a sequence of commands. -/
def text (cmds : List Command) : List Char := cmds.flatMap Command.word

/-- Where command `i` starts in the stream. -/
def start (cmds : List Command) (i : ℕ) : ℕ := (text (cmds.take i)).length

/-- The commands, by index, whose words lie whole between the bytes `lo` and `hi`. -/
def wholeIn (cmds : List Command) (lo hi : ℕ) : List ℕ :=
  (List.range cmds.length).filter (fun i => lo ≤ start cmds i ∧ start cmds (i + 1) ≤ hi)

/-- For every drain the commands that lie whole in it; the first drain starts at byte `lo`. -/
def arrivals (cmds : List Command) : ℕ → List (List Char) → List (List ℕ)
  | _, [] => []
  | lo, d :: ds => wholeIn cmds lo (lo + d.length) :: arrivals cmds (lo + d.length) ds

/-- Command `i` arrives whole in a drain that holds no other whole command. -/
def Alone (cmds : List Command) (drains : List (List Char)) (i : ℕ) : Prop :=
  [i] ∈ arrivals cmds 0 drains

instance (cmds : List Command) (drains : List (List Char)) (i : ℕ) :
    Decidable (Alone cmds drains i) := inferInstanceAs (Decidable (_ ∈ _))

/-- How often a client that is attached `n` times is attached after some commands. -/
def attachments : ℕ → List Command → ℕ
  | n, [] => n
  | n, .ping :: cs => attachments n cs
  | n, .attach :: cs => attachments (n + 1) cs
  | n, .detach :: cs => attachments (n - 1) cs

namespace Service

/-- The service reads the stream of connection `sender` on `fd`; every element of `reads` holds
the results of the `recv` calls of one `handleRead`, and all writes succeed. -/
def serve (s : Service) (fd : Fd) (sender : ℕ) (reads : List (List (List Char))) : Service :=
  reads.foldl (fun s recvs => (s.handleRead fd sender recvs .again true).2) s

def obey (fd : Fd) (sender : ℕ) (s : Service) : Command → Service
  | .ping => s.written fd "PONG".toList
  | .attach => s.attachFd fd sender
  | .detach => (s.written fd "EXIT".toList).detachFd fd

end Service

/-- Every command in a `handleRead` of its own. -/
def alone (cmds : List Command) : List (List (List Char)) := cmds.map (fun c => [c.word])

/-- The command of a drain that is obeyed, among those that lie whole in it. -/
def heard (cmds : List Command) (whole : List ℕ) : Option ℕ :=
  (whole.find? (fun i => cmds[i]? = some .attach)).or
    ((whole.find? (fun i => cmds[i]? = some .detach)).or (whole.find? (fun i => cmds[i]? = some .ping)))

/-! ### Where the words occur in the stream -/

section occurrences

@[simp] theorem text_nil : text [] = [] := rfl

@[simp] theorem text_cons (c : Command) (cmds : List Command) :
    text (c :: cmds) = c.word ++ text cmds := by
  simp [text]

@[simp] theorem text_append (cs ds : List Command) : text (cs ++ ds) = text cs ++ text ds := by
  simp [text]

theorem nul_notMem_text (cmds : List Command) : '\x00' ∉ text cmds := by
  intro h
  obtain ⟨c, _, hc⟩ := mem_flatMap.mp h
  exact c.nul_notMem_word hc

variable {cmds : List Command} {i : ℕ} {c : Command}

theorem text_split (h : cmds[i]? = some c) :
    text cmds = text (cmds.take i) ++ c.word ++ text (cmds.drop (i + 1)) := by
  obtain ⟨hi, rfl⟩ := List.getElem?_eq_some_iff.mp h
  conv_lhs => rw [← take_append_drop i cmds, drop_eq_getElem_cons hi]
  rw [text_append, text_cons, append_assoc]

theorem start_succ (h : cmds[i]? = some c) : start cmds (i + 1) = start cmds i + c.word.length := by
  unfold start
  rw [take_add_one, h, text_append, length_append]
  simp [text]

theorem start_mono (cmds : List Command) {j : ℕ} (h : i ≤ j) : start cmds i ≤ start cmds j := by
  obtain ⟨k, rfl⟩ := Nat.exists_eq_add_of_le h
  unfold start
  rw [take_add, text_append, length_append]
  omega

theorem start_lt (cmds : List Command) (h : i < cmds.length) :
    start cmds i < start cmds (i + 1) := by
  rw [start_succ (getElem?_eq_getElem h)]
  have := (cmds[i]).word_length_pos
  omega

theorem mem_wholeIn {lo hi : ℕ} :
    i ∈ wholeIn cmds lo hi ↔ i < cmds.length ∧ lo ≤ start cmds i ∧ start cmds (i + 1) ≤ hi := by
  simp [wholeIn]

/-- The first two letters of a word do not occur inside a word, and its last letter begins none. -/
theorem take_word_ne_drop_word (e c : Command) : ∀ j < e.word.length, j ≠ 0 →
    (e.word.drop j).take 2 ≠ c.word.take (min 2 (e.word.length - j)) := by
  cases e <;> cases c <;> decide

theorem eq_nil_of_word_append {e : Command} {p q r : List Char}
    (h : e.word ++ r = p ++ c.word ++ q) (hp : p.length < e.word.length) : p = [] ∧ c = e := by
  have hd : e.word.drop p.length ++ r = c.word ++ q := by
    have := congrArg (drop p.length) h
    rwa [drop_append_of_le_length hp.le, append_assoc, drop_left] at this
  rcases Nat.eq_zero_or_pos p.length with h0 | hpos
  · obtain rfl := eq_nil_of_length_eq_zero h0
    refine ⟨rfl, ?_⟩
    have hhead := congrArg head? hd
    rw [length_nil, drop_zero, head?_append_of_ne_nil _ e.word_ne_nil,
      head?_append_of_ne_nil _ c.word_ne_nil] at hhead
    exact Command.eq_of_head?_word hhead.symm
  · exfalso
    apply take_word_ne_drop_word e c p.length hp (by omega)
    have hk := congrArg (take (min 2 (e.word.length - p.length))) hd
    have hc : 2 ≤ c.word.length := by cases c <;> decide
    rw [take_append_of_le_length (by rw [length_drop]; omega),
      take_append_of_le_length (by omega)] at hk
    rw [← hk, take_eq_take_iff]
    simp

/-- A word occurs in the stream only where a command has it. -/
theorem exists_start_eq : ∀ {cmds : List Command} {p q : List Char},
    text cmds = p ++ c.word ++ q → ∃ i, cmds[i]? = some c ∧ start cmds i = p.length
  | [], p, q, h => by
    have := c.word_length_pos
    have hl := congrArg length h
    simp only [text_nil, length_nil, length_append] at hl
    omega
  | e :: cmds, p, q, h => by
    rw [text_cons] at h
    by_cases hp : p.length < e.word.length
    · obtain ⟨rfl, rfl⟩ := eq_nil_of_word_append h hp
      exact ⟨0, rfl, rfl⟩
    obtain ⟨p', rfl⟩ : ∃ p', p = e.word ++ p' := by
      rw [append_assoc, append_eq_append_iff] at h
      rcases h with ⟨p', hp', _⟩ | ⟨r, hr, _⟩
      · exact ⟨p', hp'⟩
      · have hl := congrArg length hr
        rw [length_append] at hl
        have : r = [] := eq_nil_of_length_eq_zero (by omega)
        rw [hr, this]
        simp
    rw [append_assoc, append_assoc, append_cancel_left_eq, ← append_assoc] at h
    obtain ⟨i, hi, hs⟩ := exists_start_eq h
    refine ⟨i + 1, by simpa using hi, ?_⟩
    simp only [start, take_succ_cons, text_cons, length_append] at hs ⊢
    omega

/-- A word lies in a drain exactly when a command with that word lies whole in it. -/
theorem word_infix_iff {u d v : List Char} (h : text cmds = u ++ d ++ v) (c : Command) :
    c.word <:+: d ↔ ∃ i ∈ wholeIn cmds u.length (u.length + d.length), cmds[i]? = some c := by
  constructor
  · rintro ⟨x, y, rfl⟩
    obtain ⟨i, hi, hs⟩ := exists_start_eq (p := u ++ x) (by simpa using h)
    refine ⟨i, mem_wholeIn.mpr ⟨(List.getElem?_eq_some_iff.mp hi).1, ?_, ?_⟩, hi⟩
    · rw [hs, length_append]
      omega
    · rw [start_succ hi, hs]
      simp only [length_append]
      omega
  · rintro ⟨i, hi, hc⟩
    obtain ⟨_, hlo, hhi⟩ := mem_wholeIn.mp hi
    rw [start_succ hc] at hhi
    have hsplit := text_split hc
    rw [h] at hsplit
    unfold start at hlo hhi
    -- the bytes before the word are those before the drain and some of the drain
    have hu : u <+: text (cmds.take i) := by
      have hpre : u <+: u ++ d ++ v := ⟨d ++ v, by simp⟩
      apply prefix_of_prefix_length_le hpre _ hlo
      exact ⟨c.word ++ text (cmds.drop (i + 1)), by rw [hsplit, append_assoc]⟩
    obtain ⟨x, hx⟩ := hu
    rw [← hx, append_assoc, append_assoc, append_assoc, append_cancel_left_eq] at hsplit
    rw [← hx, length_append] at hhi
    have hd : x ++ c.word <+: d := by
      have hpre : x ++ c.word <+: d ++ v := ⟨text (cmds.drop (i + 1)), by rw [hsplit, append_assoc]⟩
      apply prefix_of_prefix_length_le hpre ⟨v, rfl⟩
      rw [length_append]
      omega
    obtain ⟨y, hy⟩ := hd
    exact ⟨x, y, hy⟩

end occurrences

/-! ### A drain is obeyed as one command -/

section drains
variable {cmds : List Command} {i : ℕ}

theorem mem_of_heard {whole : List ℕ} (h : heard cmds whole = some i) : i ∈ whole := by
  unfold heard at h
  simp only [Option.or_eq_some_iff] at h
  rcases h with h | ⟨_, h | ⟨_, h⟩⟩ <;> exact mem_of_find?_eq_some h

/-- An ATTACH of the drain goes before the other commands. -/
theorem heard_attach {whole : List ℕ} {j : ℕ} (h : heard cmds whole = some i) (hj : j ∈ whole)
    (ha : cmds[j]? = some .attach) : cmds[i]? = some .attach := by
  cases hf : whole.find? (fun i => cmds[i]? = some .attach) with
  | none => exact absurd ha (by simpa using find?_eq_none.mp hf j hj)
  | some k =>
    rw [heard, hf, Option.some_or, Option.some.injEq] at h
    subst h
    simpa using find?_some hf

theorem heard_singleton {c : Command} (h : cmds[i]? = some c) : heard cmds [i] = some i := by
  cases c <;> simp [heard, h]

theorem find?_bind (whole : List ℕ) (c : Command) (rest : Option ℕ) :
    ((whole.find? (fun i => cmds[i]? = some c)).or rest).bind (cmds[·]?) =
    if ∃ i ∈ whole, cmds[i]? = some c then some c else rest.bind (cmds[·]?) := by
  cases hf : whole.find? (fun i => cmds[i]? = some c) with
  | none =>
    rw [if_neg]
    · simp
    · rintro ⟨i, hi, hc⟩
      exact absurd hc (by simpa using find?_eq_none.mp hf i hi)
  | some i =>
    have hc : cmds[i]? = some c := by simpa using find?_some hf
    rw [if_pos ⟨i, mem_of_find?_eq_some hf, hc⟩]
    simpa using hc

theorem heard_bind (whole : List ℕ) : (heard cmds whole).bind (cmds[·]?) = if ∃ i ∈ whole,
    cmds[i]? = some .attach then some .attach else if ∃ i ∈ whole, cmds[i]? = some .detach then some
    .detach else if ∃ i ∈ whole, cmds[i]? = some .ping then some .ping else none := by
  unfold heard
  rw [← Option.or_none (o := whole.find? (fun i => cmds[i]? = some .ping)), find?_bind, find?_bind,
    find?_bind]
  rfl

/-- **A drain is obeyed as one command** of those that lie whole in it, or as none. -/
theorem handleRead_drain {u v : List Char} (s : Service) (fd : Fd) (sender : ℕ)
    (recvs : List (List Char)) (h : text cmds = u ++ recvs.flatten ++ v) :
    (s.handleRead fd sender recvs .again true).2 =
    (((heard cmds (wholeIn cmds u.length (u.length + recvs.flatten.length))).bind (cmds[·]?)).elim s
    (s.obey fd sender)) := by
  have hnul : '\x00' ∉ recvs.flatten := fun hd => nul_notMem_text cmds (by rw [h]; simp [hd])
  have key : ∀ c : Command, strstr recvs.flatten c.word = true ↔
      ∃ i ∈ wholeIn cmds u.length (u.length + recvs.flatten.length), cmds[i]? = some c := fun c => by
    rw [strstr_iff hnul, word_infix_iff h c]
  rw [heard_bind]
  simp only [← key]
  by_cases hd : recvs.flatten = []
  · have hno : ∀ c : Command, ¬ strstr recvs.flatten c.word = true := by
      intro c
      rw [hd]
      cases c <;> decide
    rw [if_neg (hno _), if_neg (hno _), if_neg (hno _)]
    simp [Service.handleRead, hd]
  · rw [show (s.handleRead fd sender recvs .again true).2 = (s.onEvent fd sender recvs.flatten true).2 by
      simp [Service.handleRead, hd]]
    -- `onEvent` looks for the words in the same order
    unfold Service.onEvent Command.word
    split_ifs <;> rfl

end drains

/-! ### What a whole stream does -/

/-- The commands of the stream that are obeyed, by index. -/
def obeyed (cmds : List Command) (drains : List (List Char)) : List ℕ :=
  (arrivals cmds 0 drains).filterMap (heard cmds)

section served
variable {cmds : List Command} (fd : Fd) (sender : ℕ)

theorem serve_eq_foldl_arrivals : ∀ (reads : List (List (List Char))) (s : Service) (u : List Char),
    text cmds = u ++ (reads.map flatten).flatten →
    s.serve fd sender reads =
      (((arrivals cmds u.length (reads.map flatten)).filterMap (heard cmds)).filterMap
        (cmds[·]?)).foldl (Service.obey fd sender) s
  | [], _, _, _ => rfl
  | recvs :: reads, s, u, h => by
    simp only [map_cons, flatten_cons] at h
    have hd := handleRead_drain s fd sender recvs (h.trans (append_assoc _ _ _).symm)
    have ih := serve_eq_foldl_arrivals reads (s.handleRead fd sender recvs .again true).2
      (u ++ recvs.flatten) (h.trans (append_assoc _ _ _).symm)
    rw [length_append] at ih
    simp only [Service.serve, foldl_cons] at ih ⊢
    rw [ih, hd]
    simp only [map_cons, arrivals, filterMap_cons]
    cases heard cmds (wholeIn cmds u.length (u.length + recvs.flatten.length)) with
    | none => rfl
    | some i =>
      simp only [filterMap_cons, Option.bind_some]
      cases cmds[i]? <;> rfl

theorem serve_eq_foldl (s : Service) (reads : List (List (List Char)))
    (h : text cmds = (reads.map flatten).flatten) : s.serve fd sender reads =
    ((obeyed cmds (reads.map flatten)).filterMap (cmds[·]?)).foldl (Service.obey fd sender) s :=
  serve_eq_foldl_arrivals fd sender reads s [] h

theorem handleRead_word (s : Service) (c : Command) :
    (s.handleRead fd sender [c.word] .again true).2 = s.obey fd sender c := by
  cases c <;> rfl

theorem serve_alone (s : Service) (cmds : List Command) :
    s.serve fd sender (alone cmds) = cmds.foldl (Service.obey fd sender) s := by
  simp only [Service.serve, alone, foldl_map, handleRead_word]

end served

section arrivals
variable {cmds : List Command}

theorem exists_wholeIn_of_mem_arrivals : ∀ {ds : List (List Char)} {lo : ℕ} {w : List ℕ},
    w ∈ arrivals cmds lo ds → ∃ lo' hi, lo ≤ lo' ∧ w = wholeIn cmds lo' hi
  | [], _, _, h => absurd h not_mem_nil
  | d :: ds, lo, w, h => by
    rcases mem_cons.mp h with rfl | h
    · exact ⟨lo, _, le_rfl, rfl⟩
    · obtain ⟨lo', hi, hle, rfl⟩ := exists_wholeIn_of_mem_arrivals h
      exact ⟨lo', hi, by omega, rfl⟩

variable {lo i j : ℕ} {w : List ℕ} {ds : List (List Char)}

theorem lt_length_of_mem_arrivals (hw : w ∈ arrivals cmds lo ds) (hi : i ∈ w) :
    i < cmds.length := by
  obtain ⟨lo', hi', _, rfl⟩ := exists_wholeIn_of_mem_arrivals hw
  exact (mem_wholeIn.mp hi).1

theorem mem_arrivals_of_le {k : ℕ} (hw : w ∈ arrivals cmds lo ds) (hi : i ∈ w) (hk : k ∈ w)
    (hij : i ≤ j) (hjk : j ≤ k) : j ∈ w := by
  obtain ⟨lo', hi', _, rfl⟩ := exists_wholeIn_of_mem_arrivals hw
  rw [mem_wholeIn] at hi hk ⊢
  refine ⟨by omega, hi.2.1.trans (start_mono cmds hij), ?_⟩
  exact (start_mono cmds (by omega)).trans hk.2.2

theorem nodup_of_mem_arrivals (hw : w ∈ arrivals cmds lo ds) : w.Nodup := by
  obtain ⟨lo', hi', _, rfl⟩ := exists_wholeIn_of_mem_arrivals hw
  exact nodup_range.filter _

theorem arrivals_pairwise : ∀ (ds : List (List Char)) (lo : ℕ),
    (arrivals cmds lo ds).Pairwise (fun w w' => ∀ i ∈ w, ∀ j ∈ w', i < j)
  | [], _ => List.Pairwise.nil
  | d :: ds, lo => by
    refine pairwise_cons.mpr ⟨?_, arrivals_pairwise ds _⟩
    intro w' hw' i hi j hj
    obtain ⟨lo', hi', hle, rfl⟩ := exists_wholeIn_of_mem_arrivals hw'
    have h1 := (mem_wholeIn.mp hi).2.2
    have h2 := (mem_wholeIn.mp hj).2.1
    by_contra hlt
    have h3 := start_mono cmds (not_lt.mp hlt)
    have h4 := start_lt cmds (mem_wholeIn.mp hi).1
    omega

theorem eq_of_mem_arrivals {w' : List ℕ} (hw : w ∈ arrivals cmds lo ds)
    (hw' : w' ∈ arrivals cmds lo ds) (hi : i ∈ w) (hi' : i ∈ w') : w = w' := by
  have hdis : (arrivals cmds lo ds).Pairwise List.Disjoint :=
    (arrivals_pairwise ds lo).imp fun h i hi hi' => (h i hi i hi').false
  have : Std.Symm (List.Disjoint (α := ℕ)) := ⟨fun _ _ h _ hi hi' => h hi' hi⟩
  by_contra hne
  exact hdis.forall hw hw' hne hi hi'

theorem obeyed_pairwise (ds : List (List Char)) : (obeyed cmds ds).Pairwise (· < ·) := by
  rw [obeyed, pairwise_filterMap]
  apply (arrivals_pairwise ds 0).imp
  intro w w' h i hi j hj
  exact h i (mem_of_heard hi) j (mem_of_heard hj)

theorem heard_of_mem_obeyed (h : i ∈ obeyed cmds ds) (hw : w ∈ arrivals cmds 0 ds) (hi : i ∈ w) :
    heard cmds w = some i := by
  obtain ⟨w', hw', hh⟩ := mem_filterMap.mp h
  rwa [eq_of_mem_arrivals hw hw' hi (mem_of_heard hh)]

theorem eq_of_mem_obeyed (h : i ∈ obeyed cmds ds) (h' : j ∈ obeyed cmds ds)
    (hw : w ∈ arrivals cmds 0 ds) (hi : i ∈ w) (hj : j ∈ w) : j = i :=
  Option.some.inj ((heard_of_mem_obeyed h' hw hj).symm.trans (heard_of_mem_obeyed h hw hi))

theorem mem_obeyed_of_alone {c : Command} (h : Alone cmds ds i) (hc : cmds[i]? = some c) :
    i ∈ obeyed cmds ds :=
  mem_filterMap.mpr ⟨[i], h, heard_singleton hc⟩

/-- An obeyed command is alone unless another command of its drain is lost. -/
theorem alone_of_forall_mem (h : i ∈ obeyed cmds ds)
    (hother : ∀ w ∈ arrivals cmds 0 ds, i ∈ w → ∀ j ∈ w, j = i) : Alone cmds ds i := by
  obtain ⟨w, hw, hh⟩ := mem_filterMap.mp h
  have hi := mem_of_heard hh
  have hwi : w = [i] :=
    perm_singleton.mp ((perm_ext_iff_of_nodup (nodup_of_mem_arrivals hw)
      (nodup_singleton i)).mpr fun j => ⟨fun hj => by simp [hother w hw hi j hj], fun hj => by
        rw [mem_singleton] at hj
        exact hj ▸ hi⟩)
  unfold Alone
  exact hwi ▸ hw

end arrivals

/-! ### Losses

A stream whose commands are marked: the ones with `true` are obeyed, the others are lost. -/

def kept (m : List (Command × Bool)) : List Command := (m.filter (·.2)).map (·.1)

def full (m : List (Command × Bool)) : List Command := m.map (·.1)

def replies (cs : List Command) : List (List Char) := cs.filterMap Command.reply

/-- What a command of the owner of node `a` does to the attach list. -/
def attachAfter (a : Attached) (l : List Attached) : Command → List Attached
  | .ping => l
  | .attach => l ++ [a]
  | .detach => l.eraseP (fun b => b.fd == a.fd)

section losses

@[simp] theorem kept_cons_true (c : Command) (m : List (Command × Bool)) :
    kept ((c, true) :: m) = c :: kept m := by simp [kept]

@[simp] theorem kept_cons_false (c : Command) (m : List (Command × Bool)) :
    kept ((c, false) :: m) = kept m := by simp [kept]

@[simp] theorem full_cons (p : Command × Bool) (m : List (Command × Bool)) :
    full (p :: m) = p.1 :: full m := rfl

@[simp] theorem replies_cons_attach (cs : List Command) : replies (.attach :: cs) = replies cs := by
  simp [replies, filterMap_cons, Command.reply]

variable {c : Command}

theorem replies_cons {r : List Char} (h : c.reply = some r) (cs : List Command) :
    replies (c :: cs) = r :: replies cs := by
  simp [replies, h]

theorem Command.exists_reply (h : c ≠ .attach) : ∃ r, c.reply = some r := by
  cases c with
  | attach => exact absurd rfl h
  | ping | detach => exact ⟨_, rfl⟩

theorem foldl_obey_mAttachFd (fd : Fd) (sender : ℕ) :
    ∀ (cs : List Command) (s : Service), (cs.foldl (Service.obey fd sender) s).mAttachFd =
    cs.foldl (attachAfter ⟨fd, sender⟩) s.mAttachFd
  | [], _ => rfl
  | c :: cs, s => by
    rw [foldl_cons, foldl_cons, foldl_obey_mAttachFd fd sender cs]
    cases c <;> rfl

theorem foldl_obey_sent (fd : Fd) (sender : ℕ) : ∀ (cs : List Command) (s : Service),
    (cs.foldl (Service.obey fd sender) s).sent = s.sent ++ (replies cs).map (fun r => (fd, r))
  | [], s => by simp [replies]
  | c :: cs, s => by
    rw [foldl_cons, foldl_obey_sent fd sender cs]
    cases c with
    | attach => rw [replies_cons_attach]; rfl
    | ping => rw [replies_cons rfl]; simp [Service.obey, Service.written]
    | detach => rw [replies_cons rfl]; simp [Service.obey, Service.written, Service.detachFd]

theorem replies_kept_length_le (m : List (Command × Bool)) :
    (replies (kept m)).length ≤ (replies (full m)).length :=
  ((filter_sublist.map Prod.fst).filterMap Command.reply).length_le

/-- No reply is missing exactly when every PING and every DETACH is obeyed. -/
theorem replies_kept_iff : ∀ m : List (Command × Bool),
    replies (kept m) = replies (full m) ↔ ∀ p ∈ m, p.1 ≠ .attach → p.2 = true
  | [] => by simp [kept, full]
  | (c, b) :: m => by
    rw [forall_mem_cons, ← replies_kept_iff m, full_cons]
    by_cases hc : c = .attach
    · subst hc
      cases b <;> simp
    obtain ⟨r, hr⟩ := Command.exists_reply hc
    cases b with
    | true => simp [replies_cons hr]
    | false =>
      rw [kept_cons_false, replies_cons hr]
      constructor
      · intro h
        have hle := replies_kept_length_le m
        rw [h, length_cons] at hle
        omega
      · intro h
        exact absurd (h.1 hc) Bool.false_ne_true

theorem attachments_append : ∀ (cs ds : List Command) (n : ℕ),
    attachments n (cs ++ ds) = attachments (attachments n cs) ds
  | [], _, _ => rfl
  | c :: cs, ds, n => by cases c <;> simp [attachments, attachments_append cs ds]

/-- DETACH takes a node of the list `b` while there is one, and then one of those behind it. -/
theorem attachAfter_detach (a : Attached) (b : List Attached) (k : ℕ) :
    attachAfter a (b ++ replicate k a) .detach = if a.fd ∈ b.map Attached.fd then b.eraseP (fun x =>
    x.fd == a.fd) ++ replicate k a else b ++ replicate (k - 1) a := by
  simp only [attachAfter, eraseP_append]
  by_cases h : a.fd ∈ b.map Attached.fd
  · rw [if_pos h, if_pos]
    obtain ⟨x, hx, hfd⟩ := mem_map.mp h
    exact any_eq_true.mpr ⟨x, hx, by simpa using hfd⟩
  rw [if_neg h, if_neg]
  · cases k with
    | zero => rfl
    | succ k => simp [replicate_succ]
  · intro hany
    obtain ⟨x, hx, hfd⟩ := any_eq_true.mp hany
    exact h (mem_map.mpr ⟨x, hx, by simpa using hfd⟩)

theorem count_eraseP {a : Attached} : ∀ {b : List Attached}, a.fd ∈ b.map Attached.fd →
    ((b.eraseP (fun x => x.fd == a.fd)).map Attached.fd).count a.fd + 1 =
    (b.map Attached.fd).count a.fd
  | [], h => absurd h not_mem_nil
  | x :: b, h => by
    by_cases hx : x.fd = a.fd
    · simp [hx]
    · have hb : a.fd ∈ b.map Attached.fd := by
        rw [map_cons, mem_cons] at h
        exact h.resolve_left (Ne.symm hx)
      simpa [count_cons, hx] using count_eraseP hb

theorem exists_split_cons (c : Command) (x : Bool) (m : List (Command × Bool)) (n : ℕ) :
    (∃ m1 m2, (c, x) :: m = m1 ++ m2 ∧ attachments n (full m1) = 0 ∧ ∀ p ∈ m2, p.2 = true) ↔
    (n = 0 ∧ x = true ∧ ∀ p ∈ m, p.2 = true) ∨ ∃ m1 m2, m = m1 ++ m2 ∧
    attachments n (c :: full m1) = 0 ∧ ∀ p ∈ m2, p.2 = true := by
  constructor
  · rintro ⟨m1, m2, he, h0, hk⟩
    cases m1 with
    | nil =>
      subst he
      exact .inl ⟨h0, forall_mem_cons.mp hk⟩
    | cons p m1 =>
      obtain ⟨rfl, rfl⟩ := cons_eq_cons.mp he
      exact .inr ⟨m1, m2, rfl, h0, hk⟩
  · rintro (⟨h0, hx, hk⟩ | ⟨m1, m2, rfl, h0, hk⟩)
    · exact ⟨[], _, rfl, h0, forall_mem_cons.mpr ⟨hx, hk⟩⟩
    · exact ⟨(c, x) :: m1, m2, rfl, h0, hk⟩

variable {g n : ℕ}

theorem gap_iff {P Z : Prop} (hn : n = 0 → g = 0) :
    (g = 0 ∧ P) ∨ Z ↔ (g = 0 ∧ P) ∨ (n = 0 ∧ P) ∨ Z := by
  constructor
  · rintro (h | h)
    · exact .inl h
    · exact .inr (.inr h)
  · rintro (h | ⟨h, hp⟩ | h)
    · exact .inl h
    · exact .inl ⟨hn h, hp⟩
    · exact .inr h

/-- What is lost of the commands does not show: there is no gap `g` and nothing is lost, or nothing
is lost after a moment at which the client, attached `n` times before, is not attached. -/
def Closes (m : List (Command × Bool)) (n g : ℕ) : Prop :=
  (g = 0 ∧ ∀ p ∈ m, p.2 = true) ∨
    ∃ m1 m2, m = m1 ++ m2 ∧ attachments n (full m1) = 0 ∧ ∀ p ∈ m2, p.2 = true

theorem closes_nil (hn : n = 0 → g = 0) : Closes [] n g ↔ g = 0 := by
  constructor
  · rintro (⟨hg, _⟩ | ⟨m1, m2, he, h0, _⟩)
    · exact hg
    · obtain ⟨rfl, rfl⟩ := append_eq_nil_iff.mp he.symm
      exact hn h0
  · exact fun hg => .inl ⟨hg, by simp⟩

variable {m : List (Command × Bool)}

theorem closes_cons_true (hn : n = 0 → g = 0) :
    Closes ((c, true) :: m) n g ↔ Closes m (attachments n [c]) g := by
  unfold Closes
  rw [exists_split_cons, forall_mem_cons]
  simp only [true_and]
  cases c <;> exact (gap_iff hn).symm

theorem closes_cons_attach_false :
    Closes ((.attach, false) :: m) n g ↔ Closes m (n + 1) (g + 1) := by
  unfold Closes
  rw [exists_split_cons, forall_mem_cons]
  simp [attachments]

/-- A DETACH narrows it when only the list without losses has a node to lose. -/
theorem closes_cons_detach : Closes ((.detach, true) :: m) g g ↔ Closes m (g - 1) (g - 1) := by
  rw [closes_cons_true id]
  obtain rfl | hg := Nat.eq_zero_or_pos g
  · exact Iff.rfl
  constructor
  · rintro (⟨h0, _⟩ | h)
    · omega
    · exact .inr h
  · rintro (⟨h0, hk⟩ | h)
    · exact .inr ⟨[], m, rfl, h0, hk⟩
    · exact .inr h

/-- **When lost ATTACH commands do not show.**  The attach list with the losses has `k` nodes of
the client behind the nodes `b`, the one without losses has `g` more. -/
theorem attachAfter_kept_iff (a : Attached) :
    ∀ (m : List (Command × Bool)) (b : List Attached) (k g : ℕ), (∀ p ∈ m, p.1 ≠ .attach → p.2 =
    true) → ((kept m).foldl (attachAfter a) (b ++ replicate k a) = (full m).foldl (attachAfter a)
    (b ++ replicate (k + g) a) ↔ Closes m ((b.map Attached.fd).count a.fd + k + g) g)
  | [], b, k, g, _ => by
    rw [closes_nil (by omega), kept, full, filter_nil, map_nil, foldl_nil, foldl_nil,
      append_cancel_left_eq]
    constructor
    · intro h
      have hlen := congrArg length h
      rw [length_replicate, length_replicate] at hlen
      omega
    · rintro rfl
      rfl
  | (.attach, x) :: m, b, k, g, hm => by
    obtain ⟨_, hrest⟩ := forall_mem_cons.mp hm
    have hrep : ∀ j, attachAfter a (b ++ replicate j a) .attach = b ++ replicate (j + 1) a := fun j => by
      rw [attachAfter, append_assoc, ← replicate_succ']
    rw [full_cons, foldl_cons, hrep]
    cases x with
    | true =>
      have ih := attachAfter_kept_iff a m b (k + 1) g hrest
      rw [Nat.add_right_comm k, ← add_assoc, Nat.add_right_comm _ 1] at ih
      rw [kept_cons_true, foldl_cons, hrep, ih, closes_cons_true (by omega)]
      rfl
    | false =>
      rw [kept_cons_false, closes_cons_attach_false]
      exact attachAfter_kept_iff a m b k (g + 1) hrest
  | (.ping, x) :: m, b, k, g, hm => by
    obtain ⟨hx, hrest⟩ := forall_mem_cons.mp hm
    obtain rfl : x = true := hx (by simp)
    rw [kept_cons_true, full_cons, closes_cons_true (by omega)]
    exact attachAfter_kept_iff a m b k g hrest
  | (.detach, x) :: m, b, k, g, hm => by
    obtain ⟨hx, hrest⟩ := forall_mem_cons.mp hm
    obtain rfl : x = true := hx (by simp)
    rw [kept_cons_true, full_cons, foldl_cons, foldl_cons, attachAfter_detach, attachAfter_detach]
    by_cases hb : a.fd ∈ b.map Attached.fd
    · have hcount := count_eraseP hb
      rw [if_pos hb, if_pos hb, attachAfter_kept_iff a m _ k g hrest, closes_cons_true (by omega), ← hcount,
        Nat.add_right_comm _ 1 k, Nat.add_right_comm _ 1 g]
      rfl
    have hz : (b.map Attached.fd).count a.fd = 0 := count_eq_zero.mpr hb
    rw [if_neg hb, if_neg hb, hz, Nat.zero_add]
    cases k with
    | succ k =>
      have ih := attachAfter_kept_iff a m b k g hrest
      rw [hz, Nat.zero_add] at ih
      rw [Nat.add_right_comm, Nat.add_sub_cancel, Nat.add_sub_cancel, ih, closes_cons_true (by omega)]
      rfl
    | zero =>
      have ih := attachAfter_kept_iff a m b 0 (g - 1) hrest
      rw [hz, Nat.zero_add] at ih
      rw [Nat.zero_add, Nat.zero_sub, ih, closes_cons_detach]

end losses

/-! ### The stream and its commands -/

/-- The commands of a stream with the marks of those that are obeyed. -/
def marks (cmds : List Command) (drains : List (List Char)) : List (Command × Bool) :=
  cmds.zipIdx.map (fun p => (p.1, decide (p.2 ∈ obeyed cmds drains)))

section marks
variable {cmds : List Command} {ds : List (List Char)}

theorem full_marks : full (marks cmds ds) = cmds := by
  simp [full, marks, Function.comp_def]

theorem mem_marks {p : Command × Bool} :
    p ∈ marks cmds ds ↔ ∃ i, cmds[i]? = some p.1 ∧ p.2 = decide (i ∈ obeyed cmds ds) := by
  simp only [marks, mem_map, Prod.exists, mem_zipIdx_iff_getElem?]
  constructor
  · rintro ⟨c, i, hc, rfl⟩
    exact ⟨i, hc, rfl⟩
  · rintro ⟨i, hc, hp⟩
    exact ⟨p.1, i, hc, by rw [← hp]⟩

theorem kept_marks : kept (marks cmds ds) = (obeyed cmds ds).filterMap (cmds[·]?) := by
  have hidx : obeyed cmds ds = (cmds.zipIdx.filter (fun p => decide (p.2 ∈ obeyed cmds ds))).map Prod.snd := by
    apply (obeyed_pairwise ds).eq_of_mem_iff
    · have : (cmds.zipIdx.map Prod.snd).Pairwise (· < ·) := by
        rw [zipIdx_map_snd]
        exact pairwise_lt_range'
      exact this.sublist (filter_sublist.map Prod.snd)
    · intro i
      simp only [mem_map, mem_filter, decide_eq_true_eq, Prod.exists, exists_eq_right,
        mem_zipIdx_iff_getElem?]
      constructor
      · intro hi
        obtain ⟨w, hw, hh⟩ := mem_filterMap.mp hi
        have hlt := lt_length_of_mem_arrivals hw (mem_of_heard hh)
        exact ⟨_, getElem?_eq_getElem hlt, hi⟩
      · rintro ⟨_, _, hi⟩
        exact hi
  conv_rhs => rw [hidx]
  rw [filterMap_map, kept, marks, filter_map, map_map]
  symm
  rw [← filterMap_eq_map]
  apply filterMap_congr
  intro p hp
  exact mem_zipIdx_iff_getElem?.mp (mem_filter.mp hp).1

theorem obeyed_iff_alone : (∀ p ∈ marks cmds ds, p.1 ≠ .attach → p.2 = true) ↔
    ∀ i c, cmds[i]? = some c → c ≠ .attach → Alone cmds ds i := by
  constructor
  · intro h i c hi hc
    have hall : ∀ j d, cmds[j]? = some d → d ≠ .attach → j ∈ obeyed cmds ds := fun j d hj hd => by
      simpa using h (d, decide (j ∈ obeyed cmds ds)) (mem_marks.mpr ⟨j, hj, rfl⟩) hd
    have hio := hall i c hi hc
    apply alone_of_forall_mem hio
    intro w hw hiw j hj
    by_contra hne
    -- a command beside it is an ATTACH, which would be obeyed in its place
    have hjlt := lt_length_of_mem_arrivals hw hj
    have hja : cmds[j]? = some .attach := by
      by_contra hja
      have hjo := hall j cmds[j] (getElem?_eq_getElem hjlt) fun he =>
        hja (by rw [getElem?_eq_getElem hjlt, he])
      exact hne (eq_of_mem_obeyed hio hjo hw hiw hj)
    rw [heard_attach (heard_of_mem_obeyed hio hw hiw) hj hja, Option.some.injEq] at hi
    exact hc hi.symm
  · intro h p hp hc
    obtain ⟨i, hi, hp2⟩ := mem_marks.mp hp
    rw [hp2, decide_eq_true_eq]
    exact mem_obeyed_of_alone (h i _ hi hc) hi

theorem attachments_take_succ_pos {n i : ℕ} (h : cmds[i]? = some .attach) :
    0 < attachments n (cmds.take (i + 1)) := by
  rw [take_add_one, h, attachments_append]
  simp [attachments]

theorem kept_from_iff_alone {n k : ℕ} (hr : ∀ i c, cmds[i]? = some c → c ≠ .attach →
    Alone cmds ds i) (hk : k = 0 ∨ attachments n (cmds.take k) = 0) : (∀ i, k ≤ i →
    i < cmds.length → i ∈ obeyed cmds ds) ↔ ∀ i, k ≤ i → i < cmds.length → Alone cmds ds i := by
  constructor
  · intro h i hki hi
    apply alone_of_forall_mem (h i hki hi)
    intro w hw hiw j hj
    have hjlt := lt_length_of_mem_arrivals hw hj
    by_contra hne
    have hjo : j ∉ obeyed cmds ds := fun hjo => hne (eq_of_mem_obeyed (h i hki hi) hjo hw hiw hj)
    have hjk : j < k := by
      by_contra hjk
      exact hjo (h j (not_lt.mp hjk) hjlt)
    -- the command before `k` is no ATTACH, lies between the two, and is obeyed too
    obtain ⟨k, rfl⟩ : ∃ l, k = l + 1 := ⟨k - 1, by omega⟩
    have hklt : k < cmds.length := by omega
    have hkw : k ∈ w := mem_arrivals_of_le hw hj hiw (by omega) (by omega)
    have hkc : cmds[k] ≠ .attach := by
      intro hkc
      have := attachments_take_succ_pos (n := n) (getElem?_eq_getElem hklt |>.trans (congrArg some hkc))
      omega
    have hkq := getElem?_eq_getElem hklt
    have hko := mem_obeyed_of_alone (hr k _ hkq hkc) hkq
    have := eq_of_mem_obeyed (h i hki hi) hko hw hiw hkw
    omega
  · intro h i hki hi
    exact mem_obeyed_of_alone (h i hki hi) (getElem?_eq_getElem hi)

theorem marks_drop_iff {k : ℕ} : (∀ p ∈ (marks cmds ds).drop k, p.2 = true) ↔ ∀ i, k ≤ i →
    i < cmds.length → i ∈ obeyed cmds ds := by
  have hget : ∀ i, (marks cmds ds)[i]? = cmds[i]?.map (fun c => (c, decide (i ∈ obeyed cmds ds))) := by
    intro i
    simp only [marks, getElem?_map, getElem?_zipIdx, Option.map_map, Nat.zero_add]
    rfl
  constructor
  · intro h i hki hi
    obtain ⟨j, rfl⟩ := Nat.exists_eq_add_of_le hki
    have := h (cmds[k + j], decide (k + j ∈ obeyed cmds ds)) (mem_iff_getElem?.mpr ⟨j, by
      rw [getElem?_drop, hget, getElem?_eq_getElem hi, Option.map_some]⟩)
    simpa using this
  · intro h p hp
    obtain ⟨j, hj⟩ := mem_iff_getElem?.mp hp
    rw [getElem?_drop, hget, Option.map_eq_some_iff] at hj
    obtain ⟨c, hc, rfl⟩ := hj
    simpa using h (k + j) (by omega) (List.getElem?_eq_some_iff.mp hc).1

end marks

/-- **When the cutting of the stream does not matter.**  However a stream of commands arrives, the
attach list and the replies in the end are those of separate delivery exactly when every PING and
every DETACH arrives alone in its drain, and every command does from some point on: from the
beginning, or from a point at which, with separate delivery, the client is not attached. -/
theorem serve_same_iff (s : Service) (fd : Fd) (sender : ℕ) (cmds : List Command)
    (reads : List (List (List Char))) (h : (reads.map List.flatten).flatten = text cmds) :
    (s.serve fd sender reads).mAttachFd = (s.serve fd sender (alone cmds)).mAttachFd ∧
        (s.serve fd sender reads).sent = (s.serve fd sender (alone cmds)).sent ↔
      (∀ i c, cmds[i]? = some c → c ≠ .attach → Alone cmds (reads.map List.flatten) i) ∧
        ∃ k ≤ cmds.length, (k = 0 ∨ attachments (s.attachFds.count fd) (cmds.take k) = 0) ∧
          ∀ i, k ≤ i → i < cmds.length → Alone cmds (reads.map List.flatten) i := by
  rw [serve_eq_foldl fd sender s reads h.symm, serve_alone, foldl_obey_mAttachFd, foldl_obey_mAttachFd,
    foldl_obey_sent, foldl_obey_sent, append_cancel_left_eq,
    (map_injective_iff.mpr (Prod.mk_right_injective fd)).eq_iff, ← kept_marks]
  have hfull : full (marks cmds (reads.map List.flatten)) = cmds := full_marks
  generalize hm : marks cmds (reads.map List.flatten) = m at hfull
  conv_lhs => rw [← hfull]
  rw [and_comm, replies_kept_iff, ← hm, obeyed_iff_alone]
  refine and_congr_right fun hr => ?_
  have hiff := attachAfter_kept_iff ⟨fd,
    sender⟩ m s.mAttachFd 0 0 (by rw [← hm]; exact obeyed_iff_alone.mpr hr)
  simp only [replicate_zero, append_nil, add_zero, Closes, true_and] at hiff
  rw [hm, hiff]
  constructor
  · rintro (hk | ⟨m1, m2, hsplit, h0, hk⟩)
    · refine ⟨0, Nat.zero_le _, .inl rfl, (kept_from_iff_alone hr (n := 0) (.inl rfl)).mp ?_⟩
      exact marks_drop_iff.mp (by rw [hm]; simpa using hk)
    · have htake : cmds.take m1.length = full m1 := by
        rw [← hfull, hsplit]
        simp [full]
      have h0' : m1.length = 0 ∨ attachments (s.attachFds.count fd) (cmds.take m1.length) = 0 := by
        rw [htake]
        exact .inr h0
      refine ⟨m1.length, ?_, h0', (kept_from_iff_alone hr h0').mp ?_⟩
      · rw [← hfull, hsplit]
        simp [full]
      · exact marks_drop_iff.mp (by rw [hm, hsplit]; simpa using hk)
  · rintro ⟨k, hkle, hk, hal⟩
    have hdrop := marks_drop_iff.mpr ((kept_from_iff_alone hr hk).mpr hal)
    rw [hm] at hdrop
    rcases hk with rfl | hk
    · exact .inl (by simpa using hdrop)
    · refine .inr ⟨m.take k, m.drop k, (take_append_drop k m).symm, ?_, hdrop⟩
      rw [show full (m.take k) = cmds.take k by rw [← hfull]; simp [full]]
      exact hk

/-- PING in two `recv` calls of one drain, then ATTACH in a drain of its own. -/
theorem serve_same_ping_attach :
    ((([["PI".toList, "NG".toList], ["ATTACH".toList]].map List.flatten).flatten : List Char) =
      text [.ping, .attach]) ∧
      (((Service.new [0, 1, 2, 3, 4]).handleAccept 5 true).serve 5 0 [["PI".toList, "NG".toList],
      ["ATTACH".toList]]).mAttachFd = (((Service.new [0, 1, 2, 3, 4]).handleAccept 5 true).serve 5 0
      (alone [.ping, .attach])).mAttachFd ∧
      (((Service.new [0, 1, 2, 3, 4]).handleAccept 5 true).serve 5 0 [["PI".toList, "NG".toList],
      ["ATTACH".toList]]).sent = (((Service.new [0, 1, 2, 3, 4]).handleAccept 5 true).serve 5 0
      (alone [.ping, .attach])).sent := by
  have hal : ∀ i, i < 2 →
      Alone [.ping, .attach] ([["PI".toList, "NG".toList], ["ATTACH".toList]].map List.flatten) i := by
    decide
  refine ⟨by decide, (serve_same_iff _ 5 0 _ _ (by decide)).mpr ⟨?_, 0, by decide, .inl rfl, ?_⟩⟩
  · intro i c hi _
    exact hal i (List.getElem?_eq_some_iff.mp hi).1
  · intro i _ hi
    exact hal i hi

/-- ATTACH and PING in one drain: the PING is never answered. -/
theorem serve_merged_ping_lost :
    (([["ATTACHPING".toList]].map List.flatten).flatten : List Char) = text [.attach, .ping] ∧
      (((Service.new [0, 1, 2, 3, 4]).handleAccept 5 true).serve 5 0 [["ATTACHPING".toList]]).sent =
      [] ∧ (((Service.new [0, 1, 2, 3, 4]).handleAccept 5 true).serve 5 0
      (alone [.attach, .ping])).sent = [(5, "PONG".toList)] := by
  decide

/-- However the stream is cut, some of the commands are obeyed, in their order. -/
theorem serve_sublist (s : Service) (fd : Fd) (sender : ℕ) (cmds : List Command)
    (reads : List (List (List Char))) (h : (reads.map List.flatten).flatten = text cmds) :
    ∃ cs, cs <+ cmds ∧ s.serve fd sender reads = cs.foldl (Service.obey fd sender) s := by
  have hsub : kept (marks cmds (reads.map List.flatten)) <+
    full (marks cmds (reads.map List.flatten)) := filter_sublist.map _
  rw [full_marks] at hsub
  refine ⟨_, hsub, ?_⟩
  rw [serve_eq_foldl fd sender s reads h.symm, kept_marks]

theorem serve_sublist_merged : ∃ cs : List Command, cs <+ [.attach, .ping] ∧ (Service.new []).serve
      5 0 [["ATTACHPING".toList]] = cs.foldl (Service.obey 5 0) (Service.new []) :=
  serve_sublist _ 5 0 _ _ (by decide)

end Code365.RjIpc
