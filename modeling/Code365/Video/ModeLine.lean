import Code365.Video.VideoCore

/-! # The rates of a mode line

`getResolutionList` looks for the mark of a rate in the whole rest of the line, first `*+`, then
` +`, then `*`.  So the flag of a rate is that of the strongest mark from there on (`flagOf`), and
when that is not the rate's own mark the cut takes in all rates up to it.  The rates of a line are
stored as they stand exactly when no mark is followed by a stronger one (`stored_iff`). -/

namespace Code365.Video

open Option List Text CString

/-- What may stand directly after a rate. -/
inductive Mark where
  | plain
  | cur
  | best
  | curBest
deriving DecidableEq, Repr

namespace Mark

def text : Mark → List Char
  | plain => []
  | cur => ['*']
  | best => [' ', '+']
  | curBest => ['*', '+']

def flag : Mark → ℕ
  | plain => 0
  | cur => devResCur
  | best => devResBest
  | curBest => devResBest ||| devResCur

/-- The order in which the code looks for marks, the last one first. -/
def rank : Mark → ℕ
  | plain => 0
  | cur => 1
  | best => 2
  | curBest => 3

/-- No mark of the list is looked for before this one. -/
def Leads (m : Mark) (ms : List Mark) : Prop := ∀ m' ∈ ms, m'.rank ≤ m.rank

end Mark

/-- Blanks, one at least, digits, a point, digits and a mark. -/
structure Rate where
  gap : ℕ
  whole : Digits
  frac : Digits
  mark : Mark

namespace Rate

/-- The text of a rate without the blanks before it. -/
def body (r : Rate) (rest : List Char) : List Char :=
  r.whole.text ++ '.' :: (r.frac.text ++ (r.mark.text ++ rest))

/-- The rate as it is written and marked. -/
def info (r : Rate) : RateInfo := ⟨r.whole.text ++ '.' :: r.frac.text, r.mark.flag⟩

end Rate

/-- Rates, and blanks at the end of the line. -/
def ratesText (n : ℕ) : List Rate → List Char
  | [] => List.replicate n ' '
  | r :: rs => List.replicate (r.gap + 1) ' ' ++ r.body (ratesText n rs)

def marks (rs : List Rate) : List Mark := rs.map Rate.mark

/-- No mark is followed by one that the code looks for first. -/
def Ordered (rs : List Rate) : Prop := (marks rs).Pairwise fun m m' => m'.rank ≤ m.rank

/-- A mode line with one rate or more, of a supported size that is not interlaced. -/
structure RateLine where
  blanks : ℕ
  width : Digits
  height : Digits
  supported : isSupportedRes width.value height.value
  first : Rate
  others : List Rate
  trailing : ℕ

namespace RateLine

variable (l : RateLine)

def rates : List Rate := l.first :: l.others

def res : List Char := l.width.text ++ 'x' :: l.height.text

def line : List Char := List.replicate l.blanks ' ' ++ (l.res ++ ratesText l.trailing l.rates)

/-- What should be stored for the line. -/
def resInfo : ResInfo :=
  { res := l.res
    flag := flagUnion (l.rates.map Rate.info)
    rateList := l.rates.map Rate.info }

/-- Under any connected device, the line adds its size with all of its rates, each with its flag. -/
def Stored : Prop := ∀ s : Scan, s.isConnected → step s l.line = some (s.pushRes l.resInfo)

end RateLine

/-! ### Marks in the rest of a line -/

/-- The flag that the search gives for some marks. -/
def flagOf (ms : List Mark) : ℕ :=
  if .curBest ∈ ms then devResBest ||| devResCur
  else if .best ∈ ms then devResBest
  else if .cur ∈ ms then devResCur
  else 0

theorem flagOf_eq_iff (m : Mark) (ms : List Mark) : flagOf (m :: ms) = m.flag ↔ m.Leads ms := by
  have hleads : m.Leads ms ↔ ∀ m', m.rank < m'.rank → m' ∉ ms := ⟨fun h m' hlt hmem =>
    absurd (h m' hmem) (by omega), fun h m' hmem => Nat.le_of_not_lt fun hlt => h m' hlt hmem⟩
  have hall : ∀ p : Mark → Prop, (∀ m', p m') ↔ p .plain ∧ p .cur ∧ p .best ∧ p .curBest := fun p =>
    ⟨fun h => ⟨h _, h _, h _, h _⟩, fun h m' => by cases m'; exacts [h.1, h.2.1, h.2.2.1, h.2.2.2]⟩
  rw [hleads, hall]
  unfold flagOf
  by_cases h3 : Mark.curBest ∈ ms <;> by_cases h2 : Mark.best ∈ ms <;> by_cases h1 :
    Mark.cur ∈ ms <;> cases m <;> simp [h1, h2, h3, Mark.rank, Mark.flag, devResBest, devResCur]

theorem head_ratesText (n : ℕ) (rs : List Rate) : ∀ c ∈ (ratesText n rs).head?, c = ' ' := by
  intro c hc
  cases rs with
  | nil => exact eq_of_mem_replicate (mem_of_mem_head? hc)
  | cons r rs =>
    exact (some.inj hc).symm

theorem head_mark_ne_plus (m : Mark) {t : List Char} (ht : t.head? ≠ some '+') :
    (m.text ++ t).head? ≠ some '+' := by
  cases m <;> simp [Mark.text, ht]

theorem head_ratesText_ne_plus (n : ℕ) (rs : List Rate) :
    (ratesText n rs).head? ≠ some '+' := fun h =>
  absurd (head_ratesText n rs '+' h) (by decide)

theorem Digits.head_append_ne (d : Digits) {c : Char} (hc : c.isDigit = false) (t : List Char) :
    (d.text ++ t).head? ≠ some c := by
  rw [head?_append_of_ne_nil _ d.ne_nil]
  exact fun h => d.notMem hc (mem_of_mem_head? h)

variable {a : Char}

theorem not_infix_of_notMem {s : List Char} (h : '+' ∉ s) :
    ¬ [a, '+'] <:+: s := fun hi => h (hi.subset (by simp))

theorem plus_infix_body (r : Rate) {t : List Char} (ht : t.head? ≠ some '+') :
    [a, '+'] <:+: r.body t ↔ [a, '+'] <:+: r.mark.text ∨ [a, '+'] <:+: t := by
  have hmark := head_mark_ne_plus r.mark ht
  have hpoint : ('.' :: (r.frac.text ++ (r.mark.text ++ t))) = ['.'] ++
    (r.frac.text ++ (r.mark.text ++ t)) := rfl
  unfold Rate.body
  rw [hpoint, pair_infix_append (by simp), pair_infix_append fun h => r.frac.head_append_ne rfl _ h.2,
    pair_infix_append fun h => hmark h.2, pair_infix_append fun h => ht h.2]
  simp [not_infix_of_notMem (r.whole.notMem rfl), not_infix_of_notMem (r.frac.notMem rfl),
    not_infix_of_notMem (s := ['.']) (by decide)]

/-- A `+` belongs to a mark, with the character before it. -/
theorem plus_infix_ratesText (n : ℕ) (rs : List Rate) :
    [a, '+'] <:+: ratesText n rs ↔ ∃ m ∈ marks rs, [a, '+'] <:+: m.text := by
  induction rs with
  | nil => simp [ratesText, marks, not_infix_of_notMem (s := replicate n ' ') (by simp [mem_replicate])]
  | cons r rs ih =>
    have hseam : ¬ ((replicate (r.gap + 1) ' ').getLast? = some a ∧
      (r.body (ratesText n rs)).head? = some '+') := fun h => r.whole.head_append_ne rfl _ h.2
    have hblank : '+' ∉ replicate (r.gap + 1) ' ' := by simp [mem_replicate]
    rw [ratesText, pair_infix_append hseam, plus_infix_body r (head_ratesText_ne_plus n rs), ih]
    simp [marks, not_infix_of_notMem hblank]

theorem star_mem_ratesText (n : ℕ) (rs : List Rate) :
    '*' ∈ ratesText n rs ↔ ∃ m ∈ marks rs, '*' ∈ m.text := by
  induction rs with
  | nil => simp [ratesText, marks, mem_replicate]
  | cons r rs ih =>
    have hwhole := r.whole.notMem (c := '*') rfl
    have hfrac := r.frac.notMem (c := '*') rfl
    rw [ratesText, mem_append, Rate.body, mem_append, mem_cons, mem_append, mem_append, ih]
    simp [marks, mem_replicate, hwhole, hfrac]

section Tail

variable (m : Mark) (n : ℕ) (rs : List Rate)

theorem plus_infix_tail {mark : Mark} (htext : ∀ m' : Mark, [a, '+'] <:+: m'.text ↔ mark = m') :
    [a, '+'] <:+: m.text ++ ratesText n rs ↔ mark ∈ m :: marks rs := by
  rw [pair_infix_append fun h => head_ratesText_ne_plus n rs h.2, plus_infix_ratesText]
  simp [htext]

theorem curBest_infix_tail :
    ['*', '+'] <:+: m.text ++ ratesText n rs ↔ .curBest ∈ m :: marks rs := by
  apply plus_infix_tail
  intro m'
  cases m' <;> simp [Mark.text, infix_cons_iff, cons_prefix_cons]

theorem best_infix_tail : [' ', '+'] <:+: m.text ++ ratesText n rs ↔ .best ∈ m :: marks rs := by
  apply plus_infix_tail
  intro m'
  cases m' <;> simp [Mark.text, infix_cons_iff, cons_prefix_cons]

theorem star_infix_tail :
    ['*'] <:+: m.text ++ ratesText n rs ↔ .cur ∈ m :: marks rs ∨ .curBest ∈ m :: marks rs := by
  have htext : ∀ m' : Mark, '*' ∈ m'.text ↔ .cur = m' ∨ .curBest = m' := by
    intro m'
    cases m' <;> simp [Mark.text]
  have hmem : ['*'] <:+: m.text ++ ratesText n rs ↔ '*' ∈ m.text ++ ratesText n rs := singleton_infix_iff '*' _
  rw [hmem, mem_append, star_mem_ratesText, htext]
  grind

end Tail

/-! ### One round of the loop -/

section Round

variable {pre : List Char} (r : Rate) (tail : List Char)

/-- The line from a rate on, after a text that ends with a blank and has no point. -/
def fromRate (pre : List Char) (r : Rate) (tail : List Char) : List Char :=
  pre ++ (r.whole.text ++ '.' :: (r.frac.text ++ tail))

def pointPos (pre : List Char) (r : Rate) : ℕ := pre.length + r.whole.text.length

theorem fromRate_eq :
    fromRate pre r tail = (pre ++ r.whole.text) ++ '.' :: (r.frac.text ++ tail) := by
  simp [fromRate]

theorem fromRate_eq_tail :
    fromRate pre r tail = (pre ++ r.whole.text ++ ['.'] ++ r.frac.text) ++ tail := by
  simp [fromRate]

theorem find?_point (hpre : '.' ∉ pre) :
    find? ['.'] (fromRate pre r tail) = some (pointPos pre r) := by
  have hleft : '.' ∉ pre ++ r.whole.text := by simp [hpre, r.whole.notMem (c := '.') rfl]
  rw [fromRate_eq]
  apply (find?_singleton_append _ hleft).trans
  simp [pointPos]

theorem str0_fromRate (hends : EndsWith ' ' pre) :
    between (fromRate pre r tail) (next (rfindTo? ' ' (fromRate pre r tail) (pointPos pre r)))
    (some (pointPos pre r)) = r.whole.text := by
  have hstart := next_rfindTo? hends (r.whole.notMem rfl) (x := '.') (by decide) (r.frac.text ++ tail)
  unfold fromRate pointPos
  rw [hstart, between_append]

/-- Nothing that is looked for starts with a point or a digit, so it is found in the tail. -/
theorem findFrom?_fromRate {w : List Char} (ha : a.isDigit = false) (hpoint : a ≠ '.') :
    findFrom? (a :: w) (fromRate pre r tail) (pointPos pre r) =
    (find? (a :: w) tail).map (· + (pointPos pre r + 1 + r.frac.text.length)) := by
  have hlen : pointPos pre r = (pre ++ r.whole.text).length := by simp [pointPos]
  have hapart :
    apart (a :: w) ('.' :: r.frac.text) := apart_of_head_notMem (by simp [hpoint, r.frac.notMem ha])
  rw [fromRate_eq, hlen, findFrom?_append, ← cons_append, find?_append_of_apart tail hapart, Option.map_map]
  congr 1
  funext k
  simp
  omega

theorem str1_fromRate : between (fromRate pre r tail) (pointPos pre r + 1)
    (some (pointPos pre r + 1 + r.frac.text.length)) = r.frac.text := by
  have hcut := between_append (pre ++ r.whole.text ++ ['.']) r.frac.text tail
  simpa [fromRate, pointPos, add_assoc] using hcut

theorem drop_fromRate (k : ℕ) :
    (fromRate pre r tail).drop (pointPos pre r + 1 + r.frac.text.length + k) = tail.drop k := by
  have hlen : pointPos pre r + 1 + r.frac.text.length =
      (pre ++ r.whole.text ++ ['.'] ++ r.frac.text).length := by
    simp [pointPos]
    omega
  rw [fromRate_eq_tail, hlen, drop_length_add_append]

variable (hpre : '.' ∉ pre) (hends : EndsWith ' ' pre)

include hpre hends

theorem nextRate_fromRate {stop : RateEnd} (hstop : rateEnd (fromRate pre r tail) (pointPos pre r)
    (rfindTo? ' ' (fromRate pre r tail) (pointPos pre r)) = stop) : nextRate (fromRate pre r tail) =
    some (⟨r.whole.text ++ '.' :: between (fromRate pre r tail) (pointPos pre r + 1) stop.strPos1,
    stop.flag⟩, (fromRate pre r tail).drop stop.rest) := by
  unfold nextRate
  rw [find?_point r tail hpre, map_some]
  simp only [str0_fromRate r tail hends, hstop]

theorem nextRate_of_found {flag k : ℕ}
    (hstop : rateEnd (fromRate pre r tail) (pointPos pre r) (rfindTo? ' ' (fromRate pre r tail)
    (pointPos pre r)) = ⟨some (pointPos pre r + 1 + r.frac.text.length), flag,
    pointPos pre r + 1 + r.frac.text.length + k⟩) : nextRate (fromRate pre r tail) =
    some (⟨r.whole.text ++ '.' :: r.frac.text, flag⟩, tail.drop k) := by
  rw [nextRate_fromRate r tail hpre hends hstop, str1_fromRate, drop_fromRate]

/-- At the end of the line `strPos1` is still before the rate, and the count of `substr` wraps. -/
theorem nextRate_end :
    nextRate (fromRate pre r []) = some (⟨r.whole.text ++ '.' :: r.frac.text, 0⟩, []) := by
  have hstop : rateEnd (fromRate pre r []) (pointPos pre r)
    (rfindTo? ' ' (fromRate pre r []) (pointPos pre r)) =
    ⟨rfindTo? ' ' (fromRate pre r []) (pointPos pre r), 0, (fromRate pre r []).length⟩ := by
    simp [rateEnd, findFrom?_fromRate, Text.find?]
  have hfrac : (fromRate pre r []).drop (pointPos pre r + 1) = r.frac.text := by
    have hsplit : fromRate pre r [] = (pre ++ r.whole.text ++ ['.']) ++ r.frac.text := by simp [fromRate]
    rw [hsplit]
    simp [pointPos, add_assoc]
  rw [nextRate_fromRate r [] hpre hends hstop, between_of_lt fun i hi => lt_of_rfindTo? hi, hfrac, drop_length]

variable {tail}

theorem nextRate_both (hboth : find? ['*', '+'] tail = some 0) : nextRate (fromRate pre r tail) =
    some (⟨r.whole.text ++ '.' :: r.frac.text, devResBest ||| devResCur⟩, tail.drop 2) := by
  apply nextRate_of_found r tail hpre hends
  simp [rateEnd, findFrom?_fromRate, hboth]

variable (hboth : find? ['*', '+'] tail = none)

include hboth

theorem nextRate_best (hbest : find? [' ', '+'] tail = some 0) : nextRate (fromRate pre r tail) =
    some (⟨r.whole.text ++ '.' :: r.frac.text, devResBest⟩, tail.drop 2) := by
  apply nextRate_of_found r tail hpre hends
  simp [rateEnd, findFrom?_fromRate, hboth, hbest]

theorem nextRate_cur (hbest : find? [' ', '+'] tail = none) (hcur : find? ['*'] tail = some 0) :
    nextRate (fromRate pre r tail) =
    some (⟨r.whole.text ++ '.' :: r.frac.text, devResCur⟩, tail.drop 1) := by
  apply nextRate_of_found r tail hpre hends
  simp [rateEnd, findFrom?_fromRate, hboth, hbest, hcur]

theorem nextRate_blank (hbest : find? [' ', '+'] tail = none) (hcur : find? ['*'] tail = none)
    (hblank : find? [' '] tail = some 0) : nextRate (fromRate pre r tail) =
    some (⟨r.whole.text ++ '.' :: r.frac.text, 0⟩, tail.drop 1) := by
  apply nextRate_of_found r tail hpre hends
  simp [rateEnd, findFrom?_fromRate, hboth, hbest, hcur, hblank]

end Round

section Search

variable {pre : List Char} (r : Rate) (n : ℕ) (rs : List Rate)

theorem fromRate_mark :
    fromRate pre r (r.mark.text ++ ratesText n rs) = pre ++ r.body (ratesText n rs) := rfl

theorem rateEnd_flag (q : Option ℕ) :
    (rateEnd (fromRate pre r (r.mark.text ++ ratesText n rs)) (pointPos pre r) q).flag =
    flagOf (r.mark :: marks rs) := by
  have hboth := curBest_infix_tail r.mark n rs
  have hbest := best_infix_tail r.mark n rs
  have hstar := star_infix_tail r.mark n rs
  unfold rateEnd flagOf
  simp only [findFrom?_fromRate r _ rfl (show '*' ≠ '.' by decide),
    findFrom?_fromRate r _ rfl (show ' ' ≠ '.' by decide)]
  cases h3 : find? ['*', '+'] (r.mark.text ++ ratesText n rs) with
  | some k => rw [if_pos (hboth.mp (infix_of_find? h3))]; rfl
  | none =>
    have hno3 := mt hboth.mpr (find?_eq_none_iff.mp h3)
    rw [if_neg hno3]
    cases h2 : find? [' ', '+'] (r.mark.text ++ ratesText n rs) with
    | some k => rw [if_pos (hbest.mp (infix_of_find? h2))]; rfl
    | none =>
      rw [if_neg (mt hbest.mpr (find?_eq_none_iff.mp h2))]
      cases h1 : find? ['*'] (r.mark.text ++ ratesText n rs) with
      | some k => rw [if_pos ((hstar.mp (infix_of_find? h1)).resolve_right hno3)]; rfl
      | none =>
        rw [if_neg fun h => find?_eq_none_iff.mp h1 (hstar.mpr (.inl h))]
        cases find? [' '] (r.mark.text ++ ratesText n rs) <;> rfl

/-- What the loop goes on with after a rate whose own mark is found: after an unmarked rate it has
skipped the blank. -/
def afterMark : Mark → List Char → List Char
  | .plain, t => t.drop 1
  | _, t => t

/-- A rate is cut as it stands when no later mark is stronger than its own. -/
theorem nextRate_of_leads (hpre : '.' ∉ pre) (hends : EndsWith ' ' pre)
    (hleads : r.mark.Leads (marks rs)) : nextRate (pre ++ r.body (ratesText n rs)) =
    some (r.info, afterMark r.mark (ratesText n rs)) := by
  have hno : ∀ m', r.mark.rank < m'.rank → m' ∉ r.mark :: marks rs := by
    intro m' hlt hmem
    rcases mem_cons.mp hmem with rfl | hmem
    · exact lt_irrefl _ hlt
    · exact absurd (hleads m' hmem) (by omega)
  have hboth := fun h => find?_eq_none_iff.mpr (mt (curBest_infix_tail r.mark n rs).mp (hno .curBest h))
  have hbest := fun h => find?_eq_none_iff.mpr (mt (best_infix_tail r.mark n rs).mp (hno .best h))
  have hstar := fun h h' => find?_eq_none_iff.mpr
    (mt (star_infix_tail r.mark n rs).mp (not_or.mpr ⟨hno .cur h, hno .curBest h'⟩))
  rw [← fromRate_mark]
  unfold Rate.info
  cases hm : r.mark with
  | curBest =>
    exact nextRate_both r hpre hends (find?_append_self ['*', '+'] _)
  | best =>
    rw [hm] at hboth
    exact nextRate_best r hpre hends (hboth (by decide)) (find?_append_self [' ', '+'] _)
  | cur =>
    rw [hm] at hboth hbest
    exact nextRate_cur r hpre hends (hboth (by decide)) (hbest (by decide)) (find?_append_self ['*'] _)
  | plain =>
    rw [hm] at hboth hbest hstar
    cases ht : ratesText n rs with
    | nil => exact nextRate_end r hpre hends
    | cons c t =>
      obtain rfl : c = ' ' := head_ratesText n rs c (by rw [ht]; rfl)
      rw [ht] at hboth hbest hstar
      exact nextRate_blank r hpre hends (hboth (by decide)) (hbest (by decide)) (hstar (by decide) (by decide))
        (find?_append_self [' '] t)

/-- Otherwise the rate gets the flag of another mark. -/
theorem nextRate_of_not_leads (hpre : '.' ∉ pre) (hends : EndsWith ' ' pre)
    (hleads : ¬ r.mark.Leads (marks rs)) : ∃ rateInfo rest,
    nextRate (pre ++ r.body (ratesText n rs)) = some (rateInfo, rest) ∧ rateInfo ≠ r.info := by
  refine ⟨_, _, nextRate_fromRate r _ hpre hends rfl, fun he => ?_⟩
  have hflag := congrArg RateInfo.flag he
  rw [rateEnd_flag] at hflag
  exact hleads ((flagOf_eq_iff r.mark (marks rs)).mp hflag)

end Search

/-! ### The whole loop -/

theorem rateLoop_blanks (k fuel : ℕ) : rateLoop (fuel + 1) (replicate k ' ') = some [] := by
  have hfind : find? ['.'] (replicate k ' ') = none := find?_singleton_eq_none (by simp [mem_replicate])
  rw [rateLoop, nextRate, hfind]
  rfl

theorem afterMark_last (m : Mark) (n : ℕ) :
    ∃ k, afterMark m (ratesText n []) = replicate k ' ' := by
  cases m with
  | plain => exact ⟨n - 1, by simp [afterMark, ratesText]⟩
  | cur | best | curBest => exact ⟨n, rfl⟩

theorem afterMark_cons (m : Mark) (n : ℕ) (r : Rate) (rs : List Rate) :
    ∃ k, afterMark m (ratesText n (r :: rs)) = replicate k ' ' ++ r.body (ratesText n rs) := by
  cases m with
  | plain => exact ⟨r.gap, by simp [afterMark, ratesText, replicate_succ]⟩
  | cur | best | curBest => exact ⟨r.gap + 1, rfl⟩

/-- The loop stores the rates as they stand exactly when their marks are in order. -/
theorem rateLoop_iff (n : ℕ) : ∀ (rs : List Rate) (r : Rate) {pre : List Char} {fuel : ℕ}, '.' ∉
    pre → EndsWith ' ' pre → (pre ++ r.body (ratesText n rs)).length < fuel → (rateLoop fuel (pre ++
    r.body (ratesText n rs)) = some ((r :: rs).map Rate.info) ↔ Ordered (r :: rs))
  | rs, r, pre, fuel + 1, hpre, hends, hfuel => by
    have hordered : Ordered (r :: rs) ↔ r.mark.Leads (marks rs) ∧ Ordered rs := pairwise_cons
    rw [hordered]
    by_cases hleads : r.mark.Leads (marks rs)
    · have hnext := nextRate_of_leads r n rs hpre hends hleads
      have hlt := nextRate_length_lt hnext
      rw [rateLoop, hnext]
      dsimp only
      cases rs with
      | nil =>
        obtain ⟨k, hk⟩ := afterMark_last r.mark n
        obtain ⟨fuel, rfl⟩ := Nat.exists_eq_succ_of_ne_zero (n := fuel) (by omega)
        refine iff_of_true ?_ ⟨hleads, List.Pairwise.nil⟩
        rw [hk, rateLoop_blanks]
        split <;> rfl
      | cons r' rs =>
        obtain ⟨k, hk⟩ := afterMark_cons r.mark n r' rs
        have hne : replicate k ' ' ++ r'.body (ratesText n rs) ≠ [] := by simp [Rate.body]
        have hpoint : '.' ∉ replicate k ' ' := by simp [mem_replicate]
        have hmap : ∀ {o : Option (List RateInfo)} {a : RateInfo} {infos : List RateInfo},
            o.map (a :: ·) = some (a :: infos) ↔ o = some infos := by
          intro o a infos
          cases o <;> simp
        rw [hk] at hlt ⊢
        rw [if_neg hne, map_cons, hmap,
          rateLoop_iff n rs r' hpoint (endsWith_replicate ' ' k) (by omega)]
        exact (and_iff_right hleads).symm
    · obtain ⟨rateInfo, rest, hnext, hne⟩ := nextRate_of_not_leads r n rs hpre hends hleads
      refine iff_of_false (fun h => hne ?_) fun h => hleads h.1
      rw [rateLoop, hnext, map_cons] at h
      dsimp only at h
      split at h
      · exact (cons.inj (some.inj h)).1
      · obtain ⟨infos, _, hcons⟩ := map_eq_some_iff.mp h
        exact (cons.inj hcons).1

/-! ### The line -/

namespace RateLine

variable (l : RateLine)

theorem ratesText_eq :
    ratesText l.trailing l.rates = ' ' :: (ratesText l.trailing l.rates).tail := by
  simp [rates, ratesText, replicate_succ]

theorem isRateChar_ratesText (n : ℕ) (rs : List Rate) : ∀ c ∈ ratesText n rs, isRateChar c := by
  have hdigits : ∀ (d : Digits), ∀ c ∈ d.text, isRateChar c := by
    intro d c hc
    simp [isRateChar, d.isDigit c hc]
  have hmark : ∀ m : Mark, ∀ c ∈ m.text, isRateChar c := by
    intro m
    cases m <;> simp [Mark.text, isRateChar]
  have hblanks : ∀ k, ∀ c ∈ replicate k ' ', isRateChar c := by
    intro k c hc
    rw [eq_of_mem_replicate hc]
    rfl
  induction rs with
  | nil => exact hblanks n
  | cons r rs ih =>
    intro c hc
    simp only [ratesText, Rate.body, mem_append, mem_cons] at hc
    rcases hc with hc | hc | rfl | hc | hc | hc
    · exact hblanks _ c hc
    · exact hdigits _ c hc
    · rfl
    · exact hdigits _ c hc
    · exact hmark _ c hc
    · exact ih c hc

/-- The line as a mode line with any rates. -/
def toModeText : ModeText where
  blanks := l.blanks
  width := l.width
  height := l.height
  interlaced := false
  rest := (ratesText l.trailing l.rates).tail
  isRateChar := fun c hc => isRateChar_ratesText l.trailing l.rates c (mem_of_mem_tail hc)

theorem toModeText_line : l.toModeText.line = l.line := by
  unfold line
  rw [ratesText_eq]
  simp [ModeText.line, ModeText.res, ModeText.heightText, toModeText, res]

theorem toModeText_res : l.toModeText.res = l.res := by
  simp [ModeText.res, ModeText.heightText, toModeText, res]

theorem step_rateLine {s : Scan} (hs : s.isConnected) : step s l.line =
    (rateList l.line).map fun rates => s.pushRes ⟨l.res, flagUnion rates, rates⟩ := by
  have hstep := l.toModeText.step_line s
  rwa [if_pos ⟨hs, l.supported, rfl⟩, toModeText_line, toModeText_res] at hstep

theorem rateList_line_iff : rateList l.line = some (l.rates.map Rate.info) ↔ Ordered l.rates := by
  have hsplit : l.line = (replicate l.blanks ' ' ++ (l.res ++ replicate (l.first.gap + 1) ' ')) ++
      l.first.body (ratesText l.trailing l.others) := by
    simp [line, rates, ratesText]
  have hpoint : '.' ∉ replicate l.blanks ' ' ++ (l.res ++ replicate (l.first.gap + 1) ' ') := by
    simp [mem_replicate, res, l.width.notMem (c := '.') rfl, l.height.notMem (c := '.') rfl]
  have hends : EndsWith ' ' (replicate l.blanks ' ' ++ (l.res ++ replicate (l.first.gap + 1) ' ')) := by
    rw [← append_assoc]
    exact EndsWith.append_left ⟨replicate l.first.gap ' ', replicate_succ'⟩ _
  rw [hsplit]
  exact rateLoop_iff l.trailing l.others l.first hpoint hends (Nat.lt_succ_self _)

theorem stored_iff_rateList : l.Stored ↔ rateList l.line = some (l.rates.map Rate.info) := by
  have hadded : ∀ {s : Scan} {rates : List RateInfo},
      s.pushRes ⟨l.res, flagUnion rates, rates⟩ = s.pushRes l.resInfo → rates = l.rates.map Rate.info := by
    intro s rates h
    have hlist := congrArg (fun s => s.devInfo.resList) h
    have hlast := append_cancel_left hlist
    exact congrArg ResInfo.rateList (cons.inj hlast).1
  constructor
  · intro hstored
    have hstep := hstored ⟨1, true, ⟨[], []⟩, []⟩ rfl
    rw [l.step_rateLine rfl] at hstep
    obtain ⟨rates, hrates, hpush⟩ := map_eq_some_iff.mp hstep
    rw [hrates, hadded hpush]
  · intro hrates s hs
    rw [l.step_rateLine hs, hrates]
    rfl

/-- A mode line is stored with its rates and their flags exactly when its marks come in the order
`*+`, ` +`, `*`, none. -/
theorem stored_iff : l.Stored ↔ Ordered l.rates := by
  rw [stored_iff_rateList, rateList_line_iff]

/-- `   1920x1080     50.00    60.00*+`. -/
def plainFirst : RateLine where
  blanks := 3
  width := ⟨['1', '9', '2', '0'], by simp, by simp⟩
  height := ⟨['1', '0', '8', '0'], by simp, by simp⟩
  supported := by decide
  first := ⟨4, ⟨['5', '0'], by simp, by simp⟩, ⟨['0', '0'], by simp, by simp⟩, .plain⟩
  others := [⟨3, ⟨['6', '0'], by simp, by simp⟩, ⟨['0', '0'], by simp, by simp⟩, .curBest⟩]
  trailing := 0

/-- The first rate takes the mark of the second and all the text between them. -/
theorem plainFirst_rateList :
    rateList plainFirst.line = some [⟨"50.00    60.00".toList, devResBest ||| devResCur⟩] := by
  decide

theorem plainFirst_not_stored : ¬ plainFirst.Stored := by
  rw [stored_iff_rateList, plainFirst_rateList]
  decide

end RateLine

end Code365.Video
