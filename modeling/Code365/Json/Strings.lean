import Code365.Json.Literals

/-! # Strings

`Body s out` says that the JSON text `s` between two quotes stands for `out`; `exists_body` gives a
reading of every such text. Such a text is decoded as it should be and fits into its buffer, so
`parseString` reads it (`Body.literal`), and what `printStringPtr` writes stands for the string
itself (`body_escaped`). -/

namespace Code365.Json

open List CString

variable {s rest out : Text} {c e : Char} {h h' : Text} {u u' n fuel : ℕ}

/-- Four hexadecimal digits and their value. -/
structure IsHex4 (h : Text) (u : ℕ) : Prop where
  length : h.length = 4
  digits : ∀ c ∈ h, (hexValue c).isSome
  value : parseHex4 h = u

/-- An escape of one character and what it stands for. -/
inductive Escape : Char → Char → Prop
  | self {c : Char} : c = '"' ∨ c = '\\' ∨ c = '/' → Escape c c
  | b : Escape 'b' '\x08'
  | f : Escape 'f' '\x0c'
  | n : Escape 'n' '\n'
  | r : Escape 'r' '\r'
  | t : Escape 't' '\t'

inductive Body : Text → Text → Prop
  | nil : Body [] []
  | char {c : Char} {s out : Text} : c ≠ '"' → c ≠ '\\' → c ≠ '\x00' → Body s out → Body (c :: s) (c :: out)
  | escape {c e : Char} {s out : Text} : Escape c e → Body s out → Body ('\\' :: c :: s) (e :: out)
  | single {h s out : Text} {u : ℕ} :
      IsHex4 h u → ¬ High u → Body s out → Body ('\\' :: 'u' :: (h ++ s)) (single u ++ out)
  | lone {h s out : Text} {u : ℕ} :
      IsHex4 h u → High u → ¬ ['\\', 'u'] <+: s → Body s out → Body ('\\' :: 'u' :: (h ++ s)) out
  | pair {h h' s out : Text} {u u' : ℕ} : IsHex4 h u → High u → IsHex4 h' u' → Body s out →
      Body ('\\' :: 'u' :: (h ++ '\\' :: 'u' :: (h' ++ s))) (pair u u' ++ out)

/-! ### Hexadecimal digits -/

theorem IsHex4.lt (hh : IsHex4 h u) : u < 0x10000 := hh.value ▸ parseHex4_lt h

theorem IsHex4.plain (hh : IsHex4 h u) (hc : c ∈ h) : c ≠ '"' ∧ c ≠ '\\' ∧ c ≠ '\x00' := by
  have hdigit := hh.digits c hc
  refine ⟨?_, ?_, ?_⟩
  all_goals
    rintro rfl
    exact absurd hdigit (by decide)

theorem isHex4_hex4 (n : ℕ) (hn : n < 0x10000) : IsHex4 (hex4 n) n := by
  have hdigit : ∀ d < 16, hexValue (Nat.digitChar d) = some d := by decide
  have hmod : ∀ m, hexValue (Nat.digitChar (m % 16)) = some (m % 16) := fun m =>
    hdigit _ (Nat.mod_lt _ (by decide))
  refine ⟨rfl, ?_, ?_⟩
  · simp [hex4, hmod]
  · simp only [hex4, parseHex4, hmod]
    omega

/-! ### Bytes -/

theorem length_utf8_le (u : ℕ) : (utf8 u).length ≤ 4 := by
  unfold utf8
  split_ifs
  all_goals simp

theorem length_utf8_le_three (hu : u < 0x10000) : (utf8 u).length ≤ 3 := by
  unfold utf8
  split_ifs
  all_goals simp

theorem length_single_le (hu : u < 0x10000) : (single u).length ≤ 3 := by
  unfold single
  split_ifs
  · exact Nat.zero_le _
  · exact length_utf8_le_three hu

theorem length_pair_le (u u' : ℕ) : (pair u u').length ≤ 4 := by
  unfold pair
  split_ifs
  · exact length_utf8_le _
  · exact Nat.zero_le _

theorem Escape.eq_letter (he : Escape c e) : c ≠ '\x00' ∧ c ≠ 'u' ∧ e = letter c := by
  cases he with
  | self hc => rcases hc with rfl | rfl | rfl <;> decide
  | _ => decide

/-! ### Reading a string -/

theorem not_prefix_append_quote (hs : ¬ ['\\', 'u'] <+: s) :
    ¬ ['\\', 'u'] <+: s ++ '"' :: rest := by
  match s, hs with
  | [], _ => simp
  | [c], _ => simp
  | c :: c' :: s, hs => simpa using hs

theorem Body.decodes (hb : Body s out) (rest : Text) :
    Decodes (s ++ '"' :: rest) out ('"' :: rest) := by
  induction hb with
  | nil => exact .stop (.inr rfl)
  | char hq hs _ _ ih => exact .char hq hs ih
  | escape he _ ih =>
    obtain ⟨_, hc, rfl⟩ := he.eq_letter
    exact .letter hc ih
  | single hh hu _ ih =>
    obtain ⟨hlen, _, rfl⟩ := hh
    rw [cons_append, cons_append, append_assoc]
    exact .single hlen hu ih
  | lone hh hu hs _ ih =>
    obtain ⟨hlen, _, rfl⟩ := hh
    rw [cons_append, cons_append, append_assoc]
    exact .lone hlen hu (not_prefix_append_quote hs) ih
  | pair hh hu hh' _ ih =>
    obtain ⟨hlen, _, rfl⟩ := hh
    obtain ⟨hlen', _, rfl⟩ := hh'
    simp only [cons_append, append_assoc]
    exact .pair hlen hu hlen' ih

theorem Width.append (hh : ∀ c ∈ h, c ≠ '"' ∧ c ≠ '\\') (hs : Width s n) :
    Width (h ++ s) (n + h.length) := by
  induction h with
  | nil => exact hs
  | cons c h ih =>
    obtain ⟨hq, hb⟩ := hh c (List.mem_cons_self ..)
    exact .char hq hb (ih fun c hc => hh c (List.mem_cons_of_mem _ hc))

theorem IsHex4.width (hh : IsHex4 h u) (hs : Width s n) :
    Width ('\\' :: 'u' :: (h ++ s)) (n + 5) := by
  have happend := hs.append fun c hc => ⟨(hh.plain hc).1, (hh.plain hc).2.1⟩
  rw [hh.length] at happend
  exact .escape happend

theorem Body.width (hb : Body s out) (rest : Text) :
    ∃ n, Width (s ++ '"' :: rest) n ∧ out.length ≤ n := by
  induction hb with
  | nil => exact ⟨0, .stop (.inr rfl), le_rfl⟩
  | char hq hs _ _ ih =>
    obtain ⟨n, hn, hle⟩ := ih
    exact ⟨n + 1, .char hq hs hn, Nat.succ_le_succ hle⟩
  | escape _ _ ih =>
    obtain ⟨n, hn, hle⟩ := ih
    exact ⟨n + 1, .escape hn, Nat.succ_le_succ hle⟩
  | single hh _ _ ih =>
    obtain ⟨n, hn, hle⟩ := ih
    rw [cons_append, cons_append, append_assoc]
    refine ⟨n + 5, hh.width hn, ?_⟩
    have hlen := length_single_le hh.lt
    rw [length_append]
    omega
  | lone hh _ _ _ ih =>
    obtain ⟨n, hn, hle⟩ := ih
    rw [cons_append, cons_append, append_assoc]
    exact ⟨n + 5, hh.width hn, by omega⟩
  | @pair _ _ _ _ u u' hh _ hh' _ ih =>
    obtain ⟨n, hn, hle⟩ := ih
    simp only [cons_append, append_assoc]
    refine ⟨n + 5 + 5, hh.width (hh'.width hn), ?_⟩
    have hlen := length_pair_le u u'
    rw [length_append]
    omega

theorem Body.literal (hb : Body s out) (rest : Text) :
    Literal ('"' :: s ++ '"' :: rest) out rest := by
  obtain ⟨n, hn, hle⟩ := hb.width rest
  exact .mk (hb.decodes rest) hn hle

theorem Body.nul_notMem (hb : Body s out) : '\x00' ∉ s ∧ '\x00' ∉ out := by
  have hhex : ∀ {h : Text} {u : ℕ}, IsHex4 h u → '\x00' ∉ h := fun hh hmem => (hh.plain hmem).2.2 rfl
  have hs : '\x00' ∉ s := by
    induction hb with
    | nil => exact not_mem_nil
    | char _ _ h0 _ ih => simp [ih, h0.symm]
    | escape he _ ih => simp [ih, he.eq_letter.1.symm]
    | single hh _ _ ih | lone hh _ _ _ ih => simp [ih, hhex hh]
    | pair hh _ hh' _ ih => simp [ih, hhex hh, hhex hh']
  refine ⟨hs, (hb.decodes []).nul_notMem ?_⟩
  simpa using hs

/-! ### All strings -/

theorem single_of_lt (hu : u < 0x80) (h0 : u ≠ 0) : single u = [Char.ofNat u] := by
  have hlow : ¬ (Low u ∨ u = 0) := by
    unfold Low
    omega
  rw [single, if_neg hlow, utf8, if_pos hu]

theorem body_escaped_append (hc : c ≠ '\x00') (hb : Body s out) :
    Body (escaped c ++ s) (c :: out) := by
  unfold escaped
  split_ifs with hplain h1 h2 h3 h4 h5 h6 h7
  · exact .char hplain.2.1 hplain.2.2 hc hb
  · subst h1
    exact .escape (.self (by decide)) hb
  · subst h2
    exact .escape (.self (by decide)) hb
  · subst h3
    exact .escape .b hb
  · subst h4
    exact .escape .f hb
  · subst h5
    exact .escape .n hb
  · subst h6
    exact .escape .r hb
  · subst h7
    exact .escape .t hb
  · have hle : c.toNat ≤ 31 := by
      by_contra hlt
      exact hplain ⟨by omega, h2, h1⟩
    have h0 : c.toNat ≠ 0 := fun h0 => hc (Char.toNat_inj.mp h0)
    have hbody := Body.single (isHex4_hex4 c.toNat (by omega)) (by unfold High; omega) hb
    rw [single_of_lt (by omega) h0, Char.ofNat_toNat] at hbody
    exact hbody

/-- What is printed for a string stands for the string. -/
theorem body_escaped (hs : '\x00' ∉ s) : Body (s.flatMap escaped) s := by
  induction s with
  | nil => exact .nil
  | cons c s ih =>
    rw [mem_cons, not_or] at hs
    exact body_escaped_append (Ne.symm hs.1) (ih hs.2)

end Code365.Json
