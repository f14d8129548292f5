import Code365.Lib.Lexicographic

/-! # `lexicographicPermutations.c` (`algorithms/c/misc`)

A string is the list of its character values before the final NUL, none of them 0; `qsort` is a
parameter, and an access outside the string gives `none`.  The fuel counts the rounds of the `do`
loop. -/

namespace Code365.Algorithms.SortedPermutations

open Option List

def swap (str : List ℤ) (left right : ℕ) : Option (List ℤ) := do
  let temp ← str[left]?
  return (str.set left (← str[right]?)).set right temp

def compare (a b : ℤ) : ℤ := a - b

/-- The loop for `i`, which is one less than the argument here and may reach -1. -/
def findI (str : List ℤ) : ℕ → Option (Option ℕ)
  | 0 => some none
  | i + 1 => do if (← str[i]?) ≥ (← str[i + 1]?) then findI str i else return some i

/-- The loop for `j`, over the remaining values of `k`. -/
def findJ (str : List ℤ) (i : ℕ) : List ℕ → ℕ → Option ℕ
  | [], j => some j
  | k :: ks, j => do
    if (← str[k]?) = 0 then return j
    else if (← str[k]?) > (← str[i]?) ∧ (← str[k]?) < (← str[j]?) then findJ str i ks k
    else findJ str i ks j

variable (qsort : List ℤ → List ℤ)

/-- One round: the next string, or `none` if a larger permutation was not found. -/
def round (str : List ℤ) : Option (Option (List ℤ)) := do
  match ← findI str (str.length - 1) with
  | some i =>
    let j ← findJ str i (List.range' (i + 1) (str.length - (i + 1))) (i + 1)
    let str ← swap str i j
    return some (str.take (i + 1) ++ qsort (str.drop (i + 1)))
  | none => return none

/-- The strings printed by the loop. -/
def rounds : ℕ → List ℤ → Option (List (List ℤ))
  | 0, _ => none
  | fuel + 1, str => do
    match ← round qsort str with
    | some next => return str :: (← rounds fuel next)
    | none => return [str]

variable {qsort} {str s t : List ℤ} {i j : ℕ}

variable {p : List ℤ} {x y : ℤ} {q : ℕ}

end Code365.Algorithms.SortedPermutations
