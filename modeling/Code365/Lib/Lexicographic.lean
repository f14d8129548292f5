import Mathlib

/-! # Rearrangements in lexicographic order

Among the permutations of a list the sorted one is the first and the reverse-sorted one the last,
and the next one after `p ++ x :: t` with `t` reverse-sorted has the least greater element of `t` in
the place of `x`, and the rest sorted. -/

namespace Code365

open List

variable {α : Type*} [LinearOrder α] {l m p t u : List α} {x y : α}

end Code365
