import Mathlib.Data.Nat.Notation

/-!
# Nouns

A noun is an atom, which is any natural number, or a cell of two nouns. Structural equality is
`u3r_sing`, and a bail is `none`.
-/

set_option autoImplicit false

namespace Vere

/-- `u3_noun`. -/
inductive Noun
  | atom (a : ℕ) : Noun
  | cell (h t : Noun) : Noun
  deriving DecidableEq, Repr, Inhabited

namespace Noun

/-- `u3_nul`. -/
def nul : Noun := .atom 0

/-- `u3nt`: a triple. -/
def trel (a b c : Noun) : Noun := .cell a (.cell b c)

/-- `u3h`: the head, or a bail. -/
def u3h : Noun → Option Noun
  | .cell h _ => some h
  | .atom _ => none

/-- `u3t`: the tail, or a bail. -/
def u3t : Noun → Option Noun
  | .cell _ t => some t
  | .atom _ => none

/-- The number of atoms and cells. -/
def size : Noun → ℕ
  | .atom _ => 1
  | .cell h t => h.size + t.size + 1

end Noun

end Vere
