import Mathlib.Data.Nat.Notation
import Vere.Noun.Basic

/-!
# The rules of Nock

`doc/spec/nock/4.txt`. `Product a f p` says that `p` is the product `*[a f]`; where the rules crash
or do not end there is none.
-/

set_option autoImplicit false

namespace Vere.Noun.Nock

/-- The way from the root to an axis, false for the head. -/
def path (axe : ℕ) : List Bool := (List.range axe.log2).reverse.map axe.testBit

/-- The noun at the end of a way. -/
def slotAt : List Bool → Noun → Option Noun
  | [], n => some n
  | false :: way, .cell h _ => slotAt way h
  | true :: way, .cell _ t => slotAt way t
  | _ :: _, .atom _ => none

/-- A noun with another one at the end of a way. -/
def editAt : List Bool → Noun → Noun → Option Noun
  | [], v, _ => some v
  | false :: way, v, .cell h t => (editAt way v h).map fun h ↦ .cell h t
  | true :: way, v, .cell h t => (editAt way v t).map fun t ↦ .cell h t
  | _ :: _, _, .atom _ => none

/-- `/[axe n]`. -/
def slot (axe : ℕ) (n : Noun) : Option Noun := if axe = 0 then none else slotAt (path axe) n

/-- `#[axe v n]`. -/
def edit (axe : ℕ) (v n : Noun) : Option Noun := if axe = 0 then none else editAt (path axe) v n

/-- `?n`. -/
def wut : Noun → Noun
  | .cell _ _ => .atom 0
  | .atom _ => .atom 1

/-- `=[n m]`. -/
def tis (n m : Noun) : Noun := if n = m then .atom 0 else .atom 1

/-- The product of a formula on a subject. -/
inductive Product : Noun → Noun → Noun → Prop
  | cons {a b c d p q : Noun} (hbc : Product a (.cell b c) p) (hd : Product a d q) :
      Product a (.cell (.cell b c) d) (.cell p q)
  | frag {a p : Noun} {b : ℕ} (hslot : slot b a = some p) : Product a (.cell (.atom 0) (.atom b)) p
  | lit {a b : Noun} : Product a (.cell (.atom 1) b) b
  | nock {a b c s f p : Noun} (hb : Product a b s) (hc : Product a c f) (hrun : Product s f p) :
      Product a (.cell (.atom 2) (.cell b c)) p
  | deep {a b p : Noun} (hb : Product a b p) : Product a (.cell (.atom 3) b) (wut p)
  | bump {a b : Noun} {n : ℕ} (hb : Product a b (.atom n)) :
      Product a (.cell (.atom 4) b) (.atom (n + 1))
  | same {a b c p q : Noun} (hb : Product a b p) (hc : Product a c q) :
      Product a (.cell (.atom 5) (.cell b c)) (tis p q)
  | yes {a b c d p : Noun} (hb : Product a b (.atom 0)) (hc : Product a c p) :
      Product a (.cell (.atom 6) (.cell b (.cell c d))) p
  | no {a b c d p : Noun} (hb : Product a b (.atom 1)) (hd : Product a d p) :
      Product a (.cell (.atom 6) (.cell b (.cell c d))) p
  | comp {a b c s p : Noun} (hb : Product a b s) (hc : Product s c p) :
      Product a (.cell (.atom 7) (.cell b c)) p
  | push {a b c s p : Noun} (hb : Product a b s) (hc : Product (.cell s a) c p) :
      Product a (.cell (.atom 8) (.cell b c)) p
  | kick {a c cor f p : Noun} {b : ℕ} (hc : Product a c cor) (hslot : slot b cor = some f)
      (hrun : Product cor f p) : Product a (.cell (.atom 9) (.cell (.atom b) c)) p
  | hax {a c d v n p : Noun} {b : ℕ} (hc : Product a c v) (hd : Product a d n)
      (hedit : edit b v n = some p) :
      Product a (.cell (.atom 10) (.cell (.cell (.atom b) c) d)) p
  | clue {a b c d clu p : Noun} (hc : Product a c clu) (hd : Product a d p) :
      Product a (.cell (.atom 11) (.cell (.cell b c) d)) p
  | hint {a d p : Noun} {b : ℕ}
    (hd : Product a d p) : Product a (.cell (.atom 11) (.cell (.atom b) d)) p

end Vere.Noun.Nock
