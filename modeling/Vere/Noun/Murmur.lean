import Vere.Lib.Bytes
import Vere.Noun.Basic

/-!
# Mugs

The hashes of `pkg/noun/retrieve.c`, of 31 bits and never zero (`mugBytes_ne_zero`,
`mugBoth_ne_zero`): of bytes (`mugBytes`), of the words of an atom (`mugWords`) and of two hashes
(`mugBoth`). `mug` is what they make of a noun.

`MurmurHash3_x86_32()` is not part of the program, and `hash` stands for it. `murmur3` is what it
computes.
-/

set_option autoImplicit false

namespace Vere.Noun.Murmur

open Lib.Bytes

/-! ### The functions -/

section Mugs

variable (hash : ℕ → List UInt8 → ℕ)

/-- The attempts of `u3r_mug_bytes()` and `u3r_mug_both()` from a seed on, and the mug when all of
them are zero. -/
def mugFrom (last : ℕ) (buf_y : List UInt8) : ℕ → ℕ → ℕ
  | 0, _ => last
  | n + 1, syd_w =>
    let haz_w := hash syd_w buf_y
    let ham_l := (haz_w >>> 31) ^^^ (haz_w &&& 0x7fffffff)
    if ham_l = 0 then mugFrom last buf_y n (syd_w + 1) else ham_l

/-- `u3r_mug_bytes()`. -/
def mugBytes (buf_y : List UInt8) : ℕ := mugFrom hash 0x7fff buf_y 8 0xcafebabe

/-- `u3r_mug_both()`. -/
def mugBoth (lef_l rit_l : ℕ) : ℕ :=
  let len_y := 4 + ((rit_l.size + 0x7) >>> 3)
  let buf_y := spell 4 lef_l ++ spell 4 rit_l
  mugFrom hash 0xfffe (buf_y.take len_y) 8 0xdeadbeef

/-- The words up to the last that is not zero. -/
def trimLen (key_w : List UInt32) : ℕ → ℕ
  | 0 => 0
  | len_w + 1 => if key_w.getD len_w 0 = 0 then trimLen key_w len_w else len_w + 1

/-- `u3r_mug_words()`. The words of an atom have less than `2 ^ 32` bytes. -/
def mugWords (key_w : List UInt32) : ℕ :=
  let len_w := trimLen key_w key_w.length
  let byt_w :=
    if len_w = 0 then 0
    else
      let gal_w := len_w - 1
      let daz_w := key_w.getD gal_w 0
      gal_w <<< 2 + ((daz_w.toNat.size + 7) >>> 3)
  mugBytes hash ((key_w.flatMap fun w ↦ spell 4 w.toNat).take byt_w)

/-- The mug of a noun. -/
def mug : Noun → ℕ
  | .atom a => mugBytes hash (bytesOf a)
  | .cell h t => mugBoth hash (mug h) (mug t)

end Mugs

/-- `MurmurHash3_x86_32()`: a rotation to the left. -/
def rotl (x r : UInt32) : UInt32 := (x <<< r) ||| (x >>> (32 - r))

/-- `MurmurHash3_x86_32()`: a word of the bytes. -/
def murmurMix (k : UInt32) : UInt32 := rotl (k * 0xcc9e2d51) 15 * 0x1b873593

/-- `MurmurHash3_x86_32()`: the words of the bytes, and their end. -/
def murmurBlocks (h : UInt32) : List UInt8 → UInt32
  | a :: b :: c :: d :: rest =>
    murmurBlocks
      (rotl (h ^^^ murmurMix (UInt32.ofNat (value [a, b, c, d]))) 13 * 5 + 0xe6546b64) rest
  | tail => h ^^^ murmurMix (UInt32.ofNat (value tail))

/-- `MurmurHash3_x86_32()`. -/
def murmur3 (seed : ℕ) (buf_y : List UInt8) : ℕ :=
  let h := murmurBlocks (UInt32.ofNat seed) buf_y ^^^ UInt32.ofNat buf_y.length
  let h := (h ^^^ (h >>> 16)) * 0x85ebca6b
  let h := (h ^^^ (h >>> 13)) * 0xc2b2ae35
  (h ^^^ (h >>> 16)).toNat

/-! ### Mugs are not zero -/

variable {hash : ℕ → List UInt8 → ℕ}

theorem mugFrom_ne_zero {last : ℕ} (hlast : last ≠ 0) (buf_y : List UInt8) (n syd_w : ℕ) :
    mugFrom hash last buf_y n syd_w ≠ 0 := by
  induction n generalizing syd_w with
  | zero => exact hlast
  | succ n ih =>
    rw [mugFrom]
    split
    · exact ih (syd_w + 1)
    · assumption

theorem mugBytes_ne_zero (buf_y : List UInt8) : mugBytes hash buf_y ≠ 0 :=
  mugFrom_ne_zero (by decide) buf_y 8 _

theorem mugBoth_ne_zero (lef_l rit_l : ℕ) : mugBoth hash lef_l rit_l ≠ 0 :=
  mugFrom_ne_zero (by decide) _ 8 _

theorem mug_ne_zero (n : Noun) : mug hash n ≠ 0 := by
  cases n with
  | atom a => exact mugBytes_ne_zero _
  | cell h t => exact mugBoth_ne_zero _ _

end Vere.Noun.Murmur
