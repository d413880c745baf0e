import Mathlib.Data.List.Basic

/-!
# Syllables

The tables of `pkg/noun/jets/c/po.c`: 256 syllables that begin the halves of ship names, and 256
that end them. `u3_po_find_prefix()` and `u3_po_find_suffix()` are switches on each of the three
letters, and `u3_po_to_prefix()` and `u3_po_to_suffix()` switches on the number. They are inverse to
each other (`coded_prefix`, `coded_suffix`).
-/

set_option autoImplicit false

namespace Vere.Noun.Ship

/-! ### The tables -/

def byteOf (c : Char) : UInt8 := UInt8.ofNat c.toNat

structure Syllable where
  one : UInt8
  two : UInt8
  three : UInt8
deriving DecidableEq

def Syllable.text (s : Syllable) : List UInt8 := [s.one, s.two, s.three]

/-- Switches on the first letter, the second and the third. -/
abbrev Switch := List (Char × List (Char × List (Char × ℕ)))

/-- The cases of `u3_po_find_prefix()`. -/
def prefixSwitch : Switch :=
  [('b', [('a', [('c', 238), ('l', 107), ('n', 92), ('r', 183), ('t', 172)]),
    ('i', [('c', 56), ('d', 106), ('l', 144), ('n', 2), ('s', 60), ('t', 182)]),
    ('o', [('l', 45), ('n', 244), ('r', 188), ('s', 171), ('t', 98)])]),
  ('d', [('a', [('b', 181), ('c', 117), ('l', 37), ('n', 234), ('p', 66), ('r', 23), ('s', 61),
      ('t', 215), ('v', 105)]),
    ('i', [('b', 179), ('f', 57), ('g', 193), ('l', 49), ('n', 217), ('r', 11), ('s', 129),
      ('v', 116)]),
    ('o', [('c', 146), ('l', 102), ('n', 233), ('p', 18), ('r', 24), ('s', 187), ('t', 47),
      ('v', 236), ('z', 0)])]),
  ('f', [('a', [('b', 120), ('d', 206), ('l', 152), ('m', 214), ('n', 158), ('s', 195)]),
    ('i', [('d', 8), ('g', 138), ('l', 194), ('n', 90), ('p', 255), ('r', 169), ('t', 226)]),
    ('o', [('d', 247), ('g', 20), ('l', 27), ('n', 91), ('p', 213), ('r', 50), ('s', 46),
      ('t', 221)])]),
  ('h', [('a', [('b', 209), ('c', 174), ('d', 145), ('l', 203), ('n', 41), ('p', 156), ('r', 198),
      ('s', 170), ('t', 218), ('v', 176)]),
    ('i', [('d', 7), ('l', 190), ('n', 200)]),
    ('o', [('b', 197), ('c', 223), ('d', 26), ('l', 32), ('p', 22), ('s', 180)])]),
  ('l', [('a', [('b', 161), ('c', 34), ('d', 235), ('g', 205), ('n', 232), ('p', 240), ('r', 225),
      ('s', 128), ('t', 134), ('v', 252)]),
    ('i', [('b', 39), ('d', 21), ('g', 111), ('n', 178), ('s', 9), ('t', 5), ('v', 36)]),
    ('o', [('c', 69), ('d', 186), ('m', 166), ('n', 135), ('p', 63), ('r', 25), ('s', 48)])]),
  ('m', [('a', [('c', 191), ('g', 103), ('l', 110), ('p', 130), ('r', 1), ('s', 202), ('t', 253)]),
    ('i', [('c', 157), ('d', 62), ('g', 199), ('l', 212), ('n', 79), ('p', 254), ('r', 31),
      ('s', 126), ('t', 196)]),
    ('o', [('c', 148), ('d', 19), ('g', 162), ('l', 67), ('n', 122), ('p', 208), ('r', 93),
      ('s', 231), ('t', 82)])]),
  ('n', [('a', [('c', 219), ('l', 230), ('m', 243), ('p', 87), ('r', 65), ('t', 77), ('v', 137)]),
    ('i', [('b', 140), ('d', 72), ('l', 210), ('m', 224), ('s', 124)]),
    ('o', [('c', 250), ('d', 136), ('l', 216), ('m', 139), ('p', 88), ('r', 97), ('s', 211),
      ('v', 70)])]),
  ('p', [('a', [('c', 149), ('d', 114), ('g', 141), ('l', 127), ('n', 78), ('r', 185), ('s', 33),
      ('t', 159)]),
    ('i', [('c', 104), ('d', 43), ('l', 51), ('n', 165), ('t', 242)]),
    ('o', [('c', 173), ('d', 81), ('l', 239), ('n', 248), ('s', 86)])]),
  ('r', [('a', [('b', 131), ('c', 184), ('d', 201), ('g', 204), ('l', 143), ('m', 52), ('n', 123),
      ('p', 228), ('v', 150)]),
    ('i', [('b', 222), ('c', 167), ('d', 147), ('g', 16), ('l', 64), ('n', 28), ('p', 151),
      ('s', 220), ('t', 80), ('v', 237)]),
    ('o', [('c', 58), ('l', 133), ('n', 96), ('p', 75), ('s', 245), ('v', 35)])]),
  ('s', [('a', [('b', 13), ('l', 115), ('m', 4), ('n', 68), ('p', 177), ('r', 229), ('t', 38),
      ('v', 85)]),
    ('i', [('b', 15), ('c', 74), ('d', 119), ('g', 6), ('l', 30), ('m', 163), ('p', 95),
      ('t', 71), ('v', 112)]),
    ('o', [('c', 100), ('g', 10), ('l', 17), ('m', 89), ('n', 164), ('p', 142), ('r', 251),
      ('v', 249)])]),
  ('t', [('a', [('b', 40), ('c', 160), ('d', 55), ('g', 113), ('l', 241), ('m', 83), ('n', 118),
      ('p', 168), ('r', 121), ('s', 109)]),
    ('i', [('c', 42), ('d', 175), ('l', 154), ('m', 108), ('n', 155), ('p', 73), ('r', 53)]),
    ('o', [('b', 132), ('c', 189), ('d', 153), ('g', 29), ('l', 84), ('m', 192), ('n', 246),
      ('p', 207), ('r', 44)])]),
  ('w', [('a', [('c', 12), ('l', 227), ('n', 3), ('t', 101)]),
    ('i', [('c', 99), ('d', 59), ('n', 54), ('s', 14), ('t', 76)]),
    ('o', [('l', 125), ('r', 94)])])]

/-- The cases of `u3_po_find_suffix()`. -/
def suffixSwitch : Switch :=
  [('b', [('e', [('c', 238), ('l', 107), ('n', 92), ('p', 183), ('r', 172), ('s', 56), ('t', 106),
      ('x', 144)]),
    ('u', [('d', 2), ('r', 60), ('s', 182)]),
    ('y', [('l', 176), ('n', 45), ('r', 244), ('t', 188)])]),
  ('d', [('e', [('b', 171), ('c', 98), ('f', 181), ('g', 117), ('l', 37), ('m', 234), ('n', 66),
      ('p', 23), ('r', 61), ('s', 215), ('t', 105), ('v', 179), ('x', 57)]),
    ('u', [('c', 193), ('l', 49), ('n', 217), ('r', 11), ('s', 129), ('t', 116), ('x', 146)]),
    ('y', [('l', 102), ('n', 233), ('r', 18), ('s', 24), ('t', 187)])]),
  ('f', [('e', [('b', 47), ('d', 236), ('l', 120), ('n', 206), ('p', 152), ('r', 158), ('s', 255),
      ('t', 214), ('x', 195)]),
    ('u', [('l', 8), ('n', 138), ('r', 194), ('s', 90)]),
    ('y', [('l', 169), ('n', 226), ('r', 247)])]),
  ('h', [('e', [('b', 20), ('c', 27), ('p', 91), ('s', 213), ('t', 50), ('x', 46)]),
    ('u', [('l', 221), ('s', 209), ('t', 174)])]),
  ('l', [('e', [('b', 145), ('c', 203), ('d', 41), ('g', 156), ('n', 198), ('p', 170), ('r', 218),
      ('t', 7), ('v', 190), ('x', 200)]),
    ('u', [('c', 197), ('d', 223), ('g', 26), ('n', 32), ('p', 22), ('r', 180), ('s', 161),
      ('t', 34), ('x', 235)]),
    ('y', [('d', 205), ('n', 232), ('r', 240), ('s', 225), ('t', 128), ('x', 134)])]),
  ('m', [('e', [('b', 114), ('c', 141), ('d', 127), ('g', 78), ('l', 185), ('p', 33), ('r', 159),
      ('s', 104), ('t', 43), ('v', 51), ('x', 165)]),
    ('u', [('d', 242), ('g', 173), ('l', 81), ('n', 239), ('r', 248), ('s', 93), ('t', 86)]),
    ('y', [('l', 191), ('n', 103), ('r', 110)])]),
  ('n', [('e', [('b', 130), ('c', 1), ('d', 202), ('l', 253), ('m', 157), ('p', 62), ('r', 199),
      ('s', 212), ('t', 79), ('v', 254), ('x', 31)]),
    ('u', [('b', 126), ('l', 196), ('m', 148), ('p', 19), ('s', 162), ('t', 67), ('x', 122)]),
    ('y', [('d', 208), ('l', 231), ('m', 82), ('r', 219), ('s', 230), ('t', 243), ('x', 87)])]),
  ('p', [('e', [('c', 252), ('d', 39), ('g', 21), ('l', 111), ('m', 178), ('n', 9), ('r', 5),
      ('s', 36), ('t', 69), ('x', 186)]),
    ('u', [('b', 166), ('n', 135), ('r', 63), ('t', 25)]),
    ('y', [('l', 48), ('x', 149)])]),
  ('r', [('e', [('b', 65), ('c', 77), ('d', 137), ('f', 140), ('g', 72), ('l', 210), ('m', 224),
      ('n', 124), ('p', 250), ('s', 136), ('t', 216), ('v', 139), ('x', 88)]),
    ('u', [('c', 97), ('d', 211), ('l', 70), ('m', 131), ('n', 184), ('p', 201), ('s', 143),
      ('t', 52), ('x', 123)]),
    ('y', [('c', 228), ('d', 204), ('g', 150), ('l', 222), ('m', 167), ('n', 147), ('p', 16),
      ('s', 64), ('t', 28), ('x', 151)])]),
  ('s', [('e', [('b', 220), ('c', 80), ('d', 237), ('f', 58), ('g', 133), ('l', 96), ('m', 75),
      ('n', 245), ('p', 35), ('r', 13), ('t', 115), ('v', 4)]),
    ('u', [('b', 68), ('d', 177), ('g', 229), ('l', 38), ('m', 85), ('n', 15), ('p', 74),
      ('r', 119), ('t', 6)]),
    ('y', [('d', 30), ('l', 163), ('m', 95), ('n', 71), ('p', 112), ('r', 100), ('t', 10),
      ('x', 17)])]),
  ('t', [('e', [('b', 89), ('c', 164), ('d', 142), ('g', 251), ('l', 249), ('m', 40), ('n', 160),
      ('p', 55), ('r', 113), ('s', 241), ('v', 83), ('x', 118)]),
    ('u', [('c', 168), ('d', 121), ('g', 109), ('l', 42), ('n', 175), ('s', 154), ('x', 108)]),
    ('y', [('c', 155), ('d', 73), ('l', 53), ('n', 132), ('p', 189), ('r', 153), ('v', 29)])]),
  ('w', [('e', [('b', 84), ('d', 192), ('g', 246), ('l', 207), ('n', 44), ('p', 12), ('r', 227),
      ('s', 3), ('t', 101), ('x', 99)]),
    ('y', [('c', 59), ('d', 54), ('l', 14), ('n', 76), ('t', 125), ('x', 94)])]),
  ('z', [('o', [('d', 0)])])]

/-- The cases of `u3_po_to_prefix()`, from 0 on. -/
def prefixNames : List (Char × Char × Char) := [
  ('d', 'o', 'z'), ('m', 'a', 'r'), ('b', 'i', 'n'), ('w', 'a', 'n'), ('s', 'a', 'm'),
  ('l', 'i', 't'), ('s', 'i', 'g'), ('h', 'i', 'd'), ('f', 'i', 'd'), ('l', 'i', 's'),
  ('s', 'o', 'g'), ('d', 'i', 'r'), ('w', 'a', 'c'), ('s', 'a', 'b'), ('w', 'i', 's'),
  ('s', 'i', 'b'), ('r', 'i', 'g'), ('s', 'o', 'l'), ('d', 'o', 'p'), ('m', 'o', 'd'),
  ('f', 'o', 'g'), ('l', 'i', 'd'), ('h', 'o', 'p'), ('d', 'a', 'r'), ('d', 'o', 'r'),
  ('l', 'o', 'r'), ('h', 'o', 'd'), ('f', 'o', 'l'), ('r', 'i', 'n'), ('t', 'o', 'g'),
  ('s', 'i', 'l'), ('m', 'i', 'r'), ('h', 'o', 'l'), ('p', 'a', 's'), ('l', 'a', 'c'),
  ('r', 'o', 'v'), ('l', 'i', 'v'), ('d', 'a', 'l'), ('s', 'a', 't'), ('l', 'i', 'b'),
  ('t', 'a', 'b'), ('h', 'a', 'n'), ('t', 'i', 'c'), ('p', 'i', 'd'), ('t', 'o', 'r'),
  ('b', 'o', 'l'), ('f', 'o', 's'), ('d', 'o', 't'), ('l', 'o', 's'), ('d', 'i', 'l'),
  ('f', 'o', 'r'), ('p', 'i', 'l'), ('r', 'a', 'm'), ('t', 'i', 'r'), ('w', 'i', 'n'),
  ('t', 'a', 'd'), ('b', 'i', 'c'), ('d', 'i', 'f'), ('r', 'o', 'c'), ('w', 'i', 'd'),
  ('b', 'i', 's'), ('d', 'a', 's'), ('m', 'i', 'd'), ('l', 'o', 'p'), ('r', 'i', 'l'),
  ('n', 'a', 'r'), ('d', 'a', 'p'), ('m', 'o', 'l'), ('s', 'a', 'n'), ('l', 'o', 'c'),
  ('n', 'o', 'v'), ('s', 'i', 't'), ('n', 'i', 'd'), ('t', 'i', 'p'), ('s', 'i', 'c'),
  ('r', 'o', 'p'), ('w', 'i', 't'), ('n', 'a', 't'), ('p', 'a', 'n'), ('m', 'i', 'n'),
  ('r', 'i', 't'), ('p', 'o', 'd'), ('m', 'o', 't'), ('t', 'a', 'm'), ('t', 'o', 'l'),
  ('s', 'a', 'v'), ('p', 'o', 's'), ('n', 'a', 'p'), ('n', 'o', 'p'), ('s', 'o', 'm'),
  ('f', 'i', 'n'), ('f', 'o', 'n'), ('b', 'a', 'n'), ('m', 'o', 'r'), ('w', 'o', 'r'),
  ('s', 'i', 'p'), ('r', 'o', 'n'), ('n', 'o', 'r'), ('b', 'o', 't'), ('w', 'i', 'c'),
  ('s', 'o', 'c'), ('w', 'a', 't'), ('d', 'o', 'l'), ('m', 'a', 'g'), ('p', 'i', 'c'),
  ('d', 'a', 'v'), ('b', 'i', 'd'), ('b', 'a', 'l'), ('t', 'i', 'm'), ('t', 'a', 's'),
  ('m', 'a', 'l'), ('l', 'i', 'g'), ('s', 'i', 'v'), ('t', 'a', 'g'), ('p', 'a', 'd'),
  ('s', 'a', 'l'), ('d', 'i', 'v'), ('d', 'a', 'c'), ('t', 'a', 'n'), ('s', 'i', 'd'),
  ('f', 'a', 'b'), ('t', 'a', 'r'), ('m', 'o', 'n'), ('r', 'a', 'n'), ('n', 'i', 's'),
  ('w', 'o', 'l'), ('m', 'i', 's'), ('p', 'a', 'l'), ('l', 'a', 's'), ('d', 'i', 's'),
  ('m', 'a', 'p'), ('r', 'a', 'b'), ('t', 'o', 'b'), ('r', 'o', 'l'), ('l', 'a', 't'),
  ('l', 'o', 'n'), ('n', 'o', 'd'), ('n', 'a', 'v'), ('f', 'i', 'g'), ('n', 'o', 'm'),
  ('n', 'i', 'b'), ('p', 'a', 'g'), ('s', 'o', 'p'), ('r', 'a', 'l'), ('b', 'i', 'l'),
  ('h', 'a', 'd'), ('d', 'o', 'c'), ('r', 'i', 'd'), ('m', 'o', 'c'), ('p', 'a', 'c'),
  ('r', 'a', 'v'), ('r', 'i', 'p'), ('f', 'a', 'l'), ('t', 'o', 'd'), ('t', 'i', 'l'),
  ('t', 'i', 'n'), ('h', 'a', 'p'), ('m', 'i', 'c'), ('f', 'a', 'n'), ('p', 'a', 't'),
  ('t', 'a', 'c'), ('l', 'a', 'b'), ('m', 'o', 'g'), ('s', 'i', 'm'), ('s', 'o', 'n'),
  ('p', 'i', 'n'), ('l', 'o', 'm'), ('r', 'i', 'c'), ('t', 'a', 'p'), ('f', 'i', 'r'),
  ('h', 'a', 's'), ('b', 'o', 's'), ('b', 'a', 't'), ('p', 'o', 'c'), ('h', 'a', 'c'),
  ('t', 'i', 'd'), ('h', 'a', 'v'), ('s', 'a', 'p'), ('l', 'i', 'n'), ('d', 'i', 'b'),
  ('h', 'o', 's'), ('d', 'a', 'b'), ('b', 'i', 't'), ('b', 'a', 'r'), ('r', 'a', 'c'),
  ('p', 'a', 'r'), ('l', 'o', 'd'), ('d', 'o', 's'), ('b', 'o', 'r'), ('t', 'o', 'c'),
  ('h', 'i', 'l'), ('m', 'a', 'c'), ('t', 'o', 'm'), ('d', 'i', 'g'), ('f', 'i', 'l'),
  ('f', 'a', 's'), ('m', 'i', 't'), ('h', 'o', 'b'), ('h', 'a', 'r'), ('m', 'i', 'g'),
  ('h', 'i', 'n'), ('r', 'a', 'd'), ('m', 'a', 's'), ('h', 'a', 'l'), ('r', 'a', 'g'),
  ('l', 'a', 'g'), ('f', 'a', 'd'), ('t', 'o', 'p'), ('m', 'o', 'p'), ('h', 'a', 'b'),
  ('n', 'i', 'l'), ('n', 'o', 's'), ('m', 'i', 'l'), ('f', 'o', 'p'), ('f', 'a', 'm'),
  ('d', 'a', 't'), ('n', 'o', 'l'), ('d', 'i', 'n'), ('h', 'a', 't'), ('n', 'a', 'c'),
  ('r', 'i', 's'), ('f', 'o', 't'), ('r', 'i', 'b'), ('h', 'o', 'c'), ('n', 'i', 'm'),
  ('l', 'a', 'r'), ('f', 'i', 't'), ('w', 'a', 'l'), ('r', 'a', 'p'), ('s', 'a', 'r'),
  ('n', 'a', 'l'), ('m', 'o', 's'), ('l', 'a', 'n'), ('d', 'o', 'n'), ('d', 'a', 'n'),
  ('l', 'a', 'd'), ('d', 'o', 'v'), ('r', 'i', 'v'), ('b', 'a', 'c'), ('p', 'o', 'l'),
  ('l', 'a', 'p'), ('t', 'a', 'l'), ('p', 'i', 't'), ('n', 'a', 'm'), ('b', 'o', 'n'),
  ('r', 'o', 's'), ('t', 'o', 'n'), ('f', 'o', 'd'), ('p', 'o', 'n'), ('s', 'o', 'v'),
  ('n', 'o', 'c'), ('s', 'o', 'r'), ('l', 'a', 'v'), ('m', 'a', 't'), ('m', 'i', 'p'),
  ('f', 'i', 'p')]

/-- The cases of `u3_po_to_suffix()`, from 0 on. -/
def suffixNames : List (Char × Char × Char) := [
  ('z', 'o', 'd'), ('n', 'e', 'c'), ('b', 'u', 'd'), ('w', 'e', 's'), ('s', 'e', 'v'),
  ('p', 'e', 'r'), ('s', 'u', 't'), ('l', 'e', 't'), ('f', 'u', 'l'), ('p', 'e', 'n'),
  ('s', 'y', 't'), ('d', 'u', 'r'), ('w', 'e', 'p'), ('s', 'e', 'r'), ('w', 'y', 'l'),
  ('s', 'u', 'n'), ('r', 'y', 'p'), ('s', 'y', 'x'), ('d', 'y', 'r'), ('n', 'u', 'p'),
  ('h', 'e', 'b'), ('p', 'e', 'g'), ('l', 'u', 'p'), ('d', 'e', 'p'), ('d', 'y', 's'),
  ('p', 'u', 't'), ('l', 'u', 'g'), ('h', 'e', 'c'), ('r', 'y', 't'), ('t', 'y', 'v'),
  ('s', 'y', 'd'), ('n', 'e', 'x'), ('l', 'u', 'n'), ('m', 'e', 'p'), ('l', 'u', 't'),
  ('s', 'e', 'p'), ('p', 'e', 's'), ('d', 'e', 'l'), ('s', 'u', 'l'), ('p', 'e', 'd'),
  ('t', 'e', 'm'), ('l', 'e', 'd'), ('t', 'u', 'l'), ('m', 'e', 't'), ('w', 'e', 'n'),
  ('b', 'y', 'n'), ('h', 'e', 'x'), ('f', 'e', 'b'), ('p', 'y', 'l'), ('d', 'u', 'l'),
  ('h', 'e', 't'), ('m', 'e', 'v'), ('r', 'u', 't'), ('t', 'y', 'l'), ('w', 'y', 'd'),
  ('t', 'e', 'p'), ('b', 'e', 's'), ('d', 'e', 'x'), ('s', 'e', 'f'), ('w', 'y', 'c'),
  ('b', 'u', 'r'), ('d', 'e', 'r'), ('n', 'e', 'p'), ('p', 'u', 'r'), ('r', 'y', 's'),
  ('r', 'e', 'b'), ('d', 'e', 'n'), ('n', 'u', 't'), ('s', 'u', 'b'), ('p', 'e', 't'),
  ('r', 'u', 'l'), ('s', 'y', 'n'), ('r', 'e', 'g'), ('t', 'y', 'd'), ('s', 'u', 'p'),
  ('s', 'e', 'm'), ('w', 'y', 'n'), ('r', 'e', 'c'), ('m', 'e', 'g'), ('n', 'e', 't'),
  ('s', 'e', 'c'), ('m', 'u', 'l'), ('n', 'y', 'm'), ('t', 'e', 'v'), ('w', 'e', 'b'),
  ('s', 'u', 'm'), ('m', 'u', 't'), ('n', 'y', 'x'), ('r', 'e', 'x'), ('t', 'e', 'b'),
  ('f', 'u', 's'), ('h', 'e', 'p'), ('b', 'e', 'n'), ('m', 'u', 's'), ('w', 'y', 'x'),
  ('s', 'y', 'm'), ('s', 'e', 'l'), ('r', 'u', 'c'), ('d', 'e', 'c'), ('w', 'e', 'x'),
  ('s', 'y', 'r'), ('w', 'e', 't'), ('d', 'y', 'l'), ('m', 'y', 'n'), ('m', 'e', 's'),
  ('d', 'e', 't'), ('b', 'e', 't'), ('b', 'e', 'l'), ('t', 'u', 'x'), ('t', 'u', 'g'),
  ('m', 'y', 'r'), ('p', 'e', 'l'), ('s', 'y', 'p'), ('t', 'e', 'r'), ('m', 'e', 'b'),
  ('s', 'e', 't'), ('d', 'u', 't'), ('d', 'e', 'g'), ('t', 'e', 'x'), ('s', 'u', 'r'),
  ('f', 'e', 'l'), ('t', 'u', 'd'), ('n', 'u', 'x'), ('r', 'u', 'x'), ('r', 'e', 'n'),
  ('w', 'y', 't'), ('n', 'u', 'b'), ('m', 'e', 'd'), ('l', 'y', 't'), ('d', 'u', 's'),
  ('n', 'e', 'b'), ('r', 'u', 'm'), ('t', 'y', 'n'), ('s', 'e', 'g'), ('l', 'y', 'x'),
  ('p', 'u', 'n'), ('r', 'e', 's'), ('r', 'e', 'd'), ('f', 'u', 'n'), ('r', 'e', 'v'),
  ('r', 'e', 'f'), ('m', 'e', 'c'), ('t', 'e', 'd'), ('r', 'u', 's'), ('b', 'e', 'x'),
  ('l', 'e', 'b'), ('d', 'u', 'x'), ('r', 'y', 'n'), ('n', 'u', 'm'), ('p', 'y', 'x'),
  ('r', 'y', 'g'), ('r', 'y', 'x'), ('f', 'e', 'p'), ('t', 'y', 'r'), ('t', 'u', 's'),
  ('t', 'y', 'c'), ('l', 'e', 'g'), ('n', 'e', 'm'), ('f', 'e', 'r'), ('m', 'e', 'r'),
  ('t', 'e', 'n'), ('l', 'u', 's'), ('n', 'u', 's'), ('s', 'y', 'l'), ('t', 'e', 'c'),
  ('m', 'e', 'x'), ('p', 'u', 'b'), ('r', 'y', 'm'), ('t', 'u', 'c'), ('f', 'y', 'l'),
  ('l', 'e', 'p'), ('d', 'e', 'b'), ('b', 'e', 'r'), ('m', 'u', 'g'), ('h', 'u', 't'),
  ('t', 'u', 'n'), ('b', 'y', 'l'), ('s', 'u', 'd'), ('p', 'e', 'm'), ('d', 'e', 'v'),
  ('l', 'u', 'r'), ('d', 'e', 'f'), ('b', 'u', 's'), ('b', 'e', 'p'), ('r', 'u', 'n'),
  ('m', 'e', 'l'), ('p', 'e', 'x'), ('d', 'y', 't'), ('b', 'y', 't'), ('t', 'y', 'p'),
  ('l', 'e', 'v'), ('m', 'y', 'l'), ('w', 'e', 'd'), ('d', 'u', 'c'), ('f', 'u', 'r'),
  ('f', 'e', 'x'), ('n', 'u', 'l'), ('l', 'u', 'c'), ('l', 'e', 'n'), ('n', 'e', 'r'),
  ('l', 'e', 'x'), ('r', 'u', 'p'), ('n', 'e', 'd'), ('l', 'e', 'c'), ('r', 'y', 'd'),
  ('l', 'y', 'd'), ('f', 'e', 'n'), ('w', 'e', 'l'), ('n', 'y', 'd'), ('h', 'u', 's'),
  ('r', 'e', 'l'), ('r', 'u', 'd'), ('n', 'e', 's'), ('h', 'e', 's'), ('f', 'e', 't'),
  ('d', 'e', 's'), ('r', 'e', 't'), ('d', 'u', 'n'), ('l', 'e', 'r'), ('n', 'y', 'r'),
  ('s', 'e', 'b'), ('h', 'u', 'l'), ('r', 'y', 'l'), ('l', 'u', 'd'), ('r', 'e', 'm'),
  ('l', 'y', 's'), ('f', 'y', 'n'), ('w', 'e', 'r'), ('r', 'y', 'c'), ('s', 'u', 'g'),
  ('n', 'y', 's'), ('n', 'y', 'l'), ('l', 'y', 'n'), ('d', 'y', 'n'), ('d', 'e', 'm'),
  ('l', 'u', 'x'), ('f', 'e', 'd'), ('s', 'e', 'd'), ('b', 'e', 'c'), ('m', 'u', 'n'),
  ('l', 'y', 'r'), ('t', 'e', 's'), ('m', 'u', 'd'), ('n', 'y', 't'), ('b', 'y', 'r'),
  ('s', 'e', 'n'), ('w', 'e', 'g'), ('f', 'y', 'r'), ('m', 'u', 'r'), ('t', 'e', 'l'),
  ('r', 'e', 'p'), ('t', 'e', 'g'), ('p', 'e', 'c'), ('n', 'e', 'l'), ('n', 'e', 'v'),
  ('f', 'e', 's')]

/-! ### The functions -/

/-- The case of a switch. -/
def caseOf {α : Type} (c : UInt8) : List (Char × α) → Option α
  | [] => none
  | (x, v) :: cases => if c = byteOf x then some v else caseOf c cases

/-- A nested switch, whose defaults are `u3_nul`. -/
def Switch.find (switch : Switch) (s : Syllable) : Option ℕ := do
  let switch ← caseOf s.one switch
  let switch ← caseOf s.two switch
  caseOf s.three switch

/-- A switch on the number, whose default bails. -/
def nameOf (names : List (Char × Char × Char)) (id : ℕ) : Option Syllable :=
  names[id]?.map fun (a, b, c) ↦ ⟨byteOf a, byteOf b, byteOf c⟩

/-- `u3_po_find_prefix()`. -/
def poFindPrefix (s : Syllable) : Option ℕ := Switch.find prefixSwitch s

/-- `u3_po_find_suffix()`. -/
def poFindSuffix (s : Syllable) : Option ℕ := Switch.find suffixSwitch s

/-- `u3_po_to_prefix()`. -/
def poToPrefix (id : ℕ) : Option Syllable := nameOf prefixNames id

/-- `u3_po_to_suffix()`. -/
def poToSuffix (id : ℕ) : Option Syllable := nameOf suffixNames id

/-! ### Inverses -/

/-- `islower()`. -/
def IsLower (c : UInt8) : Prop := 97 ≤ c ∧ c ≤ 122

instance (c : UInt8) : Decidable (IsLower c) := inferInstanceAs (Decidable (_ ∧ _))

def Syllable.Lower (s : Syllable) : Prop := IsLower s.one ∧ IsLower s.two ∧ IsLower s.three

instance (s : Syllable) : Decidable s.Lower := inferInstanceAs (Decidable (_ ∧ _))

/-- A code of the bytes in syllables of lower case. -/
structure Coded (find : Syllable → Option ℕ) (name : ℕ → Option Syllable) : Prop where
  name_find : ∀ {s id}, find s = some id → id < 256 ∧ name id = some s
  find_name : ∀ {id}, id < 256 → ∃ s, name id = some s ∧ find s = some id ∧ s.Lower

/-- The syllables of a nested switch, with their numbers. -/
def Switch.entries (switch : Switch) : List (Syllable × ℕ) :=
  switch.flatMap fun (a, switch) ↦ switch.flatMap fun (b, switch) ↦
    switch.map fun (c, id) ↦ (⟨byteOf a, byteOf b, byteOf c⟩, id)

theorem mem_of_caseOf {α : Type} {c : UInt8} {cases : List (Char × α)} {v : α}
    (hcase : caseOf c cases = some v) :
    ∃ x, (x, v) ∈ cases ∧ c = byteOf x := by
  induction cases with
  | nil => cases hcase
  | cons e cases ih =>
    obtain ⟨x, w⟩ := e
    rw [caseOf] at hcase
    by_cases hc : c = byteOf x
    · rw [if_pos hc] at hcase
      cases hcase
      exact ⟨x, List.mem_cons_self, hc⟩
    · rw [if_neg hc] at hcase
      obtain ⟨y, hmem, hy⟩ := ih hcase
      exact ⟨y, List.mem_cons_of_mem _ hmem, hy⟩

theorem mem_entries {switch : Switch} {s : Syllable} {id : ℕ} (hfind : switch.find s = some id) :
    (s, id) ∈ switch.entries := by
  obtain ⟨one, hone, hfind⟩ := Option.bind_eq_some_iff.mp hfind
  obtain ⟨two, htwo, hthree⟩ := Option.bind_eq_some_iff.mp hfind
  obtain ⟨a, ha, hone⟩ := mem_of_caseOf hone
  obtain ⟨b, hb, htwo⟩ := mem_of_caseOf htwo
  obtain ⟨c, hc, hthree⟩ := mem_of_caseOf hthree
  refine List.mem_flatMap.mpr ⟨_, ha, List.mem_flatMap.mpr ⟨_, hb, List.mem_map.mpr ⟨_, hc, ?_⟩⟩⟩
  show (Syllable.mk (byteOf a) (byteOf b) (byteOf c), id) = (s, id)
  rw [← hone, ← htwo, ← hthree]

/-- A switch and a table of names are compared entry by entry. -/
theorem Coded.of_tables {switch : Switch} {names : List (Char × Char × Char)}
    (hentries : ∀ e ∈ switch.entries, e.2 < 256 ∧ nameOf names e.2 = some e.1)
    (hnames : ∀ id < 256, ∃ s ∈ nameOf names id, switch.find s = some id ∧ s.Lower) :
    Coded switch.find (nameOf names) where
  name_find hfind := hentries _ (mem_entries hfind)
  find_name hid := hnames _ hid

theorem coded_prefix : Coded poFindPrefix poToPrefix :=
  Coded.of_tables (by decide +kernel) (by decide +kernel)

theorem coded_suffix : Coded poFindSuffix poToSuffix :=
  Coded.of_tables (by decide +kernel) (by decide +kernel)

end Vere.Noun.Ship
