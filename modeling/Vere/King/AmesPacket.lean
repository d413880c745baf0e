import Vere.King.Ames

/-!
# Reading what was written

A packet that was read is `Sound`: it is the head and the body of some bytes behind the origin. Its
bytes are read back as it is (`accept_etchPack`), and a part of them that is still read gives the
same head, ships, life ticks and origin (`accept_part`). The zeros at the end of a packet are lost
on its way out.
-/

set_option autoImplicit false

namespace Vere.King.Ames

open Lib.Bytes
open Noun.Murmur (mugBytes)

/-! ### The header -/

theorem xor_shiftLeft {a b k : ℕ} (ha : a < 2 ^ k) : a ^^^ (b <<< k) = a + b * 2 ^ k := by
  refine Nat.eq_of_testBit_eq fun i ↦ ?_
  rw [Nat.add_comm, Nat.mul_comm, Nat.testBit_two_pow_mul_add b ha, Nat.testBit_xor,
    Nat.testBit_shiftLeft]
  split
  · next hi => simp [show ¬k ≤ i by omega]
  · next hi =>
    have hhigh : a.testBit i = false :=
      Nat.testBit_eq_false_of_lt (ha.trans_le (Nat.pow_le_pow_right (by decide) (by omega)))
    simp [hhigh, show i ≥ k by omega]

theorem bitOf_lt (loobean : Bool) : bitOf loobean < 2 := by
  cases loobean <;> decide

theorem loob_bitOf {n : ℕ} {loobean : Bool} (hn : n % 2 = bitOf loobean) : loob n = loobean := by
  unfold loob
  rw [hn]
  cases loobean <;> rfl

variable {hed_y : List UInt8}

theorem etchHead_eq {hed_u : Head} (h : etchHead hed_u = .ok hed_y) :
    hed_u.ver_y = 0 ∧ hed_y = spell 4 (bitOf hed_u.sim_o * 2 ^ 3 + hed_u.ver_y.val * 2 ^ 4 +
      hed_u.sac_y.val * 2 ^ 7 + hed_u.rac_y.val * 2 ^ 9 + hed_u.mug_l.val * 2 ^ 11 +
      bitOf hed_u.rel_o * 2 ^ 31) := by
  have hsim := bitOf_lt hed_u.sim_o
  have hver := hed_u.ver_y.isLt
  have hsac := hed_u.sac_y.isLt
  have hrac := hed_u.rac_y.isLt
  have hmug := hed_u.mug_l.isLt
  unfold etchHead at h
  split_ifs at h with hzero
  cases h
  refine ⟨hzero, ?_⟩
  rw [Nat.shiftLeft_eq (bitOf hed_u.sim_o), xor_shiftLeft (b := hed_u.ver_y.val) (by omega),
    xor_shiftLeft (b := hed_u.sac_y.val) (by omega),
    xor_shiftLeft (b := hed_u.rac_y.val) (by omega), xor_shiftLeft (b := hed_u.mug_l.val)
      (by omega), xor_shiftLeft (b := bitOf hed_u.rel_o) (by omega)]

theorem length_etchHead {hed_u : Head} (h : etchHead hed_u = .ok hed_y) : hed_y.length = 4 := by
  rw [(etchHead_eq h).2, length_spell]

theorem siftHead_etchHead {hed_u : Head} (h : etchHead hed_u = .ok hed_y) (rest : List UInt8) :
    siftHead (hed_y ++ rest) = hed_u := by
  obtain ⟨hzero, hspell⟩ := etchHead_eq h
  have hsim := bitOf_lt hed_u.sim_o
  have hrel := bitOf_lt hed_u.rel_o
  have hver := hed_u.ver_y.isLt
  have hsac := hed_u.sac_y.isLt
  have hrac := hed_u.rac_y.isLt
  have hmug := hed_u.mug_l.isLt
  have hvalue : value ((hed_y ++ rest).take 4) =
    bitOf hed_u.sim_o * 2 ^ 3 + hed_u.ver_y.val * 2 ^ 4 +
      hed_u.sac_y.val * 2 ^ 7 + hed_u.rac_y.val * 2 ^ 9 + hed_u.mug_l.val * 2 ^ 11 +
      bitOf hed_u.rel_o * 2 ^ 31 := by
    rw [List.take_append_of_le_length (length_etchHead h).ge,
      List.take_of_length_le (length_etchHead h).le, hspell, value_spell_of_lt (by omega)]
  unfold siftHead
  rw [hvalue]
  simp only [Nat.shiftRight_eq_div_pow]
  obtain ⟨sim_o, ver_y, sac_y, rac_y, mug_l, rel_o⟩ := hed_u
  simp only at *
  rw [Head.mk.injEq]
  refine ⟨loob_bitOf (by omega), ?_, ?_, ?_, ?_, loob_bitOf (by omega)⟩
  all_goals apply Fin.ext
  all_goals rw [Fin.val_ofNat]
  all_goals omega

/-! ### The body -/

section Body

variable {hash : ℕ → List UInt8 → ℕ} {hed_u : Head} {bod_u : Body} {rog_y gob_y : List UInt8}

/-- The class of a ship is a number below 16. -/
local instance neZeroClass : NeZero 16 := ⟨by decide⟩

/-- The body of the bytes behind the origin. -/
def gobBody (hash : ℕ → List UInt8 → ℕ) (hed_u : Head) (gob_y : List UInt8) (rog_d : ℕ) : Body where
  sen_d := value ((gob_y.drop 1).take (shipLen hed_u.sac_y))
  rec_d := value ((gob_y.drop (1 + shipLen hed_u.sac_y)).take (shipLen hed_u.rac_y))
  sic_y := Fin.ofNat 16 (value (gob_y.take 1))
  ric_y := Fin.ofNat 16 (value (gob_y.take 1) >>> 4)
  con_y := gob_y.drop (1 + shipLen hed_u.sac_y + shipLen hed_u.rac_y)
  rog_d := rog_d
  mug_l := mugBytes hash gob_y % 2 ^ 20

theorem siftBody_append (hrog : rog_y.length = hed_u.rogLen) (hgob : gob_y.length < 2 ^ 16) :
    siftBody hash hed_u (rog_y ++ gob_y) =
      if 1 + shipLen hed_u.sac_y + shipLen hed_u.rac_y ≥ gob_y.length then none
      else some (gobBody hash hed_u gob_y (value rog_y)) := by
  have hlength : (rog_y ++ gob_y).length = hed_u.rogLen + gob_y.length := by
    rw [List.length_append, hrog]
  have htake : (rog_y ++ gob_y).take hed_u.rogLen = rog_y := by
    rw [← hrog, List.take_left]
  have hdrop : (rog_y ++ gob_y).drop hed_u.rogLen = gob_y := by
    rw [← hrog, List.drop_left]
  unfold siftBody
  simp only [hlength, htake, hdrop]
  by_cases hshort : 1 + shipLen hed_u.sac_y + shipLen hed_u.rac_y ≥ gob_y.length
  · rw [if_pos (by omega), if_pos hshort]
  · have hsize : (hed_u.rogLen + gob_y.length - hed_u.rogLen) % 2 ^ 16 = gob_y.length := by
      rw [Nat.add_sub_cancel_left, Nat.mod_eq_of_lt hgob]
    have hcon : (gob_y.length + 2 ^ 16 - (1 + shipLen hed_u.sac_y + shipLen hed_u.rac_y)) % 2 ^ 16 =
        gob_y.length - (1 + shipLen hed_u.sac_y + shipLen hed_u.rac_y) := by
      omega
    have hrest : (gob_y.drop (1 + shipLen hed_u.sac_y + shipLen hed_u.rac_y)).length =
        gob_y.length - (1 + shipLen hed_u.sac_y + shipLen hed_u.rac_y) := List.length_drop
    rw [if_neg (by omega), if_neg hshort, hsize, hcon, ← hrest, List.take_length, List.take_length]
    rfl

variable (hash) in
/-- What the body of some bytes is written as. -/
theorem etch_gobBody (rog_d : ℕ)
    (hlong : 1 + shipLen hed_u.sac_y + shipLen hed_u.rac_y < gob_y.length) :
    spell 1 ((gobBody hash hed_u gob_y rog_d).sic_y.val ^^^
        ((gobBody hash hed_u gob_y rog_d).ric_y.val <<< 4)) ++
      spell (shipLen hed_u.sac_y) (gobBody hash hed_u gob_y rog_d).sen_d ++
      spell (shipLen hed_u.rac_y) (gobBody hash hed_u gob_y rog_d).rec_d ++
      (gobBody hash hed_u gob_y rog_d).con_y = gob_y := by
  have hspell : ∀ (len : ℕ) (bytes : List UInt8), bytes.length = len →
      spell len (value bytes) = bytes := by
    rintro len bytes rfl
    exact spell_value bytes
  have htic : (gob_y.take 1).length = 1 := by
    rw [List.length_take]
    omega
  have hbyte : value (gob_y.take 1) < 256 := by
    have hlt := value_lt (gob_y.take 1)
    rw [htic] at hlt
    simpa using hlt
  have hticks : (gobBody hash hed_u gob_y rog_d).sic_y.val ^^^
      ((gobBody hash hed_u gob_y rog_d).ric_y.val <<< 4) = value (gob_y.take 1) := by
    have hlow : (gobBody hash hed_u gob_y rog_d).sic_y.val < 2 ^ 4 :=
      (gobBody hash hed_u gob_y rog_d).sic_y.isLt
    rw [xor_shiftLeft hlow]
    show value (gob_y.take 1) % 16 + value (gob_y.take 1) >>> 4 % 16 * 2 ^ 4 = _
    rw [Nat.shiftRight_eq_div_pow]
    omega
  have hsen : spell (shipLen hed_u.sac_y) (gobBody hash hed_u gob_y rog_d).sen_d =
      (gob_y.drop 1).take (shipLen hed_u.sac_y) := by
    refine hspell _ _ ?_
    rw [List.length_take, List.length_drop]
    omega
  have hrec : spell (shipLen hed_u.rac_y) (gobBody hash hed_u gob_y rog_d).rec_d =
      (gob_y.drop (1 + shipLen hed_u.sac_y)).take (shipLen hed_u.rac_y) := by
    refine hspell _ _ ?_
    rw [List.length_take, List.length_drop]
    omega
  rw [hticks, hspell 1 _ htic, hsen, hrec]
  show gob_y.take 1 ++ (gob_y.drop 1).take _ ++ (gob_y.drop (1 + _)).take _ ++ gob_y.drop
    (1 + _ + _) = gob_y
  rw [← List.take_add, ← List.take_add, List.take_append_drop]

/-! ### Packets that were read -/

/-- A packet as it is read: a body of some bytes behind the origin, with the mug of the header. -/
structure Sound (hash : ℕ → List UInt8 → ℕ) (hed_u : Head) (bod_u : Body) (gob_y : List UInt8) :
    Prop where
  sim : hed_u.sim_o = true
  long : 1 + shipLen hed_u.sac_y + shipLen hed_u.rac_y < gob_y.length
  size : gob_y.length < 2 ^ 16
  body : bod_u = gobBody hash hed_u gob_y bod_u.rog_d
  mug : bod_u.mug_l = hed_u.mug_l.val
  origin : bod_u.rog_d < 256 ^ hed_u.rogLen

variable {hun_y : List UInt8}

theorem accept_eq_some {sam_u : Sam} :
    accept hash sam_u hun_y = some (hed_u, bod_u) ↔ 4 ≤ hun_y.length ∧ hed_u.sim_o = true ∧
      (sam_u.fit_o = true → sam_u.ver_y = hed_u.ver_y.val) ∧ hed_u = siftHead hun_y ∧
      siftBody hash hed_u (hun_y.drop 4) = some bod_u ∧ bod_u.mug_l = hed_u.mug_l.val := by
  unfold accept
  constructor
  · intro h
    dsimp only at h
    split at h
    · cases h
    · next hhead =>
      split at h
      · cases h
      · next hver =>
        split at h
        · cases h
        · next bod hbod =>
          split at h
          · cases h
          · next hmug =>
            cases h
            simp only [not_or, Nat.not_lt, not_not, Bool.not_eq_true, not_and] at hhead hver hmug
            refine ⟨hhead.1, ?_, hver, rfl, hbod, hmug⟩
            simpa using hhead.2
  · rintro ⟨hlength, hsim, hver, rfl, hbody, hmug⟩
    rw [if_neg (by simp [hsim]; omega), if_neg (by simpa using hver), hbody]
    simp [hmug]

/-- A packet that is accepted is sound, and its bytes are the end of the datagram. -/
theorem sound_of_accept {sam_u : Sam} (hsize : hun_y.length < 2 ^ 16)
    (h : accept hash sam_u hun_y = some (hed_u, bod_u)) :
    ∃ gob_y, Sound hash hed_u bod_u gob_y ∧ gob_y <:+ hun_y := by
  obtain ⟨hlength, hsim, -, -, hbody, hmug⟩ := (accept_eq_some).mp h
  have hlong : ¬1 + shipLen hed_u.sac_y + shipLen hed_u.rac_y + hed_u.rogLen ≥
      (hun_y.drop 4).length := by
    intro hshort
    rw [siftBody, if_pos hshort] at hbody
    cases hbody
  have hdrop : (hun_y.drop 4).length = hun_y.length - 4 := List.length_drop
  have hrog : ((hun_y.drop 4).take hed_u.rogLen).length = hed_u.rogLen := by
    rw [List.length_take]
    omega
  have hgob : ((hun_y.drop 4).drop hed_u.rogLen).length = hun_y.length - 4 - hed_u.rogLen := by
    rw [List.length_drop, hdrop]
  rw [← List.take_append_drop hed_u.rogLen (hun_y.drop 4), siftBody_append hrog (by omega),
    if_neg (by omega)] at hbody
  obtain rfl := Option.some.inj hbody
  refine ⟨(hun_y.drop 4).drop hed_u.rogLen, ⟨hsim, by omega, by omega, rfl, hmug, ?_⟩, ?_⟩
  · exact (value_lt _).trans_eq (by rw [hrog])
  · exact (List.drop_suffix _ _).trans (List.drop_suffix _ _)

/-- The bytes of a sound packet. -/
theorem etchPack_eq {pac_y : List UInt8} (hsound : Sound hash hed_u bod_u gob_y)
    (h : etchPack hed_u bod_u = .ok pac_y) :
    ∃ hed_y, etchHead hed_u = .ok hed_y ∧ pac_y =
      hed_y ++ (spell hed_u.rogLen bod_u.rog_d ++ gob_y) := by
  unfold etchPack at h
  cases hhead : etchHead hed_u with
  | error e =>
    rw [hhead] at h
    cases h
  | ok hed_y =>
    rw [hhead] at h
    refine ⟨hed_y, rfl, ?_⟩
    have hetch := etch_gobBody hash bod_u.rog_d hsound.long
    rw [← hsound.body] at hetch
    have hpac := (Except.ok.inj h).symm
    rw [← hetch]
    simpa [List.append_assoc] using hpac

/-- The bytes of a sound packet are accepted, and read as it is. -/
theorem accept_etchPack {pac_y : List UInt8} {hop : Sam} (hsound : Sound hash hed_u bod_u gob_y)
    (h : etchPack hed_u bod_u = .ok pac_y) (hver : hop.fit_o = true → hop.ver_y = hed_u.ver_y.val) :
    accept hash hop pac_y = some (hed_u, bod_u) := by
  obtain ⟨hed_y, hhead, rfl⟩ := etchPack_eq hsound h
  have hfour := length_etchHead hhead
  refine (accept_eq_some).mpr ⟨?_, hsound.sim, hver, (siftHead_etchHead hhead _).symm, ?_,
    hsound.mug⟩
  · rw [List.length_append]
    omega
  · have hlong := hsound.long
    rw [List.drop_append_of_le_length hfour.ge, List.drop_of_length_le hfour.le, List.nil_append,
      siftBody_append (length_spell _ _) hsound.size, if_neg (by omega),
      value_spell_of_lt hsound.origin, ← hsound.body]

theorem split_front {α : Type} {front tail all back : List α} (h : all ++ back = front ++ tail)
    (hlong : front.length ≤ all.length) : ∃ more, all = front ++ more ∧ more ++ back = tail := by
  refine ⟨all.drop front.length, ?_, ?_⟩
  · have htake := congrArg (List.take front.length) h
    rw [List.take_append_of_le_length hlong, List.take_left] at htake
    have hall := List.take_append_drop front.length all
    rw [htake] at hall
    exact hall.symm
  · have hdrop := congrArg (List.drop front.length) h
    rw [List.drop_append_of_le_length hlong, List.drop_left] at hdrop
    exact hdrop

theorem take_drop_append {α : Type} {front : List α} {len more : ℕ} (back : List α)
    (hlong : len + more ≤ front.length) :
    ((front ++ back).drop len).take more = (front.drop len).take more := by
  rw [List.drop_append_of_le_length (by omega), List.take_append_of_le_length]
  rw [List.length_drop]
  omega

/-- A part of the bytes of a sound packet that is accepted differs only in its content. -/
theorem accept_part {hop : Sam} {back : List UInt8} {hed' : Head} {bod' : Body}
    (hsound : Sound hash hed_u bod_u gob_y) (h : etchPack hed_u bod_u = .ok (hun_y ++ back))
    (haccept : accept hash hop hun_y = some (hed', bod')) :
    hed' = hed_u ∧ bod'.sen_d = bod_u.sen_d ∧ bod'.rec_d = bod_u.rec_d ∧ bod'.sic_y = bod_u.sic_y ∧
      bod'.ric_y = bod_u.ric_y ∧ bod'.rog_d = bod_u.rog_d ∧
      bod'.con_y.length + back.length = bod_u.con_y.length := by
  obtain ⟨hed_y, hhead, hpac⟩ := etchPack_eq hsound h
  have hfour := length_etchHead hhead
  obtain ⟨hlength, -, -, hhed', hbody, -⟩ := (accept_eq_some).mp haccept
  -- the header is whole, and so are the origin and the ships
  obtain ⟨more, rfl, hmore⟩ := split_front hpac (hfour.trans_le hlength)
  rw [siftHead_etchHead hhead] at hhed'
  subst hhed'
  rw [List.drop_append_of_le_length hfour.ge, List.drop_of_length_le hfour.le,
    List.nil_append] at hbody
  have hlong : ¬1 + shipLen hed'.sac_y + shipLen hed'.rac_y + hed'.rogLen ≥ more.length := by
    intro hshort
    rw [siftBody, if_pos hshort] at hbody
    cases hbody
  obtain ⟨gob', rfl, hgob⟩ := split_front hmore (by rw [length_spell]; omega)
  subst hgob
  have hsize := hsound.size
  rw [List.length_append] at hlong hsize
  rw [length_spell] at hlong
  rw [siftBody_append (length_spell _ _) (by omega), if_neg (by omega),
    value_spell_of_lt hsound.origin] at hbody
  obtain rfl := Option.some.inj hbody
  rw [hsound.body]
  refine ⟨rfl, ?_, ?_, ?_, ?_, rfl, ?_⟩
  · exact congrArg value (take_drop_append back (by omega)).symm
  · exact congrArg value (take_drop_append back (by omega)).symm
  · show Fin.ofNat 16 (value (gob'.take 1)) = Fin.ofNat 16 (value ((gob' ++ back).take 1))
    rw [List.take_append_of_le_length (by omega)]
  · show Fin.ofNat 16 (value (gob'.take 1) >>> 4) =
      Fin.ofNat 16 (value ((gob' ++ back).take 1) >>> 4)
    rw [List.take_append_of_le_length (by omega)]
  · show (gob'.drop _).length + back.length = ((gob' ++ back).drop _).length
    rw [List.length_drop, List.length_drop, List.length_append]
    omega

end Body

end Vere.King.Ames
