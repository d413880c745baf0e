import Vere.Noun.NockMachine

/-!
# Evaluations

`Evaluates a f p` is a derivation of the product `*[a f]` of which the interpreter can follow every
part: the formulas that it enters can be assembled, the branches that it takes are formulaic, its
kicks and registrations return, and the clue of a `%bout` hint is a cell, and that of an `%xray`
hint is not. It gives the product of the rules (`product_of_evaluates`), which is the only one
(`product_unique`). The editor of the interpreter is the one of the rules (`iEdit_of_edit`).
-/

set_option autoImplicit false

namespace Vere.Noun.Nock

open Serial

/-! ### The rules -/

variable {p : Noun}

/-- The rules give one product. -/
theorem product_unique {a f q : Noun} (hp : Product a f p) (hq : Product a f q) : p = q := by
  induction hp generalizing q with
  | cons _ _ ihb ihd =>
    cases hq with
    | cons hb hd => rw [ihb hb, ihd hd]
  | frag hslot =>
    cases hq with
    | frag hslot' => exact Option.some.inj (hslot.symm.trans hslot')
  | lit =>
    cases hq with
    | lit => rfl
  | nock _ _ _ ihb ihc ihrun =>
    cases hq with
    | nock hb hc hrun =>
      cases ihb hb
      cases ihc hc
      exact ihrun hrun
  | deep _ ihb =>
    cases hq with
    | deep hb => rw [ihb hb]
  | bump _ ihb =>
    cases hq with
    | bump hb =>
      cases ihb hb
      rfl
  | same _ _ ihb ihc =>
    cases hq with
    | same hb hc => rw [ihb hb, ihc hc]
  | yes _ _ ihb ihc =>
    cases hq with
    | yes _ hc => exact ihc hc
    | no hb _ => cases ihb hb
  | no _ _ ihb ihd =>
    cases hq with
    | yes hb _ => cases ihb hb
    | no _ hd => exact ihd hd
  | comp _ _ ihb ihc =>
    cases hq with
    | comp hb hc =>
      cases ihb hb
      exact ihc hc
  | push _ _ ihb ihc =>
    cases hq with
    | push hb hc =>
      cases ihb hb
      exact ihc hc
  | kick _ hslot _ ihc ihrun =>
    cases hq with
    | kick hc hslot' hrun =>
      cases ihc hc
      cases hslot.symm.trans hslot'
      exact ihrun hrun
  | hax _ _ hedit ihc ihd =>
    cases hq with
    | hax hc hd hedit' =>
      cases ihc hc
      cases ihd hd
      exact Option.some.inj (hedit.symm.trans hedit')
  | clue _ _ _ ihd =>
    cases hq with
    | clue _ hd => exact ihd hd
  | hint _ ihd =>
    cases hq with
    | hint hd => exact ihd hd

/-! ### What the interpreter can follow -/

/-- The formula can be compiled and assembled. -/
def Runnable (f : Noun) : Prop := ∃ ops, Fits f ops

section Evaluates

variable {W : Type} (env : Env W) (Good : W → Prop)

/-- `u3j_site_kick()` returns. -/
def Env.Kicks (axe : ℕ) (cor : Noun) : Prop :=
  ∀ w site, Good w → env.kick w site (.atom axe) cor ≠ none

/-- `u3j_rite_mine()` returns. -/
def Env.Enrolls (clu cor : Noun) : Prop := ∀ w site, Good w → ∃ w', env.mine w site clu cor = .ok w'

/-- The tag of a hint takes its clue, and the product of its formula. -/
structure Takes (tag clu pro : Noun) : Prop where
  bout : tag = .atom mBout → ∃ pri tan, clu = .cell pri tan
  xray : tag = .atom mXray → ∃ a, clu = .atom a
  fast : tag = .atom mFast → env.Enrolls Good clu pro

/-- The product of a formula on a subject, by way of what the interpreter can follow. -/
inductive Evaluates : Noun → Noun → Noun → Prop
  | cons {a b c d p q : Noun} (hbc : Evaluates a (.cell b c) p) (hd : Evaluates a d q) :
      Evaluates a (.cell (.cell b c) d) (.cell p q)
  | frag {a p : Noun} {b : ℕ}
    (hslot : slot b a = some p) : Evaluates a (.cell (.atom 0) (.atom b)) p
  | lit {a b : Noun} : Evaluates a (.cell (.atom 1) b) b
  | nock {a b c s f p : Noun} (hb : Evaluates a b s) (hc : Evaluates a c f) (hrunnable : Runnable f)
      (hrun : Evaluates s f p) : Evaluates a (.cell (.atom 2) (.cell b c)) p
  | deep {a b p : Noun} (hb : Evaluates a b p) : Evaluates a (.cell (.atom 3) b) (wut p)
  | bump {a b : Noun} {n : ℕ} (hb : Evaluates a b (.atom n)) :
      Evaluates a (.cell (.atom 4) b) (.atom (n + 1))
  | same {a b c p q : Noun} (hb : Evaluates a b p) (hc : Evaluates a c q) :
      Evaluates a (.cell (.atom 5) (.cell b c)) (tis p q)
  | yes {a b c d p : Noun} (hb : Evaluates a b (.atom 0)) (hformulaic : formulaic c = true)
      (hc : Evaluates a c p) : Evaluates a (.cell (.atom 6) (.cell b (.cell c d))) p
  | no {a b c d p : Noun} (hb : Evaluates a b (.atom 1)) (hformulaic : formulaic d = true)
      (hd : Evaluates a d p) : Evaluates a (.cell (.atom 6) (.cell b (.cell c d))) p
  | comp {a b c s p : Noun} (hb : Evaluates a b s) (hc : Evaluates s c p) :
      Evaluates a (.cell (.atom 7) (.cell b c)) p
  | push {a b c s p : Noun} (hb : Evaluates a b s) (hc : Evaluates (.cell s a) c p) :
      Evaluates a (.cell (.atom 8) (.cell b c)) p
  | kick {a c cor f p : Noun} {b : ℕ} (hc : Evaluates a c cor) (hslot : slot b cor = some f)
      (hkicks : cap (.atom b) = .ok 2 → env.Kicks Good b cor) (hrunnable : Runnable f)
      (hrun : Evaluates cor f p) :
      Evaluates a (.cell (.atom 9) (.cell (.atom b) c)) p
  | hax {a c d v n p : Noun} {b : ℕ} (hc : Evaluates a c v) (hd : Evaluates a d n)
      (hedit : edit b v n = some p) (hmet : b.size ≤ 2 ^ 31) :
      Evaluates a (.cell (.atom 10) (.cell (.cell (.atom b) c) d)) p
  | clue {a b c d clu p : Noun} (hc : Evaluates a c clu) (hd : Evaluates a d p)
      (htakes : Takes env Good b clu p) : Evaluates a (.cell (.atom 11) (.cell (.cell b c) d)) p
  | hint {a d p : Noun} {b : ℕ} (hd : Evaluates a d p) (hxray : b ≠ mXray) :
      Evaluates a (.cell (.atom 11) (.cell (.atom b) d)) p

variable {env Good} in
/-- An evaluation gives the product of the rules. -/
theorem product_of_evaluates {a f : Noun} (heval : Evaluates env Good a f p) : Product a f p := by
  induction heval with
  | cons _ _ ihb ihd => exact .cons ihb ihd
  | frag hslot => exact .frag hslot
  | lit => exact .lit
  | nock _ _ _ _ ihb ihc ihrun => exact .nock ihb ihc ihrun
  | deep _ ihb => exact .deep ihb
  | bump _ ihb => exact .bump ihb
  | same _ _ ihb ihc => exact .same ihb ihc
  | yes _ _ _ ihb ihc => exact .yes ihb ihc
  | no _ _ _ ihb ihd => exact .no ihb ihd
  | comp _ _ ihb ihc => exact .comp ihb ihc
  | push _ _ ihb ihc => exact .push ihb ihc
  | kick _ hslot _ _ _ ihc ihrun => exact .kick ihc hslot ihrun
  | hax _ _ hedit _ ihc ihd => exact .hax ihc ihd hedit
  | clue _ _ _ ihc ihd => exact .clue ihc ihd
  | hint _ _ ihd => exact .hint ihd

end Evaluates

/-! ### Editing -/

theorem rMet_of_size {b : ℕ} (hsize : b.size ≤ 2 ^ 31) : rMet b = some b.size := by
  rw [rMet_eq, if_pos (by omega)]

section Axes

variable {axe k : ℕ} (hsize : axe.size = k + 2)
include hsize

/-- `u3qc_mas()` takes the top bit of an axis away, and sets the next one. -/
theorem mas_eq (hmet : axe.size ≤ 2 ^ 31) :
    mas (.atom axe) = .ok (axe % 2 ^ (k + 1) ||| 2 ^ k) := by
  have hlow : 2 ^ (k + 1) ≤ axe := Nat.lt_size.mp (by omega)
  have hhigh : axe < 2 ^ (k + 2) := Nat.size_le.mp (by omega)
  have hmod : axe - 2 ^ (k + 1) = axe % 2 ^ (k + 1) := by
    rw [Nat.mod_eq_sub_mod hlow, Nat.mod_eq_of_lt]
    rw [pow_succ] at hhigh
    omega
  have hbex : ∀ i < 2 ^ 31, qcBex i = some (2 ^ i) := fun i hi ↦ if_neg (not_not.mpr hi)
  rw [mas, rMet_of_size hmet, hsize]
  show (if k + 2 < 2 then _ else _) = _
  rw [if_neg (by omega), show k + 2 - 1 = k + 1 from rfl, show k + 2 - 2 = k from rfl,
    hbex _ (by omega), hbex _ (by omega)]
  show Except.ok ((axe - 2 ^ (k + 1)) ||| 2 ^ k) = _
  rw [hmod]

theorem cap_eq (hmet : axe.size ≤ 2 ^ 31) :
    cap (.atom axe) = .ok (if axe.testBit k then 3 else 2) := by
  rw [cap, rMet_of_size hmet, hsize]
  show (if k + 2 < 2 then _ else _) = _
  rw [if_neg (by omega)]
  rfl

theorem log2_of_size : axe.log2 = k + 1 := by
  rw [Nat.log2_eq_iff]
  · exact ⟨Nat.lt_size.mp (by omega), Nat.size_le.mp (by omega)⟩
  · rintro rfl
    simp at hsize

omit hsize in
theorem size_below (axe k : ℕ) : (axe % 2 ^ (k + 1) ||| 2 ^ k).size = k + 1 := by
  apply le_antisymm
  · rw [Nat.size_le]
    exact Nat.or_lt_two_pow (Nat.mod_lt _ (Nat.two_pow_pos _))
      (Nat.pow_lt_pow_right (by omega) (by omega))
  · exact Nat.lt_size.mpr Nat.right_le_or

omit hsize in
theorem log2_below (axe k : ℕ) : (axe % 2 ^ (k + 1) ||| 2 ^ k).log2 = k := by
  have hsize := size_below axe k
  rw [Nat.log2_eq_iff]
  · exact ⟨Nat.right_le_or, Nat.size_le.mp (by omega)⟩
  · intro hzero
    rw [hzero] at hsize
    simp at hsize

/-- The way to an axis goes on to the axis that `u3qc_mas()` gives. -/
theorem path_eq : path axe = axe.testBit k :: path (axe % 2 ^ (k + 1) ||| 2 ^ k) := by
  rw [path, path, log2_of_size hsize, log2_below, List.range_succ, List.reverse_append,
    List.map_append]
  show axe.testBit k :: _ = _
  congr 1
  apply List.map_congr_left
  intro i hi
  have hlt : i < k := by simpa using hi
  rw [Nat.testBit_or, Nat.testBit_mod_two_pow, Nat.testBit_two_pow_of_ne (by omega)]
  simp
  omega

end Axes

theorem editMore_eq {big v : Noun} {axe : ℕ} (haxe : 2 ≤ axe) (hmet : axe.size ≤ 2 ^ 31)
    (hedit : editAt (path axe) v big = some p) : editMore big (.atom axe) v = .ok p := by
  induction big generalizing axe p with
  | atom a =>
    obtain ⟨k, hsize⟩ : ∃ k, axe.size = k + 2 := ⟨axe.size - 2, by
      have hlt : 1 < axe.size := Nat.lt_size.mpr haxe
      omega⟩
    rw [path_eq hsize] at hedit
    cases hside : axe.testBit k <;> rw [hside] at hedit <;> cases hedit
  | cell h t ihh iht =>
    obtain ⟨k, hsize⟩ : ∃ k, axe.size = k + 2 := ⟨axe.size - 2, by
      have hlt : 1 < axe.size := Nat.lt_size.mpr haxe
      omega⟩
    rw [editMore]
    split_ifs with htwo hthree
    · cases htwo
      exact congrArg Except.ok (Option.some.inj hedit)
    · cases hthree
      exact congrArg Except.ok (Option.some.inj hedit)
    · have hlarge : 4 ≤ axe := by
        rw [Noun.atom.injEq] at htwo hthree
        omega
      have hmore : 2 ≤ axe % 2 ^ (k + 1) ||| 2 ^ k := by
        have hk : 1 < axe.size - 1 := by
          have hlt : 2 < axe.size := Nat.lt_size.mpr hlarge
          omega
        exact Nat.lt_size.mp (show 1 < _ by rw [size_below]; omega)
      have hmet' : (axe % 2 ^ (k + 1) ||| 2 ^ k).size ≤ 2 ^ 31 := by
        rw [size_below]
        omega
      rw [path_eq hsize] at hedit
      rw [mas_eq hsize hmet, cap_eq hsize hmet]
      cases hside : axe.testBit k with
      | false =>
        rw [hside] at hedit
        obtain ⟨h', hh, rfl⟩ := Option.map_eq_some_iff.mp hedit
        show (editMore h (.atom (axe % 2 ^ (k + 1) ||| 2 ^ k)) v >>= fun h ↦ .ok (Noun.cell h t)) =
          _
        rw [ihh hmore hmet' hh]
        rfl
      | true =>
        rw [hside] at hedit
        obtain ⟨t', ht, rfl⟩ := Option.map_eq_some_iff.mp hedit
        show (editMore t (.atom (axe % 2 ^ (k + 1) ||| 2 ^ k)) v >>= fun t ↦ .ok (Noun.cell h t)) =
          _
        rw [iht hmore hmet' ht]
        rfl

/-- The editor of the interpreter is the one of the rules. -/
theorem iEdit_of_edit {big v : Noun} {axe : ℕ} (hmet : axe.size ≤ 2 ^ 31)
    (hedit : edit axe v big = some p) : iEdit big (.atom axe) v = .ok p := by
  unfold edit at hedit
  split at hedit
  · cases hedit
  · next hne =>
    by_cases hone : axe = 1
    · subst hone
      exact congrArg Except.ok (Option.some.inj hedit)
    · have hmore : iEdit big (.atom axe) v = editMore big (.atom axe) v := by
        unfold iEdit
        split
        · next h => exact absurd (Noun.atom.inj h) hne
        · next h => exact absurd (Noun.atom.inj h) hone
        · rfl
      rw [hmore]
      exact editMore_eq (by omega) hmet hedit

end Vere.Noun.Nock
