import Vere.Lib.Feistel
import Vere.Noun.Blocks
import Vere.Noun.Extract

/-!
# Scrambled ship names

`u3qe_fein_ob()` of `pkg/noun/jets/e/fein_ob.c` and `u3qe_fynd_ob()` of `fynd_ob.c`: a cipher of
four rounds on the numbers from 2^16 to 2^32, for planets, and on the low word of those from 2^32 to
2^64, for moons. Whatever the hash is, each of the two is the inverse of the other
(`scramble_permutes`). The second call of the cipher, for results that are not below `k_w`, is never
made (`feOb_lt`, `fenOb_lt`).

`MurmurHash3_x86_32()` is not part of the program, and `hash` stands for it.
-/

set_option autoImplicit false
set_option relaxedAutoImplicit false

namespace Vere.Noun.Ob

open Lib.Feistel
open Nock
open Blocks (rMet rMet_eq met)
open Imprison (SlabFault valueOf wordOf)

/-! ### The functions -/

def aW : ℕ := 0xffff
def bW : ℕ := 0x10000
def kW : ℕ := 0xffff0000

/-- `+raku:ob`. -/
def rakW : List UInt32 := [0xb76d5eed, 0xee281300, 0x85bcae01, 0x4b387af7]

/-- `(flop raku:ob)`. -/
def karW : List UInt32 := [0x4b387af7, 0x85bcae01, 0xee281300, 0xb76d5eed]

/-- `k_y`, the two bytes that are hashed. -/
def keyOf (w : ℕ) : List UInt8 := [UInt8.ofNat (w &&& 0xff), UInt8.ofNat ((w >>> 8) &&& 0xff)]

section Functions

variable (hash : UInt32 → List UInt8 → UInt32)

/-- The loop of `_fe_ob()`, from the round `j_y` on. -/
def feLoop : List UInt32 → ℕ → ℕ → ℕ → ℕ × ℕ
  | [], _, l_w, r_w => (l_w, r_w)
  | rak :: rak_w, j_y, l_w, r_w =>
    let f_w := (hash rak (keyOf r_w)).toNat
    let t_w := (f_w + l_w) % (if j_y &&& 1 = 0 then aW else bW)
    feLoop rak_w (j_y + 1) r_w t_w

/-- `_fe_ob()`. -/
def feOb (m_w : ℕ) : ℕ :=
  let (l_w, r_w) := feLoop hash rakW 0 (m_w % aW) (m_w / aW)
  if aW = r_w then r_w * aW + l_w else l_w * aW + r_w

/-- The loop of `_fen_ob()`, from the round `j_y` on. -/
def fenLoop : List UInt32 → ℕ → ℕ → ℕ → ℕ × ℕ
  | [], _, l_w, r_w => (l_w, r_w)
  | kar :: kar_w, j_y, l_w, r_w =>
    let f_w := (hash kar (keyOf l_w)).toNat
    let t_w := if j_y &&& 1 ≠ 0 then (r_w + aW - f_w % aW) % aW else (r_w + bW - f_w % bW) % bW
    fenLoop kar_w (j_y + 1) t_w l_w

/-- `_fen_ob()`. -/
def fenOb (m_w : ℕ) : ℕ :=
  let l_w := m_w / aW
  let r_w := m_w % aW
  let (l_w, r_w) := if aW = l_w then (r_w, l_w) else (l_w, r_w)
  let (l_w, r_w) := fenLoop hash karW 0 l_w r_w
  r_w * aW + l_w

/-- `_feis_ob()` and `_tail_ob()`, by `_fe_ob()` and `_fen_ob()`. -/
def offset (cipher : ℕ → ℕ) (m_w : ℕ) : ℕ :=
  let c_w := cipher ((m_w + 2 ^ 32 - bW) % 2 ^ 32)
  (bW + if c_w < kW then c_w else cipher c_w) % 2 ^ 32

/-- `_feis_ob()`. -/
def feisOb (m_w : ℕ) : ℕ := offset (feOb hash) m_w

/-- `_tail_ob()`. -/
def tailOb (m_w : ℕ) : ℕ := offset (fenOb hash) m_w

/-- `u3qe_fein_ob()` and `u3qe_fynd_ob()`, by `_feis_ob()` and `_tail_ob()`. -/
def qeOb (cipher : ℕ → ℕ) (pyn : ℕ) : Except SlabFault ℕ := do
  let sor_w ← rMet 4 pyn
  if sor_w < 2 ∨ sor_w > 4 then .ok pyn
  else if sor_w = 2 then .ok (cipher (rWord 0 pyn))
  else
    match rWords 0 2 [0, 0] pyn with
    | none => .error .overrun
    | some pyn_w =>
      let low_w := (pyn_w.getD 0 0).toNat
      if low_w < bW then .ok pyn else .ok (valueOf (pyn_w.set 0 (UInt32.ofNat (cipher low_w))))

/-- `u3qe_fein_ob()`. -/
def qeFeinOb (pyn : ℕ) : Except SlabFault ℕ := qeOb (feisOb hash) pyn

/-- `u3qe_fynd_ob()`. -/
def qeFyndOb (pyn : ℕ) : Except SlabFault ℕ := qeOb (tailOb hash) pyn

/-! ### The cipher -/

/-- The rounds of `_fe_ob()`, from `j_y` on. -/
def roundsFrom : List UInt32 → ℕ → List Round
  | [], _ => []
  | rak :: rak_w, j_y =>
    ⟨fun w ↦ (hash rak (keyOf w)).toNat, if j_y &&& 1 = 0 then
      aW else bW⟩ :: roundsFrom rak_w (j_y + 1)

end Functions

variable {hash : UInt32 → List UInt8 → UInt32} {m_w x : ℕ}

theorem feLoop_eq (rak_w : List UInt32) (j_y l_w r_w : ℕ) :
    feLoop hash rak_w j_y l_w r_w = turns (roundsFrom hash rak_w j_y) (l_w, r_w) := by
  induction rak_w generalizing j_y l_w r_w with
  | nil => rfl
  | cons rak rak_w ih => exact ih _ _ _

theorem feOb_eq : feOb hash m_w = encipher aW (roundsFrom hash rakW 0) m_w := by
  unfold feOb
  rw [feLoop_eq]
  rfl

/-- The keys are in reverse order, and the moduli with them. -/
theorem fenLoop_eq (l_w r_w : ℕ) :
    fenLoop hash karW 0 l_w r_w = unturns (roundsFrom hash rakW 0).reverse (l_w, r_w) := rfl

theorem fenOb_eq : fenOb hash m_w = decipher aW (roundsFrom hash rakW 0).reverse m_w := by
  unfold fenOb decipher unpack join
  simp only [fenLoop_eq]

theorem alternates_rakW :
    Alternates (roundsFrom hash rakW 0) (aW, aW + 1) := ⟨rfl, rfl, rfl, rfl, trivial⟩

theorem feOb_lt (hm : m_w < kW) : feOb hash m_w < kW ∧ fenOb hash (feOb hash m_w) = m_w := by
  rw [feOb_eq, fenOb_eq]
  exact encipher_lt alternates_rakW rfl hm

theorem fenOb_lt (hm : m_w < kW) : fenOb hash m_w < kW ∧ feOb hash (fenOb hash m_w) = m_w := by
  rw [feOb_eq, fenOb_eq]
  exact decipher_lt alternates_rakW rfl hm

/-- A cipher that is never called twice. -/
theorem offset_eq {cipher : ℕ → ℕ} (hcipher : ∀ m < kW, cipher m < kW) (hlow : bW ≤ m_w)
    (hhigh : m_w < 2 ^ 32) :
    offset cipher m_w = bW + cipher (m_w - bW) := by
  unfold offset
  have hsub : (m_w + 2 ^ 32 - bW) % 2 ^ 32 = m_w - bW := by
    unfold bW at hlow ⊢
    omega
  have hlt := hcipher (m_w - bW) (by unfold bW at hlow ⊢; unfold kW; omega)
  rw [hsub]
  dsimp only
  rw [if_pos hlt, Nat.mod_eq_of_lt]
  unfold kW at hlt
  unfold bW at hlt ⊢
  omega

/-- A permutation of the names of planets, and its inverse. -/
structure Inverse (f g : ℕ → ℕ) : Prop where
  low : ∀ {m}, bW ≤ m → m < 2 ^ 32 → bW ≤ f m
  high : ∀ {m}, bW ≤ m → m < 2 ^ 32 → f m < 2 ^ 32
  back : ∀ {m}, bW ≤ m → m < 2 ^ 32 → g (f m) = m

theorem inverse_offset {f g : ℕ → ℕ} (hf : ∀ m < kW, f m < kW ∧ g (f m) = m)
    (hg : ∀ m < kW, g m < kW) :
    Inverse (offset f) (offset g) := by
  have hoffset : ∀ {m}, bW ≤ m → m < 2 ^ 32 →
      offset f m = bW + f (m - bW) ∧ f (m - bW) < kW ∧ g (f (m - bW)) = m - bW := by
    intro m hlow hhigh
    refine ⟨offset_eq (fun m hm ↦ (hf m hm).1) hlow hhigh, hf _ ?_⟩
    unfold bW at hlow ⊢
    unfold kW
    omega
  constructor
  · intro m hlow hhigh
    rw [(hoffset hlow hhigh).1]
    exact Nat.le_add_right _ _
  · intro m hlow hhigh
    obtain ⟨heq, hlt, -⟩ := hoffset hlow hhigh
    rw [heq]
    unfold kW at hlt
    unfold bW at hlt ⊢
    omega
  · intro m hlow hhigh
    obtain ⟨heq, hlt, hback⟩ := hoffset hlow hhigh
    have hsum : bW + f (m - bW) < 2 ^ 32 := by
      unfold kW at hlt
      unfold bW at hlt ⊢
      omega
    rw [heq, offset_eq hg (Nat.le_add_right _ _) hsum, Nat.add_sub_cancel_left, hback]
    omega

theorem inverse_feisOb : Inverse (feisOb hash) (tailOb hash) :=
  inverse_offset (fun _ hm ↦ feOb_lt hm) fun _ hm ↦ (fenOb_lt hm).1

theorem inverse_tailOb : Inverse (tailOb hash) (feisOb hash) :=
  inverse_offset (fun _ hm ↦ fenOb_lt hm) fun _ hm ↦ (feOb_lt hm).1

/-! ### Atoms -/

/-- Planets are scrambled, and the low words of moons that are not below 2^16. -/
def scrambled (f : ℕ → ℕ) (x : ℕ) : ℕ :=
  if x < 2 ^ 64 ∧ bW ≤ x % 2 ^ 32 then x / 2 ^ 32 * 2 ^ 32 + f (x % 2 ^ 32) else x

theorem met_four : met 4 x < 2 ↔ x < 2 ^ 16 := by
  have hsize : x.size ≤ 16 ↔ x < 2 ^ 16 := Nat.size_le
  rw [← hsize, met]
  omega

theorem met_four_word : met 4 x ≤ 2 ↔ x < 2 ^ 32 := by
  have hsize : x.size ≤ 32 ↔ x < 2 ^ 32 := Nat.size_le
  rw [← hsize, met]
  omega

theorem met_four_chub : met 4 x ≤ 4 ↔ x < 2 ^ 64 := by
  have hsize : x.size ≤ 64 ↔ x < 2 ^ 64 := Nat.size_le
  rw [← hsize, met]
  omega

theorem rWords_two (hlow : 2 ^ 32 ≤ x) (hhigh : x < 2 ^ 64) :
    rWords 0 2 [0, 0] x = some [wordOf x 0, wordOf x 1] := by
  have hlen : lenW x = 2 := by
    have hmin : 32 < x.size := Nat.lt_size.mpr hlow
    have hmax : x.size ≤ 64 := Nat.size_le.mpr hhigh
    unfold lenW
    omega
  rw [rWords_eq (by decide) (by rw [hlen]; decide)]
  have hheld : held x 0 = 2 := by
    unfold held
    rw [if_neg (by omega), hlen]
  rw [hheld]
  rfl

theorem qeOb_eq {f g : ℕ → ℕ} (hf : Inverse f g) (x : ℕ) : qeOb f x = .ok (scrambled f x) := by
  unfold qeOb scrambled
  rw [rMet_eq (by omega)]
  show (if met 4 x < 2 ∨ met 4 x > 4 then _ else _) = _
  have hlow := @met_four x
  have hword := @met_four_word x
  have hchub := @met_four_chub x
  by_cases hout : met 4 x < 2 ∨ met 4 x > 4
  · rw [if_pos hout, if_neg]
    unfold bW
    omega
  rw [if_neg hout]
  by_cases htwo : met 4 x = 2
  · have hx : x % 2 ^ 32 = x := Nat.mod_eq_of_lt (by omega)
    rw [if_pos htwo, rWord_eq, slice, Nat.mul_zero, Nat.shiftRight_zero, hx,
      Nat.div_eq_of_lt (by omega), Nat.zero_mul,
      Nat.zero_add, if_pos]
    unfold bW
    omega
  rw [if_neg htwo, rWords_two (by omega) (by omega)]
  have hword0 : (wordOf x 0).toNat = x % 2 ^ 32 := by simp [wordOf]
  have hword1 : (wordOf x 1).toNat = x / 2 ^ 32 := by
    simp only [wordOf, UInt32.toNat_ofNat', Nat.mul_one]
    omega
  show (if (wordOf x 0).toNat < bW then _ else _) = _
  rw [hword0]
  by_cases hsmall : x % 2 ^ 32 < bW
  · rw [if_pos hsmall, if_neg (by omega)]
  · have hfits : f (x % 2 ^ 32) < 2 ^ 32 := hf.high (by omega) (by omega)
    rw [if_neg hsmall, if_pos (by omega)]
    show Except.ok (valueOf [UInt32.ofNat (f (wordOf x 0).toNat), wordOf x 1]) = _
    rw [hword0]
    simp only [valueOf, List.map_cons, List.map_nil, Nat.ofDigits_cons, Nat.ofDigits_nil, hword1,
      UInt32.toNat_ofNat',
      Nat.mod_eq_of_lt hfits]
    congr 1
    push_cast
    ring

theorem scrambled_spec {f g : ℕ → ℕ} (hf : Inverse f g) (x : ℕ) : scrambled g (scrambled f x) = x ∧
    scrambled f x / 2 ^ 32 = x / 2 ^ 32 ∧ (bW ≤ x → bW ≤ scrambled f x) ∧
    (x < bW ∨ 2 ^ 64 ≤ x → scrambled f x = x) := by
  by_cases hin : x < 2 ^ 64 ∧ bW ≤ x % 2 ^ 32
  · have hmod : x % 2 ^ 32 < 2 ^ 32 := Nat.mod_lt _ (by decide)
    have hlow := hf.low hin.2 hmod
    have hhigh := hf.high hin.2 hmod
    have hback := hf.back hin.2 hmod
    have heq : scrambled f x = x / 2 ^ 32 * 2 ^ 32 + f (x % 2 ^ 32) := if_pos hin
    have hquot : scrambled f x / 2 ^ 32 = x / 2 ^ 32 := by omega
    have hrem : scrambled f x % 2 ^ 32 = f (x % 2 ^ 32) := by omega
    refine ⟨?_, hquot, fun _ ↦ by omega, fun hout ↦ ?_⟩
    · rw [scrambled, hquot, hrem, hback, if_pos ⟨by omega, hlow⟩]
      omega
    · have hle := Nat.mod_le x (2 ^ 32)
      omega
  · have heq : ∀ h, scrambled h x = x := fun h ↦ if_neg hin
    rw [heq f, heq g]
    exact ⟨rfl, rfl, id, fun _ ↦ rfl⟩

/-- `u3qe_fein_ob()` and `u3qe_fynd_ob()` are inverse to each other and leave comets, stars and
galaxies alone; planets remain planets, and moons remain moons, of the same high word. -/
theorem scramble_permutes (hash : UInt32 → List UInt8 → UInt32) (x : ℕ) :
    ∃ fein fynd, qeFeinOb hash x = .ok fein ∧ qeFyndOb hash x = .ok fynd ∧
      qeFyndOb hash fein = .ok x ∧ qeFeinOb hash fynd = .ok x ∧
      (x < 2 ^ 16 ∨ 2 ^ 64 ≤ x → fein = x ∧ fynd = x) ∧
      (2 ^ 16 ≤ x → x < 2 ^ 32 → (2 ^ 16 ≤ fein ∧ fein < 2 ^ 32) ∧ 2 ^ 16 ≤ fynd ∧ fynd < 2 ^ 32) ∧
      (2 ^ 32 ≤ x → x < 2 ^ 64 → (2 ^ 32 ≤ fein ∧ fein < 2 ^ 64 ∧ fein / 2 ^ 32 = x / 2 ^ 32) ∧
        2 ^ 32 ≤ fynd ∧ fynd < 2 ^ 64 ∧ fynd / 2 ^ 32 = x / 2 ^ 32) := by
  have hfein := @inverse_feisOb hash
  have hfynd := @inverse_tailOb hash
  obtain ⟨hback, hhigh, hlow, hsame⟩ := scrambled_spec hfein x
  obtain ⟨hback', hhigh', hlow', hsame'⟩ := scrambled_spec hfynd x
  refine ⟨_, _, qeOb_eq hfein x, qeOb_eq hfynd x, ?_, ?_, ?_, ?_, ?_⟩
  · exact (qeOb_eq hfynd _).trans (congrArg _ hback)
  · exact (qeOb_eq hfein _).trans (congrArg _ hback')
  · exact fun hout ↦ ⟨hsame hout, hsame' hout⟩
  · intro hmin hmax
    have hfeinLow := hlow hmin
    have hfyndLow := hlow' hmin
    unfold bW at hfeinLow hfyndLow
    omega
  · intro hmin hmax
    omega

end Vere.Noun.Ob
