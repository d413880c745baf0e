import Mathlib.Algebra.Group.Nat.Defs
import Mathlib.Data.Fintype.Pigeonhole
import Vere.Lib.Subsequence
import Vere.Noun.Treap

/-!
# The longest common subsequence of two lists

`u3qe_loss()` of `pkg/noun/jets/e/loss.c`, by the method of `Vere.Lib.Subsequence`. The positions of
the nouns of the second list are in a map, the treap of `by_put.c` and `by_get.c`, which bail on
nouns that collide; `_merg()` goes through the positions of a noun from the left, with a binary
search for each of them (`bink_spec`), and replaces candidates on the way back, so that each is
extended as it was before (`merg_spec`).

The counts are words. The length of the second list is a direct atom, as that of every list in the
memory is, and the assertion on the number of candidates holds (`lune_spec`).
-/

set_option autoImplicit false

namespace Vere.Noun.Loss

open Lib.Treap Lib.Subsequence

/-! ### The functions -/

variable (mug : Noun → ℕ)

/-- `u3kdb_get()`: the result `none` is `u3_none`. -/
def kdbGet {β : Type} (b : Noun) : Lib.Treap.Tree (Noun × β) → Except Failed (Option β)
  | .nil => .ok none
  | .node (pn_a, qn_a) l_a r_a => do
    if b = pn_a then .ok (some qn_a)
    else if ← orBail (qcGor mug b pn_a) then kdbGet b l_a
    else kdbGet b r_a

/-- `u3kdb_put()`. -/
def kdbPut {β : Type} (b : Noun) (c : β) :
    Lib.Treap.Tree (Noun × β) → Except Failed (Lib.Treap.Tree (Noun × β))
  | .nil => .ok (.node (b, c) .nil .nil)
  | .node (pn_a, qn_a) l_a r_a => do
    if pn_a = b then .ok (.node (b, c) l_a r_a)
    else if ← orBail (qcGor mug b pn_a) then
      match ← kdbPut b c l_a with
      | .node (pn_d, qn_d) l_d r_d =>
        if ← orBail (qcMor mug pn_a pn_d) then
          .ok (.node (pn_a, qn_a) (.node (pn_d, qn_d) l_d r_d) r_a)
        else .ok (.node (pn_d, qn_d) l_d (.node (pn_a, qn_a) r_d r_a))
      | .nil => .error .bail
    else
      match ← kdbPut b c r_a with
      | .node (pn_d, qn_d) l_d r_d =>
        if ← orBail (qcMor mug pn_a pn_d) then
          .ok (.node (pn_a, qn_a) l_a (.node (pn_d, qn_d) l_d r_d))
        else .ok (.node (pn_d, qn_d) (.node (pn_a, qn_a) l_a l_d) r_d)
      | .nil => .error .bail

/-- `u3_loss`: `kad` are the `kct_w` candidates, in an array of `room`. -/
structure U3Loss where
  hev : List Noun
  sev : Lib.Treap.Tree (Noun × List ℕ)
  kad : List (List ℕ)
  room : ℕ

/-- `u3r_word()`, of the first word. -/
def rWord (a : ℕ) : ℕ := a % 2 ^ 32

/-- `u3r_word(0, u3h(kad[i_w]))`. -/
def headOf (loc_u : U3Loss) (i_w : ℕ) : Option ℕ := do
  let kad ← loc_u.kad[i_w]?
  let a ← kad.head?
  return rWord a

/-- `_lext()`. -/
def lext (loc_u : U3Loss) : List ℕ → Option (List Noun)
  | [] => some []
  | i :: kad => do
    let h ← loc_u.hev[rWord i]?
    let t ← lext loc_u kad
    return h :: t

/-- `_lexs()`. -/
def lexs (loc_u : U3Loss) : Option (List Noun) :=
  if loc_u.kad.length = 0 then some []
  else do
    let kad ← loc_u.kad[loc_u.kad.length - 1]?
    let lcs ← lext loc_u kad
    return lcs.reverse

/-- The loop of `_lemp()` over `hev`, from `i_w` on. -/
def lempLoop :
    List Noun → ℕ → Lib.Treap.Tree (Noun × List ℕ) → Except Failed (Lib.Treap.Tree (Noun × List ℕ))
  | [], _, sev => .ok sev
  | how :: hev, i_w, sev => do
    let hav ← kdbGet mug how sev
    let sev ← kdbPut mug how (i_w :: hav.getD []) sev
    lempLoop hev (i_w + 1) sev

/-- `_lemp()`. -/
def lemp (hel hev : List Noun) : Except Failed U3Loss := do
  let sev ← lempLoop mug hev 0 .nil
  return { hev := hev, sev := sev, kad := [], room := 1 + min hev.length hel.length }

/-- The candidate that `_lune()` extends. -/
def extended (loc_u : U3Loss) (inx_w : ℕ) : Option (List ℕ) :=
  if inx_w = 0 then some [] else loc_u.kad[inx_w - 1]?

/-- `_lune()`. It asserts that there are less than 2^31 candidates. -/
def lune (loc_u : U3Loss) (inx_w goy_w : ℕ) : Option U3Loss := do
  let t ← extended loc_u inx_w
  if loc_u.kad.length = inx_w then
    if ¬(loc_u.kad.length < 2 ^ 31 ∧ inx_w < loc_u.room) then none
    else return { loc_u with kad := loc_u.kad ++ [goy_w :: t] }
  else if ¬inx_w < loc_u.kad.length then none
  else return { loc_u with kad := loc_u.kad.set inx_w (goy_w :: t) }

/-- `_hink()`. -/
def hink (loc_u : U3Loss) (inx_w goy_w : ℕ) : Option Bool :=
  if loc_u.kad.length = inx_w then some true
  else do
    let a ← headOf loc_u inx_w
    return a > goy_w

/-- `_lonk()`. -/
def lonk (loc_u : U3Loss) (inx_w goy_w : ℕ) : Option Bool :=
  if 0 = inx_w then some true
  else do
    let a ← headOf loc_u (inx_w - 1)
    return a < goy_w

/-- `_bink()`: whether there is an index, and `*inx_w`. -/
def bink (loc_u : U3Loss) (inx_w max_w goy_w : ℕ) : Option (Bool × ℕ) :=
  if max_w < inx_w then none
  else if max_w = inx_w then do
    if ¬(← lonk loc_u inx_w goy_w) then return (false, inx_w)
    else if ← hink loc_u inx_w goy_w then return (true, inx_w)
    else return (false, inx_w + 1)
  else
    let mid_w := inx_w + (max_w - inx_w) / 2
    match lonk loc_u mid_w goy_w, hink loc_u mid_w goy_w with
    | some low, some high =>
      if ¬low ∨ high then bink loc_u inx_w mid_w goy_w else bink loc_u (mid_w + 1) max_w goy_w
    | _, _ => none
termination_by max_w - inx_w
decreasing_by all_goals omega

/-- `_merg()`. -/
def merg (loc_u : U3Loss) (inx_w : ℕ) : List ℕ → Option U3Loss
  | [] => some loc_u
  | i_gay :: gay =>
    if inx_w > loc_u.kad.length then some loc_u
    else do
      let goy_w := rWord i_gay
      match ← bink loc_u inx_w loc_u.kad.length goy_w with
      | (true, inx_w) =>
        let loc_u ← merg loc_u (inx_w + 1) gay
        lune loc_u inx_w goy_w
      | (false, inx_w) => merg loc_u inx_w gay

/-- `_loss()`. -/
def lossLoop (loc_u : U3Loss) : List Noun → Except Failed U3Loss
  | [] => .ok loc_u
  | i_hel :: hel => do
    match ← kdbGet mug i_hel loc_u.sev with
    | none => lossLoop loc_u hel
    | some guy =>
      let loc_u ← orFault (merg loc_u 0 guy.reverse)
      lossLoop loc_u hel

/-- `u3qe_loss()`. -/
def qeLoss (hel hev : List Noun) : Except Failed (List Noun) := do
  let loc_u ← lemp mug hel hev
  let loc_u ← lossLoop mug loc_u hel
  orFault (lexs loc_u)

/-! ### The map -/

section Map

variable {mug} {β : Type} {t : Lib.Treap.Tree (Noun × β)} {keys : Set Noun}

/-- The search gives what the tree has for a key. -/
theorem kdbGet_gives (ht : Valid Prod.fst (Gor mug) (Mor mug) t) (hkeyed : Keyed Prod.fst keys t)
    {b : Noun} (hb : b ∈ keys) {found : Option β} (hfound : ∀ c, found = some c ↔ (b, c) ∈ t) :
    GivesOr (Colliding mug keys) (kdbGet mug b t) found := by
  induction t with
  | nil =>
    have hnone : found = none := Option.eq_none_iff_forall_not_mem.mpr fun c hc ↦ by
      simpa using (hfound c).mp hc
    exact .inl (hnone ▸ rfl)
  | node n l r ihl ihr =>
    obtain ⟨pn, qn⟩ := n
    have hvalid := ht
    obtain ⟨-, -, hvl, hvr⟩ := ht
    obtain ⟨hn, hkl, hkr⟩ := keyed_node.mp hkeyed
    rw [kdbGet]
    by_cases hkey : b = pn
    · subst hkey
      rw [if_pos rfl, (hfound qn).mpr (Lib.Treap.Tree.mem_node.mpr (Or.inr (Or.inl rfl)))]
      exact .inl rfl
    rw [if_neg hkey]
    rcases @qcGor_eq mug b pn with ⟨hcollide, hnone⟩ | hsome
    · rw [hnone]
      exact .inr ⟨rfl, b, hb, pn, hn, hcollide⟩
    rw [hsome]
    by_cases hgor : gor mug b pn = true
    · rw [hgor]
      refine ihl hvl hkl fun c ↦ ?_
      rw [hfound, hvalid.mem_left_iff]
      exact (and_iff_left (show Before (Gor mug) b pn from ⟨hgor, hkey⟩)).symm
    · rw [eq_false_of_ne_true hgor]
      refine ihr hvr hkr fun c ↦ ?_
      rw [hfound, hvalid.mem_right_iff]
      exact (and_iff_left (show Before (Gor mug) pn b from before_of_not_gor hgor)).symm

theorem kdbPut_agrees (hkeyed : Keyed Prod.fst keys t) {b : Noun} (hb : b ∈ keys) (c : β) :
    Agrees (Colliding mug keys) id (Keyed Prod.fst keys) (kdbPut mug b c t)
      (some (put Prod.fst (Gor mug) (Mor mug) (b, c) t)) := by
  have hnode : ∀ t, ∃ d ld rd, put Prod.fst (Gor mug) (Mor mug) (b, c) t = .node d ld rd :=
    fun t ↦ put_eq_node (b, c) t
  induction t with
  | nil => exact .ok (keyed_node.mpr ⟨hb, keyed_nil, keyed_nil⟩) rfl
  | node n l r ihl ihr =>
    obtain ⟨pn, qn⟩ := n
    obtain ⟨hn, hl, hr⟩ := keyed_node.mp hkeyed
    rw [kdbPut, put]
    by_cases hkey : pn = b
    · subst hkey
      rw [if_pos rfl, if_pos rfl]
      exact .ok (keyed_node.mpr ⟨hb, hl, hr⟩) rfl
    rw [if_neg hkey, if_neg hkey]
    refine .gor hb hn ?_
    by_cases hgor : gor mug b pn = true
    · rw [if_pos hgor, if_pos hgor]
      refine (ihl hl).bind_some fun hgood ↦ ?_
      obtain ⟨⟨pd, qd⟩, ld, rd, hput⟩ := hnode l
      rw [hput] at hgood ⊢
      obtain ⟨hd, hld, hrd⟩ := keyed_node.mp hgood
      refine .mor hn hd ?_
      rw [hangLeft]
      by_cases hmor : mor mug pn pd = true
      · rw [if_pos hmor, if_pos hmor]
        exact .ok (keyed_node.mpr ⟨hn, hgood, hr⟩) rfl
      · rw [if_neg hmor, if_neg hmor]
        exact .ok (by simp only [keyed_node]; exact ⟨hd, hld, hn, hrd, hr⟩) rfl
    · rw [if_neg hgor, if_neg hgor]
      refine (ihr hr).bind_some fun hgood ↦ ?_
      obtain ⟨⟨pd, qd⟩, ld, rd, hput⟩ := hnode r
      rw [hput] at hgood ⊢
      obtain ⟨hd, hld, hrd⟩ := keyed_node.mp hgood
      refine .mor hn hd ?_
      rw [hangRight]
      by_cases hmor : mor mug pn pd = true
      · rw [if_pos hmor, if_pos hmor]
        exact .ok (keyed_node.mpr ⟨hn, hl, hgood⟩) rfl
      · rw [if_neg hmor, if_neg hmor]
        exact .ok (by simp only [keyed_node]; exact ⟨hd, ⟨hn, hl, hld⟩, hrd⟩) rfl

end Map

/-! ### Positions -/

/-- The positions of a noun, from the left. -/
def places (hev : List Noun) (x : Noun) : List ℕ := (List.range hev.length).filter fun j ↦
    hev[j]? = some x

theorem mem_places {hev : List Noun} {x : Noun} {j : ℕ} : j ∈ places hev x ↔ hev[j]? = some x := by
  rw [places, List.mem_filter, List.mem_range, decide_eq_true_eq, and_iff_right_iff_imp]
  exact fun hj ↦ (List.getElem?_eq_some_iff.mp hj).1

theorem places_sorted (hev : List Noun) (x : Noun) : (places hev x).Pairwise (· < ·) :=
  List.pairwise_lt_range.filter _

theorem places_concat (hev : List Noun) (how x : Noun) :
    places (hev ++ [how]) x = places hev x ++ if x = how then [hev.length] else [] := by
  unfold places
  rw [List.length_append, List.length_singleton, List.range_succ, List.filter_append]
  congr 1
  · refine List.filter_congr fun j hj ↦ ?_
    rw [List.getElem?_append_left (List.mem_range.mp hj)]
  · by_cases hx : x = how
    · simp [hx]
    · simp [hx, Ne.symm hx]

/-- What the map has for a noun: its positions from the right. -/
def spots (hev : List Noun) (x : Noun) : Option (List ℕ) :=
  if places hev x = [] then none else some (places hev x).reverse

theorem spots_concat (hev : List Noun) (how x : Noun) : spots (hev ++ [how]) x =
    if x = how then some (hev.length :: (spots hev x).getD []) else spots hev x := by
  unfold spots
  rw [places_concat]
  by_cases hx : x = how
  · rw [if_pos hx, if_pos hx, if_neg (by simp), List.reverse_append]
    by_cases hnil : places hev x = []
    · rw [if_pos hnil, hnil]
      rfl
    · rw [if_neg hnil]
      rfl
  · rw [if_neg hx, if_neg hx, List.append_nil]

/-- What the map says of a list: its nouns, and their positions. -/
def Places (hev : List Noun) (sev : Lib.Treap.Tree (Noun × List ℕ)) : Prop :=
  Valid Prod.fst (Gor mug) (Mor mug) sev ∧ ∀ x, ∀ c, spots hev x = some c ↔ (x, c) ∈ sev

variable {mug}

/-- The keys of the map are nouns of the list. -/
theorem Places.keyed {hev : List Noun} {sev : Lib.Treap.Tree (Noun × List ℕ)}
    (hsev : Places mug hev sev) {keys : Set Noun} (hkeys : ∀ x ∈ hev, x ∈ keys) :
    Keyed Prod.fst keys sev := by
  intro n hn
  have hspots := (hsev.2 n.1 n.2).mpr hn
  unfold spots at hspots
  split_ifs at hspots with hnil
  obtain ⟨j, hj⟩ := List.exists_mem_of_ne_nil _ hnil
  exact hkeys _ (List.mem_of_getElem? (mem_places.mp hj))

/-- The entry of a noun gets one more position. -/
theorem Places.put {done : List Noun} {sev : Lib.Treap.Tree (Noun × List ℕ)}
    (hsev : Places mug done sev) (how : Noun) : Places mug (done ++ [how])
      (put Prod.fst (Gor mug) (Mor mug) (how, done.length :: (spots done how).getD []) sev) := by
  refine ⟨valid_put hsev.1 _, fun x c ↦ ?_⟩
  rw [mem_put hsev.1, spots_concat, ← hsev.2, Prod.mk.injEq]
  by_cases hx : x = how
  · subst hx
    simp [eq_comm]
  · simp [hx]

theorem lempLoop_spec {done hev : List Noun} {sev : Lib.Treap.Tree (Noun × List ℕ)}
    (hsev : Places mug done sev) {keys : Set Noun} (hkeys : ∀ x ∈ done ++ hev, x ∈ keys) :
    ∃ sev', GivesOr (Colliding mug keys) (lempLoop mug hev done.length sev) sev' ∧
      Places mug (done ++ hev) sev' := by
  induction hev generalizing done sev with
  | nil => exact ⟨sev, .inl rfl, by rwa [List.append_nil]⟩
  | cons how hev ih =>
    have happend : done ++ how :: hev = done ++ [how] ++ hev := by
      rw [List.append_assoc, List.singleton_append]
    have hhow : how ∈ keys := hkeys how (by simp)
    have hkeyed := hsev.keyed fun x hx ↦ hkeys x (List.mem_append_left _ hx)
    obtain ⟨sev', hrest, hplaces⟩ := ih (hsev.put how) (happend ▸ hkeys)
    rw [List.length_append, List.length_singleton] at hrest
    refine ⟨sev', ?_, happend ▸ hplaces⟩
    exact (kdbGet_gives hsev.1 hkeyed hhow (hsev.2 how)).bind
      ((kdbPut_agrees hkeyed hhow _).givesOr.bind hrest)

theorem lemp_spec (hel hev : List Noun) {keys : Set Noun} (hkeys : ∀ x ∈ hev, x ∈ keys) :
    ∃ sev, GivesOr (Colliding mug keys) (lemp mug hel hev)
      { hev := hev, sev := sev, kad := [], room := 1 + min hev.length hel.length } ∧
      Places mug hev sev := by
  have hnil : Places mug [] .nil := ⟨trivial, fun x c ↦ iff_of_false nofun (by simp)⟩
  obtain ⟨sev, hloop, hplaces⟩ := lempLoop_spec hnil hkeys
  exact ⟨sev, hloop.bind (.inl rfl), hplaces⟩

/-! ### The search -/

section Search

variable {A : List Noun} {s : U3Loss} (hkad : Candidates A s.hev s.kad)
  (hlen : s.hev.length < 2 ^ 31)
include hkad hlen

theorem headOf_eq {i : ℕ} (hi : i < s.kad.length) :
    ∃ t, top s.kad i = some t ∧ headOf s i = some t := by
  have hc : s.kad[i]? = some s.kad[i] := List.getElem?_eq_getElem hi
  obtain ⟨w, hw⟩ := hkad.candidate i _ hc
  obtain ⟨t, c', x, w', hcons, -, ht, -⟩ := hw.cons
  have hlt := (List.getElem?_eq_some_iff.mp ht).1
  refine ⟨t, ?_, ?_⟩
  · rw [top, hc, Option.bind_some, hcons]
    rfl
  · unfold headOf
    rw [hc]
    show (s.kad[i].head?.bind fun a ↦ some (rWord a)) = some t
    rw [hcons]
    show some (t % 2 ^ 32) = some t
    rw [Nat.mod_eq_of_lt (by omega)]

theorem lonk_eq {i : ℕ} (hi : i ≤ s.kad.length) (j : ℕ) : lonk s i j = some (low s.kad i j) := by
  unfold lonk low
  cases i with
  | zero => rfl
  | succ i =>
    obtain ⟨t, htop, hhead⟩ := headOf_eq hkad hlen (Nat.lt_of_succ_le hi)
    rw [if_neg (Nat.succ_ne_zero i).symm, Nat.add_sub_cancel, htop, hhead]
    rfl

theorem hink_eq {i : ℕ} (hi : i ≤ s.kad.length) (j : ℕ) : hink s i j = some (high s.kad i j) := by
  unfold hink high
  by_cases hend : s.kad.length = i
  · rw [if_pos hend, top, List.getElem?_eq_none (by omega)]
    rfl
  · obtain ⟨t, htop, hhead⟩ := headOf_eq hkad hlen (show i < s.kad.length by omega)
    rw [if_neg hend, htop, hhead]
    rfl

/-- The lowest index at which the position does not fit to the left of the top, or fits. -/
theorem bink_spec {inx max j : ℕ} (hle : inx ≤ max) (hmax : max ≤ s.kad.length)
    (hfit : low s.kad max j = false ∨ high s.kad max j = true) :
    ∃ q, bink s inx max j = some (low s.kad q j && high s.kad q j, q) ∧ inx ≤ q ∧ q ≤ max ∧
      (low s.kad q j = false ∨ high s.kad q j = true) ∧
      ∀ i, inx ≤ i → i < q → low s.kad i j = true ∧ high s.kad i j = false := by
  induction hn : max - inx using Nat.strong_induction_on generalizing inx max with
  | _ n ih =>
    rw [bink, if_neg (by omega)]
    by_cases hsame : max = inx
    · subst hsame
      rw [if_pos rfl, lonk_eq hkad hlen hmax, hink_eq hkad hlen hmax]
      refine ⟨max, ?_, le_rfl, le_rfl, hfit, fun i hi hi' ↦ by omega⟩
      rcases hfit with hfit | hfit
      · rw [hfit]
        rfl
      · rw [hfit]
        cases low s.kad max j <;> rfl
    · rw [if_neg hsame]
      dsimp only
      have hmid : inx ≤ inx + (max - inx) / 2 ∧ inx + (max - inx) / 2 < max := by omega
      generalize inx + (max - inx) / 2 = mid at hmid ⊢
      rw [lonk_eq hkad hlen (by omega), hink_eq hkad hlen (by omega)]
      dsimp only
      by_cases hstop : low s.kad mid j = false ∨ high s.kad mid j = true
      · rw [if_pos (by simpa using hstop)]
        obtain ⟨q, hbink, hlow, hhigh, hrest⟩ :=
          ih (mid - inx) (by omega) hmid.1 (by omega) hstop rfl
        exact ⟨q, hbink, hlow, by omega, hrest⟩
      · rw [if_neg (by simpa using hstop)]
        obtain ⟨q, hbink, hlow, hhigh, hq, hbefore⟩ :=
          ih (max - (mid + 1)) (by omega) (by omega) hmax hfit rfl
        refine ⟨q, hbink, by omega, hhigh, hq, fun i hi hi' ↦ ?_⟩
        by_cases hafter : mid + 1 ≤ i
        · exact hbefore i hafter hi'
        · have hnot : ¬(low s.kad i j = false ∨ high s.kad i j = true) := fun hfits ↦
            hstop (hkad.fits_mono (by omega) hfits)
          rw [not_or, Bool.not_eq_false, Bool.not_eq_true] at hnot
          exact hnot

theorem lune_spec {q j : ℕ} (hq : q ≤ s.kad.length) (hroom : s.kad.length < s.room)
    {kad : List (List ℕ)} (hkad' : ∀ i ≤ q, kad[i]? = s.kad[i]?) :
    ∃ kad', lune { s with kad := kad } q j = some { s with kad := kad' } ∧
      ∀ i, kad'[i]? = if i = q then some (j :: prev s.kad q) else kad[i]? := by
  have hcount := hkad.length_le.2
  have hprev : extended { s with kad := kad } q = some (prev s.kad q) := by
    unfold extended prev
    dsimp only
    by_cases hzero : q = 0
    · rw [if_pos hzero, if_pos hzero]
    · rw [if_neg hzero, if_neg hzero, hkad' _ (by omega), List.getD_eq_getElem?_getD,
        List.getElem?_eq_getElem (by omega)]
      rfl
  unfold lune
  rw [hprev]
  by_cases hend : kad.length = q
  · have hfits : kad.length < 2 ^ 31 ∧ q < s.room := by omega
    refine ⟨kad ++ [j :: prev s.kad q], ?_, fun i ↦ ?_⟩
    · show (if kad.length = q then _ else _) = _
      rw [if_pos hend, if_neg (not_not_intro hfits)]
      rfl
    · rcases Nat.lt_trichotomy i q with hi | rfl | hi
      · rw [if_neg hi.ne, List.getElem?_append_left (by omega)]
      · rw [if_pos rfl, List.getElem?_append_right (by omega), hend, Nat.sub_self]
        rfl
      · rw [if_neg hi.ne', List.getElem?_eq_none (by simp; omega), List.getElem?_eq_none (by omega)]
  · have hlt : q < kad.length := by
      by_contra hge
      have hnone : s.kad[q]? = none :=
        (hkad' q le_rfl).symm.trans (List.getElem?_eq_none (by omega))
      have hlen' := List.getElem?_eq_none_iff.mp hnone
      have hpos : q ≠ 0 := by omega
      have hlast := hkad' (q - 1) (by omega)
      rw [List.getElem?_eq_none (by omega), List.getElem?_eq_getElem (by omega)] at hlast
      cases hlast
    refine ⟨kad.set q (j :: prev s.kad q), ?_, fun i ↦ ?_⟩
    · show (if kad.length = q then _ else _) = _
      rw [if_neg hend, if_neg (not_not_intro hlt)]
      rfl
    · rw [List.getElem?_set]
      by_cases hi : q = i
      · rw [if_pos hi, if_pos hi.symm, if_pos (hi ▸ hlt)]
      · rw [if_neg hi, if_neg (Ne.symm hi)]

/-- A list of positions replaces the candidates from `inx` on. -/
theorem merg_spec {gay : List ℕ} {inx : ℕ} (hgay : ∀ j ∈ gay, j < 2 ^ 32)
    (hroom : s.kad.length < s.room) :
    ∃ kad, merg s inx gay = some { s with kad := kad } ∧
      ∀ i, kad[i]? = if inx ≤ i ∧ i ≤ s.kad.length then row s.kad gay i else s.kad[i]? := by
  induction gay generalizing inx with
  | nil => exact ⟨s.kad, rfl, fun i ↦ (ite_self _).symm⟩
  | cons j gay ih =>
    obtain ⟨hj, hgay⟩ := List.forall_mem_cons.mp hgay
    rw [merg]
    by_cases hout : inx > s.kad.length
    · rw [if_pos hout]
      exact ⟨s.kad, rfl, fun i ↦ (if_neg (by omega)).symm⟩
    rw [if_neg hout, rWord, Nat.mod_eq_of_lt hj]
    have hend : high s.kad s.kad.length j = true := by
      rw [high, top, List.getElem?_eq_none le_rfl]
      rfl
    obtain ⟨q, hbink, hlow, hhigh, hq, hbefore⟩ :=
        bink_spec hkad hlen (not_lt.mp hout) le_rfl (Or.inr hend)
    dsimp only
    rw [hbink, Option.bind_eq_bind, Option.bind_some]
    -- The candidates before the index that was found stay as they are.
    have hrow : ∀ i, inx ≤ i → i < q → row s.kad (j :: gay) i = s.kad[i]? := by
      intro i hi hi'
      obtain ⟨hlow', hhigh'⟩ := hbefore i hi hi'
      rw [row_cons, if_pos hlow', if_neg (by rw [hhigh']; decide)]
    have hafter : ∀ q', low s.kad q' j = false → ∀ i, q' ≤ i →
        row s.kad (j :: gay) i = row s.kad gay i := by
      intro q' hnot i hi
      rw [row_cons, if_neg fun hlow' ↦ ?_]
      rw [hkad.low_anti hi hlow'] at hnot
      cases hnot
    cases hfound : low s.kad q j && high s.kad q j with
    | true =>
      obtain ⟨hfit, hless⟩ := Bool.and_eq_true_iff.mp hfound
      obtain ⟨kad, hmerg, hget⟩ := @ih (q + 1) hgay
      obtain ⟨kad', hlune, hget'⟩ := @lune_spec A s hkad hlen q j hhigh hroom kad fun i hi ↦ by
        rw [hget, if_neg (by omega)]
      refine ⟨kad', ?_, fun i ↦ ?_⟩
      · show (merg s (q + 1) gay).bind (fun loc_u ↦ lune loc_u q j) = _
        rw [hmerg]
        exact hlune
      · rw [hget', hget]
        rcases Nat.lt_trichotomy i q with hi | rfl | hi
        · rw [if_neg hi.ne, if_neg (by omega)]
          by_cases hin : inx ≤ i
          · rw [if_pos ⟨hin, by omega⟩, hrow i hin hi]
          · rw [if_neg (by omega)]
        · rw [if_pos rfl, if_pos ⟨hlow, hhigh⟩, row_cons, if_pos hfit, if_pos hless]
        · rw [if_neg hi.ne']
          by_cases hin : i ≤ s.kad.length
          · rw [if_pos ⟨hi, hin⟩, if_pos ⟨by omega, hin⟩,
              hafter (q + 1) (not_low_of_high hless) i hi]
          · rw [if_neg (by omega), if_neg (by omega)]
    | false =>
      have hnot : low s.kad q j = false := by
        rcases hq with hq | hq
        · exact hq
        · rwa [hq, Bool.and_true] at hfound
      obtain ⟨kad, hmerg, hget⟩ := @ih q hgay
      refine ⟨kad, hmerg, fun i ↦ ?_⟩
      rw [hget]
      by_cases hi : q ≤ i
      · by_cases hin : i ≤ s.kad.length
        · rw [if_pos ⟨hi, hin⟩, if_pos ⟨by omega, hin⟩, hafter q hnot i hi]
        · rw [if_neg (by omega), if_neg (by omega)]
      · rw [if_neg (by omega)]
        by_cases hin : inx ≤ i
        · rw [if_pos ⟨hin, by omega⟩, hrow i hin (by omega)]
        · rw [if_neg (by omega)]

end Search

/-! ### The result -/

section Result

variable {A : List Noun} {s : U3Loss}

theorem lossLoop_spec {hel : List Noun} (hkad : Candidates A s.hev s.kad)
    (hlen : s.hev.length < 2 ^ 31) (hsev : Places mug s.hev s.sev)
    (hroom : s.room = 1 + min s.hev.length (A ++ hel).length) {keys : Set Noun}
    (hkeyed : Keyed Prod.fst keys s.sev) (hkeys : ∀ x ∈ hel, x ∈ keys) :
    ∃ kad, GivesOr (Colliding mug keys) (lossLoop mug s hel) { s with kad := kad } ∧
      Candidates (A ++ hel) s.hev kad := by
  induction hel generalizing A s with
  | nil => exact ⟨s.kad, .inl rfl, by rwa [List.append_nil]⟩
  | cons x hel ih =>
    obtain ⟨hx, hkeys⟩ := List.forall_mem_cons.mp hkeys
    have hcount := hkad.length_le
    have hfits : s.kad.length < s.room := by
      rw [List.length_append] at hroom
      omega
    have hget := kdbGet_gives hsev.1 hkeyed hx (hsev.2 x)
    have happend : A ++ x :: hel = A ++ [x] ++ hel := by
      rw [List.append_assoc, List.singleton_append]
    rw [happend] at hroom ⊢
    rw [lossLoop]
    unfold spots at hget
    by_cases hnil : places s.hev x = []
    · rw [if_pos hnil] at hget
      have hstep : Candidates (A ++ [x]) s.hev s.kad := by
        refine hkad.step List.Pairwise.nil (fun j ↦ ?_) fun i ↦ ?_
        · rw [← mem_places, hnil]
        · by_cases hi : i ≤ s.kad.length
          · rw [if_pos hi]
            rfl
          · rw [if_neg hi, List.getElem?_eq_none (by omega)]
      obtain ⟨kad, hloop, hdone⟩ := ih hstep hlen hsev hroom hkeyed hkeys
      exact ⟨kad, hget.bind hloop, hdone⟩
    · rw [if_neg hnil] at hget
      have hgay : ∀ j ∈ places s.hev x, j < 2 ^ 32 := by
        intro j hj
        have hlt := (List.getElem?_eq_some_iff.mp (mem_places.mp hj)).1
        omega
      obtain ⟨kad, hmerg, hrow⟩ := @merg_spec A s hkad hlen (places s.hev x) 0 hgay hfits
      have hstep : Candidates (A ++ [x]) s.hev kad := by
        refine hkad.step (places_sorted s.hev x) (fun j ↦ mem_places) fun i ↦ ?_
        rw [hrow]
        by_cases hi : i ≤ s.kad.length
        · rw [if_pos ⟨Nat.zero_le i, hi⟩, if_pos hi]
        · rw [if_neg (by omega), if_neg hi, List.getElem?_eq_none (by omega)]
      obtain ⟨kad', hloop, hdone⟩ :=
        @ih (A ++ [x]) { s with kad := kad } hstep hlen hsev hroom hkeyed hkeys
      refine ⟨kad', hget.bind (.bind_ok ?_ hloop), hdone⟩
      rw [List.reverse_reverse, hmerg]
      rfl

theorem lext_eq (hlen : s.hev.length < 2 ^ 31) {c : List ℕ} {w : List Noun}
    (hspells : List.Forall₂ (fun j x ↦ s.hev[j]? = some x) c w) : lext s c = some w := by
  induction hspells with
  | nil => rfl
  | @cons j x c w hj _ ih =>
    have hlt := (List.getElem?_eq_some_iff.mp hj).1
    rw [lext, rWord, Nat.mod_eq_of_lt (by omega), hj, ih]
    rfl

theorem lexs_spec (hkad : Candidates A s.hev s.kad) (hlen : s.hev.length < 2 ^ 31) :
    ∃ lcs, lexs s = some lcs ∧ lcs.Sublist A ∧ lcs.Sublist s.hev ∧ lcs.length = s.kad.length := by
  unfold lexs
  by_cases hzero : s.kad.length = 0
  · rw [if_pos hzero]
    exact ⟨[], rfl, List.nil_sublist _, List.nil_sublist _, hzero.symm⟩
  · have hc : s.kad[s.kad.length - 1]? = some s.kad[s.kad.length - 1] :=
    List.getElem?_eq_getElem (by omega)
    obtain ⟨w, hw⟩ := hkad.candidate _ _ hc
    obtain ⟨t, c', x, w', hcons, -⟩ := hw.cons
    rw [if_neg hzero, hc]
    refine ⟨w.reverse, ?_, hw.first, (hw.second t (by rw [hcons]; rfl)).trans
      (List.take_sublist _ _), ?_⟩
    · show (lext s s.kad[s.kad.length - 1]).bind (fun lcs ↦ some lcs.reverse) = _
      rw [lext_eq hlen hw.spells]
      rfl
    · rw [List.length_reverse, hw.length]
      omega

end Result

/-- `u3qe_loss()` gives a subsequence of both lists, and none is longer. It bails only where two
nouns of the lists collide. -/
theorem loss_longest (mug : Noun → ℕ) (hel hev : List Noun) (hhev : hev.length < 2 ^ 31) :
    ∃ lcs, GivesOr (Colliding mug {x | x ∈ hel ∨ x ∈ hev}) (qeLoss mug hel hev) lcs ∧
      lcs.Sublist hel ∧ lcs.Sublist hev ∧
      ∀ cs : List Noun, cs.Sublist hel → cs.Sublist hev → cs.length ≤ lcs.length := by
  have hkeys : ∀ x ∈ hev, x ∈ {x | x ∈ hel ∨ x ∈ hev} := fun x hx ↦ .inr hx
  obtain ⟨sev, hlemp, hplaces⟩ := @lemp_spec mug hel hev _ hkeys
  obtain ⟨kad, hloop, hkad⟩ := @lossLoop_spec mug []
    { hev := hev, sev := sev, kad := [], room := 1 + min hev.length hel.length } hel
      (Candidates.nil _) hhev hplaces
    rfl _ (hplaces.keyed hkeys) fun x hx ↦ .inl hx
  obtain ⟨lcs, hlexs, hfirst, hsecond, hlen⟩ := @lexs_spec _
    { hev := hev, sev := sev, kad := kad, room := 1 + min hev.length hel.length } hkad hhev
  refine ⟨lcs, hlemp.bind (hloop.bind (.inl ?_)), hfirst, hsecond,
    fun cs hcs hcs' ↦ hlen ▸ hkad.longest hcs hcs'⟩
  rw [hlexs]
  rfl

/-- `[1 2 3 1 ~]` and `[3 1 2 1 ~]`. -/
theorem loss_longest_four : ([3, 1, 2, 1].map Noun.atom).length < 2 ^ 31 ∧
    ∃ lcs, qeLoss (fun _ ↦ 0) ([1, 2, 3, 1].map Noun.atom) ([3, 1, 2, 1].map Noun.atom) = .ok lcs ∧
      lcs.Sublist ([1, 2, 3, 1].map Noun.atom) ∧ lcs.Sublist ([3, 1, 2, 1].map Noun.atom) ∧
      ∀ cs : List Noun, cs.Sublist ([1, 2, 3, 1].map Noun.atom) →
        cs.Sublist ([3, 1, 2, 1].map Noun.atom) →
        cs.length ≤ lcs.length := by
  obtain ⟨lcs, hgives, hlongest⟩ :=
    loss_longest (fun _ ↦ 0) ([1, 2, 3, 1].map Noun.atom) ([3, 1, 2, 1].map Noun.atom) (by decide)
  refine ⟨by decide, lcs, hgives.ok (not_colliding_direct fun k hk ↦ ?_), hlongest⟩
  rcases hk with hk | hk
  all_goals
    obtain ⟨n, hn, rfl⟩ := List.mem_map.mp hk
    exact ⟨n, rfl, by simp at hn; omega⟩

/-- The second of two nouns that collide is not found in the map. -/
theorem qeLoss_collide {mug : Noun → ℕ} {a b : Noun} (hmug : mug b = mug a) (hclash : Clash b a) :
    qeLoss mug [] [a, b] = .error .bail := by
  have hgor : qcGor mug b a = none := (if_pos hmug).trans (qcDor_eq_none.mpr hclash)
  simp [qeLoss, lemp, lempLoop, kdbGet, kdbPut, hclash.ne, hgor, orBail]
  rfl

/-- Two atoms of `2 ^ 27` words have the same mug, as there are `2 ^ 31` of them. -/
theorem loss_collides : ¬∃ mug : Noun → ℕ, (∀ n, mug n < 2 ^ 31) ∧
    ∀ hel hev : List Noun, hev.length < 2 ^ 31 → ∃ lcs, qeLoss mug hel hev = .ok lcs := by
  rintro ⟨mug, hmug, hall⟩
  obtain ⟨i, j, hne, hsame⟩ := Finite.exists_ne_map_eq_of_infinite fun i : ℕ ↦
    (⟨mug (.atom (2 ^ 2 ^ 32 + i)), hmug _⟩ : Fin (2 ^ 31))
  have hclash : Clash (.atom (2 ^ 2 ^ 32 + j)) (.atom (2 ^ 2 ^ 32 + i)) :=
    clash_large (fun heq ↦ hne (Nat.add_left_cancel heq).symm) (Nat.le_add_right _ _)
      (Nat.le_add_right _ _)
  obtain ⟨lcs, hloss⟩ :=
    hall [] [.atom (2 ^ 2 ^ 32 + i), .atom (2 ^ 2 ^ 32 + j)] (show 2 < 2 ^ 31 by decide)
  rw [qeLoss_collide (Fin.mk.inj hsame).symm hclash] at hloss
  cases hloss

end Vere.Noun.Loss
