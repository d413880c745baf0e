import Vere.Noun.NockTyped

/-!
# Formulas that compile without an assertion

`u3r_met()` asserts that it measures an atom, and `_n_melt()` that the indices of a program fit into
two bytes. A formula that is `Solid` passes both (`find_ne_assert`): no cell stands in it for an
axis, and it has at most 2^16 literals, memos, call sites and registration sites each.
-/

set_option autoImplicit false

namespace Vere.Noun.Nock

/-! ### Bailing -/

theorem bind_ne_assert {α β : Type} {x : Except Crash α} {next : α → Except Crash β}
    (hx : x ≠ .error .assert) (hnext : ∀ v, next v ≠ .error .assert) :
    x >>= next ≠ .error .assert := by
  cases x with
  | error e =>
    intro h
    cases h
    exact hx rfl
  | ok v => exact hnext v

theorem ok_ne_assert {α : Type} (v : α) : (.ok v : Except Crash α) ≠ .error .assert := by
  rintro ⟨⟩

theorem bail_ne_assert {α : Type} : (.error .bail : Except Crash α) ≠ .error .assert := by
  rintro ⟨⟩

theorem cap_ne_assert (a : ℕ) : cap (.atom a) ≠ .error .assert := by
  rw [cap]
  split
  · rintro ⟨⟩
  · split <;> rintro ⟨⟩

theorem compFrag_ne_assert (ar : Noun) (los : Bool) : compFrag ar los ≠ .error .assert := by
  unfold compFrag
  split <;> nofun

variable {los tel : Bool} {f : Noun} {cod : Opcode} {kind : Operand}

theorem bintAtom_ne_assert {nef : Noun} {comp : Bool → Bool → Except Crash (List Op)} {hif : ℕ}
    (hcomp : ∀ los tel, comp los tel ≠ .error .assert) :
    bintAtom nef comp los tel hif ≠ .error .assert := by
  unfold bintAtom
  split
  · exact bind_ne_assert (hcomp _ _) fun _ ↦ nofun
  · exact hcomp _ _

theorem bintCell_ne_assert {nef zep : Noun} {comp : Bool → Bool → Except Crash (List Op)}
    {hod : Except Crash (List Op)} (hcomp : ∀ los tel, comp los tel ≠ .error .assert)
    (hhod : hod ≠ .error .assert) : bintCell nef comp los tel zep hod ≠ .error .assert := by
  unfold bintCell
  split
  · exact bind_ne_assert hhod fun _ ↦ bind_ne_assert (hcomp _ _) fun _ ↦ ok_ne_assert _
  · split
    · exact bind_ne_assert (hcomp _ _) fun _ ↦ bind_ne_assert hhod fun _ ↦ ok_ne_assert _
    · repeat' split
      all_goals exact bind_ne_assert hhod fun _ ↦ bind_ne_assert (hcomp _ _) fun _ ↦ ok_ne_assert _

/-- The compiler asserts only at a cell for an arm. -/
theorem comp_ne_assert (los tel : Bool) (hsquare : square f = true) :
    comp f los tel ≠ .error .assert := by
  fun_induction comp f los tel with
  | case1 | case21 => exact bail_ne_assert
  | case2 hh ht ar los tel ihh iha =>
    simp only [square, Bool.and_eq_true] at hsquare
    exact bind_ne_assert (ihh hsquare.1) fun _ ↦ bind_ne_assert (iha hsquare.2) fun _ ↦
      ok_ne_assert _
  | case3 los tel ar => exact compFrag_ne_assert ar los
  | case4 los tel ar => exact ok_ne_assert _
  | case5 los tel b c ihb ihc =>
    simp only [square, Bool.and_eq_true] at hsquare
    exact bind_ne_assert (ihb hsquare.1) fun _ ↦ bind_ne_assert (ihc hsquare.2) fun _ ↦
      ok_ne_assert _
  | case6 los tel b ih =>
    exact bind_ne_assert (ih (by simpa [square] using hsquare)) fun _ ↦ ok_ne_assert _
  | case7 los tel b ih =>
    exact bind_ne_assert (ih (by simpa [square] using hsquare)) fun _ ↦ ok_ne_assert _
  | case8 => exact ok_ne_assert _
  | case9 los tel hh ht th tt hw hv ihb ihc =>
    simp only [square, Bool.and_eq_true] at hsquare
    exact bind_ne_assert (ihb hsquare.1) fun _ ↦ bind_ne_assert (ihc hsquare.2) fun _ ↦
      ok_ne_assert _
  | case10 los tel hh ht th tt v hw hv ih =>
    simp only [square, Bool.and_eq_true] at hsquare
    exact bind_ne_assert (ih hsquare.2) fun _ ↦ ok_ne_assert _
  | case11 los tel hh ht th tt v hw hv ih =>
    simp only [square, Bool.and_eq_true] at hsquare
    exact bind_ne_assert (ih hsquare.1) fun _ ↦ ok_ne_assert _
  | case12 los tel b c d ihb ihd ihc =>
    simp only [square, Bool.and_eq_true, Bool.or_eq_true, Bool.not_eq_true'] at hsquare
    obtain ⟨⟨hb, hc⟩, hd⟩ := hsquare
    refine bind_ne_assert (ihb hb) fun _ ↦ ?_
    cases hmid : formulaic c with
    | false =>
      cases htal : formulaic d with
      | false => exact bail_ne_assert
      | true =>
        show comp d los tel >>= _ ≠ _
        exact bind_ne_assert (ihd (hd.resolve_left (by simp [htal]))) fun _ ↦ ok_ne_assert _
    | true =>
      have hyep := ihc (hc.resolve_left (by simp [hmid]))
      cases htal : formulaic d with
      | false => exact bind_ne_assert hyep fun _ ↦ ok_ne_assert _
      | true =>
        refine bind_ne_assert hyep fun _ ↦ ?_
        exact bind_ne_assert (ihd (hd.resolve_left (by simp [htal]))) fun _ ↦ ok_ne_assert _
  | case13 los tel b c ihb ihc =>
    simp only [square, Bool.and_eq_true] at hsquare
    exact bind_ne_assert (ihb hsquare.1) fun _ ↦ bind_ne_assert (ihc hsquare.2) fun _ ↦
      ok_ne_assert _
  | case14 los tel b c ihb ihc =>
    simp only [square, Bool.and_eq_true] at hsquare
    exact bind_ne_assert (ihb hsquare.1) fun _ ↦ bind_ne_assert (ihc hsquare.2) fun _ ↦
      ok_ne_assert _
  | case15 =>
    rename_i los tel c jp ihlos ihtel
    show comp c los false >>= _ ≠ _
    refine bind_ne_assert (ihlos (by simpa [square] using hsquare)) fun _ ↦ ?_
    exact bind_ne_assert (compFrag_ne_assert _ _) fun _ ↦ ok_ne_assert _
  | case16 =>
    rename_i los tel b c jp hone ihlos ihtel
    cases b with
    | cell h t => cases hsquare
    | atom b =>
      have hc : square c = true := by simpa [square] using hsquare
      refine bind_ne_assert (cap_ne_assert b) fun side ↦ ?_
      show jp (decide (side = 3)) ≠ _
      cases decide (side = 3) with
      | true =>
        refine bind_ne_assert (ihlos hc) fun _ ↦ ?_
        exact bind_ne_assert (compFrag_ne_assert _ _) fun _ ↦ ok_ne_assert _
      | false => exact bind_ne_assert (ihtel hc) fun _ ↦ ok_ne_assert _
  | case17 los tel axe c d ihd ihc =>
    cases axe with
    | cell h t => cases hsquare
    | atom axe =>
      simp only [square, Bool.and_eq_true] at hsquare
      exact bind_ne_assert (ihd hsquare.2) fun _ ↦ bind_ne_assert (ihc hsquare.1) fun _ ↦
        ok_ne_assert _
  | case18 los tel hif d ih =>
    exact bintAtom_ne_assert fun los tel ↦ ih los tel (by simpa [square] using hsquare)
  | case19 los tel zep c d ihd ihc =>
    simp only [square, Bool.and_eq_true] at hsquare
    exact bintCell_ne_assert (fun los tel ↦ ihd los tel hsquare.2) (ihc hsquare.1)
  | case20 los tel b c ihb ihc =>
    simp only [square, Bool.and_eq_true] at hsquare
    exact bind_ne_assert (ihb hsquare.1) fun _ ↦ bind_ne_assert (ihc hsquare.2) fun _ ↦
      ok_ne_assert _

/-! ### Indices -/

theorem kindCount_append (kind : Operand) (ops rest : List Op) :
    kindCount kind (ops ++ rest) = kindCount kind ops + kindCount kind rest :=
  List.countP_append

/-- One index, for ops of its kind. -/
def one (kind of : Operand) : ℕ := if of = kind then 1 else 0

/-- The index of a noun that does not fit into two bytes. -/
def literal (kind : Operand) (n : Noun) : ℕ := if small 0xffff n then 0 else one kind .lit

/-- The index of a hint with a clue. -/
def hinted (kind : Operand) : Noun → ℕ
  | .cell _ _ => 0
  | .atom zep =>
    if zep ∈ hooked ∨ zep ∈ traced then one kind .lit
    else if zep = mFast then one kind .rite
    else if zep = mMemo then one kind .memo
    else 0

/-- The indices of a formula: its literals, its memos, its call sites or its registration sites. -/
def indices (kind : Operand) : Noun → ℕ
  | .atom _ => 0
  | .cell (.cell h t) ar => indices kind (.cell h t) + indices kind ar
  | .cell (.atom cod) ar =>
    match cod, ar with
    | 0, ar => literal kind ar
    | 1, ar => literal kind ar
    | 3, ar => indices kind ar
    | 4, ar => indices kind ar
    | 2, .cell a b => indices kind a + indices kind b
    | 5, .cell a b => indices kind a + indices kind b
    | 7, .cell a b => indices kind a + indices kind b
    | 8, .cell a b => indices kind a + indices kind b
    | 12, .cell a b => indices kind a + indices kind b
    | 6, .cell a (.cell b c) =>
      indices kind a + (if formulaic b then indices kind b else 0) + (if formulaic c then
        indices kind c else 0)
    | 9, .cell b c => indices kind c + if cap b = .ok 2 then one kind .site else literal kind b
    | 10, .cell (.cell axe a) b => indices kind a + indices kind b + literal kind axe
    | 11, .cell (.atom hif) b => indices kind b + if hif ∈ hooked then one kind .lit else 0
    | 11, .cell (.cell zep a) b => indices kind a + indices kind b + hinted kind zep
    | _, _ => 0

theorem kindCount_op {rest : List Op} {ar : Option Noun}
    (hcod : (operand cod).map Prod.fst ≠ some kind) :
    kindCount kind (⟨cod, ar⟩ :: rest) = kindCount kind rest := by
  rw [kindCount_cons, if_neg hcod, Nat.add_zero]

theorem kindCount_index {of : Operand} {rest : List Op} {ar : Option Noun}
    (hcod : (operand cod).map Prod.fst = some of) :
    kindCount kind (⟨cod, ar⟩ :: rest) = kindCount kind rest + one kind of := by
  rw [kindCount_cons, hcod, one]
  simp

theorem kindCount_sized {byte short index : Opcode} {ar : Noun} (hkind : kind ≠ .val)
    (hbyte : (operand byte).map Prod.fst = some .val)
    (hshort : (operand short).map Prod.fst = some .val)
    (hindex : (operand index).map Prod.fst = some .lit) :
    kindCount kind [⟨sized ar byte short index, some ar⟩] = literal kind ar := by
  have hval : some Operand.val ≠ some kind := fun h ↦ hkind (Option.some.inj h).symm
  unfold sized literal
  split_ifs with h₁ h₂ h₂
  · exact kindCount_op (by rw [hbyte]; exact hval)
  · obtain ⟨x, rfl, hx⟩ := small_atom h₁
    exact absurd (by simp [small]; omega) h₂
  · exact kindCount_op (by rw [hshort]; exact hval)
  · rw [kindCount_index hindex]
    exact Nat.zero_add _

theorem kindCount_bare {rest : List Op} (hcod : operand cod = none) :
    kindCount kind (op cod :: rest) = kindCount kind rest :=
  kindCount_op (by rw [hcod]; nofun)

theorem kindCount_pair (kind : Operand) (hed tal : List Op) (last : Op) :
    kindCount kind (hed ++ [op .swap] ++ tal ++ [last]) =
      kindCount kind hed + kindCount kind tal + kindCount kind [last] := by
  simp only [kindCount_append, kindCount_bare (show operand .swap = none from rfl)]
  rfl

theorem kindCount_pair_bare {hed tal : List Op} (hcod : operand cod = none) :
    kindCount kind (hed ++ [op .swap] ++ tal ++ [op cod]) =
      kindCount kind hed + kindCount kind tal := by
  rw [kindCount_pair, kindCount_bare hcod]
  rfl

theorem kindCount_frag {ar : Noun} {ops : List Op} (hkind : kind ≠ .val)
    (hfrag : compFrag ar los = .ok ops) : kindCount kind ops ≤ literal kind ar := by
  unfold compFrag at hfrag
  split at hfrag
  all_goals cases hfrag
  · exact (kindCount_bare rfl).trans_le (Nat.zero_le _)
  · cases los with
    | false => exact (kindCount_bare rfl).trans_le (Nat.zero_le _)
    | true => exact Nat.zero_le _
  · cases los <;> exact (kindCount_bare rfl).trans_le (Nat.zero_le _)
  · cases los <;> exact (kindCount_bare rfl).trans_le (Nat.zero_le _)
  · cases los <;> exact (kindCount_sized hkind rfl rfl rfl).le

theorem kindCount_lit (hkind : kind ≠ .val) (ar : Noun) (los : Bool) :
    kindCount kind (compLit ar los) ≤ literal kind ar := by
  unfold compLit
  split
  · cases los <;> exact (kindCount_bare rfl).trans_le (Nat.zero_le _)
  · cases los <;> exact (kindCount_bare rfl).trans_le (Nat.zero_le _)
  · cases los <;> exact (kindCount_sized hkind rfl rfl rfl).le

theorem kindCount_same (hkind : kind ≠ .val) (v : Noun) :
    kindCount kind [compSame v] ≤ literal kind v := by
  unfold compSame
  split
  · exact (kindCount_bare rfl).trans_le (Nat.zero_le _)
  · exact (kindCount_bare rfl).trans_le (Nat.zero_le _)
  · exact (kindCount_sized hkind rfl rfl rfl).le

theorem kindCount_edit (hkind : kind ≠ .val) (axe : Noun) (los : Bool) :
    kindCount kind [compEdit axe los] ≤ literal kind axe := by
  unfold compEdit
  split
  · cases los <;> exact (kindCount_bare rfl).trans_le (Nat.zero_le _)
  · cases los <;> exact (kindCount_bare rfl).trans_le (Nat.zero_le _)
  · cases los <;> exact (kindCount_bare rfl).trans_le (Nat.zero_le _)
  · cases los <;> exact (kindCount_sized hkind rfl rfl rfl).le

theorem indices_lit {b v : Noun} (hb : isLit b = some v) : indices kind b = literal kind v := by
  unfold isLit at hb
  split at hb
  · cases hb
    rfl
  · cases hb

/-- The ops that a hook puts behind the formula have no index. -/
theorem kindCount_hindOps {fen : List Op} {hind clean : Opcode} (hkind : kind ≠ .skip)
    (hhind : operand hind = none) (hclean : operand clean = none) :
    kindCount kind (hindOps fen hind ++ [op clean]) = kindCount kind fen := by
  have hsbip : (operand .sbip).map Prod.fst ≠ some kind := fun h ↦ hkind (Option.some.inj h).symm
  simp only [hindOps, kindCount_append, kindCount_bare hhind, kindCount_bare hclean,
    kindCount_op hsbip]
  rfl

/-- The indices of the program of a formula are those of the formula. -/
theorem kindCount_compiled {ops : List Op} (hval : kind ≠ .val) (hskip : kind ≠ .skip)
    (h : Compiled f los tel ops) : kindCount kind ops ≤ indices kind f := by
  have hsbip : (operand .sbip).map Prod.fst ≠ some kind := fun h ↦ hskip (Option.some.inj h).symm
  have hsbin : (operand .sbin).map Prod.fst ≠ some kind := fun h ↦ hskip (Option.some.inj h).symm
  have hnil : kindCount kind [] = 0 := rfl
  induction h with
  | frag hfrag => exact kindCount_frag hval hfrag
  | lit => exact kindCount_lit hval _ _
  | @cons h t ar los tel hed tal hhed htal ihhed ihtal =>
    rw [kindCount_pair_bare (by cases los <;> rfl)]
    exact Nat.add_le_add ihhed ihtal
  | @nock b c los tel hed tal hhed htal ihhed ihtal =>
    rw [kindCount_pair_bare (by cases los <;> cases tel <;> rfl)]
    exact Nat.add_le_add ihhed ihtal
  | @deep b los tel ops hops ih =>
    rw [kindCount_append, kindCount_bare rfl]
    exact ih
  | @bump b los tel ops hops ih =>
    rw [kindCount_append, kindCount_bare rfl]
    exact ih
  | @fold b c v w los tel hb hc =>
    rw [kindCount_bare (by split <;> cases los <;> rfl)]
    exact Nat.zero_le _
  | @same b c los tel hed tal hhed htal ihhed ihtal =>
    rw [kindCount_pair_bare (by cases los <;> rfl)]
    exact Nat.add_le_add ihhed ihtal
  | @litLeft b c v los tel tal hb htal ih =>
    rw [kindCount_append, Nat.add_comm]
    refine Nat.add_le_add ?_ ih
    exact (kindCount_same hval v).trans (indices_lit hb).ge
  | @litRight b c v los tel hed hhed hc ih =>
    rw [kindCount_append]
    refine Nat.add_le_add ih ?_
    exact (kindCount_same hval v).trans (indices_lit hc).ge
  | @cond b c d los tel hed yep nop hhed hbranch hyep hnop hyep' hnop' ihhed ihyep ihnop =>
    have hyepCount : kindCount kind yep ≤ if formulaic c then indices kind c else 0 := by
      split
      · next hc => exact ihyep hc
      · next hc =>
        rw [hyep' (by simpa using hc), kindCount_bare rfl, hnil]
    have hnopCount : kindCount kind nop ≤ if formulaic d then indices kind d else 0 := by
      split
      · next hd => exact ihnop hd
      · next hd =>
        rw [hnop' (by simpa using hd), kindCount_bare rfl, hnil]
    simp only [kindCount_append, kindCount_op hsbip, kindCount_op hsbin, hnil, Nat.add_zero]
    exact Nat.add_le_add (Nat.add_le_add ihhed hyepCount) hnopCount
  | @comp b c los tel hed tal hhed htal ihhed ihtal =>
    rw [kindCount_append]
    exact Nat.add_le_add ihhed ihtal
  | @push b c los tel hed tal hhed htal ihhed ihtal =>
    rw [kindCount_append, kindCount_append, kindCount_bare (by cases los <;> rfl)]
    exact Nat.add_le_add ihhed ihtal
  | @arm b c los tel hed tal hcap htal hhed ihtal =>
    have hlast : kindCount kind [op (if tel then .noct else .nolk)] = 0 := by
      cases tel <;> exact kindCount_bare rfl
    have hside : cap b ≠ .ok 2 := by
      obtain rfl | hcap := hcap
      · decide
      · rw [hcap]
        nofun
    simp only [kindCount_append, kindCount_bare (show operand .copy = none from rfl),
      kindCount_bare (show operand .swap = none from rfl), hlast, hnil, Nat.zero_add, Nat.add_zero]
    refine Nat.add_le_add ihtal ?_
    rw [if_neg hside]
    exact kindCount_frag hval hhed
  | @kick b c los tel tal hcap htal ihtal =>
    have hlast : kindCount kind [⟨if tel then .ticb else .kicb, some b⟩] = one kind .site := by
      cases tel <;> exact (kindCount_index rfl).trans (Nat.zero_add _)
    rw [kindCount_append, hlast]
    refine Nat.add_le_add ihtal ?_
    rw [if_pos hcap]
  | @hax axe c d los tel tal nef htal hnef ihtal ihnef =>
    rw [kindCount_pair, Nat.add_comm (kindCount kind tal)]
    exact Nat.add_le_add (Nat.add_le_add ihnef ihtal) (kindCount_edit hval axe los)
  | hint hhif hnef ih => exact ih.trans (Nat.le_add_right _ _)
  | @hilt hif d los tel fen hhif hfen ih =>
    rw [List.append_assoc, kindCount_append, kindCount_hindOps hskip (by cases los <;> rfl)
      (by cases los <;> rfl), kindCount_index (show _ = some Operand.lit from rfl),
      kindCount_op hsbin, hnil, Nat.add_comm]
    refine Nat.add_le_add ih ?_
    rw [if_pos hhif, Nat.zero_add]
  | @toss zep c d los tel hod nef hzep hhod hnef ihhod ihnef =>
    rw [kindCount_append, kindCount_append, kindCount_bare rfl]
    exact (Nat.add_le_add ihhod ihnef).trans (Nat.le_add_right _ _)
  | @hook zep c d los tel hod fen hzep hhod hfen ihhod ihfen =>
    have hhinted : hinted kind (.atom zep) = one kind .lit := if_pos (Or.inl hzep)
    rw [List.append_assoc, kindCount_append, kindCount_append,
      kindCount_hindOps hskip (by cases los <;> rfl) (by cases los <;> rfl),
      kindCount_index (show _ = some Operand.lit from rfl), kindCount_op hsbin, hnil, Nat.zero_add,
      Nat.add_right_comm]
    exact Nat.add_le_add (Nat.add_le_add ihhod ihfen) hhinted.ge
  | @trace zep c d los tel hod nef hzep hhod hnef ihhod ihnef =>
    have hhinted : hinted kind (.atom zep) = one kind .lit := if_pos (Or.inr hzep)
    rw [kindCount_append, kindCount_append, kindCount_append, kindCount_bare rfl,
      kindCount_index (show _ = some Operand.lit from rfl), hnil, Nat.zero_add, Nat.add_zero,
      Nat.add_right_comm]
    exact Nat.add_le_add (Nat.add_le_add ihhod ihnef) hhinted.ge
  | @live c d los tel hod nef hhod hnef ihhod ihnef =>
    rw [kindCount_append, kindCount_append, kindCount_bare rfl]
    exact (Nat.add_le_add ihhod ihnef).trans (Nat.le_add_right _ _)
  | @slog c d los tel hod nef hhod hnef ihhod ihnef =>
    rw [kindCount_append, kindCount_append, kindCount_bare rfl]
    exact (Nat.add_le_add ihhod ihnef).trans (Nat.le_add_right _ _)
  | @fast c d los tel hod nef hhod hnef ihhod ihnef =>
    have hhinted : hinted kind (.atom mFast) = one kind .rite := rfl
    have hlast : kindCount kind [op (if los then .balt else .bast)] = one kind .rite := by
      cases los <;> exact (kindCount_index rfl).trans (Nat.zero_add _)
    rw [kindCount_pair, hlast]
    exact Nat.add_le_add (Nat.add_le_add ihhod ihnef) hhinted.ge
  | @memo c d los tel hod mem hhod hmem ihhod ihmem =>
    have hhinted : hinted kind (.atom mMemo) = one kind .memo := rfl
    have hindex : kindCount kind [⟨if los then .slib else .skib,
      some (.cell (.atom (mem.length + 1)) d)⟩] =
        one kind .memo := by
      cases los <;> exact (kindCount_index rfl).trans (Nat.zero_add _)
    rw [kindCount_append, kindCount_append, kindCount_append, kindCount_append, kindCount_bare rfl,
      kindCount_bare rfl, hindex, hnil, Nat.add_zero, Nat.add_zero, Nat.add_right_comm]
    exact Nat.add_le_add (Nat.add_le_add ihhod ihmem) hhinted.ge
  | @wish b c los tel hed tal hhed htal ihhed ihtal =>
    rw [kindCount_pair_bare (by cases los <;> rfl)]
    exact Nat.add_le_add ihhed ihtal

/-! ### Solid formulas -/

/-- A formula with atoms for axes, and with few enough indices. -/
structure Solid (f : Noun) : Prop where
  square : square f = true
  few : ∀ kind ∈ [Operand.lit, .memo, .site, .rite], indices kind f ≤ 2 ^ 16

theorem few_of_solid {ops : List Op} (hsolid : Solid f) (h : Compiled f los tel ops) : Few ops := by
  have hcount : ∀ kind ∈ [Operand.lit, .memo, .site, .rite], kindCount kind ops ≤ 2 ^ 16 := by
    intro kind hkind
    refine (kindCount_compiled ?_ ?_ h).trans (hsolid.few kind hkind)
    · rintro rfl
      simp at hkind
    · rintro rfl
      simp at hkind
  exact ⟨hcount .lit (by simp), hcount .memo (by simp), hcount .site (by simp),
    hcount .rite (by simp)⟩

/-- A solid formula has a program, or `_n_find()` bails. -/
theorem find_ne_assert {C : Type} {mac : Machine C} {Codes : C → List Op → Prop}
    (hmac : Faithful mac Codes) (hsolid : Solid f) : mac.find f ≠ .error .assert := by
  intro hfind
  obtain hcomp | ⟨ops, hcomp, hbail | hfew⟩ := hmac.crash hfind
  · exact comp_ne_assert true true hsolid.square hcomp
  · cases hbail
  · exact hfew (few_of_solid hsolid (compiled_of_comp hcomp))

end Vere.Noun.Nock
