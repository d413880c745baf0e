import Vere.Noun.JetsReam
import Vere.Noun.NockSolid

/-!
# No assertion fails

The invariant of a run is that the code of the state and of every frame is typed by the words above
the next frame. `step_safe` is one step, and `burn_safe` a whole run. The assertions that can fail
are those on cells for axes, on more than 2^16 indices, on a clue of `%bout` that is an atom, on the
name in a clue of `%fast` and on a scry without a gate; and `%xray` writes its text past a buffer.
-/

set_option autoImplicit false

namespace Vere.Noun.Nock

open Lib.Results

section Safe

variable {C W : Type} {env : Env W} {mac : Machine C} {s : State C W} {tys tys' : List Ty}
  {ns : List Noun}

/-! ### One instruction that goes on -/

/-- An instruction goes on with words of the types on the stack, or bails. -/
def Flat (s : State C W) (tys : List Ty) (out : Outcome C W) : Prop :=
  out = .crash .bail ∨ ∃ ns w, out = .next { s with stk := ns, world := w } ∧
    List.Forall₂ Ty.Has tys ns

theorem flat_put (hns : List.Forall₂ Ty.Has tys ns) : Flat s tys (s.put ns) :=
  Or.inr ⟨ns, s.world, rfl, hns⟩

/-- A value that is not an assertion. -/
theorem flat_push {x : Except Crash Noun} (hx : x ≠ .error .assert)
    (hns : List.Forall₂ Ty.Has tys ns) :
    Flat s (.any :: tys) (s.push x ns) := by
  cases x with
  | error e =>
    cases e with
    | bail => exact Or.inl rfl
    | assert => exact absurd rfl hx
  | ok n => exact Or.inr ⟨n :: ns, s.world, rfl, .cons trivial hns⟩

/-- A call outside that returns or bails. -/
theorem flat_world {x : Except Crash W} (hx : x ≠ .error .assert)
    (hns : List.Forall₂ Ty.Has tys ns) :
    Flat s tys (.of (x.map fun w ↦ { s with stk := ns, world := w })) := by
  cases x with
  | error e =>
    cases e with
    | bail => exact Or.inl rfl
    | assert => exact absurd rfl hx
  | ok w => exact Or.inr ⟨ns, w, rfl, hns⟩

theorem orBail_ne_assert {α : Type} (x : Option α) : orBail x ≠ .error .assert := by
  cases x <;> nofun

theorem side_ne_assert (tail : Bool) (n : Noun) : side tail n ≠ .error .assert := by
  cases n <;> nofun

theorem vint_ne_assert (n : Noun) : vint n ≠ .error .assert := by
  cases n <;> nofun

theorem mutate_ne_assert (cod : Opcode) (big som : Noun) : mutate cod big som ≠ .error .assert := by
  unfold mutate
  split <;> nofun

theorem hiltHind_ne_assert {w : W} {tok : Noun} (htok : Ty.hilt.Has tok) :
    hiltHind env w tok ≠ .error .assert := by
  obtain rfl | ⟨start, rfl⟩ := htok
  · nofun
  · simp only [hiltHind, if_true]
    split
    · nofun
    · exact orBail_ne_assert _

theorem hintHind_ne_assert {w : W} {tok : Noun} (htok : Ty.hint.Has tok) :
    hintHind env w tok ≠ .error .assert := by
  obtain rfl | ⟨pri, tan, start, rfl⟩ := htok
  · nofun
  · simp only [hintHind, Noun.trel, if_true]
    split
    · nofun
    · exact orBail_ne_assert _

theorem flat_scry {ref gof : Noun} (hgul : env.gul = true) (hns : List.Forall₂ Ty.Has tys ns) :
    Flat s (.any :: tys) (s.scry env ref gof ns) := by
  unfold State.scry
  rw [if_pos hgul]
  cases env.esc s.world ref gof with
  | none => exact Or.inl rfl
  | some xw =>
    obtain ⟨x, w⟩ := xw
    cases hpro : escaped x with
    | error e =>
      have he : e = .bail := by
        unfold escaped at hpro
        split at hpro <;> cases hpro
        rfl
      left
      simp [orBail, hpro, he, Outcome.of, bind, Except.bind]
    | ok pro =>
      refine Or.inr ⟨pro :: ns, w, ?_, .cons trivial hns⟩
      simp [orBail, hpro, Outcome.of, bind, Except.bind]

variable {t : Ty} {cod : Opcode} {n : ℕ}

theorem has_one (hns : List.Forall₂ Ty.Has (t :: tys) ns) :
    ∃ x ns', ns = x :: ns' ∧ t.Has x ∧ List.Forall₂ Ty.Has tys ns' := by
  cases hns with
  | cons hx hns => exact ⟨_, _, rfl, hx, hns⟩

theorem has_two {u : Ty} (hns : List.Forall₂ Ty.Has (t :: u :: tys) ns) :
    ∃ x y ns', ns = x :: y :: ns' ∧ t.Has x ∧ u.Has y ∧ List.Forall₂ Ty.Has tys ns' := by
  obtain ⟨x, ns, rfl, hx, hns⟩ := has_one hns
  obtain ⟨y, ns, rfl, hy, hns⟩ := has_one hns
  exact ⟨x, y, ns, rfl, hx, hy, hns⟩

theorem has_three {u v : Ty} (hns : List.Forall₂ Ty.Has (t :: u :: v :: tys) ns) :
    ∃ x y z ns', ns = x :: y :: z :: ns' ∧ t.Has x ∧ u.Has y ∧ v.Has z ∧
      List.Forall₂ Ty.Has tys ns' := by
  obtain ⟨x, y, ns, rfl, hx, hy, hns⟩ := has_two hns
  obtain ⟨z, ns, rfl, hz, hns⟩ := has_one hns
  exact ⟨x, y, z, ns, rfl, hx, hy, hz, hns⟩

theorem has_any (x : Noun) (hns : List.Forall₂ Ty.Has tys ns) :
    List.Forall₂ Ty.Has (.any :: tys) (x :: ns) :=
  .cons trivial hns

/-- An instruction without an operand, other than a call. -/
theorem bare_effect (heffect : effect cod tys = some tys') (hcod : operand cod = none)
    (hcall : cod ≠ .nolk ∧ cod ≠ .nock) (hgul : cod = .wish ∨ cod = .wils → env.gul = true)
    (hns : List.Forall₂ Ty.Has tys ns) : Flat s tys' (bare env mac s cod ns) := by
  cases cod
  case nolk => exact absurd rfl hcall.1
  case nock => exact absurd rfl hcall.2
  all_goals try cases hcod
  all_goals try cases heffect
  -- the types are taken apart as far as the instruction looks at them, and the stack with them
  iterate 3 all_goals try
    (revert heffect
     rcases tys with _ | ⟨_ | _ | _ | _, tys⟩ <;> intro heffect <;> try cases heffect)
  all_goals first
    | obtain ⟨x, y, z, ns, rfl, hx, hy, hz, hns⟩ := has_three hns
    | obtain ⟨x, y, ns, rfl, hx, hy, hns⟩ := has_two hns
    | obtain ⟨x, ns, rfl, hx, hns⟩ := has_one hns
    | skip
  case wish.refl.cons.any.cons.any.cons.any.refl =>
    exact flat_scry (hgul (Or.inl rfl)) (has_any _ hns)
  case wils.refl.cons.any.cons.any.cons.any.refl => exact flat_scry (hgul (Or.inr rfl)) hns
  case heck.refl.cons.any.refl =>
    have hrest := hns
    cases x with
    | cell h t => exact flat_put hrest
    | atom a => exact flat_world (orBail_ne_assert _) hrest
  case slog.refl.cons.any.refl =>
    show Flat s tys' (if env.quiet then s.put ns else _)
    split
    · exact flat_put hns
    · exact flat_world (orBail_ne_assert _) hns
  case save.refl.cons.any.cons.any.refl => exact Or.inr ⟨x :: ns, _, rfl, has_any _ hns⟩
  case hilk.refl.cons.any.cons.any.cons.hilt.refl =>
    exact flat_world (hiltHind_ne_assert hz) (has_any _ (has_any _ hns))
  case hill.refl.cons.any.cons.hilt.refl => exact flat_world (hiltHind_ne_assert hy) (has_any _ hns)
  case hink.refl.cons.any.cons.any.cons.hint.refl =>
    exact flat_world (hintHind_ne_assert hz) (has_any _ (has_any _ hns))
  case hinl.refl.cons.any.cons.hint.refl => exact flat_world (hintHind_ne_assert hy) (has_any _ hns)
  all_goals first
    | exact flat_put (has_any _ (has_any _ hns))
    | exact flat_put (has_any _ hns)
    | exact flat_put hns
    | exact flat_push (side_ne_assert _ _) (has_any _ hns)
    | exact flat_push (side_ne_assert _ _) hns
    | exact flat_push (vint_ne_assert _) hns
    | exact flat_push (mutate_ne_assert _ _ _) hns
    | exact flat_push (mutate_ne_assert _ _ _) (has_any _ hns)

variable (env mac s) in
/-- A call that is not in tail position. -/
theorem call_effect (heffect : effect cod tys = some tys') (hcall : cod = .nolk ∨ cod = .nock)
    (hns : List.Forall₂ Ty.Has tys ns) :
    ∃ fol rest bus ns' tys₁, ns = fol :: rest ∧ tys' = .any :: tys₁ ∧ List.Forall₂ Ty.Has tys₁ ns' ∧
      bare env mac s cod ns = s.enter mac fol [bus] (⟨s.code, ns'⟩ :: s.fam) := by
  obtain rfl | rfl := hcall
  all_goals iterate 3 all_goals try
    (revert heffect
     rcases tys with _ | ⟨_ | _ | _ | _, tys⟩ <;> intro heffect <;> try cases heffect)
  all_goals obtain ⟨x, y, z, ns, rfl, -, -, -, hns⟩ := has_three hns
  · exact ⟨x, _, z, ns, _, rfl, rfl, hns, rfl⟩
  · exact ⟨x, _, z, y :: ns, _, rfl, rfl, has_any _ hns, rfl⟩

/-! ### Operands -/

theorem mas_ne_assert (a : ℕ) : mas (.atom a) ≠ .error .assert := by
  rw [mas]
  split
  · rintro ⟨⟩
  · split_ifs
    · rintro ⟨⟩
    · split <;> rintro ⟨⟩

theorem editMore_ne_assert (big : Noun) (a : ℕ) (som : Noun) :
    editMore big (.atom a) som ≠ .error .assert := by
  induction big generalizing a with
  | atom => rintro ⟨⟩
  | cell h t ihh iht =>
    rw [editMore]
    split_ifs
    · rintro ⟨⟩
    · rintro ⟨⟩
    · refine bind_ne_assert (mas_ne_assert a) fun mor ↦ bind_ne_assert (cap_ne_assert a)
        fun side ↦ ?_
      split_ifs
      · exact bind_ne_assert (ihh mor) fun _ ↦ by rintro ⟨⟩
      · exact bind_ne_assert (iht mor) fun _ ↦ by rintro ⟨⟩

theorem iEdit_ne_assert (big : Noun) (a : ℕ) (som : Noun) :
    iEdit big (.atom a) som ≠ .error .assert := by
  unfold iEdit
  split
  · nofun
  · nofun
  · exact editMore_ne_assert big a som

theorem xAt_ne_assert (axe big : Noun) : xAt axe big ≠ .error .assert := by
  unfold xAt
  split
  · rintro ⟨⟩
  · split <;> rintro ⟨⟩

/-- The token of a fore hook. -/
theorem flat_token {x : Except Crash (Noun × W)} {bus : Noun} (hx : x ≠ .error .assert)
    (htok : ∀ tok w, x = .ok (tok, w) → t.Has tok) (hns : List.Forall₂ Ty.Has tys ns) :
    Flat s (.yes :: .any :: t :: tys) (.of (x.map fun (tok, w) ↦
      { s with stk := .atom 0 :: bus :: tok :: ns, world := w })) := by
  cases x with
  | error e =>
    cases e with
    | bail => exact Or.inl rfl
    | assert => exact absurd rfl hx
  | ok tokw =>
    obtain ⟨tok, w⟩ := tokw
    exact Or.inr ⟨_, w, rfl, .cons rfl (has_any _ (.cons (htok tok w rfl) hns))⟩

section Hooks

variable {w w' : W} {tax : List Noun} {hin clu tok : Noun}

theorem etchBytecode_ne_assert {fol : Noun} (hbite : bite fol = .error .bail) :
    etchBytecode env fol ≠ .error .assert := by
  rw [etchBytecode, hbite]
  nofun

theorem hiltFore_ne_assert (hxray : ∀ fol, hin = .cell (.atom mXray) fol →
    bite fol = .error .bail) :
    hiltFore env w tax hin ≠ .error .assert := by
  unfold hiltFore
  split
  · nofun
  · next tag fol =>
    split_ifs with hbout hnara hhela hxray'
    · nofun
    · exact bind_ne_assert (orBail_ne_assert _) fun _ ↦ nofun
    · exact bind_ne_assert (orBail_ne_assert _) fun _ ↦ nofun
    · refine bind_ne_assert (etchBytecode_ne_assert (hxray fol (by rw [hxray']))) fun _ ↦ ?_
      exact bind_ne_assert (orBail_ne_assert _) fun _ ↦ nofun
    · nofun

theorem hiltFore_has (h : hiltFore env w tax hin = .ok (tok, w')) : Ty.hilt.Has tok := by
  unfold hiltFore at h
  split at h
  · cases h
  · split_ifs at h with hbout hnara hhela hxray
    · cases h
      exact Or.inr ⟨_, by rw [hbout]⟩
    · obtain ⟨_, -, h⟩ := bind_eq_ok h
      cases h
      exact Or.inl rfl
    · obtain ⟨_, -, h⟩ := bind_eq_ok h
      cases h
      exact Or.inl rfl
    · obtain ⟨_, -, h⟩ := bind_eq_ok h
      obtain ⟨_, -, h⟩ := bind_eq_ok h
      cases h
      exact Or.inl rfl
    · cases h
      exact Or.inl rfl

theorem hintFore_ne_assert (hxray : ∀ fol pri tan, hin = .cell (.atom mXray) fol →
    clu = .cell pri tan →
    bite fol = .error .bail) : hintFore env w tax hin clu ≠ .error .assert := by
  unfold hintFore slogCap
  split
  · nofun
  · next tag fol =>
    split
    · nofun
    · split
      · nofun
      · split_ifs with hnara hhela hxray'
        · refine bind_ne_assert (orBail_ne_assert _) fun _ ↦ ?_
          exact bind_ne_assert (orBail_ne_assert _) fun _ ↦ nofun
        · refine bind_ne_assert (orBail_ne_assert _) fun _ ↦ ?_
          exact bind_ne_assert (orBail_ne_assert _) fun _ ↦ nofun
        · refine bind_ne_assert (etchBytecode_ne_assert (hxray fol _ _ (by rw [hxray']) rfl))
            fun _ ↦ ?_
          exact bind_ne_assert (orBail_ne_assert _) fun _ ↦ nofun
        · nofun

theorem hintFore_has (hbout : ∀ fol, hin = .cell (.atom mBout) fol → ∃ pri tan, clu = .cell pri tan)
    (h : hintFore env w tax hin clu = .ok (tok, w')) : Ty.hint.Has tok := by
  unfold hintFore at h
  split at h
  · cases h
  · next tag fol =>
    split at h
    · next htag =>
      obtain ⟨pri, tan, rfl⟩ := hbout fol (by rw [htag])
      cases h
      exact Or.inr ⟨pri, tan, _, by rw [htag]⟩
    · split at h
      · cases h
        exact Or.inl rfl
      · split_ifs at h
        · obtain ⟨_, -, h⟩ := bind_eq_ok h
          obtain ⟨_, -, h⟩ := bind_eq_ok h
          cases h
          exact Or.inl rfl
        · obtain ⟨_, -, h⟩ := bind_eq_ok h
          obtain ⟨_, -, h⟩ := bind_eq_ok h
          cases h
          exact Or.inl rfl
        · obtain ⟨_, -, h⟩ := bind_eq_ok h
          obtain ⟨_, -, h⟩ := bind_eq_ok h
          cases h
          exact Or.inl rfl
        · cases h
          exact Or.inl rfl

end Hooks

/-- An instruction with an operand, other than `BUSH`. -/
theorem valued_effect {x : Noun} (heffect : effect cod tys = some tys')
    (hcod : (operand cod).map Prod.fst = some .val ∨ (operand cod).map Prod.fst = some .lit)
    (hedit : cod = .mutb ∨ cod = .muts ∨ cod = .mitb ∨ cod = .kutb ∨ cod = .kuts ∨ cod = .kitb →
      ∃ a, x = .atom a)
    (hbout : cod = .hinb → ∀ fol, x = .cell (.atom mBout) fol →
    ∃ pri tan rest, ns = .cell pri tan :: rest)
    (hxray : ∀ fol, cod = .hilb ∨ cod = .hinb ∧ (∃ pri tan rest, ns = .cell pri tan :: rest) →
      x = .cell (.atom mXray) fol → bite fol = .error .bail) (hns : List.Forall₂ Ty.Has tys ns) :
    Flat s tys' (valued env s cod x ns) := by
  cases cod
  all_goals try (obtain hcod | hcod := hcod <;> cases hcod; done)
  all_goals try cases heffect
  iterate 3 all_goals try
    (revert heffect
     rcases tys with _ | ⟨_ | _ | _ | _, tys⟩ <;> intro heffect <;> try cases heffect)
  all_goals first
    | obtain ⟨n, m, o, ns, rfl, hn, hm, ho, hns⟩ := has_three hns
    | obtain ⟨n, m, ns, rfl, hn, hm, hns⟩ := has_two hns
    | obtain ⟨n, ns, rfl, hn, hns⟩ := has_one hns
    | skip
  case hilb.cons.any.refl =>
    exact flat_token (hiltFore_ne_assert fun fol ↦ hxray fol (Or.inl rfl))
      (fun _ _ ↦ hiltFore_has) hns
  case hinb.cons.any.cons.any.refl =>
    refine flat_token (hintFore_ne_assert fun fol pri tan hx hclu ↦ ?_)
      (fun _ _ ↦ hintFore_has fun fol hx ↦ ?_) hns
    · exact hxray fol (Or.inr ⟨rfl, pri, tan, _, by rw [hclu]⟩) hx
    obtain ⟨pri, tan, rest, hstack⟩ := hbout rfl fol hx
    exact ⟨pri, tan, (List.cons.inj hstack).1⟩
  all_goals first
    | exact flat_push (xAt_ne_assert _ _) (has_any _ hns)
    | exact flat_push (xAt_ne_assert _ _) hns
    | exact flat_put (has_any _ hns)
    | (obtain ⟨a, rfl⟩ := hedit (by simp)
       first
       | exact flat_push (iEdit_ne_assert _ _ _) hns
       | exact flat_push (iEdit_ne_assert _ _ _) (has_any _ hns))

/-! ### The invariant -/

variable {Codes : C → List Op → Prop}

/-- The frames go on with typed code, once there is a product on top of their words; the traces they
have to drop. -/
inductive Below (Codes : C → List Op → Prop) : List (Frame C) → ℕ → Prop
  | nil : Below Codes [] 0
  | cons {fam : Frame C} {fams : List (Frame C)} {rest : List Op} {tys : List Ty} {k n : ℕ}
      (hcodes : Codes fam.code rest) (htyped : Typed rest (.any :: tys) k)
      (hstk : List.Forall₂ Ty.Has tys fam.stk)
      (hfams : Below Codes fams n) : Below Codes (fam :: fams) (k + n)

/-- The code of a state and of its frames is typed by their words, and there are the traces that
they drop. -/
def Safe (Codes : C → List Op → Prop) (s : State C W) : Prop :=
  ∃ rest tys k n, Codes s.code rest ∧ Typed rest tys k ∧ List.Forall₂ Ty.Has tys s.stk ∧
    Below Codes s.fam n ∧ k + n ≤ s.tax.length

/-- No assertion has failed, and what goes on is safe. -/
def Fine (Codes : C → List Op → Prop) : Outcome C W → Prop
  | .next s => Safe Codes s
  | .done _ _ _ => True
  | .crash e => e = .bail
  | .wild => False

theorem fine_of_flat {out : Outcome C W} {rest : List Op} {k : ℕ} (hflat : Flat s tys out)
    (hcodes : Codes s.code rest) (htyped : Typed rest tys k) (hbelow : Below Codes s.fam n)
    (htax : k + n ≤ s.tax.length) : Fine Codes out := by
  obtain rfl | ⟨ns, w, rfl, hns⟩ := hflat
  · rfl
  · exact ⟨rest, tys, k, n, hcodes, htyped, hns, hbelow, htax⟩

/-- A solid formula is entered. -/
theorem fine_enter {fol bus : Noun} {fam : List (Frame C)} (hmac : Faithful mac Codes)
    (hsolid : Solid fol) (hbelow : Below Codes fam n) (htax : n ≤ s.tax.length) :
    Fine Codes (s.enter mac fol [bus] fam) := by
  unfold State.enter
  cases hfind : mac.find fol with
  | error e =>
    cases e with
    | bail => exact rfl
    | assert => exact absurd hfind (find_ne_assert hmac hsolid)
  | ok code =>
    obtain ⟨ops, hcomp, hcodes⟩ := hmac.find hfind
    have htyped := typed_of_compiled (compiled_of_comp hcomp) hsolid.square
      (fun _ ↦ ⟨rfl, rfl, rfl⟩) Typed.halt
    rw [List.append_nil] at htyped
    exact ⟨ops, [.any], 0, n, hcodes, htyped, .cons trivial .nil, hbelow, by simpa using htax⟩

/-- What a step must meet. The formulas that it calls are solid; no bytecode is shown by `%xray`,
whose text is longer than its buffer; the clue of a `%bout` is a cell; the name in a clue that is
registered fails no assertion, in a dashboard that its own programs lead to; and there is a scry
gate for a scry. -/
structure Meets (env : Env W) (mac : Machine C) (s : State C W) : Prop where
  call : ∀ {cod code fol rest}, mac.fetch s.code = some (.bare cod, code) →
    cod = .noct ∨ cod = .nolk ∨ cod = .nock → s.stk = fol :: rest → Solid fol
  kick : ∀ {cod inx axe code cor rest w fol}, mac.fetch s.code = some (.site cod inx axe, code) →
    s.stk = cor :: rest → env.kick s.world ⟨mac.fol code, inx⟩ axe cor = some (none, w) →
    xAt axe cor = .ok fol → Solid fol
  xray : ∀ {cod fol code}, mac.fetch s.code = some (.lit cod (.cell (.atom mXray) fol), code) →
    cod = .hilb ∨ cod = .hinb ∧ (∃ pri tan rest, s.stk = .cell pri tan :: rest) →
    bite fol = .error .bail
  bout : ∀ {fol code clu rest}, mac.fetch s.code =
    some (.lit .hinb (.cell (.atom mBout) fol), code) →
    s.stk = clu :: rest → ∃ pri tan, clu = .cell pri tan
  rite : ∀ {cod inx code pro bus clu rest}, mac.fetch s.code = some (.rite cod inx, code) →
    s.stk = pro :: bus :: clu :: rest →
      Jets.Reaches env.dash (env.jets s.world) ∧ Jets.fsck clu ≠ .error .assert
  scry : ∀ {cod code}, mac.fetch s.code = some (.bare cod, code) → cod = .wish ∨ cod = .wils →
    env.gul = true

/-- The instructions without a condition. -/
def plainInstr : Instr → Bool
  | .bare cod => cod ∉ [.noct, .nolk, .nock, .wish, .wils]
  | .site _ _ _ => false
  | .lit cod _ => cod ∉ [.hilb, .hinb]
  | .rite _ _ => false
  | _ => true

theorem meets_plain {instr : Instr} {code : C} (hfetch : mac.fetch s.code = some (instr, code))
    (hplain : plainInstr instr = true) : Meets env mac s where
  call hcall hcod _ := by
    cases hfetch.symm.trans hcall
    obtain rfl | rfl | rfl := hcod <;> cases hplain
  kick hkick _ _ _ := by
    cases hfetch.symm.trans hkick
    cases hplain
  xray hxray hcod := by
    cases hfetch.symm.trans hxray
    obtain rfl | ⟨rfl, -⟩ := hcod <;> cases hplain
  bout hbout _ := by
    cases hfetch.symm.trans hbout
    cases hplain
  rite hrite _ := by
    cases hfetch.symm.trans hrite
    cases hplain
  scry hscry hcod := by
    cases hfetch.symm.trans hscry
    obtain rfl | rfl := hcod <;> cases hplain

/-- A kick by a jet, or by a solid formula. In tail position there is nothing else above the frame.
-/
theorem fine_kick {inx : ℕ} {axe cor : Noun} {tick : Bool} {rest : List Op} {k : ℕ}
    (hmac : Faithful mac Codes) (hcodes : Codes s.code rest) (htyped : Typed rest (.any :: tys) k)
    (hns : List.Forall₂ Ty.Has tys ns) (hbelow : Below Codes s.fam n) (htax : k + n ≤ s.tax.length)
    (htick : tick = true → tys = [] ∧ k = 0)
    (hsolid : ∀ w fol, env.kick s.world ⟨mac.fol s.code, inx⟩ axe cor = some (none, w) →
      xAt axe cor = .ok fol → Solid fol) : Fine Codes (s.kick env mac inx axe cor ns tick) := by
  unfold State.kick
  cases hkick : env.kick s.world ⟨mac.fol s.code, inx⟩ axe cor with
  | none => exact rfl
  | some prow =>
    obtain ⟨pro, w⟩ := prow
    cases pro with
    | some pro => exact ⟨rest, _, k, n, hcodes, htyped, has_any _ hns, hbelow, htax⟩
    | none =>
      cases hfol : xAt axe cor with
      | error e =>
        cases e with
        | bail => exact rfl
        | assert => exact absurd hfol (xAt_ne_assert axe cor)
      | ok fol =>
        have hfol := hsolid w fol hkick hfol
        cases tick with
        | true =>
          obtain ⟨rfl, rfl⟩ := htick rfl
          cases hns
          exact fine_enter hmac hfol hbelow (by simpa using htax)
        | false => exact fine_enter hmac hfol (.cons hcodes htyped hns hbelow) htax

/-! ### One step -/

theorem operand_rite (hcod : operand cod = some (.rite, cod)) : cod = .bast ∨ cod = .balt := by
  cases cod <;> first | cases hcod; done | exact Or.inl rfl | exact Or.inr rfl

theorem operand_site (hcod : operand cod = some (.site, cod)) : cod = .kicb ∨ cod = .ticb := by
  cases cod <;> first | cases hcod; done | exact Or.inl rfl | exact Or.inr rfl

theorem operand_skip (hcod : operand cod = some (.skip, cod)) : cod = .sbip ∨ cod = .sbin := by
  cases cod <;> first | cases hcod; done | exact Or.inl rfl | exact Or.inr rfl

theorem operand_memo (hcod : operand cod = some (.memo, cod)) : cod = .skib ∨ cod = .slib := by
  cases cod <;> first | cases hcod; done | exact Or.inl rfl | exact Or.inr rfl

theorem stk_of_effect (heffect : effect cod tys = some tys') (hnil : effect cod [] = none)
    (hns : List.Forall₂ Ty.Has tys ns) : ∃ x st, ns = x :: st := by
  cases hns with
  | nil => cases hnil.symm.trans heffect
  | cons => exact ⟨_, _, rfl⟩

theorem effect_kicb (heffect : effect .kicb tys = some tys') :
    ∃ tys₁, tys = .any :: tys₁ ∧ tys' = .any :: tys₁ := by
  rcases tys with _ | ⟨_ | _ | _ | _, tys⟩ <;> cases heffect
  exact ⟨_, rfl, rfl⟩

theorem mine_ne_assert {w : W} (site : Site) {clu : Noun} (cor : Noun)
    (hreach : Jets.Reaches env.dash (env.jets w)) (hclu : Jets.fsck clu ≠ .error .assert) :
    env.mine w site clu cor ≠ .error .assert := by
  have hassert := Jets.riteMine_asserts (Or.inr rfl) (env.rite w site) hclu cor hreach
  have hunwarm := Jets.riteMine_asserts (Or.inl rfl) (env.rite w site) (Jets.fsck_ne clu) cor hreach
  unfold Env.mine
  split
  · nofun
  · next h => exact absurd h hassert
  · next h => exact absurd h hunwarm
  · nofun

variable (env mac s) in
/-- A registration. -/
theorem rite_effect {inx : ℕ} (hmine : ∀ {pro bus clu rest}, s.stk = pro :: bus :: clu :: rest →
    env.mine s.world ⟨mac.fol s.code, inx⟩ clu pro ≠ .error .assert)
    (heffect : effect cod tys = some tys') (hcod : cod = .bast ∨ cod = .balt)
    (hns : List.Forall₂ Ty.Has tys s.stk) : Flat s tys' (exec env mac s (.rite cod inx)) := by
  obtain rfl | rfl := hcod
  all_goals iterate 3 all_goals try
    (revert heffect
     rcases tys with _ | ⟨_ | _ | _ | _, tys⟩ <;> intro heffect <;> try cases heffect)
  all_goals obtain ⟨pro, bus, clu, ns, hstk, -, -, -, hns⟩ := has_three hns
  all_goals unfold exec
  all_goals rw [hstk]
  · exact flat_world (hmine hstk) (has_any _ (has_any _ hns))
  · exact flat_world (hmine hstk) (has_any _ hns)

/-- An instruction that goes on with the next one. -/
theorem exec_fine {o : Op} {v : View} {dist : ℕ → ℕ} {inx : ℕ} {code : C} {rest : List Op} {k : ℕ}
    (hmac : Faithful mac Codes) (hmeets : Meets env mac s) (hview : o.view = some v)
    (hfetch : mac.fetch s.code = some (v.instr o.cod dist inx, code)) (hcodes : Codes code rest)
    (heffect : effect o.cod tys = some tys') (hsane : o.sane) (hrest : Typed rest tys' k)
    (hns : List.Forall₂ Ty.Has tys s.stk) (hbelow : Below Codes s.fam n)
    (htax : k + n ≤ s.tax.length) :
    Fine Codes (exec env mac { s with code := code } (v.instr o.cod dist inx)) := by
  obtain ⟨rfl, har, hcod⟩ | ⟨rfl, har, hcod⟩ | ⟨x, rfl, har, ⟨cod', hcod⟩, -⟩ |
    ⟨x, rfl, har, hcod⟩ |
    ⟨m, rfl, har, hcod⟩ | ⟨m, key, rfl, har, hcod⟩ | ⟨axe, rfl, har, hcod⟩ := view_cases hview
  · show Fine Codes (bare env mac { s with code := code } o.cod s.stk)
    by_cases hcall : o.cod = .nolk ∨ o.cod = .nock
    · obtain ⟨fol, st, bus, ns, tys₁, hstk, rfl, hns, hbare⟩ :=
        call_effect env mac { s with code := code } heffect hcall hns
      rw [hbare]
      exact fine_enter hmac (hmeets.call hfetch (Or.inr hcall) hstk)
        (.cons hcodes hrest hns hbelow) htax
    · have hflat : Flat { s with code := code } tys'
        (bare env mac { s with code := code } o.cod s.stk) :=
        bare_effect heffect hcod (by tauto) (hmeets.scry hfetch) hns
      exact fine_of_flat hflat hcodes hrest hbelow htax
  · have hflat : Flat { s with code := code } tys'
      (exec env mac { s with code := code } (.rite o.cod inx)) :=
      rite_effect env mac { s with code := code } (fun hstk ↦ (hmeets.rite hfetch hstk).elim
        (mine_ne_assert _ _)) heffect (operand_rite hcod) hns
    exact fine_of_flat hflat hcodes hrest hbelow htax
  · have hflat : Flat { s with code := code } tys'
      (valued env { s with code := code } o.cod (.atom x) s.stk) :=
      valued_effect heffect (Or.inl (by rw [hcod]; rfl)) (fun _ ↦ ⟨x, rfl⟩) nofun
        (fun _ _ ↦ nofun) hns
    exact fine_of_flat hflat hcodes hrest hbelow htax
  · have hflat : Flat { s with code := code } tys'
      (valued env { s with code := code } o.cod x s.stk) := by
      refine valued_effect heffect (Or.inr (by rw [hcod]; rfl)) ?_ ?_ ?_ hns
      · intro hedit
        have hmitb : o.cod = .mitb ∨ o.cod = .kitb := by
          obtain h | h | h | h | h | h := hedit
          all_goals first
            | exact Or.inl h
            | exact Or.inr h
            | rw [h] at hcod; cases hcod
        obtain ⟨axe, haxe⟩ := hsane hmitb
        exact ⟨axe, Option.some.inj (har.symm.trans haxe)⟩
      · rintro hhinb fol rfl
        rw [hhinb] at heffect hfetch
        obtain ⟨clu, st, hstk⟩ := stk_of_effect heffect rfl hns
        obtain ⟨pri, tan, rfl⟩ := hmeets.bout hfetch hstk
        exact ⟨pri, tan, st, hstk⟩
      · rintro fol hhint rfl
        exact hmeets.xray hfetch hhint
    exact fine_of_flat hflat hcodes hrest hbelow htax
  · obtain h | h := operand_skip hcod
    all_goals rw [h] at heffect; cases heffect
  · obtain h | h := operand_memo hcod
    all_goals rw [h] at heffect; cases heffect
  · obtain h | h := operand_site hcod
    · rw [h] at heffect hfetch ⊢
      obtain ⟨tys, rfl, rfl⟩ := effect_kicb heffect
      obtain ⟨cor, ns, hstk, -, hns⟩ := has_one hns
      have hexec : exec env mac { s with code := code } (.site .kicb inx axe) =
          State.kick env mac { s with code := code } inx axe cor ns false := by
        unfold exec
        rw [hstk]
      exact hexec ▸ fine_kick hmac hcodes hrest hns hbelow htax nofun fun w fol hkick hfol ↦
        hmeets.kick hfetch hstk hkick hfol
    · rw [h] at heffect
      cases heffect

/-- One step of a safe state that meets its condition is fine. -/
theorem step_safe (hmac : Faithful mac Codes) (hsafe : Safe Codes s) (hmeets : Meets env mac s) :
    Fine Codes (step env mac s) := by
  obtain ⟨ops, tys, k, n, hcodes, htyped, hns, hbelow, htax⟩ := hsafe
  cases htyped with
  | halt =>
    obtain ⟨code, hfetch⟩ := hmac.halt hcodes
    obtain ⟨here, stk, fams, tax, world⟩ := s
    obtain ⟨x, ns, rfl, -, hns⟩ := has_one hns
    cases hns
    rw [step_eq hfetch]
    cases hbelow with
    | nil => trivial
    | cons hfam hgo hstk hfams =>
      exact ⟨_, _, _, _, hfam, hgo, has_any x hstk, hfams, by simpa using htax⟩
  | bail =>
    obtain ⟨v, dist, inx, code, hview, hfetch, -, -⟩ := hmac.fetch hcodes
    cases hview
    rw [step_eq hfetch]
    exact rfl
  | call =>
    obtain ⟨v, dist, inx, code, hview, hfetch, -, -⟩ := hmac.fetch hcodes
    cases hview
    obtain ⟨here, stk, fams, tax, world⟩ := s
    obtain ⟨fol, x, bus, ns, rfl, -, -, -, hns⟩ := has_three hns
    cases hns
    rw [step_eq hfetch]
    exact fine_enter hmac (hmeets.call hfetch (Or.inl rfl) rfl) hbelow (by simpa using htax)
  | @tick axe rest hrest =>
    obtain ⟨v, dist, inx, code, hview, hfetch, hnext, -⟩ := hmac.fetch hcodes
    have hsite : v = .site axe := by
      obtain ⟨a⟩ | ⟨h, t⟩ := axe <;> exact (Option.some.inj hview).symm
    subst hsite
    obtain ⟨here, stk, fams, tax, world⟩ := s
    obtain ⟨cor, ns, rfl, -, hns⟩ := has_one hns
    rw [step_eq hfetch]
    exact fine_kick hmac hnext hrest hns hbelow htax (fun _ ↦ ⟨rfl, rfl⟩) fun w fol hkick hfol ↦
      hmeets.kick hfetch rfl hkick hfol
  | skip hrest =>
    obtain ⟨v, dist, inx, code, hview, hfetch, -, hskip⟩ := hmac.fetch hcodes
    cases hview
    rw [step_eq hfetch]
    exact ⟨_, _, _, _, hskip, hrest, hns, hbelow, htax⟩
  | test hyes hno =>
    obtain ⟨v, dist, inx, code, hview, hfetch, hnext, hskip⟩ := hmac.fetch hcodes
    cases hview
    obtain ⟨here, stk, fams, tax, world⟩ := s
    obtain ⟨x, ns, rfl, -, hns⟩ := has_one hns
    rw [step_eq hfetch]
    show Fine Codes (if x = .atom 1 then _ else if x = .atom 0 then _ else _)
    split_ifs
    · exact ⟨_, _, _, _, hskip, hno, hns, hbelow, htax⟩
    · exact ⟨_, _, _, _, hnext, hyes, hns, hbelow, htax⟩
    · exact rfl
  | pass hyes =>
    obtain ⟨v, dist, inx, code, hview, hfetch, hnext, -⟩ := hmac.fetch hcodes
    cases hview
    obtain ⟨here, stk, fams, tax, world⟩ := s
    obtain ⟨x, ns, rfl, rfl, hleft⟩ := has_one hns
    rw [step_eq hfetch]
    exact ⟨_, _, _, _, hnext, hyes, hleft, hbelow, htax⟩
  | @keep m key rest tys k hmiss hhit =>
    obtain ⟨v, dist, inx, code, hview, hfetch, hnext, hskip⟩ := hmac.fetch hcodes
    cases hview
    obtain ⟨here, stk, fams, tax, world⟩ := s
    obtain ⟨bus, ns, rfl, -, hns⟩ := has_one hns
    rw [step_eq hfetch]
    show Fine Codes (State.recall env mac ⟨code, bus :: ns, fams, tax, world⟩ bus ⟨dist m, key⟩ _)
    unfold State.recall
    cases env.find world (.cell bus key) with
    | some pro => exact ⟨_, _, _, _, hskip, hhit, has_any _ (has_any _ hns), hbelow, htax⟩
    | none => exact ⟨_, _, _, _, hnext, hmiss, has_any _ (has_any _ (has_any _ hns)), hbelow, htax⟩
  | @lose m key rest tys k hmiss hhit =>
    obtain ⟨v, dist, inx, code, hview, hfetch, hnext, hskip⟩ := hmac.fetch hcodes
    cases hview
    obtain ⟨here, stk, fams, tax, world⟩ := s
    obtain ⟨bus, ns, rfl, -, hns⟩ := has_one hns
    rw [step_eq hfetch]
    show Fine Codes (State.recall env mac ⟨code, bus :: ns, fams, tax, world⟩ bus ⟨dist m, key⟩ _)
    unfold State.recall
    cases env.find world (.cell bus key) with
    | some pro => exact ⟨_, _, _, _, hskip, hhit, has_any _ hns, hbelow, htax⟩
    | none => exact ⟨_, _, _, _, hnext, hmiss, has_any _ (has_any _ hns), hbelow, htax⟩
  | @push x rest tys k hrest =>
    obtain ⟨v, dist, inx, code, hview, hfetch, hnext, -⟩ := hmac.fetch hcodes
    have hlit : v = .lit x := by
      obtain ⟨a⟩ | ⟨h, t⟩ := x <;> exact (Option.some.inj hview).symm
    subst hlit
    obtain ⟨here, stk, fams, tax, world⟩ := s
    obtain ⟨clu, ns, rfl, -, hns⟩ := has_one hns
    rw [step_eq hfetch]
    refine ⟨_, _, _, _, hnext, hrest, hns, hbelow, ?_⟩
    show k + 1 + n ≤ tax.length + 1
    have hlength : k + n ≤ tax.length := htax
    omega
  | @drop rest tys k hrest =>
    obtain ⟨v, dist, inx, code, hview, hfetch, hnext, -⟩ := hmac.fetch hcodes
    cases hview
    obtain ⟨here, stk, fams, tax, world⟩ := s
    have hlength : k + 1 + n ≤ tax.length := htax
    rw [step_eq hfetch]
    cases tax with
    | nil => exact absurd hlength (by simp)
    | cons t tax =>
      refine ⟨_, _, _, _, hnext, hrest, hns, hbelow, ?_⟩
      show k + n ≤ tax.length
      rw [List.length_cons] at hlength
      omega
  | plain heffect hsane hrest =>
    obtain ⟨v, dist, inx, code, hview, hfetch, hnext, -⟩ := hmac.fetch hcodes
    rw [step_eq hfetch]
    exact exec_fine hmac hmeets hview hfetch hnext heffect hsane hrest hns hbelow htax

/-! ### Whole runs -/

/-- Every state that a run reaches is safe, if all of them meet the condition of a step. -/
theorem burn_safe (hmac : Faithful mac Codes) (hsafe : Safe Codes s) (n : ℕ)
    (hmeets : ∀ m < n, ∀ s', burn env mac m s = .next s' → Meets env mac s') :
    Fine Codes (burn env mac n s) := by
  induction n generalizing s with
  | zero => exact hsafe
  | succ n ih =>
    have hstep := step_safe hmac hsafe (hmeets 0 (by omega) s rfl)
    rw [burn]
    cases hout : step env mac s with
    | next s₁ =>
      rw [hout] at hstep
      refine ih hstep fun m hm s' hrun ↦ hmeets (m + 1) (by omega) s' ?_
      rw [burn, hout]
      exact hrun
    | done pro tax w => trivial
    | crash e =>
      rw [hout] at hstep
      exact hstep
    | wild =>
      rw [hout] at hstep
      exact hstep

end Safe

/-- `_n_burn_on()`: a formula is compiled, and run on a subject for a number of steps. -/
def burnOn {W : Type} (env : Env W) (bus fol : Noun) (tax : List Noun) (world : W) (n : ℕ) :
    Outcome Place W :=
  match byteMachine.find fol with
  | .error e => .crash e
  | .ok code => burn env byteMachine n ⟨code, [bus], [], tax, world⟩

/-- An environment without jets, with hooks that do nothing, and without a scry gate. -/
def bareEnv : Env Unit where
  gul := false
  home := true
  quiet := true
  traceTime w := (0, w)
  slog w _ := some w
  slogNara w _ _ := some w
  slogHela w _ _ := some w
  heck w _ := some w
  etch _ := .nul
  printTime _ := .nul
  dash := ⟨fun _ ↦ ⟨[], []⟩, [], fun _ ↦ none, Jets.hot_ok_none, fun _ ↦ 0, true⟩
  jets _ := [Jets.Road.new]
  rite _ _ := none
  enroll w _ _ _ := w
  kick w _ _ _ := some (none, w)
  find _ _ := none
  save w _ _ := w
  esc w _ _ := some (.nul, w)

/-- The formula `[2 [0 1] [1 [0 1]]]`, which runs `[0 1]` on its subject. -/
def callOnce : Noun :=
  .cell (.atom 2) (.cell (.cell (.atom 0) (.atom 1)) (.cell (.atom 1) (.cell (.atom 0) (.atom 1))))

end Vere.Noun.Nock
