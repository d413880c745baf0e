import Mathlib.Data.List.TakeWhile
import Vere.King.UnixPath

/-!
# Names of files

How `_unix_sync_change()` of `pkg/vere/io/unix.c` makes the name of a file of a path in clay, and
how `_unix_string_to_path()` makes a path of it again. The last knot is put behind a dot, and is
taken from behind the last dot. A last knot with a dot in it does not come back, and two paths can
give one file (`files_collide`); all other paths come back (`files_map_back`).
-/

set_option autoImplicit false

namespace Vere.King.Unix

open Lib.Bytes Lib.CString

/-! ### The functions -/

/-- `u3r_string()`. -/
def rString (a : ℕ) : CStr := (bytesOf a).takeWhile (· ≠ 0)

/-- `_unix_string_to_knot()`, which asserts that there is no slash. -/
def stringToKnot (pax_c : CStr) : Option ℕ :=
  if fas ∈ pax_c then none else some (value (if pax_c.head? = some zap then pax_c.tail else pax_c))

/-- `_unix_knot_to_string()`, which asserts that there is no slash. -/
def knotToString (pon : ℕ) : Option CStr :=
  let ret_c :=
    if pon ≠ 0 ∧ pon ≠ 0x2e ∧ pon ≠ 0x2e2e ∧ pon % 256 ≠ 0x21 then rString pon
    else (zap :: bytesOf pon).takeWhile (· ≠ 0)
  if fas ∈ ret_c then none else some ret_c

/-- `_unix_string_to_path_helper()`. -/
def stringToPathHelper (pax_c : CStr) : Option (List ℕ) :=
  match _hslash : strchr fas pax_c with
  | none =>
    match strrchr dot pax_c with
    | none => do
      let not ← stringToKnot pax_c
      some [not]
    | some (pre, post) => do
      let not ← stringToKnot pre
      let ext ← stringToKnot post
      some [not, ext]
  | some (pre, post) => do
    let not ← stringToKnot pre
    let rest ← stringToPathHelper post
    some (not :: rest)
termination_by pax_c.length
decreasing_by exact length_of_strchr _hslash

/-- `_unix_string_to_path()`, in the pier `dir_c`. -/
def stringToPath (dir_c pax_c : CStr) : Option (List ℕ) :=
  let pax_c := pax_c.drop (dir_c.length + 1)
  match strchr fas pax_c with
  | none =>
    match strchr dot pax_c with
    | none => some []
    | some (_, post) => do
      let ext ← stringToKnot post
      some [ext]
  | some (_, post) => stringToPathHelper post

/-- `_unix_sync_file()`: the file. -/
def syncFile (par_c : CStr) (nam ext : ℕ) : Option CStr := do
  let nam_c ← knotToString nam
  let ext_c ← knotToString ext
  some (par_c ++ fas :: nam_c ++ dot :: ext_c)

/-- `_unix_sync_change()`: the file, by way of directories that are found under their names or are
made. A path of less than two knots has none. -/
def syncChange (dir_c : CStr) : List ℕ → Option CStr
  | [] => none
  | [_] => none
  | [nam, ext] => syncFile dir_c nam ext
  | i_pax :: t_pax => do
    let nam_c ← knotToString i_pax
    syncChange (dir_c ++ fas :: nam_c) t_pax

/-- `_unix_sync_ergo()`: the file of a path, in the mount point `mon` of the pier `dir_c`. -/
def syncErgo (dir_c : CStr) (mon : ℕ) (pax : List ℕ) : Option CStr := do
  let nam_c ← knotToString mon
  let nam ← stringToKnot nam_c
  syncChange dir_c (nam :: pax)

/-! ### Knots -/

/-- The characters of a `@ta`: lower-case letters, digits, and `-`, `_`, `~` and `.`. -/
def taChar (b : UInt8) : Prop :=
  0x61 ≤ b ∧ b ≤ 0x7a ∨ 0x30 ≤ b ∧ b ≤ 0x39 ∨ b = 0x2d ∨ b = 0x5f ∨ b = 0x7e ∨ b = dot

instance : DecidablePred taChar := fun b ↦
  inferInstanceAs (Decidable (0x61 ≤ b ∧ b ≤ 0x7a ∨ 0x30 ≤ b ∧ b ≤ 0x39 ∨ b = 0x2d ∨ b = 0x5f ∨
  b = 0x7e ∨ b = dot))

/-- A sane `@ta`. -/
def Sane (knot : ℕ) : Prop := ∀ b ∈ bytesOf knot, taChar b

variable {knot : ℕ}

theorem ne_of_taChar {b : UInt8} (hchar : taChar b) : b ≠ 0 ∧ b ≠ fas ∧ b ≠ zap := by
  refine ⟨?_, ?_, ?_⟩
  all_goals
    rintro rfl
    revert hchar
    decide

theorem takeWhile_sane (hsane : Sane knot) : (bytesOf knot).takeWhile (· ≠ 0) = bytesOf knot := by
  refine List.takeWhile_eq_self_iff.mpr fun b hb ↦ ?_
  simpa using (ne_of_taChar (hsane b hb)).1

theorem head?_bytesOf (hne : knot ≠ 0) : (bytesOf knot).head? = some (UInt8.ofNat knot) := by
  have hpos : 0 < met knot := by
    have hsize : 0 < knot.size := Nat.size_pos.mpr (Nat.pos_of_ne_zero hne)
    unfold met
    omega
  obtain ⟨len, hlen⟩ : ∃ len, met knot = len + 1 := ⟨met knot - 1, by omega⟩
  rw [bytesOf, hlen, spell]
  rfl

/-- A knot as a string, and back; the string has the dots of the knot. -/
theorem knotToString_sane (hsane : Sane knot) :
    ∃ str, knotToString knot = some str ∧ stringToKnot str = some knot ∧
    fas ∉ str ∧ (dot ∈ str ↔ dot ∈ bytesOf knot) := by
  have hfas : fas ∉ bytesOf knot := fun hmem ↦ (ne_of_taChar (hsane fas hmem)).2.1 rfl
  have hfasZap : fas ∉ zap :: bytesOf knot := List.not_mem_cons_of_ne_of_not_mem (by decide) hfas
  unfold knotToString
  dsimp only
  have hwhole : (zap :: bytesOf knot).takeWhile (· ≠ 0) = zap :: bytesOf knot := by
    rw [List.takeWhile_cons_of_pos (by decide), takeWhile_sane hsane]
  split_ifs with hplain hslash hslash
  · rw [rString, takeWhile_sane hsane] at hslash
    exact absurd hslash hfas
  · rw [rString, takeWhile_sane hsane]
    refine ⟨_, rfl, ?_, hfas, Iff.rfl⟩
    have hzap : (bytesOf knot).head? ≠ some zap := by
      rw [head?_bytesOf hplain.1]
      intro hhead
      have hbyte : (UInt8.ofNat knot).toNat = zap.toNat := by rw [Option.some.inj hhead]
      rw [UInt8.toNat_ofNat'] at hbyte
      exact hplain.2.2.2 hbyte
    rw [stringToKnot, if_neg hfas, if_neg hzap, value_bytesOf]
  · rw [hwhole] at hslash
    exact absurd hslash hfasZap
  · rw [hwhole]
    refine ⟨_, rfl, ?_, hfasZap, by simp [show dot ≠ zap by decide]⟩
    rw [stringToKnot, if_neg hfasZap, List.head?_cons, if_pos rfl, List.tail_cons, value_bytesOf]

theorem dot_of_stringToKnot {str : CStr} (hknot : stringToKnot str = some knot) (hdot : dot ∉ str) :
    dot ∉ bytesOf knot := by
  unfold stringToKnot at hknot
  split at hknot
  · cases hknot
  have hsub : ∀ bytes, dot ∉ bytes → dot ∉ bytesOf (value bytes) := by
    intro bytes hnot hmem
    rw [exists_zeros bytes] at hnot
    exact hnot (List.mem_append_left _ hmem)
  obtain rfl := Option.some.inj hknot
  refine hsub _ ?_
  split
  · exact fun hmem ↦ hdot (List.mem_of_mem_tail hmem)
  · exact hdot

/-! ### Files -/

/-- The names of the directories of a path, and the file in the last of them. -/
theorem syncChange_two (dir_c : CStr) (nam ext : ℕ) :
    syncChange dir_c [nam, ext] = syncFile dir_c nam ext := rfl

theorem syncChange_cons (dir_c : CStr) {nam_c : CStr} {i_pax : ℕ} {t_pax : List ℕ}
    (hlen : 2 ≤ t_pax.length) (hnam : knotToString i_pax = some nam_c) :
    syncChange dir_c (i_pax :: t_pax) = syncChange (dir_c ++ fas :: nam_c) t_pax := by
  obtain ⟨nam, ext, more, rfl⟩ : ∃ nam ext more, t_pax = nam :: ext :: more := by
    rcases t_pax with _ | ⟨nam, _ | ⟨ext, more⟩⟩
    · simp at hlen
    · simp at hlen
    · exact ⟨_, _, _, rfl⟩
  rw [syncChange, hnam]
  · rfl
  · nofun
  · nofun

theorem stringToPathHelper_slash {pre post : CStr} {not : ℕ} (hpre : fas ∉ pre)
    (hknot : stringToKnot pre = some not) :
    stringToPathHelper (pre ++ fas :: post) = (stringToPathHelper post).map (not :: ·) := by
  rw [stringToPathHelper]
  split
  · next hnone => cases (strchr_append hpre post).symm.trans hnone
  · next hsome =>
    cases (strchr_append hpre post).symm.trans hsome
    rw [hknot]
    cases stringToPathHelper post <;> rfl

theorem stringToPathHelper_dot {pre post : CStr} {not ext : ℕ} (hpre : fas ∉ pre)
    (hpost : fas ∉ post) (hdot : dot ∉ post) (hnot : stringToKnot pre = some not)
    (hext : stringToKnot post = some ext) :
    stringToPathHelper (pre ++ dot :: post) = some [not, ext] := by
  have hfas : fas ∉ pre ++ dot :: post := by
    simp [hpre, hpost, show fas ≠ dot by decide]
  rw [stringToPathHelper]
  split
  · rw [strrchr_append pre hdot]
    dsimp only
    rw [hnot, hext]
    rfl
  · next hsome => cases (strchr_of_notMem hfas).symm.trans hsome

/-- A file of a path, and the path that is made of what is behind the directory. -/
theorem syncChange_back (dir_c : CStr) {pax : List ℕ} (hsane : ∀ knot ∈ pax, Sane knot)
    (hlen : 2 ≤ pax.length) :
    ∃ back, syncChange dir_c pax = some (dir_c ++ fas :: back) ∧
      (stringToPathHelper back = some pax ↔ ∀ ext ∈ pax.getLast?, dot ∉ bytesOf ext) := by
  induction pax generalizing dir_c with
  | nil => simp at hlen
  | cons nam pax ih =>
    obtain ⟨nam_c, hnam, hback, hfas, -⟩ := knotToString_sane (hsane nam List.mem_cons_self)
    rcases pax with _ | ⟨ext, _ | ⟨more, pax⟩⟩
    · simp at hlen
    · obtain ⟨ext_c, hext, hextBack, hextFas, hextDot⟩ := knotToString_sane (hsane ext (by simp))
      refine ⟨nam_c ++ dot :: ext_c, ?_, ?_⟩
      · rw [syncChange_two, syncFile, hnam, hext]
        simp
      · rw [List.getLast?_cons_cons, List.getLast?_singleton]
        simp only [Option.mem_some_iff, forall_eq']
        rw [← hextDot]
        constructor
        · intro hpath hmem
          -- only what is behind the last dot becomes the last knot
          obtain ⟨front, post, rfl, hpost⟩ := exists_last hmem
          have hknot : stringToKnot post = some ext := by
            rw [stringToPathHelper] at hpath
            split at hpath
            · rw [← List.cons_append, ← List.append_assoc, strrchr_append _ hpost] at hpath
              obtain ⟨_, -, hpath⟩ := Option.bind_eq_some_iff.mp hpath
              obtain ⟨_, hknot, hpath⟩ := Option.bind_eq_some_iff.mp hpath
              cases hpath
              exact hknot
            · next hsome =>
              have hnone : fas ∉ nam_c ++ dot :: (front ++ dot :: post) := by
                simp_all [show fas ≠ dot by decide]
              cases (strchr_of_notMem hnone).symm.trans hsome
          exact dot_of_stringToKnot hknot hpost (hextDot.mp hmem)
        · intro hdot
          exact stringToPathHelper_dot hfas hextFas hdot hback hextBack
    · have hlong : 2 ≤ (ext :: more :: pax).length := by simp
      obtain ⟨back, hfile, hiff⟩ := ih (dir_c ++ fas :: nam_c) (fun knot hknot ↦
        hsane knot (List.mem_cons_of_mem nam hknot)) hlong
      refine ⟨nam_c ++ fas :: back, ?_, ?_⟩
      · rw [syncChange_cons dir_c hlong hnam, hfile]
        simp
      · rw [stringToPathHelper_slash hfas hback, List.getLast?_cons_cons, ← hiff]
        simp

theorem syncErgo_back (dir_c : CStr) {mon : ℕ} {pax : List ℕ} (hmon : Sane mon)
    (hsane : ∀ knot ∈ pax, Sane knot) (hlen : 2 ≤ pax.length) :
    ∃ file, syncErgo dir_c mon pax = some file ∧
      (stringToPath dir_c file = some pax ↔ ∀ ext ∈ pax.getLast?, dot ∉ bytesOf ext) := by
  obtain ⟨nam_c, hnam, hback, hfas, -⟩ := knotToString_sane hmon
  obtain ⟨back, hfile, hiff⟩ := syncChange_back (dir_c ++ fas :: nam_c) hsane hlen
  refine ⟨dir_c ++ fas :: nam_c ++ fas :: back, ?_, ?_⟩
  · rw [syncErgo, hnam]
    show (stringToKnot nam_c >>= fun nam ↦ syncChange dir_c (nam :: pax)) = _
    rw [hback]
    show syncChange dir_c (mon :: pax) = _
    rw [syncChange_cons dir_c hlen hnam, hfile]
  · have hdrop : (dir_c ++ fas :: nam_c ++ fas :: back).drop (dir_c.length + 1) =
      nam_c ++ fas :: back := by
      rw [List.append_assoc, List.drop_append]
      simp
    rw [stringToPath, hdrop, strchr_append hfas]
    exact hiff

/-- A knot that is given by its characters. -/
theorem knotToString_value {str : CStr} (hlast : str.getLast? ≠ some 0)
    (hplain : value str ≠ 0 ∧ value str ≠ 0x2e ∧ value str ≠ 0x2e2e ∧ value str % 256 ≠ 0x21)
    (hwhole : str.takeWhile (· ≠ 0) = str) (hfas : fas ∉ str) :
    knotToString (value str) = some str := by
  rw [knotToString, if_pos hplain, rString, bytesOf_value hlast, hwhole, if_neg hfas]

theorem sane_value {str : CStr} (hlast : str.getLast? ≠ some 0)
    (hchars : str.all (fun b ↦ decide (taChar b)) = true) : Sane (value str) := by
  rw [Sane, bytesOf_value hlast]
  exact fun b hb ↦ of_decide_eq_true (List.all_eq_true.mp hchars b hb)

/-- `/a/'b.c'` and `/'a.b'/c` are one file in the desk `/d`, and it comes back as the second of
them. -/
theorem files_collide : ∃ dir_c mon pax pax' file, Sane mon ∧ (∀ knot ∈ pax ++ pax', Sane knot) ∧
    pax.length = 2 ∧ pax'.length = 2 ∧ pax ≠ pax' ∧ syncErgo dir_c mon pax = some file ∧
    syncErgo dir_c mon pax' = some file ∧ stringToPath dir_c file ≠ some pax := by
  have hd := @knotToString_value [0x64] (by decide) (by decide) (by decide) (by decide)
  have ha := @knotToString_value [0x61] (by decide) (by decide) (by decide) (by decide)
  have hbc := @knotToString_value [0x62, 0x2e, 0x63] (by decide) (by decide) (by decide) (by decide)
  have hab := @knotToString_value [0x61, 0x2e, 0x62] (by decide) (by decide) (by decide) (by decide)
  have hc := @knotToString_value [0x63] (by decide) (by decide) (by decide) (by decide)
  have hmon : Sane (value [0x64]) := sane_value (by decide) (by decide)
  have hall : ∀ knot ∈ [value [0x61], value [0x62, 0x2e, 0x63]] ++ [value [0x61, 0x2e, 0x62],
    value [0x63]],
      Sane knot := by
    simp only [List.cons_append, List.nil_append, List.forall_mem_cons, List.not_mem_nil,
      false_imp_iff, forall_const, and_true]
    refine ⟨?_, ?_, ?_, ?_⟩
    all_goals exact sane_value (by decide) (by decide)
  have hfile : ∀ nam ext nam_c ext_c, knotToString nam = some nam_c →
    knotToString ext = some ext_c →
      syncErgo [0x70] (value [0x64]) [nam, ext] =
        some ([0x70] ++ fas :: [0x64] ++ fas :: nam_c ++ dot :: ext_c) := by
    intro nam ext nam_c ext_c hnam hext
    rw [syncErgo, hd]
    show syncChange [0x70] [value [0x64], nam, ext] = _
    rw [syncChange_cons _ (by simp) hd, syncChange_two, syncFile, hnam, hext]
    rfl
  refine ⟨[0x70], value [0x64], _, _, _, hmon, hall, rfl,
    rfl, by decide, hfile _ _ _ _ ha hbc, ?_, ?_⟩
  · rw [hfile _ _ _ _ hab hc]
    rfl
  have hpath := @stringToPathHelper_dot [0x61, 0x2e, 0x62] [0x63] _ _ (by decide) (by decide)
    (by decide)
    rfl rfl
  show stringToPathHelper ([0x61, 0x2e, 0x62] ++ dot :: [0x63]) ≠ _
  rw [hpath]
  decide

/-- The name of a file comes back as its path if and only if there is no dot in the last knot of it;
and such paths have different files. -/
theorem files_map_back (dir_c : CStr) {mon : ℕ} {pax : List ℕ} (hmon : Sane mon)
    (hsane : ∀ knot ∈ pax, Sane knot) (hlen : 2 ≤ pax.length) :
    ∃ file, syncErgo dir_c mon pax = some file ∧
      (stringToPath dir_c file = some pax ↔ ∀ ext ∈ pax.getLast?, dot ∉ bytesOf ext) ∧
      ((∀ ext ∈ pax.getLast?, dot ∉ bytesOf ext) → ∀ pax', (∀ knot ∈ pax', Sane knot) →
        2 ≤ pax'.length → (∀ ext ∈ pax'.getLast?, dot ∉ bytesOf ext) →
        syncErgo dir_c mon pax' = some file → pax' = pax) := by
  obtain ⟨file, hfile, hiff⟩ := syncErgo_back dir_c hmon hsane hlen
  refine ⟨file, hfile, hiff, fun hdot pax' hsane' hlen' hdot' hsame ↦ ?_⟩
  obtain ⟨file', hfile', hiff'⟩ := syncErgo_back dir_c hmon hsane' hlen'
  cases hfile'.symm.trans hsame
  exact Option.some.inj ((hiff'.mpr hdot').symm.trans (hiff.mpr hdot))

/-- `/a/b` in the desk `/d`. -/
theorem files_map_back_ab : ∃ file,
    syncErgo [0x70] (value [0x64]) [value [0x61], value [0x62]] = some file ∧
      stringToPath [0x70] file = some [value [0x61], value [0x62]] := by
  have hmon : Sane (value [0x64]) := sane_value (by decide) (by decide)
  have hpax : ∀ knot ∈ [value [0x61], value [0x62]], Sane knot := by
    simp only [List.forall_mem_cons, List.not_mem_nil, false_imp_iff, forall_const, and_true]
    exact ⟨sane_value (by decide) (by decide), sane_value (by decide) (by decide)⟩
  obtain ⟨file, hfile, hiff, -⟩ := files_map_back [0x70] hmon hpax (by decide)
  refine ⟨file, hfile, hiff.mpr ?_⟩
  rintro ext ⟨⟩
  show dot ∉ bytesOf (value [0x62])
  rw [bytesOf_value (by decide)]
  decide

end Vere.King.Unix
