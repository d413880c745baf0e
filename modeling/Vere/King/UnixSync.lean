import Vere.King.UnixKnot
import Vere.Noun.Extract
import Vere.Noun.Murmur

/-!
# Files that are written and scanned

`_unix_write_file_hard()`, `_unix_write_file_soft()` and `_unix_update_file()` of
`pkg/vere/io/unix.c`. Content is an atom with a declared length. The buffer and the file have the
declared length, but the bytes of the atom are copied and hashed up to the last that is not zero.
With a shorter declared length the copy runs past the buffer, and with a longer one the file does
not have the hash that is recorded, and is reported as changed (`synced_reported`). `synced_iff`
says that nothing goes wrong when the two lengths are the same.
-/

set_option autoImplicit false

namespace Vere.King.Unix

open Lib.Bytes
open Noun (LoomAtom rBytes rBytes_eq write_zero)
open Noun.Murmur (mugBytes mugFrom murmur3)

/-! ### The functions -/

/-- Content: its declared length, and its data. -/
structure Mime where
  len : ℕ
  dat : LoomAtom

/-- `siz_w`: the declared length as a word. A length of 2 ^ 31 or more is an indirect atom, at
`ptr`. -/
def Mime.sizW (ptr : ℕ) (mim : Mime) :
    ℕ := if mim.len < 2 ^ 31 then mim.len else 2 ^ 31 + ptr % 2 ^ 30

/-- `u3_ufil`. -/
structure Ufil where
  dry : Bool
  pax_c : CStr
  gum_w : ℕ

/-- A file that does not exist, and one with its bytes. -/
abbrev File : Type := Option (List UInt8)

/-- An access behind the end of a buffer, and memory that is not given. -/
inductive UnixFault
  | overrun : UnixFault
  | lost : UnixFault
  deriving DecidableEq

/-- What the system does when a file is opened and read: it cannot be opened for another reason than
that it does not exist, or fewer bytes are read than it has. -/
structure Reads where
  fails : Bool
  short : Bool

section Functions

variable (hash : ℕ → List UInt8 → ℕ) (ptr : ℕ)

/-- `_unix_write_file_hard()`, where `opened` says whether the file can be opened and `rit_w` is the
number of bytes that `write()` has written, if it has not failed: the file, and the mug. -/
def writeFileHard (opened : Bool) (rit_w : Option ℕ) (old : File) (mim : Mime) :
    Except UnixFault (File × ℕ) :=
  if opened = false then .ok (old, 0)
  else
    let siz_w := mim.sizW ptr
    let len_w := met mim.dat.val
    let dat_y := List.replicate siz_w 0
    match rBytes 0 len_w dat_y mim.dat.val with
    | none => .error .overrun
    | some dat_y =>
      let mug_w := if rit_w ≠ some siz_w then 0 else mugBytes hash (dat_y.take len_w)
      .ok (some (dat_y.take (rit_w.getD 0)), mug_w)

/-- A file is read into memory of its length, which is taken for a signed word. -/
def readFile (file : List UInt8) : Except UnixFault (List UInt8) :=
  let len_ws := file.length % 2 ^ 32
  if 2 ^ 31 ≤ len_ws then .error .lost else .ok (file.take len_ws)

/-- `_unix_write_file_soft()`: the file, its record, and whether it was written. -/
def writeFileSoft (reads : Reads) (opened : Bool) (rit_w : Option ℕ) (old : File) (fil_u : Ufil)
    (mim : Mime) :
    Except UnixFault (File × Ufil × Bool) :=
  let go := do
    let (file, gum_w) ← writeFileHard hash ptr opened rit_w old mim
    .ok (file, { fil_u with gum_w := gum_w }, opened && rit_w = some (mim.sizW ptr))
  match old with
  | none => if reads.fails then .ok (old, fil_u, false) else go
  | some bytes =>
    if reads.fails then .ok (old, fil_u, false)
    else do
      let old_y ← readFile bytes
      if reads.short then .ok (old, fil_u, false)
      else
        let old_w := mugBytes hash old_y
        if old_w ≠ fil_u.gum_w then
          .ok (old, { fil_u with gum_w := mugBytes hash (bytesOf mim.dat.val) }, false)
        else go

/-- A change of a file: its path, and its length and data unless it is gone. -/
structure Change where
  pax : Option (List ℕ)
  dat : Option (ℕ × ℕ)
  deriving DecidableEq

/-- `_unix_update_file()`, in the pier `dir_c`. -/
def updateFile (dir_c : CStr) (reads : Reads) (file : File) (fil_u : Ufil) :
    Except UnixFault (List Change) :=
  if fil_u.dry then .ok []
  else if reads.fails then .ok []
  else
    match file with
    | none => .ok [⟨stringToPath dir_c fil_u.pax_c, none⟩]
    | some bytes => do
      let dat_y ← readFile bytes
      if reads.short then .ok []
      else
        let mug_w := mugBytes hash dat_y
        if mug_w = fil_u.gum_w then .ok []
        else .ok [⟨stringToPath dir_c fil_u.pax_c, some (dat_y.length, value dat_y)⟩]

/-! ### Written and scanned -/

/-- The next scan of a file reports no change. -/
def Quiet (file : File) (fil_u : Ufil) : Prop :=
  ∀ dir_c reads, updateFile hash dir_c reads file fil_u = .ok []

/-- `_unix_write_file_hard()` stays within its buffer, and what it has written is not reported. -/
def HardQuiet (old : File) (fil_u : Ufil) (mim : Mime) : Prop :=
  ∀ opened rit_w, writeFileHard hash ptr opened rit_w old mim ≠ .error .overrun ∧
    ∀ file gum_w, opened = true → rit_w = some (mim.sizW ptr) →
      writeFileHard hash ptr opened rit_w old mim = .ok (file, gum_w) →
      Quiet hash file { fil_u with gum_w := gum_w }

/-- `_unix_write_file_soft()` stays within its buffer, and what it has written is not reported. -/
def SoftQuiet (old : File) (fil_u : Ufil) (mim : Mime) : Prop :=
  ∀ reads opened rit_w, writeFileSoft hash ptr reads opened rit_w old fil_u mim ≠ .error .overrun ∧
    ∀ file fil_u', writeFileSoft hash ptr reads opened rit_w old fil_u mim =
      .ok (file, fil_u', true) →
      Quiet hash file fil_u'

end Functions

variable {hash : ℕ → List UInt8 → ℕ} {ptr : ℕ} {mim : Mime} {old : File} {fil_u : Ufil}

/-- The buffer behind `u3r_bytes()`. -/
theorem rBytes_buffer (d : LoomAtom) (siz_w : ℕ) :
    rBytes 0 (met d.val) (List.replicate siz_w 0) d.val =
    if met d.val ≤ siz_w then some (bytesOf d.val ++ List.replicate (siz_w - met d.val) 0)
      else none := by
  have hmet : met d.val < 2 ^ 32 := by
    have hfits := d.fits
    unfold Noun.Nock.lenW Noun.maximum at hfits
    unfold met
    omega
  rw [rBytes_eq hmet d.fits, if_neg (by omega), write_zero]
  simp only [List.length_replicate, List.drop_replicate, Noun.bytesAt, Nat.pow_zero, Nat.div_one,
    length_spell, bytesOf]

theorem writeFileHard_opened (rit_w : Option ℕ) : writeFileHard hash ptr true rit_w old mim =
    if met mim.dat.val ≤ mim.sizW ptr then
      .ok (some ((bytesOf mim.dat.val ++ List.replicate (mim.sizW ptr - met mim.dat.val) 0).take
          (rit_w.getD 0)),
        if rit_w ≠ some (mim.sizW ptr) then 0 else mugBytes hash (bytesOf mim.dat.val))
    else .error .overrun := by
  have hlen : (bytesOf mim.dat.val).length = met mim.dat.val := length_spell _ _
  have htake : (bytesOf mim.dat.val ++ List.replicate (mim.sizW ptr - met mim.dat.val) 0).take
      (met mim.dat.val) = bytesOf mim.dat.val := by
    rw [List.take_append_of_le_length hlen.ge, List.take_of_length_le hlen.le]
  rw [writeFileHard, if_neg (by decide)]
  dsimp only
  rw [rBytes_buffer]
  by_cases hfits : met mim.dat.val ≤ mim.sizW ptr
  · rw [if_pos hfits, if_pos hfits]
    dsimp only
    rw [htake]
  · rw [if_neg hfits, if_neg hfits]

/-- A file that is read whole has the recorded hash. -/
theorem quiet_of_mug {bytes : List UInt8} (hsmall : bytes.length < 2 ^ 31)
    (hmug : mugBytes hash bytes = fil_u.gum_w) :
    Quiet hash (some bytes) fil_u := by
  intro dir_c reads
  have hread : readFile bytes = .ok bytes := by
    rw [readFile, Nat.mod_eq_of_lt (by omega), if_neg (by omega), List.take_length]
  unfold updateFile
  simp only [hread]
  split_ifs
  · rfl
  · rfl
  · rfl
  · exact if_pos hmug

theorem mug_of_quiet {bytes : List UInt8} (hwet : fil_u.dry = false)
    (hquiet : Quiet hash (some bytes) fil_u) :
    bytes.length % 2 ^ 32 < 2 ^ 31 ∧
      mugBytes hash (bytes.take (bytes.length % 2 ^ 32)) = fil_u.gum_w := by
  have hscan := hquiet [] ⟨false, false⟩
  unfold updateFile at hscan
  rw [hwet, if_neg (by decide), if_neg (by decide)] at hscan
  unfold readFile at hscan
  dsimp only at hscan
  split at hscan
  · cases hscan
  · next hsmall =>
    refine ⟨not_le.mp hsmall, ?_⟩
    replace hscan :
        (if mugBytes hash (bytes.take (bytes.length % 2 ^ 32)) = fil_u.gum_w then Except.ok [] else
        Except.ok [⟨_, _⟩] : Except UnixFault (List Change)) = .ok [] := hscan
    split at hscan
    · assumption
    · cases hscan

section Fits

variable (hsmall : mim.len < 2 ^ 31) (heq : mim.len = met mim.dat.val)
include hsmall heq

/-- Content with its own length is what is in the file. -/
theorem writeFileHard_fits (rit_w : Option ℕ) : writeFileHard hash ptr true rit_w old mim =
    .ok (some ((bytesOf mim.dat.val).take (rit_w.getD 0)),
      if rit_w ≠ some (mim.sizW ptr) then 0 else mugBytes hash (bytesOf mim.dat.val)) := by
  have hsiz : mim.sizW ptr = met mim.dat.val := by rw [Mime.sizW, if_pos hsmall, heq]
  rw [writeFileHard_opened, hsiz, if_pos le_rfl, Nat.sub_self, List.replicate_zero, List.append_nil]

theorem hardQuiet_of_eq : HardQuiet hash ptr old fil_u mim := by
  have hsiz : mim.sizW ptr = met mim.dat.val := by rw [Mime.sizW, if_pos hsmall, heq]
  have hlen : (bytesOf mim.dat.val).length = met mim.dat.val := length_spell _ _
  intro opened rit_w
  cases opened with
  | false => exact ⟨by simp [writeFileHard], nofun⟩
  | true =>
    rw [writeFileHard_fits hsmall heq]
    refine ⟨nofun, ?_⟩
    rintro file gum_w - rfl hok
    obtain ⟨rfl, rfl⟩ := Prod.mk.inj (Except.ok.inj hok)
    rw [Option.getD_some, hsiz, List.take_of_length_le hlen.le]
    exact quiet_of_mug (by omega) (if_neg (not_not.mpr rfl)).symm

theorem softQuiet_of_eq : SoftQuiet hash ptr old fil_u mim := by
  intro reads opened rit_w
  have hhard := @hardQuiet_of_eq hash ptr mim old fil_u hsmall heq opened rit_w
  have hgo : ∀ out, (do
      let (file, gum_w) ← writeFileHard hash ptr opened rit_w old mim
      .ok (file, { fil_u with gum_w := gum_w }, opened && rit_w = some (mim.sizW ptr))) = out →
      out ≠ .error .overrun ∧
        ∀ file fil_u', out = .ok (file, fil_u', true) → Quiet hash file fil_u' := by
    rintro out rfl
    cases hwrite : writeFileHard hash ptr opened rit_w old mim with
    | error e =>
      refine ⟨fun herror ↦ hhard.1 (hwrite.trans ?_), nofun⟩
      cases herror
      rfl
    | ok result =>
      obtain ⟨file, gum_w⟩ := result
      refine ⟨nofun, fun file' fil_u' hok ↦ ?_⟩
      obtain ⟨rfl, hrest⟩ := Prod.mk.inj (Except.ok.inj hok)
      obtain ⟨rfl, hflag⟩ := Prod.mk.inj hrest
      obtain ⟨hopened, hwhole⟩ := Bool.and_eq_true_iff.mp hflag
      exact hhard.2 file gum_w hopened (of_decide_eq_true hwhole) hwrite
  have hleft : ∀ {file : File} {fil_u₁ : Ufil},
      (Except.ok (file, fil_u₁, false) : Except UnixFault _) ≠ .error .overrun ∧
        ∀ file' fil_u', (Except.ok (file, fil_u₁, false) : Except UnixFault _) =
          .ok (file', fil_u', true) →
          Quiet hash file' fil_u' := by
    intro file fil_u₁
    refine ⟨nofun, fun file' fil_u' hok ↦ ?_⟩
    have hflag := congrArg (fun out ↦ out.2.2) (Except.ok.inj hok)
    cases hflag
  unfold writeFileSoft
  cases old with
  | none =>
    dsimp only
    split
    · exact hleft
    · exact hgo _ rfl
  | some bytes =>
    dsimp only
    split
    · exact hleft
    unfold readFile
    dsimp only
    split
    · exact ⟨nofun, nofun⟩
    show (if reads.short = true then _ else _) ≠ _ ∧
      ∀ file fil_u', (if reads.short = true then _ else _) = _ → _
    split
    · exact hleft
    split
    · exact hleft
    · exact hgo _ rfl

end Fits

/-- A hash that tells one string from all others. -/
theorem mugBytes_tells (target bytes : List UInt8) :
    mugBytes (fun _ buf_y ↦ if buf_y = target then 1 else 2) bytes =
      if bytes = target then 1 else 2 := by
  rw [mugBytes, mugFrom]
  by_cases hbytes : bytes = target
  · simp only [if_pos hbytes]
    rfl
  · simp only [if_neg hbytes]
    rfl

/-- Content is written within the buffer and is not reported afterwards, whatever the hash is, if
and only if its declared length is a word and the number of its bytes up to the last that is not
zero. -/
theorem synced_iff (ptr : ℕ) (mim : Mime) :
    (∀ hash old fil_u, HardQuiet hash ptr old fil_u mim ∧ SoftQuiet hash ptr old fil_u mim) ↔
      mim.len < 2 ^ 31 ∧ mim.len = met mim.dat.val := by
  constructor
  · intro hquiet
    obtain ⟨zeros, hzeros⟩ : ∃ zeros : List UInt8,
        zeros = List.replicate (mim.sizW ptr - met mim.dat.val) 0 := ⟨_, rfl⟩
    have hhard := (hquiet (fun _ buf_y ↦ if buf_y = bytesOf mim.dat.val then 1 else 2) none
      ⟨false, [], 0⟩).1 true (some (mim.sizW ptr))
    rw [writeFileHard_opened, ← hzeros] at hhard
    have hlen : (bytesOf mim.dat.val).length = met mim.dat.val := length_spell _ _
    by_cases hfits : met mim.dat.val ≤ mim.sizW ptr
    · rw [if_pos hfits] at hhard
      have hwhole : (bytesOf mim.dat.val ++ zeros).length = mim.sizW ptr := by
        rw [hzeros, List.length_append, List.length_replicate, hlen, Nat.add_sub_cancel' hfits]
      have hscan := hhard.2 _ _ rfl rfl rfl
      rw [Option.getD_some, List.take_of_length_le hwhole.le, if_neg (not_not.mpr rfl)] at hscan
      obtain ⟨hword, hmug⟩ := mug_of_quiet rfl hscan
      have hmod : mim.sizW ptr % 2 ^ 32 = mim.sizW ptr := by
        refine Nat.mod_eq_of_lt ?_
        unfold Mime.sizW
        split <;> omega
      rw [hwhole, hmod] at hword
      rw [hwhole, hmod, List.take_of_length_le hwhole.le] at hmug
      dsimp only at hmug
      rw [mugBytes_tells, mugBytes_tells, if_pos rfl] at hmug
      have hsame : bytesOf mim.dat.val ++ zeros = bytesOf mim.dat.val := by
        by_contra hne
        rw [if_neg hne] at hmug
        cases hmug
      rw [hsame, hlen] at hwhole
      unfold Mime.sizW at hword hwhole
      split at hword
      · next hsmall =>
        rw [if_pos hsmall] at hwhole
        exact ⟨hsmall, hwhole.symm⟩
      · omega
    · rw [if_neg hfits] at hhard
      exact absurd rfl hhard.1
  · rintro ⟨hsmall, heq⟩ hash old fil_u
    exact ⟨hardQuiet_of_eq hsmall heq, softQuiet_of_eq hsmall heq⟩

theorem lenW_le {d : ℕ} (hword : d < 2 ^ 32) : Noun.Nock.lenW d ≤ Noun.maximum := by
  have hsize := Nat.size_le.mpr hword
  unfold Noun.Nock.lenW Noun.maximum
  omega

/-- Content `ab` of declared length 1 is copied past its buffer. Content `a` of declared length 2 is
written as two bytes and recorded with the hash of one, and the next scan reports the file. -/
theorem synced_reported : ∃ ab a : LoomAtom, ab.val = 0x6261 ∧ a.val = 0x61 ∧
    writeFileHard murmur3 0 true (some 1) none ⟨1, ab⟩ = .error .overrun ∧
    ∃ gum_w, writeFileHard murmur3 0 true (some 2) none ⟨2, a⟩ = .ok (some [97, 0], gum_w) ∧
      updateFile murmur3 [] ⟨false, false⟩ (some [97, 0]) ⟨false, [], gum_w⟩ =
        .ok [⟨stringToPath [] [], some (2, 97)⟩] := by
  have hab : bytesOf 0x6261 = [0x61, 0x62] := @bytesOf_value [0x61, 0x62] (by decide)
  have ha : bytesOf 0x61 = [0x61] := @bytesOf_value [0x61] (by decide)
  have hmetab : met 0x6261 = 2 := (length_spell _ 0x6261).symm.trans (congrArg List.length hab)
  have hmeta : met 0x61 = 1 := (length_spell _ 0x61).symm.trans (congrArg List.length ha)
  refine ⟨⟨0x6261, lenW_le (by decide)⟩, ⟨0x61, lenW_le (by decide)⟩, rfl, rfl, ?_,
    mugBytes murmur3 [97], ?_, ?_⟩
  · rw [writeFileHard_opened, if_neg]
    rw [hmetab]
    show ¬2 ≤ 1
    decide
  · rw [writeFileHard_opened, if_pos (by rw [hmeta]; show 1 ≤ 2; decide)]
    simp only [hmeta, ha]
    rfl
  · decide

end Vere.King.Unix
