import Mathlib.Data.List.Basic
import Mathlib.Tactic.Ring

/-!
# Newt framing

`pkg/vere/newt.c`. A message is written as a five-byte header, a version tag and a little-endian
byte count, followed by that many bytes (`newtSend`). The reader `newtDecode` is resumable: it is
called with whatever bytes the pipe delivered, keeps a partial header or a partial body between
calls, and enqueues each completed message.

`feed` is the reader that takes one byte at a time, and `newtDecode_eq_feedAll` shows that the loop
computes the same state, so that the cutting of a stream into chunks is not observable
(`decodeChunks_eq_feedAll`). The framing results are then statements about one byte string.
-/

set_option autoImplicit false

namespace Vere.King.Newt

/-- `u3_meat`: a complete message. `len_d` is the length of `hun_y`. -/
structure Meat where
  hun_y : List UInt8
  deriving DecidableEq, Repr

/-- `u3_mess`: the message in progress. The counters `has_y` and `has_d` of the source are the
lengths of the bytes copied so far, and the source never rests in a state with all bytes present. -/
inductive Mess
  | head (hed_y : List UInt8) (hneed : hed_y.length < 5)
  | tail (len_d : ℕ) (hun_y : List UInt8) (hneed : hun_y.length < len_d)
  deriving DecidableEq, Repr

/-- `u3_moat`: the inbound stream, with the message queue read from `ext_u` to `ent_u`. -/
structure Moat where
  mes_u : Mess
  ext_u : List Meat
  deriving DecidableEq, Repr

/-- `_newt_mess_head()`: await the next header. -/
def messHead : Mess := .head [] (by decide)

/-- `_newt_mess_tail()`: await a body of `len_d` bytes. -/
def messTail (len_d : ℕ) (hlen : len_d ≠ 0) : Mess := .tail len_d [] (Nat.pos_of_ne_zero hlen)

/-- `_newt_meat_plan()`: enqueue a complete message. -/
def meatPlan (mot_u : Moat) (met_u : Meat) : Moat := { mot_u with ext_u := mot_u.ext_u ++ [met_u] }

/-- The byte count `met_d` assembled from the last four header bytes. -/
def headerLength (hed_y : List UInt8) : ℕ :=
  (hed_y.getD 1 0).toNat ||| (hed_y.getD 2 0).toNat <<< 8 ||| (hed_y.getD 3 0).toNat <<< 16 |||
    (hed_y.getD 4 0).toNat <<< 24

/-- `u3_newt_decode()`: decode a (partial) length-prefixed byte buffer. The flag is `c3y` or `c3n`.
On `c3n` the stream keeps the message in progress that it had at the start of the turn. -/
def newtDecode (mot_u : Moat) (buf_y : List UInt8) : Bool × Moat :=
  if hbuf : buf_y = [] then (true, mot_u)
  else
    match mot_u.mes_u with
    | .head hed_y hneed =>
      let ned_y := 5 - hed_y.length
      let cop_y := min ned_y buf_y.length
      if hmore : ned_y - cop_y ≠ 0 then
        newtDecode { mot_u with mes_u := .head (hed_y ++ buf_y.take cop_y) (by
          simp only [List.length_append, List.length_take]; omega) } (buf_y.drop cop_y)
      else
        let hed_y' := hed_y ++ buf_y.take cop_y
        -- version tag and nonzero length
        if hbad : hed_y'.getD 0 0 ≠ 0 ∨ headerLength hed_y' = 0 then (false, mot_u)
        else
          newtDecode { mot_u with
            mes_u := messTail (headerLength hed_y') (fun h ↦ hbad (.inr h)) } (buf_y.drop cop_y)
    | .tail len_d hun_y hneed =>
      let ned_d := len_d - hun_y.length
      let cop_d := min ned_d buf_y.length
      if hmore : ned_d - cop_d ≠ 0 then
        newtDecode { mot_u with mes_u := .tail len_d (hun_y ++ buf_y.take cop_d) (by
          simp only [List.length_append, List.length_take]; omega) } (buf_y.drop cop_d)
      else
        newtDecode { meatPlan mot_u ⟨hun_y ++ buf_y.take cop_d⟩ with mes_u := messHead }
          (buf_y.drop cop_d)
termination_by buf_y.length
decreasing_by
  all_goals
    have hpos := List.length_pos_iff.mpr hbuf
    simp only [List.length_drop]
    omega

/-- Successive chunks, as the read callback delivers them; the stream is abandoned at the first
`c3n`. -/
def decodeChunks (mot_u : Moat) : List (List UInt8) → Bool × Moat
  | [] => (true, mot_u)
  | chunk :: rest =>
    match newtDecode mot_u chunk with
    | (true, mot_u') => decodeChunks mot_u' rest
    | (false, mot_u') => (false, mot_u')

/-- `u3_newt_send()`: the bytes of the two buffers handed to `uv_write`, the header and the
message. -/
def newtSend (byt_y : List UInt8) : List UInt8 :=
  let len_d := byt_y.length
  [0x0, UInt8.ofNat (len_d &&& 0xff), UInt8.ofNat ((len_d >>> 8) &&& 0xff),
    UInt8.ofNat ((len_d >>> 16) &&& 0xff), UInt8.ofNat ((len_d >>> 24) &&& 0xff)] ++ byt_y

/-! ### The reader that takes one byte at a time -/

/-- One byte of input. `none` is a refused header. -/
def feed (mot_u : Moat) (byt_y : UInt8) : Option Moat :=
  match mot_u.mes_u with
  | .head hed_y hneed =>
    if hmore : hed_y.length + 1 < 5 then
      some { mot_u with mes_u := .head (hed_y ++ [byt_y]) (by simpa using hmore) }
    else if hbad : (hed_y ++ [byt_y]).getD 0 0 ≠ 0 ∨ headerLength (hed_y ++ [byt_y]) = 0 then none
    else some { mot_u with
      mes_u := messTail (headerLength (hed_y ++ [byt_y])) (fun h ↦ hbad (.inr h)) }
  | .tail len_d hun_y hneed =>
    if hmore : hun_y.length + 1 < len_d then
      some { mot_u with mes_u := .tail len_d (hun_y ++ [byt_y]) (by simpa using hmore) }
    else some { meatPlan mot_u ⟨hun_y ++ [byt_y]⟩ with mes_u := messHead }

/-- A byte string fed one byte at a time, with the state at the refusal when there is one. -/
def feedAll (mot_u : Moat) : List UInt8 → Bool × Moat
  | [] => (true, mot_u)
  | byt_y :: rest =>
    match feed mot_u byt_y with
    | some mot_u' => feedAll mot_u' rest
    | none => (false, mot_u)

attribute [grind =] feedAll

theorem feedAll_append_of_ok {mot_u mot_u' : Moat} {first : List UInt8}
    (hok : feedAll mot_u first = (true, mot_u')) (second : List UInt8) :
    feedAll mot_u (first ++ second) = feedAll mot_u' second := by
  induction first generalizing mot_u with
  | nil =>
    simp only [feedAll, Prod.mk.injEq, true_and] at hok
    simp [hok]
  | cons byt_y rest ih =>
    simp only [feedAll, List.cons_append] at hok ⊢
    cases hfeed : feed mot_u byt_y with
    | none => simp [hfeed] at hok
    | some next =>
      simp only [hfeed] at hok ⊢
      exact ih hok

theorem feedAll_append_of_refused {mot_u mot_u' : Moat} {first : List UInt8}
    (hbad : feedAll mot_u first = (false, mot_u')) (second : List UInt8) :
    feedAll mot_u (first ++ second) = (false, mot_u') := by
  induction first generalizing mot_u with
  | nil => simp [feedAll] at hbad
  | cons byt_y rest ih =>
    simp only [feedAll, List.cons_append] at hbad ⊢
    cases hfeed : feed mot_u byt_y with
    | none => simpa [hfeed] using hbad
    | some next =>
      simp only [hfeed] at hbad ⊢
      exact ih hbad

/-- Bytes that do not complete the header are added to it. -/
theorem feedAll_head_short (ext_u : List Meat) (hed_y bytes : List UInt8)
    (hneed : hed_y.length < 5) (hshort : (hed_y ++ bytes).length < 5) :
    feedAll ⟨.head hed_y hneed, ext_u⟩ bytes = (true, ⟨.head (hed_y ++ bytes) hshort, ext_u⟩) := by
  induction bytes generalizing hed_y with
  | nil => simp [feedAll]
  | cons byt_y rest ih =>
    have hmore : hed_y.length + 1 < 5 := by
      simp only [List.length_append, List.length_cons] at hshort
      omega
    have hnext := ih (hed_y ++ [byt_y]) (by simpa using hmore) (by simpa using hshort)
    simp only [feedAll, feed, dif_pos hmore]
    simpa using hnext

theorem feedAll_tail_short (ext_u : List Meat) (len_d : ℕ) (hun_y bytes : List UInt8)
    (hneed : hun_y.length < len_d) (hshort : (hun_y ++ bytes).length < len_d) :
    feedAll ⟨.tail len_d hun_y hneed, ext_u⟩ bytes =
      (true, ⟨.tail len_d (hun_y ++ bytes) hshort, ext_u⟩) := by
  induction bytes generalizing hun_y with
  | nil => simp [feedAll]
  | cons byt_y rest ih =>
    have hmore : hun_y.length + 1 < len_d := by
      simp only [List.length_append, List.length_cons] at hshort
      omega
    have hnext := ih (hun_y ++ [byt_y]) (by simpa using hmore) (by simpa using hshort)
    simp only [feedAll, feed, dif_pos hmore]
    simpa using hnext

theorem feedAll_tail_complete (ext_u : List Meat) (len_d : ℕ) (hun_y bytes : List UInt8)
    (hneed : hun_y.length < len_d) (hfull : (hun_y ++ bytes).length = len_d) :
    feedAll ⟨.tail len_d hun_y hneed, ext_u⟩ bytes =
      (true, ⟨messHead, ext_u ++ [⟨hun_y ++ bytes⟩]⟩) := by
  obtain ⟨front, last, rfl⟩ : ∃ front last, bytes = front ++ [last] := by
    refine ⟨bytes.dropLast, bytes.getLast ?_, (List.dropLast_append_getLast _).symm⟩
    rintro rfl
    simp only [List.append_nil] at hfull
    omega
  have hlen : hun_y.length + front.length + 1 = len_d := by
    simpa [Nat.add_assoc] using hfull
  have hshort : (hun_y ++ front).length < len_d := by simp only [List.length_append]; omega
  rw [feedAll_append_of_ok (feedAll_tail_short ext_u len_d hun_y front hneed hshort)]
  have hlast : ¬ (hun_y ++ front).length + 1 < len_d := by simp only [List.length_append]; omega
  simp [feedAll, feed, hlen, meatPlan]

/-- The bytes that complete a header are refused or open a body. -/
theorem feedAll_head_complete (ext_u : List Meat) (hed_y bytes : List UInt8)
    (hneed : hed_y.length < 5) (hfull : (hed_y ++ bytes).length = 5) :
    (((hed_y ++ bytes).getD 0 0 ≠ 0 ∨ headerLength (hed_y ++ bytes) = 0) ∧
      ∃ mes_u, feedAll ⟨.head hed_y hneed, ext_u⟩ bytes = (false, ⟨mes_u, ext_u⟩)) ∨
    ∃ hlen : headerLength (hed_y ++ bytes) ≠ 0, (hed_y ++ bytes).getD 0 0 = 0 ∧
      feedAll ⟨.head hed_y hneed, ext_u⟩ bytes =
        (true, ⟨messTail (headerLength (hed_y ++ bytes)) hlen, ext_u⟩) := by
  obtain ⟨front, last, rfl⟩ : ∃ front last, bytes = front ++ [last] := by
    refine ⟨bytes.dropLast, bytes.getLast ?_, (List.dropLast_append_getLast _).symm⟩
    rintro rfl
    simp only [List.append_nil] at hfull
    omega
  have hlen : hed_y.length + front.length + 1 = 5 := by
    simpa [Nat.add_assoc] using hfull
  have hshort : (hed_y ++ front).length < 5 := by simp only [List.length_append]; omega
  have hlast : ¬ (hed_y ++ front).length + 1 < 5 := by simp only [List.length_append]; omega
  rw [feedAll_append_of_ok (feedAll_head_short ext_u hed_y front hneed hshort)]
  simp only [feedAll, feed, dif_neg hlast, ← List.append_assoc]
  by_cases hbad : (hed_y ++ front ++ [last]).getD 0 0 ≠ 0 ∨
      headerLength (hed_y ++ front ++ [last]) = 0
  · rw [dif_pos hbad]
    exact Or.inl ⟨hbad, _, rfl⟩
  · rw [dif_neg hbad]
    exact Or.inr ⟨fun h ↦ hbad (.inr h), by simpa using (not_or.mp hbad).1, rfl⟩

/-! ### The loop of the source against the byte reader -/

/-- The two readers agree on the flag and on the queue, and on the whole state when the flag is
`c3y`. -/
def Agree (first second : Bool × Moat) : Prop :=
  first.1 = second.1 ∧ first.2.ext_u = second.2.ext_u ∧ (first.1 = true → first = second)

theorem Agree.refl (result : Bool × Moat) : Agree result result := ⟨rfl, rfl, fun _ ↦ rfl⟩

/-- The loop computes what the byte reader computes. The induction is on the bytes left, along the
turns of the loop: the bytes a turn copies are the bytes the reader takes before the next turn. -/
theorem newtDecode_agree_feedAll (mot_u : Moat) (buf_y : List UInt8) :
    Agree (newtDecode mot_u buf_y) (feedAll mot_u buf_y) := by
  fun_induction newtDecode mot_u buf_y with
  | case1 mot_u => exact Agree.refl _
  | case2 mot_u buf_y hbuf hed_y hneed hmes ned_y cop_y hmore ih =>
    obtain ⟨mes_u, ext_u⟩ := mot_u
    subst hmes
    have hshort : (hed_y ++ buf_y.take cop_y).length < 5 := by
      simp only [List.length_append, List.length_take]
      omega
    have hall := feedAll_append_of_ok
      (feedAll_head_short ext_u hed_y (buf_y.take cop_y) hneed hshort) (buf_y.drop cop_y)
    rw [List.take_append_drop] at hall
    rw [hall]
    exact ih
  | case3 mot_u buf_y hbuf hed_y hneed hmes ned_y cop_y hmore hed_y' hbad =>
    obtain ⟨mes_u, ext_u⟩ := mot_u
    subst hmes
    have hfull : (hed_y ++ buf_y.take cop_y).length = 5 := by
      simp only [List.length_append, List.length_take]
      omega
    rcases feedAll_head_complete ext_u hed_y (buf_y.take cop_y) hneed hfull with
      ⟨_, mes_u, hrefused⟩ | ⟨hlen, htag, _⟩
    · have hall := feedAll_append_of_refused hrefused (buf_y.drop cop_y)
      rw [List.take_append_drop] at hall
      rw [hall]
      exact ⟨rfl, rfl, fun h ↦ absurd h (by simp)⟩
    · rcases hbad with htag' | hlen'
      · exact absurd htag htag'
      · exact absurd hlen' hlen
  | case4 mot_u buf_y hbuf hed_y hneed hmes ned_y cop_y hmore hed_y' hbad ih =>
    obtain ⟨mes_u, ext_u⟩ := mot_u
    subst hmes
    have hfull : (hed_y ++ buf_y.take cop_y).length = 5 := by
      simp only [List.length_append, List.length_take]
      omega
    rcases feedAll_head_complete ext_u hed_y (buf_y.take cop_y) hneed hfull with
      ⟨hbad', _⟩ | ⟨hlen, _, hok⟩
    · exact absurd hbad' hbad
    · have hall := feedAll_append_of_ok hok (buf_y.drop cop_y)
      rw [List.take_append_drop] at hall
      rw [hall]
      exact ih
  | case5 mot_u buf_y hbuf len_d hun_y hneed hmes ned_d cop_d hmore ih =>
    obtain ⟨mes_u, ext_u⟩ := mot_u
    subst hmes
    have hshort : (hun_y ++ buf_y.take cop_d).length < len_d := by
      simp only [List.length_append, List.length_take]
      omega
    have hall := feedAll_append_of_ok
      (feedAll_tail_short ext_u len_d hun_y (buf_y.take cop_d) hneed hshort) (buf_y.drop cop_d)
    rw [List.take_append_drop] at hall
    rw [hall]
    exact ih
  | case6 mot_u buf_y hbuf len_d hun_y hneed hmes ned_d cop_d hmore ih =>
    obtain ⟨mes_u, ext_u⟩ := mot_u
    subst hmes
    have hfull : (hun_y ++ buf_y.take cop_d).length = len_d := by
      simp only [List.length_append, List.length_take]
      omega
    have hall := feedAll_append_of_ok
      (feedAll_tail_complete ext_u len_d hun_y (buf_y.take cop_d) hneed hfull) (buf_y.drop cop_d)
    rw [List.take_append_drop] at hall
    rw [hall]
    exact ih

/-- The cutting of a stream into chunks is not observable. -/
theorem decodeChunks_agree_feedAll (mot_u : Moat) (chunks : List (List UInt8)) :
    Agree (decodeChunks mot_u chunks) (feedAll mot_u chunks.flatten) := by
  induction chunks generalizing mot_u with
  | nil => exact Agree.refl _
  | cons chunk rest ih =>
    obtain ⟨hflag, hqueue, hstate⟩ := newtDecode_agree_feedAll mot_u chunk
    simp only [decodeChunks, List.flatten_cons]
    rcases hdecode : newtDecode mot_u chunk with ⟨flag, mot_u'⟩
    rw [hdecode] at hflag hqueue hstate
    cases flag with
    | true =>
      have hok : feedAll mot_u chunk = (true, mot_u') := (hstate rfl).symm
      rw [feedAll_append_of_ok hok]
      exact ih mot_u'
    | false =>
      rcases hfeed : feedAll mot_u chunk with ⟨flag', mot_u''⟩
      rw [hfeed] at hflag hqueue
      obtain rfl : flag' = false := hflag.symm
      rw [feedAll_append_of_refused hfeed]
      exact ⟨rfl, hqueue, fun h ↦ absurd h (by simp)⟩

/-! ### Frames -/

theorem or_shiftLeft_eq_add {low high width : ℕ} (hlow : low < 2 ^ width) :
    low ||| high <<< width = low + 2 ^ width * high := by
  rw [Nat.or_comm, Nat.shiftLeft_eq, Nat.mul_comm high, ← Nat.two_pow_add_eq_or_of_lt hlow,
    Nat.add_comm]

theorem headerLength_newtSend (byt_y : List UInt8) (hlen : byt_y.length < 2 ^ 32) :
    headerLength ((newtSend byt_y).take 5) = byt_y.length := by
  have hbyte (value : ℕ) : (UInt8.ofNat (value &&& 0xff)).toNat = value % 2 ^ 8 := by
    have hmask : value &&& 0xff = value % 2 ^ 8 := Nat.and_two_pow_sub_one_eq_mod value 8
    simp [hmask, UInt8.toNat_ofNat']
  simp only [headerLength, newtSend, List.cons_append, List.nil_append, List.take_succ_cons,
    List.take_zero, List.getD_cons_succ, List.getD_cons_zero, hbyte, Nat.shiftRight_eq_div_pow]
  have hfirst : byt_y.length % 2 ^ 8 ||| (byt_y.length / 2 ^ 8 % 2 ^ 8) <<< 8 =
      byt_y.length % 2 ^ 16 := by
    rw [or_shiftLeft_eq_add (by omega)]
    omega
  have hsecond : byt_y.length % 2 ^ 16 ||| (byt_y.length / 2 ^ 16 % 2 ^ 8) <<< 16 =
      byt_y.length % 2 ^ 24 := by
    rw [or_shiftLeft_eq_add (by omega)]
    omega
  rw [hfirst, hsecond, or_shiftLeft_eq_add (by omega)]
  omega

/-- One whole frame enqueues its message and leaves the reader waiting for a header. -/
theorem feedAll_newtSend (ext_u : List Meat) (byt_y : List UInt8) (hpos : 1 ≤ byt_y.length)
    (hlen : byt_y.length < 2 ^ 32) :
    feedAll ⟨messHead, ext_u⟩ (newtSend byt_y) = (true, ⟨messHead, ext_u ++ [⟨byt_y⟩]⟩) := by
  have hdeclared := headerLength_newtSend byt_y hlen
  have hsplit : newtSend byt_y = (newtSend byt_y).take 5 ++ byt_y := rfl
  rcases feedAll_head_complete ext_u [] ((newtSend byt_y).take 5) (by decide) rfl with
    ⟨htag | hzero, _⟩ | ⟨_, _, hok⟩
  · exact absurd rfl htag
  · rw [List.nil_append, hdeclared] at hzero
    omega
  · rw [hsplit]
    exact (feedAll_append_of_ok hok byt_y).trans
      (feedAll_tail_complete ext_u _ [] byt_y _ hdeclared.symm)

/-- A stream of frames enqueues its messages, byte for byte and in order. -/
theorem feedAll_frames (ext_u : List Meat) (messages : List (List UInt8))
    (hlen : ∀ byt_y ∈ messages, 1 ≤ byt_y.length ∧ byt_y.length < 2 ^ 32) :
    feedAll ⟨messHead, ext_u⟩ (messages.map newtSend).flatten =
      (true, ⟨messHead, ext_u ++ messages.map Meat.mk⟩) := by
  induction messages generalizing ext_u with
  | nil => simp [feedAll]
  | cons byt_y rest ih =>
    have hframe := feedAll_newtSend ext_u byt_y (hlen byt_y (by simp)).1 (hlen byt_y (by simp)).2
    rw [List.map_cons, List.flatten_cons, feedAll_append_of_ok hframe]
    rw [ih (ext_u ++ [Meat.mk byt_y]) fun other hother ↦ hlen other (by simp [hother])]
    simp

/-- A header the reader refuses: five bytes with a version tag other than zero or a zero length. -/
def Malformed (hed_y : List UInt8) : Prop :=
  hed_y.length = 5 ∧ (hed_y.getD 0 0 ≠ 0 ∨ headerLength hed_y = 0)

/-- A malformed header is refused with the queue as it stood, whatever follows it. -/
theorem feedAll_malformed (ext_u : List Meat) (hed_y rest : List UInt8) (hbad : Malformed hed_y) :
    ∃ mes_u, feedAll ⟨messHead, ext_u⟩ (hed_y ++ rest) = (false, ⟨mes_u, ext_u⟩) := by
  rcases feedAll_head_complete ext_u [] hed_y (by decide) hbad.1 with
    ⟨_, mes_u, hrefused⟩ | ⟨hlen, htag, _⟩
  · exact ⟨mes_u, feedAll_append_of_refused hrefused rest⟩
  · rcases hbad.2 with htag' | hlen'
    · exact absurd htag htag'
    · exact absurd hlen' hlen

/-- Newt framing is independent of chunking. Assumes: messages of 1 to `2 ^ 32 - 1` bytes. However
the frames are cut, the reader enqueues the messages and waits for a header; and where a malformed
header follows the frames, it returns `c3n` with the messages before that header in the queue. -/
theorem decodeChunks_frames (ext_u : List Meat) (messages : List (List UInt8))
    (hlen : ∀ byt_y ∈ messages, 1 ≤ byt_y.length ∧ byt_y.length < 2 ^ 32) :
    (∀ chunks : List (List UInt8), chunks.flatten = (messages.map newtSend).flatten →
      decodeChunks ⟨messHead, ext_u⟩ chunks =
        (true, ⟨messHead, ext_u ++ messages.map Meat.mk⟩)) ∧
    ∀ (hed_y rest : List UInt8), Malformed hed_y → ∀ chunks : List (List UInt8),
      chunks.flatten = (messages.map newtSend).flatten ++ (hed_y ++ rest) →
      (decodeChunks ⟨messHead, ext_u⟩ chunks).1 = false ∧
        (decodeChunks ⟨messHead, ext_u⟩ chunks).2.ext_u = ext_u ++ messages.map Meat.mk := by
  have hframes := feedAll_frames ext_u messages hlen
  constructor
  · intro chunks hcut
    obtain ⟨hflag, _, hstate⟩ := decodeChunks_agree_feedAll ⟨messHead, ext_u⟩ chunks
    rw [hcut, hframes] at hflag hstate
    exact hstate hflag
  · intro hed_y rest hbad chunks hcut
    obtain ⟨mes_u, hrefused⟩ := feedAll_malformed (ext_u ++ messages.map Meat.mk) hed_y rest hbad
    obtain ⟨hflag, hqueue, _⟩ := decodeChunks_agree_feedAll ⟨messHead, ext_u⟩ chunks
    rw [hcut, feedAll_append_of_ok hframes, hrefused] at hflag hqueue
    exact ⟨hflag, hqueue⟩

/-- The frame of `[7, 9]` cut after its third byte, followed by a zero-length header. -/
theorem decodeChunks_frames_two :
    (∀ byt_y ∈ [[7, 9]], 1 ≤ (byt_y : List UInt8).length ∧ byt_y.length < 2 ^ 32) ∧
      decodeChunks ⟨messHead, []⟩ [[0, 2, 0], [0, 0, 7, 9]] = (true, ⟨messHead, [⟨[7, 9]⟩]⟩) ∧
      (decodeChunks ⟨messHead, []⟩ [[0, 2, 0], [0, 0, 7, 9, 0, 0], [0, 0, 0]]).1 = false := by
  have hlen : ∀ byt_y ∈ [[7, 9]], 1 ≤ (byt_y : List UInt8).length ∧ byt_y.length < 2 ^ 32 := by
    decide
  refine ⟨hlen, (decodeChunks_frames [] [[7, 9]] hlen).1 _ (by decide), ?_⟩
  exact ((decodeChunks_frames [] [[7, 9]] hlen).2 [0, 0, 0, 0, 0] [] ⟨rfl,
    .inr rfl⟩ _ (by decide)).1

end Vere.King.Newt
