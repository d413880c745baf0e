import Vere.Lib.Bytes
import Vere.Lib.CString

/-!
# Paths of files

The check of `u3_unix_cane()` and the file that `u3_unix_save()` writes, of `pkg/vere/io/unix.c`.
`cane_iff` says which strings pass the check, and that a file that is saved lies in the directory
for saved files.
-/

set_option autoImplicit false

namespace Vere.King.Unix

open Lib.Bytes Lib.CString

/-- A string, without the zero at its end. -/
abbrev CStr : Type := List UInt8

def fas : UInt8 := 0x2f
def dot : UInt8 := 0x2e
def zap : UInt8 := 0x21

/-! ### Canonical paths -/

/-- What the loop of `u3_unix_cane()` does not accept. -/
abbrev Bad (pax_c : CStr) : Prop :=
  pax_c = [] ∨ pax_c = [dot] ∨ pax_c = [dot, dot] ∨
    [fas] <+: pax_c ∨ [dot, fas] <+: pax_c ∨ [dot, dot, fas] <+: pax_c

/-- The loop of `u3_unix_cane()`. -/
def caneLoop (pax_c : CStr) : Bool :=
  if Bad pax_c then false
  else
    match _hslash : strchr fas pax_c with
    | none => true
    | some (_, post) => caneLoop post
termination_by pax_c.length
decreasing_by exact length_of_strchr _hslash

/-- `u3_unix_cane()`. There is no string at the null pointer. -/
def unixCane : Option CStr → Bool
  | none => false
  | some [] => caneLoop []
  | some (x :: rest) => if x = fas then rest = [] || caneLoop rest else caneLoop (x :: rest)

/-- The loop of `_unix_mkdirp()`, which has passed `done`. -/
def mkdirpLoop (done : CStr) : CStr → List CStr
  | [] => []
  | x :: rest =>
    if x = fas then done :: mkdirpLoop (done ++ [x]) rest else mkdirpLoop (done ++ [x]) rest

/-- `_unix_mkdirp()`: the directories that it makes. -/
def mkdirp : CStr → List CStr
  | [] => []
  | x :: rest => mkdirpLoop [x] rest

/-- `/.urb/put`. -/
def urbPut : CStr := [0x2f, 0x2e, 0x75, 0x72, 0x62, 0x2f, 0x70, 0x75, 0x74]

/-- What `u3_unix_save()` does to the file system. -/
inductive Call
  | mkdir (pax_c : CStr) : Call
  | write (ful_c : CStr) (pad_y : List UInt8) : Call
  deriving DecidableEq

/-- `u3_unix_save()`: its calls, of which one that fails ends it, and `none` for a path that is not
accepted. -/
def unixSave (dir_c pax_c : CStr) (pad : ℕ) : Option (List Call) :=
  if unixCane (some pax_c) then
    let pax_c := if pax_c.head? = some fas then pax_c.tail else pax_c
    let ful_c := dir_c ++ urbPut ++ fas :: pax_c
    some ((mkdirp ful_c).map .mkdir ++ [.write ful_c (bytesOf pad)])
  else none

/-- A component of a canonical path. -/
def Component (name : CStr) : Prop := name ≠ [] ∧ name ≠ [dot] ∧ name ≠ [dot, dot] ∧ fas ∉ name

/-- The root, or components with single slashes between them, behind a slash or not. -/
def Canonical (pax_c : CStr) : Prop :=
  pax_c = [fas] ∨ ∃ names ≠ [], (∀ name ∈ names, Component name) ∧
    (pax_c = [fas].intercalate names ∨ pax_c = fas :: [fas].intercalate names)

/-- A step on the way along a path, without symbolic links. -/
def follow (place : List CStr) (name : CStr) : List CStr :=
  if name = [] ∨ name = [dot] then place else if name =
    [dot, dot] then place.dropLast else place ++ [name]

/-- Where a path leads, from a working directory. -/
def walk (cwd : List CStr) (pax_c : CStr) : List CStr :=
  (pax_c.splitOn fas).foldl follow (if pax_c.head? = some fas then [] else cwd)

variable {pax_c name : CStr}

theorem caneLoop_none (hfind : strchr fas pax_c = none) : caneLoop pax_c = true ↔ ¬Bad pax_c := by
  unfold caneLoop
  split_ifs with hbad
  · simp [hbad]
  · split
    · simp [hbad]
    · next _ hsome => cases hfind.symm.trans hsome

theorem caneLoop_some {pre post : CStr} (hfind : strchr fas pax_c = some (pre, post)) :
    caneLoop pax_c = true ↔ ¬Bad pax_c ∧ caneLoop post = true := by
  conv_lhs => unfold caneLoop
  split_ifs with hbad
  · simp [hbad]
  · split
    · next hnone => cases hfind.symm.trans hnone
    · next hsome =>
      cases hfind.symm.trans hsome
      simp [hbad]

theorem bad_iff {rest : CStr} (hname : fas ∉ name)
    (hrest : rest = [] ∨ ∃ more, rest = fas :: more) :
    ¬Bad (name ++ rest) ↔ Component name := by
  have hdot : fas ≠ dot := by decide
  unfold Component Bad
  obtain rfl | ⟨more, rfl⟩ := hrest
  all_goals
    rcases name with _ | ⟨a, _ | ⟨b, _ | ⟨d, name⟩⟩⟩ <;>
      simp_all [List.cons_prefix_cons, hdot.symm]
  case inr.cons.nil => exact not_congr eq_comm
  case inr.cons.cons.nil =>
    constructor
    · rintro h rfl rfl
      exact h rfl rfl
    · rintro h rfl rfl
      exact h rfl rfl

theorem caneLoop_last (hname : fas ∉ name) : caneLoop name = true ↔ Component name := by
  rw [caneLoop_none (strchr_of_notMem hname), ← bad_iff hname (Or.inl rfl), List.append_nil]

theorem caneLoop_cons {rest : CStr} (hname : fas ∉ name) :
    caneLoop (name ++ fas :: rest) = true ↔ Component name ∧ caneLoop rest = true := by
  rw [caneLoop_some (strchr_append hname rest), bad_iff hname (Or.inr ⟨rest, rfl⟩)]

/-- The loop looks at each component. -/
theorem caneLoop_iff (pax_c : CStr) :
    caneLoop pax_c = true ↔ ∀ name ∈ pax_c.splitOn fas, Component name := by
  induction hlen : pax_c.length using Nat.strong_induction_on generalizing pax_c with
  | h len ih =>
    obtain ⟨hnot, -⟩ | ⟨name, rest, rfl, hnot, hfind⟩ := strchr_cases fas pax_c
    · rw [caneLoop_last hnot, List.splitOn_eq_singleton hnot]
      simp
    · rw [caneLoop_cons hnot, ih _ (hlen ▸ length_of_strchr hfind) rest rfl,
        List.splitOn_append_cons_self,
        List.splitOn_eq_singleton hnot]
      simp

theorem splitOn_names {names : List CStr} (hne : names ≠ []) (hnames : ∀ name ∈ names, fas ∉ name) :
    ([fas].intercalate names).splitOn fas = names := List.splitOn_intercalate fas hnames hne

theorem caneLoop_intercalate (pax_c : CStr) : caneLoop pax_c = true ↔
    ∃ names ≠ [], (∀ name ∈ names, Component name) ∧ pax_c = [fas].intercalate names := by
  rw [caneLoop_iff]
  constructor
  · intro hnames
    exact ⟨_, List.splitOn_ne_nil fas pax_c, hnames, (List.intercalate_splitOn fas).symm⟩
  · rintro ⟨names, hne, hnames, rfl⟩
    rwa [splitOn_names hne fun name hname ↦ (hnames name hname).2.2.2]

theorem caneLoop_fas (rest : CStr) : ¬caneLoop (fas :: rest) = true := by
  rw [← List.nil_append (fas :: rest), caneLoop_cons (List.not_mem_nil)]
  exact fun hnames ↦ hnames.1.1 rfl

theorem unixCane_iff (pax_c : CStr) : unixCane (some pax_c) = true ↔ Canonical pax_c := by
  have hloop : Canonical pax_c ↔ pax_c = [fas] ∨ caneLoop pax_c = true ∨
      ∃ rest, pax_c = fas :: rest ∧ caneLoop rest = true := by
    simp only [Canonical, caneLoop_intercalate]
    constructor
    · rintro (hroot | ⟨names, hne, hnames, hrel | habs⟩)
      · exact Or.inl hroot
      · exact Or.inr (Or.inl ⟨names, hne, hnames, hrel⟩)
      · exact Or.inr (Or.inr ⟨_, habs, names, hne, hnames, rfl⟩)
    · rintro (hroot | ⟨names, hne, hnames, hrel⟩ | ⟨rest, rfl, names, hne, hnames, rfl⟩)
      · exact Or.inl hroot
      · exact Or.inr ⟨names, hne, hnames, Or.inl hrel⟩
      · exact Or.inr ⟨names, hne, hnames, Or.inr rfl⟩
  rw [hloop]
  cases pax_c with
  | nil => simp [unixCane]
  | cons x rest =>
    by_cases hfas : x = fas
    · subst hfas
      simp [unixCane, caneLoop_fas]
    · simp [unixCane, hfas]

/-! ### Saved files -/

theorem follow_component {place : List CStr} (hname : Component name) :
    follow place name = place ++ [name] := by
  unfold follow
  rw [if_neg (not_or.mpr ⟨hname.1, hname.2.1⟩), if_neg hname.2.2.1]

theorem foldl_follow {names : List CStr} (place : List CStr)
    (hnames : ∀ name ∈ names, Component name) :
    names.foldl follow place = place ++ names := by
  induction names generalizing place with
  | nil => exact (List.append_nil place).symm
  | cons name names ih =>
    rw [List.foldl_cons, follow_component (hnames name List.mem_cons_self),
      ih _ fun other hother ↦ hnames other (List.mem_cons_of_mem name hother), List.append_assoc]
    rfl

/-- What is behind a slash is walked from where the path before it leads. -/
theorem walk_append (cwd : List CStr) {front : CStr} (hne : front ≠ []) (rest : CStr) :
    walk cwd (front ++ fas :: rest) = (rest.splitOn fas).foldl follow (walk cwd front) := by
  unfold walk
  rw [List.splitOn_append_cons_self, List.foldl_append, List.head?_append_of_ne_nil front hne]

theorem mem_mkdirpLoop {done todo dir : CStr} (hdir : dir ∈ mkdirpLoop done todo) :
    ∃ pre post, todo = pre ++ fas :: post ∧ dir = done ++ pre := by
  induction todo generalizing done with
  | nil => cases hdir
  | cons x todo ih =>
    rw [mkdirpLoop] at hdir
    split at hdir
    · next hfas =>
      subst hfas
      obtain rfl | hdir := List.mem_cons.mp hdir
      · exact ⟨[], todo, rfl, (List.append_nil _).symm⟩
      · obtain ⟨pre, post, rfl, rfl⟩ := ih hdir
        exact ⟨fas :: pre, post, rfl, by simp⟩
    · obtain ⟨pre, post, rfl, rfl⟩ := ih hdir
      exact ⟨x :: pre, post, rfl, by simp⟩

theorem mem_mkdirp {dir : CStr} (hdir : dir ∈ mkdirp pax_c) :
    ∃ post, pax_c = dir ++ fas :: post := by
  cases pax_c with
  | nil => cases hdir
  | cons x rest =>
    obtain ⟨pre, post, rfl, rfl⟩ := mem_mkdirpLoop hdir
    exact ⟨post, rfl⟩

/-- The components of a path that is accepted. -/
theorem components_of_cane (hcane : unixCane (some pax_c) = true) {body : CStr}
    (hbody : body = if pax_c.head? = some fas then pax_c.tail else pax_c) :
    body = [] ∧ pax_c = [fas] ∨ ∀ name ∈ body.splitOn fas, Component name := by
  cases pax_c with
  | nil =>
    obtain rfl : body = [] := by simpa using hbody
    exact Or.inr ((caneLoop_iff []).mp hcane)
  | cons x rest =>
    by_cases hfas : x = fas
    · subst hfas
      obtain rfl : body = rest := by simpa using hbody
      have hrest : body = [] ∨ caneLoop body = true := by simpa [unixCane] using hcane
      obtain rfl | hrest := hrest
      · exact Or.inl ⟨rfl, rfl⟩
      · exact Or.inr ((caneLoop_iff body).mp hrest)
    · obtain rfl : body = x :: rest := by simpa [hfas] using hbody
      rw [unixCane, if_neg hfas] at hcane
      exact Or.inr ((caneLoop_iff _).mp hcane)

/-- The check is for canonical paths. What is saved is written to a file in the directory for saved
files, and the directories that are made are on the way there or in it. -/
theorem cane_iff : (∀ pax_c, unixCane (some pax_c) = true ↔ Canonical pax_c) ∧
    ∀ cwd dir_c pax_c pad calls, unixSave dir_c pax_c pad = some calls →
      (∀ ful_c pad_y, Call.write ful_c pad_y ∈ calls →
        ∃ names, walk cwd ful_c = walk cwd (dir_c ++ urbPut) ++ names ∧
        (names = [] → pax_c = [fas])) ∧
      ∀ made, Call.mkdir made ∈ calls →
        made <+: dir_c ++ urbPut ∨ ∃ names, walk cwd made =
          walk cwd (dir_c ++ urbPut) ++ names := by
  refine ⟨unixCane_iff, fun cwd dir_c pax_c pad calls hsave ↦ ?_⟩
  unfold unixSave at hsave
  split at hsave
  case isFalse => cases hsave
  next hcane =>
  obtain ⟨body, hbody⟩ : ∃ body, body = if pax_c.head? = some fas then pax_c.tail else pax_c :=
    ⟨_, rfl⟩
  have hnames := components_of_cane hcane hbody
  dsimp only at hsave
  rw [← hbody] at hsave
  obtain rfl := Option.some.inj hsave
  have hput : dir_c ++ urbPut ≠ [] := List.append_ne_nil_of_right_ne_nil dir_c (by decide)
  constructor
  · intro ful_c pad_y hcall
    obtain ⟨rfl, -⟩ : ful_c = dir_c ++ urbPut ++ fas :: body ∧ pad_y = bytesOf pad :=
      by simpa using hcall
    rw [walk_append cwd hput]
    obtain ⟨rfl, rfl⟩ | hnames := hnames
    · refine ⟨[], ?_, fun _ ↦ rfl⟩
      rw [List.splitOn_nil, List.append_nil]
      rfl
    · rw [foldl_follow _ hnames]
      exact ⟨_, rfl, fun hnil ↦ absurd hnil (List.splitOn_ne_nil fas body)⟩
  · intro made hcall
    have hmade : made ∈ mkdirp (dir_c ++ urbPut ++ fas :: body) := by simpa using hcall
    obtain ⟨post, hpost⟩ := mem_mkdirp hmade
    obtain ⟨back, hback, -⟩ | ⟨back, rfl, hback⟩ := List.append_eq_append_iff.mp hpost.symm
    · exact Or.inl ⟨back, hback.symm⟩
    obtain ⟨rfl, -⟩ | ⟨more, rfl, hmore⟩ := List.cons_eq_append_iff.mp hback
    · exact Or.inl ⟨[], by simp⟩
    refine Or.inr ⟨more.splitOn fas, ?_⟩
    rw [walk_append cwd hput, foldl_follow]
    intro name hname
    obtain ⟨rfl, -⟩ | hnames := hnames
    · simp at hmore
    · refine hnames name ?_
      rw [hmore, List.splitOn_append_cons_self]
      exact List.mem_append_left _ hname

end Vere.King.Unix
