/-
# `to_absolute_path`

`utilities.c`.  The two functions disagree about what a relative path is: for
`handle_relative_path` it begins with `./`, and any other path is copied as it is, so
`to_absolute_path` returns `foo` for `foo`.  Where it does put the directory in front, both
functions let `strncat` write its terminator one cell behind the 100 that were allocated.  The
test for a final slash looks at the terminator and never finds one.

`makes_absolute_iff`: the result is as it should be for an absolute path, and for one that begins
with `./` and fits, when there is no final slash.

Nothing in the shell calls the function, but it is there to be used where a directory is kept as
text, and `environment.cwd` would be such a place (`cd_sub_moves`).  So the condition is worth
having: it says for which arguments it may be used as it is.

Every string on the way is checked against the size of its array; a result is there only where all
of them fit.
-/
import Osexp.Lib.DirTree
import Osexp.Lib.StrBuf
import Osexp.Seush.Utilities

namespace Osexp.Seush

open StrBuf DirTree

/-! ## 1. The functions -/

/-- `enum PATH_TYPE`. -/
inductive PathType
  | relative | absolute | invalid
  deriving DecidableEq, Repr

/-- `handle_relative_path`: what it returns and what it leaves in `results`, an array of `MAX_PATH`
bytes. -/
def handleRelativePath (path cwd : CString) : Option (PathType × CString) :=
  let results : CString := []
  if charAt path 0 ≠ '\x00' then
    if charAt path 0 = '.' ∧ charAt path 1 = '/' then
      (strcat MAX_PATH results cwd).bind fun results =>
      (strcat MAX_PATH results ['/']).bind fun results =>
      (strncat MAX_PATH results (path.drop 2)
        (MAX_PATH - strnlen cwd (MAX_PATH - 1) - 1)).map fun results => (.relative, results)
    else (strncat MAX_PATH results path MAX_PATH).map fun results => (.absolute, results)
  else some (.invalid, results)

/-- `to_absolute_path`, nothing when it writes behind the array that it has allocated. -/
def toAbsolutePath (path cwd : CString) : Option CString :=
  (handleRelativePath path cwd).bind fun (type, results) =>
  if type = .relative ∧ charAt path 0 ≠ '/' then
    let cwdLength := strnlen cwd MAX_PATH
    (strcpy MAX_PATH cwd).bind fun results =>
    (strcat MAX_PATH results ['/']).bind fun results =>
    (strncat MAX_PATH results path (MAX_PATH - cwdLength - 1)).map fun results =>
      if charAt results (strnlen results MAX_PATH) = '/' then
        results.take (strnlen results MAX_PATH)
      else results
  else some results

/-! ## 2. The property and its condition -/

/-- The result is an absolute path without a final slash, but for `/` itself, and names what the
path names in the directory `cwd`. -/
structure MakesAbsolute (path cwd result : CString) : Prop where
  absolute : IsAbsolute result
  names : ∀ (T : DirTree) (here dir : T.Dir), T.resolve T.root cwd = some dir →
    T.resolve here result = T.resolve dir path
  noSlash : result.getLast? = some '/' → result = ['/']

/-- The path is absolute, or it begins with `./` and the array holds it behind the directory. -/
def Handled (path cwd : CString) : Prop :=
  IsAbsolute path ∨ ['.', '/'] <+: path ∧ cwd.length + 1 + path.length < MAX_PATH

/-! ## 3. The kinds of path -/

section Kinds

variable {path cwd r : CString}

/-- What is at the terminator is no slash. -/
theorem charAt_length (s : CString) : charAt s s.length = '\x00' :=
  charAt_eq_of_drop_nil List.drop_length

@[simp] theorem charAt_cons_zero (c : Char) (s : CString) : charAt (c :: s) 0 = c := rfl
@[simp] theorem charAt_cons_succ (c : Char) (s : CString) (k : Nat) :
    charAt (c :: s) (k + 1) = charAt s k := rfl

theorem toAbsolutePath_absolute {rest : CString} (hlen : ('/' :: rest).length < MAX_PATH) :
    toAbsolutePath ('/' :: rest) cwd = some ('/' :: rest) := by
  have hcopy : strncat MAX_PATH [] ('/' :: rest) MAX_PATH = some ('/' :: rest) := by
    rw [strncat, List.take_of_length_le hlen.le]
    exact hold_of_lt hlen
  have hhandle : handleRelativePath ('/' :: rest) cwd = some (.absolute, '/' :: rest) := by
    rw [handleRelativePath, if_pos (by simp), if_neg (by simp), hcopy]
    rfl
  rw [toAbsolutePath, hhandle]
  rfl

/-- A path that is neither is copied. -/
theorem toAbsolutePath_bare (habs : ¬ IsAbsolute path) (hdot : ¬ ['.', '/'] <+: path)
    (h : toAbsolutePath path cwd = some r) : ¬ IsAbsolute r := by
  have hdots : ¬ (charAt path 0 = '.' ∧ charAt path 1 = '/') := by
    rintro ⟨hfirst, hsecond⟩
    cases path with
    | nil => exact absurd hfirst (by decide)
    | cons c rest =>
      cases rest with
      | nil => simp [charAt] at hsecond
      | cons d rest =>
        have hc : c = '.' := hfirst
        have hd : d = '/' := hsecond
        exact hdot ⟨rest, by rw [hc, hd]; rfl⟩
  obtain ⟨⟨type, results⟩, hhandle, h⟩ := Option.bind_eq_some_iff.mp h
  rw [handleRelativePath, if_neg hdots] at hhandle
  split at hhandle
  · obtain ⟨copy, hcopy, heq⟩ := Option.map_eq_some_iff.mp hhandle
    cases heq
    cases h
    obtain ⟨_, rfl⟩ := hold_eq_some_iff.mp hcopy
    intro hslash
    refine habs ?_
    rw [IsAbsolute, List.nil_append, List.head?_take] at hslash
    rwa [if_neg (by decide)] at hslash
  · cases hhandle
    cases h
    rintro ⟨⟩

/-- With `./` the directory is put in front, where there is room. -/
theorem toAbsolutePath_dot_iff {rest : CString} (hcwd : cwd.length < MAX_PATH) :
    toAbsolutePath ('.' :: '/' :: rest) cwd = some r ↔
      cwd.length + 1 + ('.' :: '/' :: rest).length < MAX_PATH ∧
        cwd ++ '/' :: '.' :: '/' :: rest = r := by
  have hroom : cwd.length < MAX_PATH → MAX_PATH - strnlen cwd MAX_PATH - 1 =
      MAX_PATH - cwd.length - 1 := fun h => by rw [strnlen, Nat.min_eq_left h.le]
  have hroom' : cwd.length < MAX_PATH → MAX_PATH - strnlen cwd (MAX_PATH - 1) - 1 =
      MAX_PATH - cwd.length - 1 := fun h => by rw [strnlen, Nat.min_eq_left (by omega)]
  have hhandle : ∀ x : PathType × CString,
      handleRelativePath ('.' :: '/' :: rest) cwd = some x ↔
        cwd.length + 1 + rest.length < MAX_PATH ∧ (.relative, cwd ++ '/' :: rest) = x := by
    intro x
    rw [handleRelativePath, if_pos (by simp), if_pos (by simp)]
    exact join_map_eq_some_iff '/' hroom'
  -- the string it leaves is the shorter one, and is not used
  have hrest : cwd.length + 1 + ('.' :: '/' :: rest).length < MAX_PATH →
      cwd.length + 1 + rest.length < MAX_PATH := by
    rw [List.length_cons, List.length_cons]
    omega
  -- the last character is not looked at
  have hcut : ∀ s : CString, s.length < MAX_PATH →
      (if charAt s (strnlen s MAX_PATH) = '/' then s.take (strnlen s MAX_PATH) else s) = s := by
    intro s hs
    rw [strnlen, Nat.min_eq_left hs.le, charAt_length, if_neg (by decide)]
  have hlen : cwd.length + 1 + ('.' :: '/' :: rest).length < MAX_PATH →
      (cwd ++ '/' :: '.' :: '/' :: rest).length < MAX_PATH := by
    intro hfits
    rw [List.length_append, List.length_cons]
    omega
  have hjoin := join_map_eq_some_iff (f := fun results : CString =>
    if charAt results (strnlen results MAX_PATH) = '/' then
      results.take (strnlen results MAX_PATH)
    else results) (b := r) (t := '.' :: '/' :: rest) '/' hroom
  rw [toAbsolutePath, Option.bind_eq_some_iff]
  constructor
  · rintro ⟨x, hx, h⟩
    obtain ⟨_, rfl⟩ := (hhandle x).mp hx
    dsimp only at h
    rw [if_pos (by simp)] at h
    obtain ⟨hfits, rfl⟩ := hjoin.mp h
    exact ⟨hfits, (hcut _ (hlen hfits)).symm⟩
  · rintro ⟨hfits, rfl⟩
    refine ⟨_, (hhandle _).mpr ⟨hrest hfits, rfl⟩, ?_⟩
    dsimp only
    rw [if_pos (by simp)]
    exact hjoin.mpr ⟨hfits, hcut _ (hlen hfits)⟩

end Kinds

/-! ## 4. The theorem -/

/-- **When the result is an absolute path that names the same file and fits its array.** These are
the three things a caller of `to_absolute_path` wants of it.  The condition lists the paths that the
function handles: those that are absolute already, and those that begin with `./` and fit together
with the directory; none of them, but for `/` itself, may end in a slash, which the function is
meant to remove and does not. -/
theorem makes_absolute_iff {path cwd : CString} (hcwd : IsAbsolute cwd)
    (hdir : cwd.length < MAX_PATH) (hpath : path.length < MAX_PATH) :
    (∃ result, toAbsolutePath path cwd = some result ∧ MakesAbsolute path cwd result) ↔
      Handled path cwd ∧ (path.getLast? = some '/' → path = ['/']) := by
  by_cases habs : IsAbsolute path
  · obtain ⟨rest, rfl⟩ : ∃ rest, path = '/' :: rest := List.head?_eq_some_iff.mp habs
    rw [toAbsolutePath_absolute hpath]
    constructor
    · rintro ⟨_, ⟨⟩, h⟩
      exact ⟨Or.inl habs, h.noSlash⟩
    · rintro ⟨_, hslash⟩
      exact ⟨_, rfl, habs, fun T here dir _ => resolve_of_isAbsolute habs here dir, hslash⟩
  by_cases hdot : ['.', '/'] <+: path
  · obtain ⟨rest, rfl⟩ : ∃ rest, '.' :: '/' :: rest = path := hdot
    have hlast : (cwd ++ '/' :: '.' :: '/' :: rest).getLast? =
        ('.' :: '/' :: rest).getLast? := by
      rw [List.getLast?_append_of_ne_nil _ (List.cons_ne_nil _ _), List.getLast?_cons_cons]
    constructor
    · rintro ⟨result, hresult, h⟩
      obtain ⟨hfits, rfl⟩ := (toAbsolutePath_dot_iff hdir).mp hresult
      refine ⟨Or.inr ⟨⟨rest, rfl⟩, hfits⟩, fun hslash => ?_⟩
      have hroot := congrArg List.length (h.noSlash (hlast.trans hslash))
      simp only [List.length_append, List.length_cons, List.length_nil] at hroot
      omega
    · rintro ⟨hhandled, hslash⟩
      obtain ⟨_, hfits⟩ := hhandled.resolve_left habs
      refine ⟨_, (toAbsolutePath_dot_iff hdir).mpr ⟨hfits, rfl⟩, ?_⟩
      refine ⟨isAbsolute_append hcwd _, ?_, ?_⟩
      · exact fun T here dir hd => resolve_append_slash hcwd hd (List.cons_ne_nil _ _) habs here
      · intro h
        exact absurd (hslash (hlast.symm.trans h)) (by simp)
  · refine iff_of_false ?_ (fun h => ?_)
    · rintro ⟨result, hresult, h⟩
      exact toAbsolutePath_bare habs hdot hresult h.absolute
    · rcases h.1 with h | h
      · exact habs h
      · exact hdot h.1

/-- `./a` in `/home`. -/
theorem makes_absolute_home : ∃ result, toAbsolutePath "./a".toList "/home".toList = some result ∧
    MakesAbsolute "./a".toList "/home".toList result :=
  (makes_absolute_iff (by decide) (by decide) (by decide)).mpr
    ⟨Or.inr ⟨by decide, by decide⟩, by decide⟩

/-- `foo` stays as it is, `./a/` keeps its slash, and two strings of 49 and 50 bytes do not fit. -/
theorem paths_not_absolute :
    (toAbsolutePath "foo".toList "/home".toList = some "foo".toList ∧
      ¬ MakesAbsolute "foo".toList "/home".toList "foo".toList) ∧
    (toAbsolutePath "./a/".toList "/home".toList = some "/home/./a/".toList ∧
      ¬ MakesAbsolute "./a/".toList "/home".toList "/home/./a/".toList) ∧
    toAbsolutePath ('.' :: '/' :: List.replicate 48 'a') ('/' :: List.replicate 48 'd') = none := by
  refine ⟨⟨by decide, fun h => ?_⟩, ⟨by decide, fun h => ?_⟩, by decide +kernel⟩
  · exact absurd h.absolute (by decide)
  · exact absurd (h.noSlash (by decide)) (by decide)

end Osexp.Seush
