/-
# `strtok` and `sscanf`, as far as the shell uses them

`strtok` keeps the rest of the text in a hidden pointer; here each call takes that rest and
returns the new one.  The shell never interleaves two uses of it, so nothing else is shared.

`sscanf` is an interpreter of its format: a scan set that takes at least one character, a blank
that skips white space, and a character that must match.  It stops at the first directive that
fails and returns what it has assigned so far, without a bound on the length of an item.

The two are modelled as far as the shell uses them and no further.  For its four formats and its
sets of separators the model is what the standard says, with the white space that a blank in a
format skips and the one character at which a scan set stops; a width would be another directive,
and there is none in the source.
-/
import Osexp.Seush.Structures
import Osexp.Lib.Text

namespace Osexp.Seush

open Text

/-! ## 1. `strtok` -/

/-- One call of `strtok` on what is left of the text: the token and the new rest, or NULL. -/
def strtok (delims : List Char) (s : CString) : Option (CString × CString) :=
  nextToken (fun c => delims.contains c) s

theorem strtok_rest_lt {delims : List Char} {s tok rest : CString}
    (h : strtok delims s = some (tok, rest)) : rest.length < s.length :=
  length_of_nextToken h

/-- With no delimiters the token is the whole rest, NULL when it is empty. -/
theorem strtok_nil (s : CString) : strtok [] s = if s = [] then none else some (s, []) := by
  cases s with
  | nil => rfl
  | cons c s => exact nextToken_of_word (by simp) (by simp)

/-- The loop `token = strtok(s, d); while (token != NULL) { ..; token = strtok(NULL, d); }`. -/
def strtokAll (delims : List Char) (s : CString) : List CString :=
  match _h : strtok delims s with
  | none => []
  | some (tok, rest) => tok :: strtokAll delims rest
termination_by s.length
decreasing_by exact strtok_rest_lt _h

/-- **The loop yields the maximal runs between the delimiters.** -/
theorem strtokAll_eq (delims : List Char) (s : CString) :
    strtokAll delims s = tokens (fun c => delims.contains c) s := by
  induction s using strtokAll.induct delims with
  | case1 s h =>
    rw [strtokAll]
    split
    · exact (tokens_eq_nil_iff.mpr (nextToken_eq_none_iff.mp h)).symm
    · simp_all
  | case2 s tok rest h ih =>
    rw [strtokAll]
    split
    · simp_all
    · rename_i t r h'
      rw [h] at h'
      simp only [Option.some.injEq, Prod.mk.injEq] at h'
      obtain ⟨rfl, rfl⟩ := h'
      rw [ih, tokens_of_nextToken h]

/-- The space-separated words of a text. -/
def spaceWords (s : CString) : List CString := tokens (fun c => c == ' ') s

theorem strtokAll_space (s : CString) : strtokAll [' '] s = spaceWords s := by
  rw [strtokAll_eq, spaceWords]
  refine tokens_congr ?_
  intro c _
  simp only [List.contains_cons, List.contains_nil, Bool.or_false]

/-! ## 2. `sscanf` -/

/-- The directives of the formats in `handle_redirection`: `%[^\t\n<>]`, a blank, a character. -/
inductive Directive
  | scanset
  | blank
  | lit (c : Char)

/-- The characters that `%[^\t\n<>]` takes. -/
def inScanset (c : Char) : Bool := c != '\t' && c != '\n' && c != '<' && c != '>'

/-- White space, which a blank in the format skips. -/
def isSpace (c : Char) : Bool :=
  c == ' ' || c == '\t' || c == '\n' || c == '\x0b' || c == '\x0c' || c == '\r'

/-- The items a format assigns on a text; their number is what `sscanf` returns. -/
def scan : List Directive → CString → List CString
  | [], _ => []
  | .scanset :: ds, s =>
    if (s.takeWhile inScanset).isEmpty then []
    else s.takeWhile inScanset :: scan ds (s.dropWhile inScanset)
  | .blank :: ds, s => scan ds (s.dropWhile isSpace)
  | .lit _ :: _, [] => []
  | .lit c :: ds, x :: s => if x = c then scan ds s else []

/-- `"%[^\t\n<>] a %[^\t\n<>]"`. -/
def format₂ (a : Char) : List Directive := [.scanset, .blank, .lit a, .blank, .scanset]

/-- `"%[^\t\n<>] a %[^\t\n<>] b %[^\t\n<>]"`. -/
def format₃ (a b : Char) : List Directive :=
  format₂ a ++ [.blank, .lit b, .blank, .scanset]

end Osexp.Seush
