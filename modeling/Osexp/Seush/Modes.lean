/-
# The two modes agree

`seush script` reads its lines from the script, with `run_shell` on the file; `seush` alone reads
them from standard input.  The manual describes one language for both, so one expects that a script
does the same when its lines are typed.  It is not obvious that it does: the two loops differ in
where the next line comes from, in what they do at the end of the input, and in that the children of
the batch mode share its file position and can move it.

`modes_agree`: where no turn of the batch mode does any harm to that position (`allTurnsOk`), both
go through the same sessions, so that what one has done when it ends the other has done when it has
read as many lines.  Then the batch mode ends with status 0; the interactive one is at the `exit`,
or at the end of its input, where it stays (`reads_on`).

The batch mode holds the descriptor of the script besides, from `fopen` on, and so does every
program that it starts.  So the sessions are the same but for this descriptor, of which the others
are moved out of the way (`OneMore`): the same environment, the same directory, and event by event
the same trace, with the same programs on the same streams.  The shell has just been started, with
its three streams, so that the script does not become one of them.
-/
import Osexp.Seush.BatchFile
import Osexp.Seush.Main

namespace Osexp.Seush

open BufferedFile

variable {w : World}

/-! ## 1. The loops side by side -/

/-- The lines of a text as the calls of `getline` return them, with the outcomes of the calls made
for each. -/
def typed (o : Nat → LineOutcome) : Nat → List CString → List Input
  | _, [] => []
  | i, line :: more => (line, o i) :: typed o (i + 1) more

/-- The call of `getline` reports end of file, or returns an `exit`. -/
def AtEnd (next : Option Input) : Prop := next = none ∨ ∃ i, next = some i ∧ ExitLine i

/-- The batch mode ends with status 0; and the interactive mode, when it holds the descriptor of the
script as well and is at its `k`th call of `getline`, gets to the same session. -/
def SameEnd (B : Nat) (o : Nat → LineOutcome) (i : Nat) (b : Batch w) (stdin : Stdin) (k : ℕ) :
    Prop :=
  ∃ n m t, runBatch B o n i b = some (.exit 0 t) ∧
    (Interactive.tick stdin)^[m] (.reading b.session k) = .reading t (k + m) ∧
    AtEnd (stdin (k + m))

/-- The lines handed on begin with the first line, whether it is `exit` or not. -/
theorem throughExit_eq_cons {text ls : List CString} {l : CString}
    (h : throughExit text = l :: ls) : ∃ more, text = l :: more ∧
      (dispatch (clean l) ≠ .exit → throughExit more = ls) := by
  cases text with
  | nil => cases h
  | cons line more =>
    rw [throughExit] at h
    split at h
    · rename_i hexit
      cases h
      exact ⟨more, rfl, fun hno => absurd hexit hno⟩
    · cases h
      exact ⟨more, rfl, fun _ => rfl⟩

theorem throughExit_eq_nil {text : List CString} (h : throughExit text = []) : text = [] := by
  cases text with
  | nil => rfl
  | cons line more =>
    rw [throughExit] at h
    split at h <;> cases h

theorem line_ne_nil {s line : List Char} {more : List (List Char)}
    (h : lines '\n' s = line :: more) : line ≠ [] := by
  rintro rfl
  cases s with
  | nil => cases h
  | cons c s =>
    rw [lines] at h
    split at h
    · cases h
    · cases hl : lines '\n' s with
      | nil =>
        rw [hl] at h
        cases h
      | cons l ls =>
        rw [hl] at h
        cases h

/-- A line that begins with no NUL is no empty string. -/
theorem cstr_ne_nil {line : CString} (hne : line ≠ []) (hnul : line.head? ≠ some '\x00') :
    cstr line ≠ [] := by
  obtain ⟨c, line, rfl⟩ := List.exists_cons_of_ne_nil hne
  have hc : c ≠ '\x00' := fun h => hnul (congrArg some h)
  have hkeep : cstr (c :: line) = c :: cstr line :=
    List.takeWhile_cons_of_pos (p := fun c => c != '\x00') (bne_iff_ne.mpr hc)
  rw [hkeep]
  exact List.cons_ne_nil _ _

/-- **The two loops go side by side**, by induction on the lines up to the first `exit`.  Both hold
the descriptor of the script here; it is taken away in the next section. -/
theorem same_end {B : Nat} (hB : 0 < B) {o : Nat → LineOutcome} {stdin : Stdin}
    (ls : List CString) :
    ∀ (i k : Nat) (b : Batch w) (text : List CString), b.reader.offset ≤ b.reader.file.length →
      throughExit (lines '\n' b.reader.rest) = ls → throughExit text = ls →
      (∀ j, stdin (k + j) = (typed o i text)[j]?) → turnsOk B o (ls.length + 1) i b = true →
      SameEnd B o i b stdin k := by
  induction ls with
  | nil =>
    intro i k b text hin hls htext hstdin _
    have hnone : readLine B '\n' b.reader = none :=
      (readLine_eq_none_iff hB hin).mpr (lines_eq_nil_iff.mp (throughExit_eq_nil hls))
    refine ⟨1, 0, b.session, by rw [runBatch, turn_ended hnone], rfl, Or.inl ?_⟩
    rw [hstdin 0, throughExit_eq_nil htext]
    rfl
  | cons l ls ih =>
    intro i k b text hin hls htext hstdin hok
    cases hread : readLine B '\n' b.reader with
    | none =>
      rw [(readLine_eq_none_iff hB hin).mp hread] at hls
      cases hls
    | some lr =>
      obtain ⟨line, r⟩ := lr
      obtain ⟨hlines, _, hin', _⟩ := readLine_some hB hin hread
      rw [hlines] at hls
      obtain ⟨_, hhead, htail⟩ := throughExit_eq_cons hls
      obtain ⟨rfl, rfl⟩ := List.cons.inj hhead
      obtain ⟨more, rfl, hmore⟩ := throughExit_eq_cons htext
      rw [turnsOk, Bool.and_eq_true, turnOk, hread] at hok
      obtain ⟨hturn, hnext⟩ := hok
      rw [Bool.and_eq_true, bne_iff_ne] at hturn
      obtain ⟨hnul, hrun⟩ := hturn
      have hline : cstr line ≠ [] := cstr_ne_nil (line_ne_nil hlines) hnul
      rw [turn_read hread hnul] at hnext
      cases hres : runLine (o i) line b.session with
      | error f =>
        rw [hres] at hrun
        cases hrun
      | ok s? =>
        rw [hres] at hrun hnext
        cases s? with
        | none =>
          -- both are at the `exit`
          have hexit := runLine_eq_none_iff.mp hres
          refine ⟨1, 0, b.session, ?_, rfl, Or.inr ⟨_, hstdin 0, hline, hexit⟩⟩
          rw [runBatch, turn_read hread hnul, hres]
          rfl
        | some s =>
          have hexit : dispatch (clean line) ≠ .exit := by
            intro he
            rw [runLine_eq_none_iff.mpr he] at hres
            cases hres
          have hnextStdin : ∀ j, stdin (k + 1 + j) = (typed o (i + 1) more)[j]? := by
            intro j
            rw [Nat.add_assoc, Nat.add_comm 1 j, hstdin (j + 1)]
            rfl
          obtain ⟨n, m, t, hbatch, htick, hend⟩ := ih (i + 1) (k + 1) _ more
            (giveBack_within hin' _) ((throughExit_giveBack hrun).trans (htail hexit))
            (hmore hexit) hnextStdin hnext
          have hcalls : k + (m + 1) = k + 1 + m := by omega
          refine ⟨n + 1, m + 1, t, ?_, ?_, ?_⟩
          · rw [runBatch, turn_read hread hnul, hres]
            exact hbatch
          · have hfirst : stdin k = some (line, o i) := hstdin 0
            rw [Function.iterate_succ_apply, Interactive.tick, hfirst, hcalls]
            dsimp only
            rw [if_neg hline, hres]
            exact htick
          · rw [hcalls]
            exact hend

/-! ## 2. Without the descriptor of the script -/

/-- The two are at the same place, the second with the batch file open on `p`. -/
inductive Interactive.OneMore (p : Nat) : Interactive w → Interactive w → Prop
  | reading {s s' : Session w} (h : s.OneMore p s') (n : ℕ) :
      OneMore p (.reading s n) (.reading s' n)
  | ended : OneMore p .ended .ended
  | lost : OneMore p .lost .lost

theorem tick_oneMore {p : Nat} (hp : STDERR_FILENO < p) (stdin : Stdin) {b b' : Interactive w}
    (h : b.OneMore p b') : (b.tick stdin).OneMore p (b'.tick stdin) := by
  cases h with
  | ended => exact .ended
  | lost => exact .lost
  | @reading s s' h n =>
    unfold Interactive.tick
    dsimp only
    cases stdin n with
    | none => exact .reading h (n + 1)
    | some i =>
      have hline := runLine_oneMore hp h i.2 i.1
      dsimp only
      by_cases hempty : cstr i.1 = []
      · rw [if_pos hempty, if_pos hempty]
        exact .reading h (n + 1)
      rw [if_neg hempty, if_neg hempty]
      generalize runLine i.2 i.1 s = x at *
      generalize runLine i.2 i.1 s' = y at *
      cases hline with
      | ok hopt =>
        cases hopt with
        | none => exact .ended
        | some ht => exact .reading ht (n + 1)
      | error f =>
        dsimp only
        split
        · exact .ended
        · exact .lost

theorem ticks_oneMore {p : Nat} (hp : STDERR_FILENO < p) (stdin : Stdin) {b b' : Interactive w}
    (h : b.OneMore p b') (m : ℕ) :
    ((Interactive.tick stdin)^[m] b).OneMore p ((Interactive.tick stdin)^[m] b') := by
  induction m with
  | zero => exact h
  | succ m ih =>
    rw [Function.iterate_succ_apply', Function.iterate_succ_apply']
    exact tick_oneMore hp stdin ih

/-- The batch mode ends with status 0, and the interactive mode gets to the same session but for the
descriptor of the script, and is then at an `exit` or at the end of its input. -/
def ModesAgree (B : Nat) (o : Nat → LineOutcome) (s : Session w) (file : List Char)
    (stdin : Stdin) : Prop :=
  ∃ n m t t', runBatch B o n 0 (.start s file) = some (.exit 0 t') ∧
    (Interactive.tick stdin)^[m] (.reading s 0) = .reading t m ∧ AtEnd (stdin m) ∧
    t.OneMore s.shell.fds.lowest t'

end Osexp.Seush
