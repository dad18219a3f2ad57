/-
# The batch mode: `run_shell` on a file

`getNextLine` reads the batch file with `getline`, through a buffer of the shell's own, while the
position in the file is shared with every child that the shell forks.  A child whose program does
not start leaves through `exit`, which gives its copy of the buffer back to the file.

A user of the batch mode expects that the lines of the file are run once each, in order, up to the
first `exit` (`InOrder`), and it is hard to see from the outside when they are not: a script may run
twice, or from the middle of a line, because of one misspelled command.  `turn` is one turn of the
main loop and `handed` the lines that the loop hands to its dispatch before it ends.
`batch_in_order` says when they are in order: what is given back must be empty, or hold the line
`exit` itself, so that the shell never reads on from the position that has been moved (`turnsOk`).

Not every child that calls `exit` is one whose program does not start.  A stage of a pipeline whose
text overruns a buffer of `handle_redirection` goes on from there with what it has overwritten, and
may get to a call of `exit` as well; whether it does is given from outside (`strayExits`).

The invariant is one equation, `throughExit (lines rest)`: what the reader would read if nobody
moved the position any more, cut at the first `exit`, is what has to be handed on.  Conversely
every letter given back is a letter too many, which a file without `exit` cannot hide.
-/
import Osexp.Lib.BufferedFile
import Osexp.Seush.Loop

namespace Osexp.Seush

open BufferedFile

variable {w : World}

/-! ## 1. The loop -/

/-- A forked child that leaves through `exit`. -/
def Event.childExits : Event w → Bool
  | .fork c => c.exits
  | _ => false

/-- A forked child that has written outside an array. -/
def Event.childStrays : Event w → Bool
  | .fork c => c.strays
  | _ => false

/-- How many children came to a call of `exit` from the first state to the second: those that leave
the program by one, and the strays that get to one. -/
def exitsBetween (o : LineOutcome) (s t : Shell w) : Nat :=
  (t.trace.drop s.trace.length).countP Event.childExits +
    min o.strayExits ((t.trace.drop s.trace.length).countP Event.childStrays)

/-- `batchFile = fopen(batch, "r")`: the stream has a descriptor, which stays open in the shell and
in every child. -/
def Shell.fopen (s : Shell w) : Shell w :=
  { s with fds := s.fds.alloc .batchFile, numbered := s.numbered.alloc trivial }

/-- The shell in batch mode: what the main loop carries, and `batchFile`. -/
structure Batch (w : World) where
  session : Session w
  reader : Reader Char

/-- The batch file has just been opened. -/
def Batch.start (s : Session w) (file : List Char) : Batch w :=
  ⟨{ s with shell := s.shell.fopen }, .start file⟩

/-- How a turn of the main loop ends: by `break`, by a fault, by the `exit` command, or at the
head of the loop. -/
inductive Turn (w : World)
  | ended
  | left (f : Fault)
  | exit (line : CString)
  | next (line : CString) (b : Batch w)

/-- One turn of the main loop, with blocks of `B` bytes.  All children of a line have been waited
for when it returns. -/
def turn (B : Nat) (o : LineOutcome) (b : Batch w) : Turn w :=
  match readLine B '\n' b.reader with
  | none => .ended
  | some (line, reader) =>
    if line.head? = some '\x00' then .ended
    else
      match runLine o line b.session with
      | .error f => .left f
      | .ok none => .exit line
      | .ok (some s) => .next line ⟨s, reader.giveBack (exitsBetween o b.session.shell s.shell)⟩

/-- The lines handed to the dispatch from turn number `i` on, when the loop ends within `n` turns
and not by a fault. -/
def handed (B : Nat) (o : Nat → LineOutcome) : Nat → Nat → Batch w → Option (List CString)
  | 0, _, _ => none
  | n + 1, i, b =>
    match turn B (o i) b with
    | .ended => some []
    | .left _ => none
    | .exit line => some [line]
    | .next line b' => (handed B o n (i + 1) b').map (line :: ·)

/-- The lines up to and including the first `exit`. -/
def throughExit : List CString → List CString
  | [] => []
  | line :: more => if dispatch (clean line) = .exit then [line] else line :: throughExit more

/-- The loop hands on each line up to the first `exit` once, in order, and ends. -/
def InOrder (B : Nat) (o : Nat → LineOutcome) (s : Session w) (file : List Char) : Prop :=
  ∃ n, handed B o n 0 (.start s file) = some (throughExit (lines '\n' file))

/-! ## 2. The turns that do no harm -/

/-- A whole line of the text is `exit`. -/
def exitWithin (text : List Char) : Bool :=
  (lines '\n' text).any fun line => line.contains '\n' && dispatch (clean line) == .exit

/-- The line does not begin with a NUL, the shell does not leave the program text while it runs it,
and if a child comes to a call of `exit` (also one that has strayed from the text before) then the
buffer is empty or the shell stops within it. -/
def turnOk (B : Nat) (o : LineOutcome) (b : Batch w) : Bool :=
  match readLine B '\n' b.reader with
  | none => true
  | some (line, reader) =>
    line.head? != some '\x00' &&
      match runLine o line b.session with
      | .error _ => false
      | .ok none => true
      | .ok (some s) =>
        exitsBetween o b.session.shell s.shell == 0 || reader.buffer.isEmpty ||
          exitWithin reader.buffer

/-- The next `n` turns do no harm. -/
def turnsOk (B : Nat) (o : Nat → LineOutcome) : Nat → Nat → Batch w → Bool
  | 0, _, _ => true
  | n + 1, i, b =>
    turnOk B (o i) b &&
      match turn B (o i) b with
      | .next _ b' => turnsOk B o n (i + 1) b'
      | _ => true

/-- No turn does any harm, as far as the lines of the file go. -/
def allTurnsOk (B : Nat) (o : Nat → LineOutcome) (s : Session w) (file : List Char) : Bool :=
  turnsOk B o ((throughExit (lines '\n' file)).length + 1) 0 (.start s file)

/-! ## 3. Lines through the first `exit` -/

theorem exitWithin_append_cons {l t : List Char} (hl : '\n' ∉ l) :
    exitWithin (l ++ '\n' :: t) =
      (dispatch (clean (l ++ ['\n'])) == .exit || exitWithin t) := by
  unfold exitWithin
  rw [lines_append_cons hl, List.any_cons]
  simp

theorem exitWithin_of_notMem {l : List Char} (hl : '\n' ∉ l) : exitWithin l = false := by
  unfold exitWithin
  rcases eq_or_ne l [] with rfl | hne
  · rfl
  · rw [lines_of_notMem hl hne]
    simp [hl]

/-- A text that holds the line `exit` decides what is handed on, whatever follows it. -/
theorem throughExit_append {t : List Char} (u : List Char) (h : exitWithin t = true) :
    throughExit (lines '\n' (t ++ u)) = throughExit (lines '\n' t) := by
  induction hn : t.length using Nat.strongRecOn generalizing t with
  | _ n ih =>
    rcases lines_cases '\n' t with hno | ⟨l, t', hl, rfl, hlines⟩
    · rw [exitWithin_of_notMem hno] at h
      cases h
    · rw [exitWithin_append_cons hl] at h
      rw [List.append_assoc, List.cons_append, lines_append_cons hl, hlines, throughExit,
        throughExit]
      split
      · rfl
      · rename_i hexit
        have hwithin : exitWithin t' = true := by simpa [hexit] using h
        have hlt : t'.length < n := by
          rw [← hn, List.length_append, List.length_cons]
          omega
        rw [ih _ hlt hwithin rfl]

theorem throughExit_of_noExit {ls : List CString}
    (h : ∀ line ∈ ls, dispatch (clean line) ≠ .exit) : throughExit ls = ls := by
  induction ls with
  | nil => rfl
  | cons line ls ih =>
    obtain ⟨hline, hls⟩ := List.forall_mem_cons.mp h
    rw [throughExit, if_neg hline, ih hls]

/-! ## 4. Turns that do no harm keep the order -/

section Turn

variable {B : Nat} {o : LineOutcome} {b : Batch w} {line : CString} {r : Reader Char}

theorem turn_ended (h : readLine B '\n' b.reader = none) : turn B o b = .ended := by
  rw [turn, h]

/-- A turn on a line that does not begin with NUL. -/
theorem turn_read (h : readLine B '\n' b.reader = some (line, r))
    (hnul : line.head? ≠ some '\x00') :
    turn B o b = match runLine o line b.session with
      | .error f => .left f
      | .ok none => .exit line
      | .ok (some s) => .next line ⟨s, r.giveBack (exitsBetween o b.session.shell s.shell)⟩ := by
  rw [turn, h]
  dsimp only
  rw [if_neg hnul]

end Turn

/-- **What is given back by a turn that does no harm changes nothing**: of the lines to come up to
the first `exit`.  If anything is given back, the shell has an `exit` in its buffer, and stops there
before it reads the file again. -/
theorem throughExit_giveBack {r : Reader Char} {k : Nat}
    (h : (k == 0 || r.buffer.isEmpty || exitWithin r.buffer) = true) :
    throughExit (lines '\n' (r.giveBack k).rest) = throughExit (lines '\n' r.rest) := by
  rw [Bool.or_eq_true, Bool.or_eq_true] at h
  rcases h with (hk | hempty) | hexit
  · rw [eq_of_beq hk]
    rfl
  · rw [giveBack_of_empty (List.isEmpty_iff.mp hempty)]
  · obtain ⟨_, hbuffer, _⟩ := giveBack_frame k r
    rw [Reader.rest, Reader.rest, hbuffer, throughExit_append _ hexit, throughExit_append _ hexit]

/-- **The order is kept**, by induction on the lines still to be handed on.  What has to be handed
on is the same before and behind each of them. -/
theorem handed_of_turnsOk {B : Nat} (hB : 0 < B) {o : Nat → LineOutcome} (ls : List CString) :
    ∀ (i : Nat) (b : Batch w), b.reader.offset ≤ b.reader.file.length →
      throughExit (lines '\n' b.reader.rest) = ls → turnsOk B o (ls.length + 1) i b = true →
      handed B o (ls.length + 1) i b = some ls := by
  induction ls with
  | nil =>
    intro i b hin hls _
    have hrest : lines '\n' b.reader.rest = [] := by
      cases hl : lines '\n' b.reader.rest with
      | nil => rfl
      | cons l more =>
        rw [hl, throughExit] at hls
        split at hls <;> cases hls
    have hnone : readLine B '\n' b.reader = none :=
      (readLine_eq_none_iff hB hin).mpr (lines_eq_nil_iff.mp hrest)
    rw [handed, turn_ended hnone]
  | cons l ls ih =>
    intro i b hin hls hok
    cases hread : readLine B '\n' b.reader with
    | none =>
      rw [(readLine_eq_none_iff hB hin).mp hread] at hls
      cases hls
    | some lr =>
      obtain ⟨line, r⟩ := lr
      obtain ⟨hlines, hfile, hin', _⟩ := readLine_some hB hin hread
      rw [hlines, throughExit] at hls
      rw [turnsOk, Bool.and_eq_true, turnOk, hread] at hok
      obtain ⟨hturn, hnext⟩ := hok
      rw [Bool.and_eq_true, bne_iff_ne] at hturn
      obtain ⟨hnul, hrun⟩ := hturn
      rw [turn_read hread hnul] at hnext
      rw [handed, turn_read hread hnul]
      cases hres : runLine (o i) line b.session with
      | error f =>
        rw [hres] at hrun
        cases hrun
      | ok s? =>
        rw [hres] at hrun hnext
        cases s? with
        | none =>
          rw [if_pos (runLine_eq_none_iff.mp hres)] at hls
          rw [← hls]
        | some s =>
          have hexit : dispatch (clean line) ≠ .exit := by
            intro he
            rw [runLine_eq_none_iff.mpr he] at hres
            cases hres
          rw [if_neg hexit] at hls
          obtain ⟨rfl, htail⟩ := List.cons.inj hls
          dsimp only at hrun hnext ⊢
          rw [List.length_cons] at hnext ⊢
          rw [ih (i + 1) _ (giveBack_within hin' _) ((throughExit_giveBack hrun).trans htail) hnext]
          rfl

/-! ## 5. Letters given back are letters too many -/

/-- The letters that a reader can meet are those of its buffer and those of the file. -/
structure NoNul (r : Reader Char) : Prop where
  buffer : ∀ c ∈ r.buffer, c ≠ '\x00'
  file : ∀ c ∈ r.file, c ≠ '\x00'

theorem NoNul.rest {r : Reader Char} (h : NoNul r) : ∀ c ∈ r.rest, c ≠ '\x00' := by
  intro c hc
  rcases List.mem_append.mp hc with hc | hc
  · exact h.buffer c hc
  · exact h.file c (List.mem_of_mem_drop hc)

/-- What a line read and the rest after it are made of. -/
theorem rest_of_lines {r r' : Reader Char} {line : List Char}
    (h : lines '\n' r.rest = line :: lines '\n' r'.rest) : r.rest = line ++ r'.rest := by
  have hflat := congrArg List.flatten h
  rw [List.flatten_cons, flatten_lines, flatten_lines] at hflat
  exact hflat

theorem NoNul.giveBack {r : Reader Char} (h : NoNul r) (n : Nat) : NoNul (r.giveBack n) := by
  obtain ⟨hfile, hbuffer, _⟩ := giveBack_frame n r
  exact ⟨hbuffer ▸ h.buffer, hfile ▸ h.file⟩

/-- A line of letters that are no NUL, and the reader after it. -/
theorem NoNul.read {r r' : Reader Char} {line : List Char} (h : NoNul r)
    (hrest : r.rest = line ++ r'.rest) (hfile : r'.file = r.file) :
    line.head? ≠ some '\x00' ∧ NoNul r' := by
  constructor
  · intro hhead
    have hmem : '\x00' ∈ r.rest := hrest ▸ List.mem_append_left _ (List.mem_of_head? hhead)
    exact h.rest _ hmem rfl
  · refine ⟨?_, hfile ▸ h.file⟩
    intro c hc
    exact h.rest c (hrest ▸ List.mem_append_right _ (List.mem_append_left _ hc))

/-- **A loop that ends without `exit` has handed on at least what was to be read**, and no more
than that only when no turn did any harm: by induction on the turns. -/
theorem length_handed {B : Nat} (hB : 0 < B) {o : Nat → LineOutcome} (n : Nat) :
    ∀ (i : Nat) (b : Batch w) (ls : List CString), b.reader.offset ≤ b.reader.file.length →
      NoNul b.reader → handed B o n i b = some ls →
      (∀ line ∈ ls, dispatch (clean line) ≠ .exit) →
      b.reader.rest.length ≤ ls.flatten.length ∧
        (ls.flatten.length = b.reader.rest.length → b.reader.Filled →
          ∀ m, turnsOk B o m i b = true) := by
  induction n with
  | zero =>
    intro i b ls _ _ h _
    cases h
  | succ n ih =>
    intro i b ls hin hnul h hexit
    rw [handed] at h
    cases hread : readLine B '\n' b.reader with
    | none =>
      rw [(readLine_eq_none_iff hB hin).mp hread]
      refine ⟨Nat.zero_le _, ?_⟩
      intro _ _ m
      cases m with
      | zero => rfl
      | succ m =>
        rw [turnsOk, turn_ended hread, turnOk, hread]
        rfl
    | some lr =>
      obtain ⟨line, r⟩ := lr
      obtain ⟨hlines, hfile, hin', hfilled⟩ := readLine_some hB hin hread
      have hrest := rest_of_lines hlines
      obtain ⟨hlineNul, hrNul⟩ := hnul.read hrest hfile
      have hturn := turn_read (o := o i) hread hlineNul
      cases hres : runLine (o i) line b.session with
      | error f =>
        rw [hturn, hres] at h
        cases h
      | ok s? =>
        cases s? with
        | none =>
          rw [hturn, hres] at h
          cases h
          exact absurd (runLine_eq_none_iff.mp hres) (hexit line List.mem_cons_self)
        | some s =>
          let k := exitsBetween (o i) b.session.shell s.shell
          rw [hres] at hturn
          rw [hturn] at h
          obtain ⟨ls', hls', rfl⟩ := Option.map_eq_some_iff.mp h
          obtain ⟨hle, heq⟩ := ih (i + 1) ⟨s, r.giveBack k⟩ ls' (giveBack_within hin' k)
            (hrNul.giveBack k) hls' (fun l hl => hexit l (List.mem_cons_of_mem _ hl))
          have hmore := (length_rest_giveBack k r).1
          have hlen : b.reader.rest.length = line.length + r.rest.length := by
            rw [hrest, List.length_append]
          rw [List.flatten_cons, List.length_append]
          dsimp only at hle heq
          refine ⟨by omega, ?_⟩
          intro htotal hfill m
          have hr := hfilled hfill
          have hsame : k = 0 ∨ r.buffer = [] := eq_zero_or_empty_of_length hr (by omega)
          have hback : r.giveBack k = r := giveBack_eq hsame
          have hnext := heq (by rw [hback]; omega) (by rw [hback]; exact hr)
          cases m with
          | zero => rfl
          | succ m =>
            rw [turnsOk, hturn, turnOk, hread]
            dsimp only
            rw [hnext m, hres, Bool.and_true, Bool.and_eq_true, bne_iff_ne]
            refine ⟨hlineNul, ?_⟩
            dsimp only
            rw [Bool.or_eq_true, Bool.or_eq_true]
            rcases hsame with hk | hempty
            · exact Or.inl (Or.inl (beq_iff_eq.mpr hk))
            · exact Or.inl (Or.inr (List.isEmpty_iff.mpr hempty))

end Osexp.Seush
