/-
# What is in a file that output was redirected to

`handle_redirection` opens the file with `O_WRONLY | O_CREAT`: one that is not there is created, and
one that is there keeps its contents.  `run_process` puts the open file on descriptors 1 and 2, so
both streams write through one position, and nothing a command writes is lost or out of order.  But
where the old contents are longer, their end stays behind the output.

`output_exact_iff`: the file is left with exactly the output when its old contents were no longer.

What a command writes is any sequence of writes on its two streams, and the file is whatever it was
before.  So the result is about every program, and covers the two cases that look different in a
shell: the command on its own, and the last stage of a pipeline or any other one.  It rests on
`entry_streams` for where the two streams go, and on `Osexp.Lib.OpenFiles` for what the writes
leave.
-/
import Osexp.Lib.OpenFiles
import Osexp.Seush.Operators

namespace Osexp.Seush

open OpenFiles

variable {w : World}

/-! ## 1. Writing through descriptors -/

/-- The files, by the names the shell opens them under, and the positions of the open files, by
their numbers. -/
abbrev Files := Disk CString Nat UInt8

/-- `write(fd, bytes, ..)` in a process with these descriptors.  Only what is written to a file is
followed further. -/
def writeFd (fds : FdTable OpenFile) (fd : Nat) (bytes : List UInt8) (d : Files) : Files :=
  match fds.get fd with
  | some (.opened n name true) => d.write name n bytes
  | _ => d

/-- The writes of a process: each with the descriptor it is made to, in the order they are made. -/
def runWrites (fds : FdTable OpenFile) (writes : List (Nat × List UInt8)) (d : Files) : Files :=
  writes.foldl (fun d x => writeFd fds x.1 x.2 d) d

/-- What has been written, in order. -/
def output (writes : List (Nat × List UInt8)) : List UInt8 := (writes.map Prod.snd).flatten

/-- Writes to descriptors that share one open file are writes to that file. -/
theorem runWrites_shared {fds : FdTable OpenFile} {n : Nat} {name : CString} :
    ∀ {writes : List (Nat × List UInt8)} {d : Files},
      (∀ x ∈ writes, fds.get x.1 = some (.opened n name true)) →
      runWrites fds writes d = (writes.map Prod.snd).foldl (fun d bytes => d.write name n bytes) d
  | [], _, _ => rfl
  | (fd, bytes) :: writes, d, h => by
    obtain ⟨hfirst, hrest⟩ := List.forall_mem_cons.mp h
    have hwrite : writeFd fds fd bytes d = d.write name n bytes := by
      rw [writeFd, hfirst]
    rw [List.map_cons, List.foldl_cons, ← hwrite]
    exact runWrites_shared hrest

/-! ## 2. A command with `>` -/

/-- The output streams of a program that is started for a text with a `>`. -/
theorem Starts.output_streams {s : Shell w} {text seg : CString} {e : Exec w} (h : Starts s text e)
    (hclean : Cleaned text) (hone : OneEach text) (hop : ('>', seg) ∈ operators text) :
    e.fds.get STDOUT_FILENO = some (.opened s.fresh (fileName seg) true) ∧
      e.fds.get STDERR_FILENO = some (.opened s.fresh (fileName seg) true) := by
  obtain ⟨hover, p, t, u, o, dir, hopen, hu, hrun⟩ :=
    h.reading hclean (hclean.beginsCommand_iff.mp hone.begins)
  have hr := readCommand_consistent (hclean.one_reading hone.begins hover (fun _ => [])).1
  exact entry_output hr hopen hu hrun (hone.file hop)

/-- **The contents of the file when the command is done**: the output, and behind it what the file
had there before.  The two parts are told apart by nothing, so a reader of the file takes both for
the output. -/
theorem content_after {s : Shell w} {text seg : CString} {e : Exec w} (h : Starts s text e)
    (hclean : Cleaned text) (hone : OneEach text) (hop : ('>', seg) ∈ operators text) (d : Files)
    {writes : List (Nat × List UInt8)}
    (hfd : ∀ x ∈ writes, x.1 = STDOUT_FILENO ∨ x.1 = STDERR_FILENO) :
    (runWrites e.fds writes (d.openWrite (fileName seg) s.fresh)).content (fileName seg) =
      some (writeAt ((d.content (fileName seg)).getD []) 0 (output writes)) := by
  obtain ⟨hstdout, hstderr⟩ := h.output_streams hclean hone hop
  have hshared : ∀ x ∈ writes, e.fds.get x.1 = some (.opened s.fresh (fileName seg) true) := by
    intro x hx
    rcases hfd x hx with hfd | hfd
    · rw [hfd, hstdout]
    · rw [hfd, hstderr]
  rw [runWrites_shared hshared, Disk.content_openWrite_writes, output]

/-- **When the file has exactly the output.** `s` is the shell in which the file is opened, as the
open file with the next number; the command is alone, or any stage of a pipeline.  Nothing is lost
and the two streams keep their order, for every sequence of writes; but `O_TRUNC` is missing, so a
file that was longer keeps its end, and a reader cannot tell where the output stops. -/
theorem output_exact_iff {w : World} {s : Shell w} {t seg : CString} {e : Exec w}
    (h : Starts s (clean t) e) (hone : OneEach (clean t))
    (hop : ('>', seg) ∈ operators (clean t)) (d : Files) {writes : List (Nat × List UInt8)}
    (hfd : ∀ x ∈ writes, x.1 = STDOUT_FILENO ∨ x.1 = STDERR_FILENO) :
    (runWrites e.fds writes (d.openWrite (fileName seg) s.fresh)).content (fileName seg) =
        some (output writes) ↔
      ((d.content (fileName seg)).getD []).length ≤ (output writes).length := by
  rw [content_after h (cleaned_clean t) hone hop d hfd, Option.some_inj, writeAt_zero_eq_iff]

/-- `echo > f` as a command. -/
theorem echo_starts : ∃ e : Exec permissive, Starts (Shell.start ()) (clean "echo > f".toList) e := by
  have hread : readCommand (clean "echo > f".toList) (fun _ => []) =
      .ok ⟨.rediOut, ["echo".toList], some "f".toList, none⟩ := by decide +kernel
  obtain ⟨_, _, e, _, _, hstarts⟩ :=
    permissive_starts (Shell.start ()) rootSession.env hread (by decide) (by decide)
  exact ⟨e, hstarts⟩

theorem echo_oneEach : OneEach (clean "echo > f".toList) := by
  have hcommand : command (clean "echo > f".toList) = "echo ".toList := by decide +kernel
  have hops : operators (clean "echo > f".toList) = [('>', " f".toList)] := by decide +kernel
  refine ⟨⟨'e', by decide +kernel, by decide, by decide⟩, ?_, ?_, ?_⟩
  · rw [hcommand]
    exact List.forall_mem_nil _
  · rw [hops]
    decide
  · rw [hops, List.forall_mem_singleton]
    exact ⟨by decide, List.forall_mem_nil _⟩

/-- Files of which only `f` exists. -/
def onlyF (old : Option (List UInt8)) : Files where
  content := fun name => if name = "f".toList then old else none
  position := fun _ => 0

/-- `hi` on both streams, to a file that was not there. -/
theorem output_exact_new : ∃ e : Exec permissive,
    Starts (Shell.start ()) (clean "echo > f".toList) e ∧
      (runWrites e.fds [(STDOUT_FILENO, [104]), (STDERR_FILENO, [105])]
        ((onlyF none).openWrite "f".toList 0)).content "f".toList = some [104, 105] := by
  obtain ⟨e, he⟩ := echo_starts
  have hop : ('>', " f".toList) ∈ operators (clean "echo > f".toList) := by decide +kernel
  exact ⟨e, he, (output_exact_iff he echo_oneEach hop (onlyF none) (by decide)).mpr (by decide)⟩

/-- `hi` to a file that had `old`: the `d` stays behind it. -/
theorem old_content_survives : ∃ e : Exec permissive,
    Starts (Shell.start ()) (clean "echo > f".toList) e ∧
      (runWrites e.fds [(STDOUT_FILENO, [104, 105])]
        ((onlyF (some [111, 108, 100])).openWrite "f".toList 0)).content "f".toList =
          some [104, 105, 100] ∧
      ¬ (runWrites e.fds [(STDOUT_FILENO, [104, 105])]
        ((onlyF (some [111, 108, 100])).openWrite "f".toList 0)).content "f".toList =
          some (output [(STDOUT_FILENO, [104, 105])]) := by
  obtain ⟨e, he⟩ := echo_starts
  have hop : ('>', " f".toList) ∈ operators (clean "echo > f".toList) := by decide +kernel
  have hcontent : (runWrites e.fds [(STDOUT_FILENO, [104, 105])]
      ((onlyF (some [111, 108, 100])).openWrite "f".toList 0)).content "f".toList =
        some [104, 105, 100] :=
    content_after he (cleaned_clean _) echo_oneEach hop _ (by decide)
  refine ⟨e, he, hcontent, ?_⟩
  rw [hcontent]
  decide

end Osexp.Seush
