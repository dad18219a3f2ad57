/-
# The streams of a program that is started

`handle_redirection` opens the files it has read and keeps their descriptors in the entry;
`run_process` puts them on the standard streams with `dup2`, in the order 2, 1, 0.  `entry_streams`
is both together: what descriptors 0, 1 and 2 are at the `execv`.

The input file can be lost on the way.  When two of the standard streams are closed, it is opened on
descriptor 1 or 2, and the `dup2` of the output file closes it (`entry_clobbered`).

A shell has its three streams open as a rule, and then the descriptors of the files are 3 and above,
out of the way of the three `dup2` calls.  But lines may leave the shell without one of them
(`stdin_left_on_pipe`), and a daemon may start it without any.  So it is said here which descriptors
the files get from which table, and what the `dup2` calls make of it in each case; what a command
has been told to read and write is then a matter of these lemmas only.
-/
import Osexp.Seush.Reading
import Osexp.Seush.Pipeline

namespace Osexp.Seush

variable {w : World}

/-! ## 1. Opening -/

theorem openFile_some {name : CString} {write : Bool} {s : Shell w} {k : Nat}
    (h : (s.openFile name write).1 = some k) : k = s.fds.lowest ∧
      (s.openFile name write).2.fds = s.fds.alloc (.opened s.fresh name write) := by
  unfold Shell.openFile at h ⊢
  dsimp only at h ⊢
  split at h
  · rename_i hopens
    cases h
    rw [if_pos hopens]
    exact ⟨rfl, rfl⟩
  · cases h

/-- What `handle_redirection` has done when it returns an entry for a reading. -/
structure Opened (r : Reading) (s : Shell w) (p : Process) (t : Shell w) : Prop where
  redirected : p.redirected = r.redirected
  argv : p.argv = r.argv
  keeps : ∀ k f, s.fds.get k = some f → t.fds.get k = some f
  outfd : ∀ f k, r.outfile = some f → p.rediOutfd = some k →
    k = s.fds.lowest ∧ t.fds.get k = some (.opened s.fresh f true)
  infd : ∀ f k, r.infile = some f → p.rediInfd = some k →
    s.fds.get k = none ∧ ∃ n, t.fds.get k = some (.opened n f false)
  files : (r.outfile = none → p.rediOutfd = none) ∧ (r.infile = none → p.rediInfd = none)
  /-- The input is opened after the output. -/
  order : ∀ f g k k', r.outfile = some f → p.rediOutfd = some k → r.infile = some g →
    p.rediInfd = some k' → k' = (s.fds.alloc (.opened s.fresh f true)).lowest

theorem handleReading_opened {r : Reading} {env : Environment} {s t : Shell w} {p : Process}
    (h : handleReading r env s = .ok (p, t)) : Opened r s p t := by
  unfold handleReading at h
  obtain ⟨q, hq, hp⟩ := map_eq_ok h
  cases hp
  obtain ⟨hargv, hred, hin, hout⟩ := findExec_spec hq
  refine ⟨hred, hargv, ?keeps, ?outfd, ?infd, ?files, ?order⟩
  case keeps =>
    intro k f hk
    cases r.outfile with
    | none =>
      cases r.infile with
      | none => exact hk
      | some g => exact openFile_get g false hk
    | some f =>
      cases r.infile with
      | none => exact openFile_get f true hk
      | some g => exact openFile_get g false (openFile_get f true hk)
  case outfd =>
    intro f k hf hk
    rw [hf] at hout ⊢
    obtain ⟨hlow, hfds⟩ := openFile_some (hout.symm.trans hk)
    refine ⟨hlow, ?_⟩
    have hget : (s.openFile f true).2.fds.get k = some (.opened s.fresh f true) := by
      rw [hfds, hlow]
      exact FdTable.get_alloc_lowest _ _
    cases r.infile with
    | none => exact hget
    | some g => exact openFile_get g false hget
  case infd =>
    intro g k hg hk
    rw [hg] at hin ⊢
    obtain ⟨hlow, hfds⟩ := openFile_some (hin.symm.trans hk)
    refine ⟨?_, _, (congrArg (fun fds => fds.get k) hfds).trans
      ((congrArg _ hlow).trans (FdTable.get_alloc_lowest _ _))⟩
    -- free after the output is opened, so free before
    have hfree := hlow ▸ FdTable.get_lowest _
    cases hf : r.outfile with
    | none =>
      rw [hf] at hfree
      exact hfree
    | some f =>
      rw [hf] at hfree
      cases hget : s.fds.get k with
      | none => rfl
      | some x => exact nomatch hfree.symm.trans (openFile_get f true hget)
  case files =>
    constructor
    · intro hnone
      rw [hout, hnone]
    · intro hnone
      rw [hin, hnone]
  case order =>
    intro f g k k' hf hk hg hk'
    rw [hf] at hout
    rw [hf, hg] at hin
    obtain ⟨_, hfds⟩ := openFile_some (hout.symm.trans hk)
    obtain ⟨hlow, _⟩ := openFile_some (hin.symm.trans hk')
    rw [hlow]
    exact congrArg FdTable.lowest hfds

/-- The descriptors of an entry were free before, and are open. -/
theorem Opened.free {r : Reading} {s t : Shell w} {p : Process} (h : Opened r s p t) {k : Nat}
    (hk : p.rediOutfd = some k ∨ p.rediInfd = some k) :
    s.fds.get k = none ∧ ∃ f, t.fds.get k = some f := by
  rcases hk with hk | hk
  · cases hf : r.outfile with
    | none => exact nomatch (h.files.1 hf).symm.trans hk
    | some f =>
      obtain ⟨hlow, hget⟩ := h.outfd f k hf hk
      exact ⟨hlow ▸ FdTable.get_lowest _, _, hget⟩
  · cases hg : r.infile with
    | none => exact nomatch (h.files.2 hg).symm.trans hk
    | some g =>
      obtain ⟨hfree, _, hget⟩ := h.infd g k hg hk
      exact ⟨hfree, _, hget⟩

/-! ## 2. The `dup2` calls -/

theorem not_pipe (type : RedirectionType) : type.has REDI_PIPE_MASK = false := by
  cases type <;> rfl

/-- The table at the `execv`: the output on 2 and 1, then the input on 0. -/
theorem runProcess_fds {o : RunOutcome} {dir : w.Dir} {p : Process} {u : Shell w} {e : Exec w}
    (h : runProcess o dir p u = .execv e) :
    ∃ fds : FdTable OpenFile,
      (p.redirected.has REDI_OUT_MASK = true → ∃ k f, p.rediOutfd = some k ∧
        u.fds.get k = some f ∧ fds = (u.fds.set STDERR_FILENO f).set STDOUT_FILENO f) ∧
      (p.redirected.has REDI_OUT_MASK = false → fds = u.fds) ∧
      (p.redirected.has REDI_IN_MASK = true → ∃ k f, p.rediInfd = some k ∧
        fds.get k = some f ∧ e.fds = fds.set STDIN_FILENO f) ∧
      (p.redirected.has REDI_IN_MASK = false → e.fds = fds) := by
  obtain ⟨s₁, s₂, s₃, h₁, h₂, h₃, hexec⟩ := runProcess_steps h
  have hfds : e.fds = s₃.fds := by rw [(execv_eq_execv hexec).1]
  rw [hfds]
  refine ⟨s₂.fds, ?out, ?noOut, ?onIn, ?noIn⟩
  case out =>
    intro hhas
    rw [if_pos ⟨hhas, by rw [not_pipe]; exact Bool.false_ne_true⟩] at h₁
    rw [if_pos hhas] at h₂
    obtain ⟨_, k, f, hk, hf, hfds₁, _⟩ := Shell.dup2_eq_some h₁
    obtain ⟨_, k', f', hk', hf', hfds₂, _⟩ := Shell.dup2_eq_some h₂
    obtain rfl : k = k' := Option.some.inj (hk.symm.trans hk')
    have hsame : f' = f := by
      rw [hfds₁, FdTable.get_set] at hf'
      split at hf'
      · exact (Option.some.inj hf').symm
      · exact Option.some.inj (hf'.symm.trans hf)
    exact ⟨k, f, hk, hf, by rw [hfds₂, hfds₁, hsame]⟩
  case noOut =>
    intro hhas
    rw [if_neg (by simp [hhas])] at h₁ h₂
    cases h₁
    cases h₂
    rfl
  case onIn =>
    intro hhas
    rw [if_pos hhas] at h₃
    obtain ⟨_, k, f, hk, hf, hfds₃, _⟩ := Shell.dup2_eq_some h₃
    exact ⟨k, f, hk, hf, hfds₃⟩
  case noIn =>
    intro hhas
    rw [if_neg (by simp [hhas])] at h₃
    cases h₃
    rfl

/-! ## 3. Both together -/

/-- The kind of redirection of a reading says which files it has. -/
structure Reading.Consistent (r : Reading) : Prop where
  out : r.redirected.has REDI_OUT_MASK = r.outfile.isSome
  onIn : r.redirected.has REDI_IN_MASK = r.infile.isSome

theorem readCommand_consistent {text : CString} {b : Scratch} {r : Reading}
    (h : readCommand text b = .ok r) : r.Consistent := by
  obtain ⟨⟨type, c⟩, _, h⟩ := bind_eq_ok h
  dsimp only at h
  split at h
  · cases h
  · cases h
    constructor
    · dsimp only
      split
      · rename_i hhas
        exact hhas
      · rename_i hhas
        simpa using hhas
    · dsimp only
      split
      · rename_i hhas
        exact hhas
      · rename_i hhas
        simpa using hhas

/-- At most one of the three standard streams is closed. -/
def StreamsOpen (s : Shell w) : Prop := ∃ k, ∀ j ≤ STDERR_FILENO, j ≠ k → s.fds.get j ≠ none

/-- Then a second file is opened behind them. -/
theorem lt_second_open {s : Shell w} (hs : StreamsOpen s) (f : OpenFile) :
    STDERR_FILENO < (s.fds.alloc f).lowest := by
  obtain ⟨k, hk⟩ := hs
  by_contra hle
  have hfree := FdTable.get_lowest (s.fds.alloc f)
  rw [FdTable.get_alloc] at hfree
  split at hfree
  · cases hfree
  · rename_i hne
    have hsecond : (s.fds.alloc f).lowest = k := by
      by_contra hother
      exact hk _ (Nat.le_of_not_lt hle) hother hfree
    have hlow : s.fds.lowest < k := by
      rcases Nat.lt_trichotomy s.fds.lowest k with hlt | heq | hgt
      · exact hlt
      · exact absurd (hsecond.trans heq.symm) hne
      · rw [← hsecond] at hgt
        exact absurd hfree (FdTable.get_of_lt_lowest _ hgt)
    rw [hsecond] at hle
    exact hk _ (Nat.le_of_lt (Nat.lt_of_lt_of_le hlow (Nat.le_of_not_lt hle))) (Nat.ne_of_lt hlow)
      (FdTable.get_lowest _)

section Entry

variable {r : Reading} {s t u : Shell w} {p : Process} {o : RunOutcome} {dir : w.Dir} {e : Exec w}

/-- The child still has the descriptors that the entry holds. -/
def KeepsEntry (p : Process) (t u : Shell w) : Prop :=
  ∀ k, p.rediOutfd = some k ∨ p.rediInfd = some k → u.fds.get k = t.fds.get k

/-- **The output file becomes both output streams.** -/
theorem entry_output (hr : r.Consistent) (hopen : Opened r s p t) (hu : KeepsEntry p t u)
    (h : runProcess o dir p u = .execv e) {f : CString} (hf : r.outfile = some f) :
    e.fds.get STDOUT_FILENO = some (.opened s.fresh f true) ∧
      e.fds.get STDERR_FILENO = some (.opened s.fresh f true) := by
  obtain ⟨fds, hout, _, hin, hnoIn⟩ := runProcess_fds h
  rw [hopen.redirected, hr.out, hf] at hout
  rw [hopen.redirected] at hin hnoIn
  obtain ⟨k, g, hk, hg, hfds⟩ := hout rfl
  rw [hu k (Or.inl hk), (hopen.outfd f k hf hk).2] at hg
  cases hg
  -- the `dup2` onto 0 leaves the other two alone
  have hkeep : ∀ j, j ≠ STDIN_FILENO → e.fds.get j = fds.get j := by
    intro j hj
    cases hhas : r.redirected.has REDI_IN_MASK with
    | false => rw [hnoIn hhas]
    | true =>
      obtain ⟨k', g', _, _, he⟩ := hin hhas
      rw [he, FdTable.get_set_ne _ _ hj]
  refine ⟨?_, ?_⟩
  · rw [hkeep _ (by decide), hfds, FdTable.get_set_same]
  · rw [hkeep _ (by decide), hfds, FdTable.get_set_ne _ _ (by decide), FdTable.get_set_same]

/-- **The input file becomes descriptor 0**, if it is not lost on the way. -/
theorem entry_input (hr : r.Consistent) (hopen : Opened r s p t) (hu : KeepsEntry p t u)
    (h : runProcess o dir p u = .execv e) {f : CString} (hf : r.infile = some f)
    (hs : r.outfile = none ∨ StreamsOpen s) :
    ∃ n, e.fds.get STDIN_FILENO = some (.opened n f false) := by
  obtain ⟨fds, hout, hnoOut, hin, _⟩ := runProcess_fds h
  rw [hopen.redirected, hr.onIn, hf] at hin
  rw [hopen.redirected, hr.out] at hout hnoOut
  obtain ⟨k, g, hk, hg, he⟩ := hin rfl
  obtain ⟨_, n, hn⟩ := hopen.infd f k hf hk
  have hkeep : fds.get k = u.fds.get k := by
    cases houtfile : r.outfile with
    | none => rw [hnoOut (by rw [houtfile]; rfl)]
    | some f' =>
      obtain ⟨k', g', hk', _, hfds⟩ := hout (by rw [houtfile]; rfl)
      have hlt := lt_second_open (hs.resolve_left (by simp [houtfile]))
        (.opened s.fresh f' true)
      rw [← hopen.order f' f k' k houtfile hk' hf hk] at hlt
      have hne : k ≠ STDOUT_FILENO := Nat.ne_of_gt (Nat.lt_trans (by decide) hlt)
      rw [hfds, FdTable.get_set_ne _ _ hne, FdTable.get_set_ne _ _ (Nat.ne_of_gt hlt)]
  rw [hkeep, hu k (Or.inr hk), hn] at hg
  cases hg
  exact ⟨n, by rw [he, FdTable.get_set_same]⟩

/-- Without a file a stream stays what it was. -/
theorem entry_unredirected (hr : r.Consistent) (hopen : Opened r s p t)
    (h : runProcess o dir p u = .execv e) :
    (r.outfile = none → e.fds.get STDOUT_FILENO = u.fds.get STDOUT_FILENO) ∧
      (r.infile = none → e.fds.get STDIN_FILENO = u.fds.get STDIN_FILENO) := by
  obtain ⟨fds, hout, hnoOut, hin, hnoIn⟩ := runProcess_fds h
  rw [hopen.redirected] at hout hnoOut hin hnoIn
  refine ⟨?_, ?_⟩
  · intro hnone
    rw [← hnoOut (by rw [hr.out, hnone]; rfl)]
    cases hhas : r.redirected.has REDI_IN_MASK with
    | false => rw [hnoIn hhas]
    | true =>
      obtain ⟨_, _, _, _, he⟩ := hin hhas
      rw [he, FdTable.get_set_ne _ _ (by decide)]
  · intro hnone
    rw [hnoIn (by rw [hr.onIn, hnone]; rfl)]
    cases hhas : r.redirected.has REDI_OUT_MASK with
    | false => rw [hnoOut hhas]
    | true =>
      obtain ⟨_, _, _, _, hfds⟩ := hout hhas
      rw [hfds, FdTable.get_set_ne _ _ (by decide), FdTable.get_set_ne _ _ (by decide)]

/-- **With descriptors 0 and 1 closed the input is lost**: the output file is on 0 too.  This is the
one way in which a redirection that is accepted and opened does not take effect. -/
theorem entry_clobbered (hr : r.Consistent) (hopen : Opened r s p t) (hu : KeepsEntry p t u)
    (h : runProcess o dir p u = .execv e) {f g : CString} (hf : r.outfile = some f)
    (hg : r.infile = some g) (h0 : s.fds.get STDIN_FILENO = none)
    (h1 : s.fds.get STDOUT_FILENO = none) :
    e.fds.get STDIN_FILENO = some (.opened s.fresh f true) := by
  obtain ⟨fds, hout, _, hin, _⟩ := runProcess_fds h
  rw [hopen.redirected, hr.out, hf] at hout
  rw [hopen.redirected, hr.onIn, hg] at hin
  obtain ⟨k, f', hk, hf', hfds⟩ := hout rfl
  obtain ⟨k', g', hk', hg', he⟩ := hin rfl
  rw [hu k (Or.inl hk), (hopen.outfd f k hf hk).2] at hf'
  cases hf'
  have hlow : s.fds.lowest = STDIN_FILENO := FdTable.lowest_eq_zero h0
  have hsecond : k' = STDOUT_FILENO := by
    rw [hopen.order f g k k' hf hk hg hk']
    refine FdTable.lowest_eq_one ((FdTable.get_alloc _ _ _).trans (if_pos hlow.symm)) ?_
    exact (FdTable.get_alloc _ _ _).trans ((if_neg (by rw [hlow]; decide)).trans h1)
  rw [hsecond, hfds, FdTable.get_set_same] at hg'
  cases hg'
  rw [he, FdTable.get_set_same]

end Entry

end Osexp.Seush
