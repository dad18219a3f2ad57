/-
# When a pipeline gets stuck

A pipeline seen as a system of processes: the shell, which makes the calls of `handle_pipe` one by
one (`script`), and the stages it has forked, each with descriptors of its own.  Any process that
can take a step may take it.  A pipe holds `cap` bytes; a write to a full pipe and a read from an
empty one have to wait while somebody holds the other end.  A stage makes the calls of the child in
`handle_pipe`, reads its standard input to the end, writes `out i` bytes and exits.

`handlePipe_serial` says that the script is what `handle_pipe` does, and `pipedChild_eq_calls` that
the calls of a stage are those of the child.

The shell waits for each stage before it forks the next, so nobody reads a pipe while it is
written.  `pipeline_neverStuck_iff` draws the consequence: the pipeline never gets stuck exactly
when what each stage but the last writes fits in a pipe.  The invariant is `Inv`; that every step
brings a number down (`Net.weight`) makes every run end.
-/
import Mathlib.Algebra.BigOperators.Group.Finset.Basic
import Mathlib.Algebra.GroupWithZero.Nat
import Osexp.Lib.Progress
import Osexp.Seush.Wiring

namespace Osexp.Seush

variable {w : World}

/-! ## 1. The calls of `handle_pipe` -/

/-- A call on the descriptor table; `fd` is the pair that the last `pipe` filled. -/
inductive Call
  | pipe
  | closeRead
  | closeWrite
  | close (k : Nat)
  | dupRead
  | dupWrite
  | restore
  deriving DecidableEq

/-- The call, when it succeeds. -/
def Call.apply : Call → Shell w → Shell w
  | .pipe, s => (s.pipe true).getD s
  | .closeRead, s => s.close s.fd.1
  | .closeWrite, s => s.close s.fd.2
  | .close k, s => s.close k
  | .dupRead, s => (s.dup true s.fd.1).2
  | .dupWrite, s => (s.dup true s.fd.2).2
  | .restore, s => (s.dup2 true s.saveIn STDIN_FILENO).getD s

/-- Several calls, one after the other. -/
def applyAll (calls : List Call) (s : Shell w) : Shell w :=
  calls.foldl (fun s c => c.apply s) s

/-- The calls of the child of a stage, when `k` stages follow it. -/
def childCalls : Nat → List Call
  | 0 => []
  | _ + 1 => [.closeRead, .close STDOUT_FILENO, .dupWrite, .closeWrite]

/-- The calls of the shell beside that child, before it waits. -/
def parentCalls : Nat → List Call
  | 0 => []
  | _ + 1 => [.closeWrite, .close STDIN_FILENO, .dupRead, .closeRead]

/-- What the shell does: a call, the fork of a child with its calls and the number of bytes its
program writes, or `waitpid(-1, ..)`. -/
inductive Instr
  | call (c : Call)
  | fork (calls : List Call) (output : Nat)
  | waitpid

/-- What is left of `handle_pipe` when `k` stages are still to come, the first of them number
`i`: the code after the `waitpid` of the last stage, or one turn of the recursion and the rest. -/
def script (out : Nat → Nat) : Nat → Nat → List Instr
  | 0, _ => [.call .restore]
  | k + 1, i =>
    .call .pipe :: .fork (childCalls k) (out i) ::
      ((parentCalls k).map .call ++ .waitpid :: script out k (i + 1))

/-! ## 2. The processes -/

/-- How far a stage is. -/
inductive Phase
  | starting (calls : List Call)
  | reading
  | writing (left : Nat)
  | exited
  | reaped

/-- The process still has its descriptors. -/
def Phase.Live : Phase → Prop
  | .exited => False
  | .reaped => False
  | _ => True

/-- A stage that has been forked: its descriptors, how much its program writes, and how far it
is. -/
structure Stage (w : World) where
  proc : Shell w
  output : Nat
  phase : Phase

/-- A pipeline in execution. -/
structure Net (w : World) where
  shell : Shell w
  script : List Instr
  stages : List (Stage w)
  pipes : Nat → Nat

/-- The stage has a descriptor for the file. -/
def Stage.Holds (F : OpenFile) (st : Stage w) : Prop := st.phase.Live ∧ st.proc.fds.Refers F

/-- Some process has a descriptor for the file. -/
def Net.Holds (F : OpenFile) (net : Net w) : Prop :=
  net.shell.fds.Refers F ∨ ∃ st ∈ net.stages, st.Holds F

/-- One step of a stage, with what it does to the pipes.  `held` says which files some process
has a descriptor for; the pipes of the pipeline are numbered from `own`. -/
inductive StageStep (own cap : Nat) (held : OpenFile → Prop) :
    Stage w → (Nat → Nat) → Stage w → (Nat → Nat) → Prop
  | call {proc : Shell w} {output : Nat} {pipes : Nat → Nat} (c : Call) (calls : List Call) :
      StageStep own cap held ⟨proc, output, .starting (c :: calls)⟩ pipes
        ⟨c.apply proc, output, .starting calls⟩ pipes
  | execv {proc : Shell w} {output : Nat} {pipes : Nat → Nat} :
      StageStep own cap held ⟨proc, output, .starting []⟩ pipes ⟨proc, output, .reading⟩ pipes
  | read {proc : Shell w} {output : Nat} {pipes : Nat → Nat} {p k : Nat} :
      proc.fds.get STDIN_FILENO = some (.pipeRead p) → own ≤ p → 0 < k → k ≤ pipes p →
      StageStep own cap held ⟨proc, output, .reading⟩ pipes ⟨proc, output, .reading⟩
        (Function.update pipes p (pipes p - k))
  | endOfFile {proc : Shell w} {output : Nat} {pipes : Nat → Nat} {p : Nat} :
      proc.fds.get STDIN_FILENO = some (.pipeRead p) → own ≤ p → pipes p = 0 →
      ¬ held (.pipeWrite p) →
      StageStep own cap held ⟨proc, output, .reading⟩ pipes ⟨proc, output, .writing output⟩ pipes
  | readOutside {proc : Shell w} {output : Nat} {pipes : Nat → Nat} :
      (∀ p, own ≤ p → proc.fds.get STDIN_FILENO ≠ some (.pipeRead p)) →
      StageStep own cap held ⟨proc, output, .reading⟩ pipes ⟨proc, output, .writing output⟩ pipes
  | write {proc : Shell w} {output : Nat} {pipes : Nat → Nat} {p k left : Nat} :
      proc.fds.get STDOUT_FILENO = some (.pipeWrite p) → own ≤ p → held (.pipeRead p) →
      0 < k → k ≤ left → pipes p + k ≤ cap →
      StageStep own cap held ⟨proc, output, .writing left⟩ pipes
        ⟨proc, output, .writing (left - k)⟩ (Function.update pipes p (pipes p + k))
  | brokenPipe {proc : Shell w} {output : Nat} {pipes : Nat → Nat} {p left : Nat} :
      proc.fds.get STDOUT_FILENO = some (.pipeWrite p) → own ≤ p → ¬ held (.pipeRead p) →
      0 < left →
      StageStep own cap held ⟨proc, output, .writing left⟩ pipes ⟨proc, output, .exited⟩ pipes
  | writeOutside {proc : Shell w} {output : Nat} {pipes : Nat → Nat} {left : Nat} :
      (∀ p, own ≤ p → proc.fds.get STDOUT_FILENO ≠ some (.pipeWrite p)) → 0 < left →
      StageStep own cap held ⟨proc, output, .writing left⟩ pipes ⟨proc, output, .writing 0⟩ pipes
  | exit {proc : Shell w} {output : Nat} {pipes : Nat → Nat} :
      StageStep own cap held ⟨proc, output, .writing 0⟩ pipes ⟨proc, output, .exited⟩ pipes

/-- One step of the pipeline.  `waitpid` reaps a stage that has exited, and returns at once when
there is no stage to wait for. -/
inductive NetStep (own cap : Nat) : Net w → Net w → Prop
  | call {shell : Shell w} {stages : List (Stage w)} {pipes : Nat → Nat} (c : Call)
      (rest : List Instr) :
      NetStep own cap ⟨shell, .call c :: rest, stages, pipes⟩ ⟨c.apply shell, rest, stages, pipes⟩
  | fork {shell : Shell w} {stages : List (Stage w)} {pipes : Nat → Nat} (calls : List Call)
      (output : Nat) (rest : List Instr) :
      NetStep own cap ⟨shell, .fork calls output :: rest, stages, pipes⟩
        ⟨shell, rest, stages ++ [⟨shell, output, .starting calls⟩], pipes⟩
  | waitpid {shell proc : Shell w} {output : Nat} {before after : List (Stage w)}
      {pipes : Nat → Nat} (rest : List Instr) :
      NetStep own cap ⟨shell, .waitpid :: rest, before ++ ⟨proc, output, .exited⟩ :: after, pipes⟩
        ⟨shell, rest, before ++ ⟨proc, output, .reaped⟩ :: after, pipes⟩
  | noChild {shell : Shell w} {stages : List (Stage w)} {pipes : Nat → Nat} (rest : List Instr) :
      (∀ st ∈ stages, st.phase = .reaped) →
      NetStep own cap ⟨shell, .waitpid :: rest, stages, pipes⟩ ⟨shell, rest, stages, pipes⟩
  | stage {shell : Shell w} {instrs : List Instr} {before after : List (Stage w)}
      {st st' : Stage w} {pipes pipes' : Nat → Nat} :
      StageStep own cap (fun F => Net.Holds F ⟨shell, instrs, before ++ st :: after, pipes⟩)
        st pipes st' pipes' →
      NetStep own cap ⟨shell, instrs, before ++ st :: after, pipes⟩
        ⟨shell, instrs, before ++ st' :: after, pipes'⟩

/-- The shell has returned from `handle_pipe` and every stage has been waited for. -/
def Net.Finished (net : Net w) : Prop :=
  net.script = [] ∧ ∀ st ∈ net.stages, st.phase = .reaped

/-- The shell at the call of `handle_pipe` on `n` stages. -/
def Net.start (s : Shell w) (n : Nat) (out : Nat → Nat) : Net w :=
  ⟨s, Seush.script out n 0, [], fun _ => 0⟩

/-! ## 3. The script is what `handle_pipe` does -/

theorem pipedSetup_eq {o : StageOutcome} (ho : o.childDup = true) (k : Nat) (s : Shell w) :
    pipedSetup o s = applyAll (childCalls (k + 1)) s := by
  unfold pipedSetup
  rw [ho]
  rfl

/-- The child of a piped stage makes the calls of `childCalls`. -/
theorem pipedChild_eq_calls {o : StageOutcome} (ho : o.childDup = true) (k : Nat)
    (firstCommand : CString) (env : Environment) (s : Shell w) :
    pipedChild o firstCommand env s =
      handleRedirectionExec o firstCommand env (applyAll (childCalls (k + 1)) s) := by
  rw [pipedChild_eq, pipedSetup_eq ho k]

theorem pipedParent_eq {o : StageOutcome} (ho : o.parentDup = true) (k : Nat) (s : Shell w) :
    pipedParent o s = (applyAll (parentCalls (k + 1)) s).log
      (.waitpid (applyAll (parentCalls (k + 1)) s).fds) := by
  unfold pipedParent
  rw [ho]
  rfl

/-- The shell with another trace. -/
def Shell.withTrace (tr : List (Event w)) (s : Shell w) : Shell w := { s with trace := tr }

theorem Shell.log_eq_withTrace (e : Event w) (s : Shell w) :
    s.log e = s.withTrace (s.trace ++ [e]) := rfl

@[simp] theorem Shell.withTrace_withTrace (tr tr' : List (Event w)) (s : Shell w) :
    (s.withTrace tr).withTrace tr' = s.withTrace tr' := rfl

theorem dup_true_eq {k : Nat} {f : OpenFile} {s : Shell w} (h : s.fds.get k = some f) :
    (s.dup true k).2 =
      { s with fds := s.fds.alloc f, numbered := s.numbered.alloc (s.numbered k f h) } := by
  unfold Shell.dup
  split
  · rename_i h'
    cases h.symm.trans h'
  · rename_i g h'
    cases h.symm.trans h'
    rfl

theorem dup2_true_eq {k dst : Nat} {f : OpenFile} {s : Shell w} (h : s.fds.get k = some f) :
    s.dup2 true (some k) dst =
      some { s with
        fds := s.fds.set dst f
        numbered := s.numbered.set (s.numbered k f h) dst } := by
  unfold Shell.dup2
  dsimp only
  split
  · rename_i h'
    cases h.symm.trans h'
  · rename_i g h'
    cases h.symm.trans h'
    rfl

theorem dup_withTrace (k : Nat) (tr : List (Event w)) (s : Shell w) :
    ((s.withTrace tr).dup true k).2 = (s.dup true k).2.withTrace tr := by
  cases h : s.fds.get k with
  | none =>
    have h' : (s.withTrace tr).fds.get k = none := h
    rw [Shell.dup_of_closed h, Shell.dup_of_closed h']
  | some f =>
    have h' : (s.withTrace tr).fds.get k = some f := h
    rw [dup_true_eq h, dup_true_eq h']
    rfl

theorem dup2_withTrace (src : Option Nat) (dst : Nat) (tr : List (Event w)) (s : Shell w) :
    ((s.withTrace tr).dup2 true src dst).getD (s.withTrace tr) =
      ((s.dup2 true src dst).getD s).withTrace tr := by
  cases hsrc : src.bind s.fds.get with
  | none =>
    have h : s.dup2 true src dst = none := Shell.dup2_eq_none_iff.mpr (Or.inr hsrc)
    have h' : (s.withTrace tr).dup2 true src dst = none :=
      Shell.dup2_eq_none_iff.mpr (Or.inr hsrc)
    rw [h, h']
    rfl
  | some f =>
    obtain ⟨k, rfl, h⟩ := Option.bind_eq_some_iff.mp hsrc
    have h' : (s.withTrace tr).fds.get k = some f := h
    rw [dup2_true_eq h, dup2_true_eq h']
    rfl

/-- No call looks at the trace. -/
theorem Call.apply_withTrace (c : Call) (tr : List (Event w)) (s : Shell w) :
    c.apply (s.withTrace tr) = (c.apply s).withTrace tr := by
  cases c with
  | pipe => rfl
  | closeRead => rfl
  | closeWrite => rfl
  | close k => rfl
  | dupRead => exact dup_withTrace s.fd.1 tr s
  | dupWrite => exact dup_withTrace s.fd.2 tr s
  | restore => exact dup2_withTrace s.saveIn STDIN_FILENO tr s

/-- The calls that the shell itself makes in a script. -/
def serial (instrs : List Instr) (s : Shell w) : Shell w :=
  applyAll (instrs.filterMap fun
    | .call c => some c
    | _ => none) s

theorem applyAll_append (cs ds : List Call) (s : Shell w) :
    applyAll (cs ++ ds) s = applyAll ds (applyAll cs s) := List.foldl_append

theorem applyAll_withTrace (calls : List Call) (tr : List (Event w)) (s : Shell w) :
    applyAll calls (s.withTrace tr) = (applyAll calls s).withTrace tr := by
  induction calls generalizing s with
  | nil => rfl
  | cons c calls ih =>
    have hc := c.apply_withTrace tr s
    show applyAll calls (c.apply (s.withTrace tr)) = _
    rw [hc, ih]
    rfl

theorem serial_script_succ (out : Nat → Nat) (k i : Nat) (s : Shell w) :
    serial (script out (k + 1) i) s =
      serial (script out k (i + 1)) (applyAll (parentCalls k) (Call.pipe.apply s)) := by
  have hmap : ((parentCalls k).map Instr.call).filterMap
      (fun | .call c => some c | _ => none) = parentCalls k := by
    rw [List.filterMap_map]
    exact List.filterMap_some
  unfold serial
  rw [script, List.filterMap_cons, List.filterMap_cons, List.filterMap_append, hmap,
    List.filterMap_cons, ← applyAll_append]
  rfl

theorem Call.apply_pipe {ok : Bool} {s t : Shell w} (h : s.pipe ok = some t) :
    Call.pipe.apply s = t := by
  obtain ⟨hok, _⟩ := Shell.pipe_eq_some h
  rw [hok] at h
  show (s.pipe true).getD s = t
  rw [h]
  rfl

theorem lastParent_eq {o : StageOutcome} (ho : o.restore = true) (s : Shell w) :
    (lastParent o s).withTrace [] = (Call.restore.apply s).withTrace [] := by
  have h := congrArg (Shell.withTrace [])
    (dup2_withTrace s.saveIn STDIN_FILENO (s.trace ++ [.waitpid s.fds]) s)
  unfold lastParent
  rw [ho]
  exact h

theorem pipedParent_log {o : StageOutcome} (ho : o.parentDup = true) (k : Nat) (e : Event w)
    (s : Shell w) :
    (applyAll (parentCalls (k + 1)) s).fds = (pipedParent o (s.log e)).fds ∧
      (applyAll (parentCalls (k + 1)) s).fresh = (pipedParent o (s.log e)).fresh := by
  rw [pipedParent_eq ho k, Shell.log_eq_withTrace e s, applyAll_withTrace]
  exact ⟨rfl, rfl⟩

/-- **The shell makes the calls of the script**: but for the trace, `handle_pipe` leaves it as
they do. -/
theorem handlePipe_serial {env : Environment} {o : Nat → StageOutcome}
    (ho : ∀ n, CallsOk (o n)) (out : Nat → Nat) (line : CString) :
    ∀ (n i : Nat) (s : Shell w), (stages line).2 = true →
      (handlePipe env o n line false s).2.withTrace [] =
        (serial (script out (stages line).1.length i) s).withTrace [] := by
  induction line using pipeline_induction with
  | null line h =>
    intro n i s hend
    rw [stages_null h] at hend
    cases hend
  | single line token h =>
    intro n i s _
    rw [stages_single h, handlePipe_single h]
    rw [if_neg Bool.false_ne_true, List.length_singleton, serial_script_succ]
    dsimp only
    cases hpipe : s.pipe (o n).pipe with
    | none =>
      rw [Shell.pipe_eq_none_iff, (ho n).pipe] at hpipe
      cases hpipe
    | some t =>
      unfold lastStage
      rw [hpipe, Call.apply_pipe hpipe]
      dsimp only
      rw [if_pos (ho n).fork, lastParent_eq (ho n).restore, Shell.log_eq_withTrace,
        Call.apply_withTrace, Shell.withTrace_withTrace]
      rfl
  | piped line token rest h hr ih =>
    intro n i s hend
    rw [stages_piped h hr] at hend ⊢
    rw [handlePipe_piped h hr]
    cases hpipe : s.pipe (o n).pipe with
    | none =>
      rw [Shell.pipe_eq_none_iff, (ho n).pipe] at hpipe
      cases hpipe
    | some t =>
      obtain ⟨k, hk⟩ := Nat.exists_eq_succ_of_ne_zero (length_stages_pos _ hend).ne'
      dsimp only
      rw [if_pos (ho n).fork, ih (n + 1) (i + 1) _ hend, List.length_cons, serial_script_succ,
        Call.apply_pipe hpipe, hk, pipedParent_eq (ho n).parentDup k, Shell.log_eq_withTrace,
        Shell.log_eq_withTrace, applyAll_withTrace, serial, serial, applyAll_withTrace,
        applyAll_withTrace, Shell.withTrace_withTrace, Shell.withTrace_withTrace]

/-! ## 4. What the calls do to the descriptors -/

/-- A call other than `pipe` makes no new descriptor for a file that had none. -/
theorem Call.refers_of_apply {c : Call} (hc : c ≠ .pipe) {s : Shell w} {F : OpenFile}
    (h : (c.apply s).fds.Refers F) : s.fds.Refers F := by
  have hclose : ∀ k, (s.fds.close k).Refers F → s.fds.Refers F := by
    rintro k ⟨j, hj⟩
    rw [FdTable.get_close] at hj
    split at hj
    · cases hj
    · exact ⟨j, hj⟩
  have hdup : ∀ k, (s.dup true k).2.fds.Refers F → s.fds.Refers F := by
    rintro k ⟨j, hj⟩
    rw [Shell.dup_get] at hj
    split at hj
    · exact ⟨k, hj⟩
    · exact ⟨j, hj⟩
  cases c with
  | pipe => exact absurd rfl hc
  | closeRead => exact hclose _ h
  | closeWrite => exact hclose _ h
  | close k => exact hclose _ h
  | dupRead => exact hdup _ h
  | dupWrite => exact hdup _ h
  | restore =>
    cases hd : s.dup2 true s.saveIn STDIN_FILENO with
    | none =>
      rw [Call.apply, hd] at h
      exact h
    | some t =>
      obtain ⟨_, k, f, _, hk, hfds, _⟩ := Shell.dup2_eq_some hd
      rw [Call.apply, hd, Option.getD_some, hfds] at h
      obtain ⟨j, hj⟩ := h
      rw [FdTable.get_set] at hj
      split at hj
      · exact ⟨k, hk.trans hj⟩
      · exact ⟨j, hj⟩

theorem refers_of_applyAll {calls : List Call} (hcalls : Call.pipe ∉ calls) {s : Shell w}
    {F : OpenFile} (h : (applyAll calls s).fds.Refers F) : s.fds.Refers F := by
  induction calls generalizing s with
  | nil => exact h
  | cons c calls ih =>
    have hc : c ≠ .pipe := fun he => hcalls (he ▸ List.mem_cons_self)
    exact Call.refers_of_apply hc (ih (fun hm => hcalls (List.mem_cons_of_mem _ hm)) h)

theorem Call.apply_fresh {c : Call} (hc : c ≠ .pipe) (s : Shell w) :
    (c.apply s).fresh = s.fresh := by
  cases c with
  | pipe => exact absurd rfl hc
  | closeRead => rfl
  | closeWrite => rfl
  | close k => rfl
  | dupRead => exact (Shell.dup_frame true s.fd.1 s).2.1
  | dupWrite => exact (Shell.dup_frame true s.fd.2 s).2.1
  | restore =>
    cases hd : s.dup2 true s.saveIn STDIN_FILENO with
    | none => rw [Call.apply, hd]; rfl
    | some t =>
      obtain ⟨_, _, _, _, _, _, _, hfresh, _⟩ := Shell.dup2_eq_some hd
      rw [Call.apply, hd]
      exact hfresh

theorem applyAll_fresh {calls : List Call} (hcalls : Call.pipe ∉ calls) {s : Shell w} :
    (applyAll calls s).fresh = s.fresh := by
  induction calls generalizing s with
  | nil => rfl
  | cons c calls ih =>
    have hc : c ≠ .pipe := fun he => hcalls (he ▸ List.mem_cons_self)
    exact (ih (fun hm => hcalls (List.mem_cons_of_mem _ hm))).trans (c.apply_fresh hc s)

theorem pipe_notMem_childCalls (k : Nat) : Call.pipe ∉ childCalls k := by
  cases k <;> simp [childCalls]

theorem pipe_notMem_parentCalls (k : Nat) : Call.pipe ∉ parentCalls k := by
  cases k <;> simp [parentCalls]

/-! ## 5. The invariant -/

/-- The shell between two stages: 0 and 1 are open and it holds no write end. -/
structure Settled (own : Nat) (B : OpenFile) (pipes : Nat → Nat) (sh : Shell w) : Prop where
  input : sh.fds.get STDIN_FILENO ≠ none
  output : sh.fds.get STDOUT_FILENO = some B
  noWrite : ∀ p, own ≤ p → ¬ sh.fds.Refers (.pipeWrite p)
  fresh : own ≤ sh.fresh
  empty : ∀ p, sh.fresh ≤ p → pipes p = 0

/-- The shell beside a stage that `k` more follow, with `calls` to make before it waits.  `cur`
is the newest pipe. -/
structure ShellAt (own : Nat) (B : OpenFile) (k cur : Nat) (calls : List Call)
    (pipes : Nat → Nat) (sh : Shell w) : Prop where
  noPipe : Call.pipe ∉ calls
  fresh : sh.fresh = cur + 1
  noOld : ∀ p, own ≤ p → p < cur → ¬ sh.fds.Refers (.pipeWrite p)
  empty : ∀ p, cur < p → pipes p = 0
  reads : k ≠ 0 → (applyAll calls sh).fds.get STDIN_FILENO = some (.pipeRead cur)
  settles : k ≠ 0 → Settled own B pipes (applyAll calls sh)

/-- What a stage reads is not the newest pipe, and what it writes is, or is the output of the
last stage. -/
structure Connected (B : OpenFile) (k cur : Nat) (proc : Shell w) : Prop where
  input : ∀ p, cur ≤ p → proc.fds.get STDIN_FILENO ≠ some (.pipeRead p)
  output : proc.fds.get STDOUT_FILENO = some (if k = 0 then B else .pipeWrite cur)

/-- How much of its output a stage has written, by how far it is. -/
def Progressed (cap : Nat) (B : OpenFile) (k cur output : Nat) (pipes : Nat → Nat)
    (proc : Shell w) : Phase → Prop
  | .starting calls =>
    Call.pipe ∉ calls ∧ Connected B k cur (applyAll calls proc) ∧ pipes cur = 0
  | .reading => Connected B k cur proc ∧ pipes cur = 0
  | .writing left =>
    Connected B k cur proc ∧ (k ≠ 0 → pipes cur + left = output ∧ pipes cur ≤ cap)
  | .exited => k ≠ 0 → output ≤ cap
  | .reaped => False

/-- A stage that `k` more follow and that writes `output` bytes. -/
structure StageAt (own cap : Nat) (B : OpenFile) (k cur output : Nat) (pipes : Nat → Nat)
    (st : Stage w) : Prop where
  output_eq : st.output = output
  noOld : ∀ p, own ≤ p → p < cur → ¬ st.proc.fds.Refers (.pipeWrite p)
  progressed : Progressed cap B k cur output pipes st.proc st.phase

/-- The first `i` outputs, the last stage apart, fit in a pipe. -/
def Fits (cap n : Nat) (out : Nat → Nat) (i : Nat) : Prop :=
  ∀ j, j < i → j + 1 < n → out j ≤ cap

def AllReaped (stages : List (Stage w)) : Prop := ∀ st ∈ stages, st.phase = .reaped

/-- **The invariant of a pipeline**: between two stages, after the `pipe` of one, or beside one.
All stages forked before have been waited for, and their outputs fitted. -/
inductive Inv (own cap : Nat) (B : OpenFile) (n : Nat) (out : Nat → Nat) : Net w → Prop
  | between {sh : Shell w} {stages : List (Stage w)} {pipes : Nat → Nat} {k i : Nat} :
      i + k = n → Fits cap n out i → AllReaped stages → (k ≠ 0 → Settled own B pipes sh) →
      Inv own cap B n out ⟨sh, script out k i, stages, pipes⟩
  | forking {sh : Shell w} {stages : List (Stage w)} {pipes : Nat → Nat} {k i cur : Nat} :
      i + (k + 1) = n → Fits cap n out i → AllReaped stages → own ≤ cur →
      ShellAt own B k cur (parentCalls k) pipes sh →
      StageAt own cap B k cur (out i) pipes ⟨sh, out i, .starting (childCalls k)⟩ →
      Inv own cap B n out ⟨sh, .fork (childCalls k) (out i) ::
        ((parentCalls k).map .call ++ .waitpid :: script out k (i + 1)), stages, pipes⟩
  | beside {sh : Shell w} {before : List (Stage w)} {st : Stage w} {pipes : Nat → Nat}
      {calls : List Call} {k i cur : Nat} :
      i + (k + 1) = n → Fits cap n out i → AllReaped before → own ≤ cur →
      ShellAt own B k cur calls pipes sh → StageAt own cap B k cur (out i) pipes st →
      Inv own cap B n out ⟨sh, calls.map .call ++ .waitpid :: script out k (i + 1),
        before ++ [st], pipes⟩
  | finished {sh : Shell w} {stages : List (Stage w)} {pipes : Nat → Nat} :
      Fits cap n out n → AllReaped stages → Inv own cap B n out ⟨sh, [], stages, pipes⟩

/-- The `pipe` at the start of a stage. -/
theorem pipe_starts {own cap k : Nat} {B : OpenFile} {pipes : Nat → Nat} {sh : Shell w}
    (output : Nat) (h : Settled own B pipes sh) :
    ShellAt own B k sh.fresh (parentCalls k) pipes (Call.pipe.apply sh) ∧
      StageAt own cap B k sh.fresh output pipes
        ⟨Call.pipe.apply sh, output, .starting (childCalls k)⟩ := by
  obtain ⟨A, hA⟩ := Option.ne_none_iff_exists'.mp h.input
  obtain ⟨t, hpipe⟩ : ∃ t, sh.pipe true = some t := ⟨_, rfl⟩
  rw [Call.apply_pipe hpipe]
  obtain ⟨_, _, hfresh, _⟩ := Shell.pipe_eq_some hpipe
  have hnew : ∀ p, sh.fresh ≤ p → A ≠ .pipeRead p := by
    rintro p hp rfl
    exact absurd (sh.numbered _ _ hA) (Nat.not_lt.mpr hp)
  have hnoOld : ∀ p, own ≤ p → p < sh.fresh → ¬ t.fds.Refers (.pipeWrite p) := by
    rintro p hown hp ⟨j, hj⟩
    exact h.noWrite p hown ⟨j, (pipe_get_iff hpipe (f := .pipeWrite p) hp j).mp hj⟩
  cases k with
  | zero =>
    refine ⟨⟨pipe_notMem_parentCalls 0, hfresh, hnoOld, fun p hp => h.empty p hp.le,
      absurd rfl, absurd rfl⟩, rfl, hnoOld, pipe_notMem_childCalls 0, ⟨?_, ?_⟩,
      h.empty _ le_rfl⟩
    · intro p hp hget
      have hget' : t.fds.get STDIN_FILENO = some (.pipeRead p) := hget
      rw [pipe_get hpipe hA] at hget'
      exact hnew p hp (Option.some.inj hget')
    · exact pipe_get hpipe h.output
  | succ k =>
    have hpipe' : sh.pipe StageOutcome.ok.pipe = some t := hpipe
    obtain ⟨hother, hstdin, _, hfresh'⟩ := piped_fds hpipe' .waitAll
    obtain ⟨_, hin, hout, _⟩ := pipedSetup_fds (o := .ok) rfl hpipe hA h.output
    obtain ⟨hparent, hparentFresh⟩ := pipedParent_log (o := .ok) rfl k .waitAll t
    rw [if_pos ⟨rfl, h.input⟩] at hstdin
    refine ⟨⟨pipe_notMem_parentCalls _, hfresh, hnoOld, fun p hp => h.empty p hp.le, ?_, ?_⟩,
      rfl, hnoOld, pipe_notMem_childCalls _, ?_, h.empty _ le_rfl⟩
    · intro _
      rw [hparent, hstdin]
    · intro _
      refine ⟨?_, ?_, ?_, ?_, ?_⟩
      · rw [hparent, hstdin]
        exact Option.some_ne_none _
      · rw [hparent, hother _ (by decide), h.output]
      · rintro p hown ⟨j, hj⟩
        rw [hparent] at hj
        rcases eq_or_ne j STDIN_FILENO with rfl | hj0
        · rw [hstdin] at hj
          cases hj
        · rw [hother j hj0] at hj
          exact h.noWrite p hown ⟨j, hj⟩
      · rw [hparentFresh, hfresh']
        exact Nat.le_succ_of_le h.fresh
      · intro p hp
        rw [hparentFresh, hfresh'] at hp
        exact h.empty p (Nat.le_of_succ_le hp)
    · rw [← pipedSetup_eq (o := .ok) rfl k]
      refine ⟨?_, hout⟩
      intro p hp hget
      rw [hin] at hget
      exact hnew p hp (Option.some.inj hget)

/-! ## 6. Every step brings a number down -/

def Phase.weight (output : Nat) : Phase → Nat
  | .starting calls => calls.length + 2 * output + 4
  | .reading => 2 * output + 3
  | .writing left => 2 * left + 2
  | .exited => 1
  | .reaped => 0

def Stage.weight (st : Stage w) : Nat := st.phase.weight st.output

def Instr.weight : Instr → Nat
  | .call _ => 1
  | .fork calls output => calls.length + 2 * output + 5
  | .waitpid => 1

/-- The bytes in the pipes made so far. -/
def inPipes (m : Nat) (pipes : Nat → Nat) : Nat := ∑ p ∈ Finset.range m, pipes p

/-- What is still to be done: calls, forks, bytes to write and, once, to read. -/
def Net.weight (net : Net w) : Nat :=
  (net.script.map Instr.weight).sum + (net.stages.map Stage.weight).sum +
    inPipes net.shell.fresh net.pipes

theorem inPipes_update {m p : Nat} (hp : p < m) (pipes : Nat → Nat) (v : Nat) :
    inPipes m (Function.update pipes p v) + pipes p = inPipes m pipes + v := by
  have hmem : p ∈ Finset.range m := Finset.mem_range.mpr hp
  have hrest : ∑ q ∈ (Finset.range m).erase p, Function.update pipes p v q =
      ∑ q ∈ (Finset.range m).erase p, pipes q :=
    Finset.sum_congr rfl (fun q hq => Function.update_of_ne (Finset.ne_of_mem_erase hq) _ _)
  have hnew := Finset.add_sum_erase (Finset.range m) (Function.update pipes p v) hmem
  have hold := Finset.add_sum_erase (Finset.range m) pipes hmem
  rw [Function.update_self, hrest] at hnew
  unfold inPipes
  omega

theorem inPipes_succ {m : Nat} {pipes : Nat → Nat} (h : pipes m = 0) :
    inPipes (m + 1) pipes = inPipes m pipes := by
  rw [inPipes, Finset.sum_range_succ, h]
  rfl

/-- **One step of the stage beside the shell**, by cases on what it does: what it has written and
what is left come to its output, the newest pipe holds no more than its capacity, and there is
less to do. -/
theorem stageStep_spec {own cap k cur output : Nat} {B : OpenFile} {held : OpenFile → Prop}
    {st st' : Stage w} {pipes pipes' : Nat → Nat} (hown : own ≤ cur) (hB : B.MadeBefore own)
    (hheld : k ≠ 0 → held (.pipeRead cur)) (h : StageAt own cap B k cur output pipes st)
    (hstep : StageStep own cap held st pipes st' pipes') :
    StageAt own cap B k cur output pipes' st' ∧ (∀ p, cur < p → pipes' p = pipes p) ∧
      st'.weight + inPipes (cur + 1) pipes' < st.weight + inPipes (cur + 1) pipes := by
  obtain ⟨hout, hnoOld, hprog⟩ := h
  -- a stage that writes to a pipe of the pipeline writes to the newest, and is not the last
  have hnewest : ∀ {proc : Shell w} {p : Nat}, Connected B k cur proc →
      proc.fds.get STDOUT_FILENO = some (.pipeWrite p) → own ≤ p → k ≠ 0 ∧ p = cur := by
    intro proc p hconn hget hp
    rw [hconn.output] at hget
    have heq := Option.some.inj hget
    split at heq
    · rw [heq] at hB
      exact absurd hB (Nat.not_lt.mpr hp)
    · cases heq
      exact ⟨by assumption, rfl⟩
  cases hstep with
  | @call proc output' pipes c calls =>
    obtain ⟨hnoPipe, hconn, hempty⟩ := hprog
    have hc : c ≠ .pipe := fun he => hnoPipe (he ▸ List.mem_cons_self)
    refine ⟨⟨hout, ?_, fun hm => hnoPipe (List.mem_cons_of_mem _ hm), hconn, hempty⟩,
      fun _ _ => rfl, ?_⟩
    · intro p hp hlt hr
      exact hnoOld p hp hlt (Call.refers_of_apply hc hr)
    · simp only [Stage.weight, Phase.weight, List.length_cons]
      omega
  | execv =>
    obtain ⟨_, hconn, hempty⟩ := hprog
    refine ⟨⟨hout, hnoOld, hconn, hempty⟩, fun _ _ => rfl, ?_⟩
    simp only [Stage.weight, Phase.weight, List.length_nil]
    omega
  | @read proc output' pipes p j hget hp hj hle =>
    obtain ⟨hconn, hempty⟩ := hprog
    have hlt : p < cur := Nat.not_le.mp (fun hge => hconn.input p hge hget)
    refine ⟨⟨hout, hnoOld, hconn, ?_⟩, ?_, ?_⟩
    · rw [Function.update_of_ne (by omega)]
      exact hempty
    · intro q hq
      exact Function.update_of_ne (by omega) _ _
    · have hp' : p < cur + 1 := Nat.lt_succ_of_lt hlt
      have hsum := inPipes_update hp' pipes (pipes p - j)
      omega
  | endOfFile hget hp hzero hno =>
    obtain ⟨hconn, hempty⟩ := hprog
    have hout' := hout
    simp only at hout'
    refine ⟨⟨hout, hnoOld, hconn, fun _ => ⟨by omega, by omega⟩⟩, fun _ _ => rfl, ?_⟩
    simp only [Stage.weight, Phase.weight]
    omega
  | readOutside hget =>
    obtain ⟨hconn, hempty⟩ := hprog
    have hout' := hout
    simp only at hout'
    refine ⟨⟨hout, hnoOld, hconn, fun _ => ⟨by omega, by omega⟩⟩, fun _ _ => rfl, ?_⟩
    simp only [Stage.weight, Phase.weight]
    omega
  | @write proc output' pipes p j left hget hp _ hj hle hcap =>
    obtain ⟨hconn, hwritten⟩ := hprog
    obtain ⟨hk, rfl⟩ := hnewest hconn hget hp
    obtain ⟨hsum, _⟩ := hwritten hk
    refine ⟨⟨hout, hnoOld, hconn, ?_⟩, ?_, ?_⟩
    · intro _
      rw [Function.update_self]
      exact ⟨by omega, hcap⟩
    · intro q hq
      exact Function.update_of_ne (by omega) _ _
    · have hp' : p < p + 1 := Nat.lt_succ_self p
      have htotal := inPipes_update hp' pipes (pipes p + j)
      simp only [Stage.weight, Phase.weight]
      omega
  | @brokenPipe proc output' pipes p left hget hp hno hleft =>
    obtain ⟨hconn, _⟩ := hprog
    obtain ⟨hk, rfl⟩ := hnewest hconn hget hp
    exact absurd (hheld hk) hno
  | writeOutside hget hleft =>
    obtain ⟨hconn, _⟩ := hprog
    have hlast : k = 0 := by
      by_contra hk
      refine hget cur hown ?_
      rw [hconn.output, if_neg hk]
    refine ⟨⟨hout, hnoOld, hconn, absurd hlast⟩, fun _ _ => rfl, ?_⟩
    simp only [Stage.weight, Phase.weight]
    omega
  | exit =>
    obtain ⟨_, hwritten⟩ := hprog
    refine ⟨⟨hout, hnoOld, ?_⟩, fun _ _ => rfl, ?_⟩
    · intro hk
      obtain ⟨hsum, hcap⟩ := hwritten hk
      omega
    · simp only [Stage.weight, Phase.weight]
      omega

/-- A stage that has been waited for is gone. -/
theorem not_stageStep_reaped {own cap : Nat} {held : OpenFile → Prop} {st st' : Stage w}
    {pipes pipes' : Nat → Nat} (h : st.phase = .reaped) :
    ¬ StageStep own cap held st pipes st' pipes' := by
  intro hstep
  cases hstep <;> cases h

/-- What one step of a pipeline can be. -/
theorem netStep_cases {own cap : Nat} {net net' : Net w} (h : NetStep own cap net net') :
    (∃ c rest, net.script = .call c :: rest ∧
        net' = ⟨c.apply net.shell, rest, net.stages, net.pipes⟩) ∨
      (∃ calls output rest, net.script = .fork calls output :: rest ∧
        net' = ⟨net.shell, rest, net.stages ++ [⟨net.shell, output, .starting calls⟩],
          net.pipes⟩) ∨
      (∃ rest, net.script = .waitpid :: rest ∧
        ((∃ before proc output after, net.stages = before ++ ⟨proc, output, .exited⟩ :: after ∧
            net' = ⟨net.shell, rest, before ++ ⟨proc, output, .reaped⟩ :: after, net.pipes⟩) ∨
          AllReaped net.stages ∧ net' = ⟨net.shell, rest, net.stages, net.pipes⟩)) ∨
      ∃ before st after st' pipes', net.stages = before ++ st :: after ∧
        StageStep own cap (fun F => net.Holds F) st net.pipes st' pipes' ∧
        net' = ⟨net.shell, net.script, before ++ st' :: after, pipes'⟩ := by
  cases h with
  | call c rest => exact Or.inl ⟨c, rest, rfl, rfl⟩
  | fork calls output rest => exact Or.inr (Or.inl ⟨calls, output, rest, rfl, rfl⟩)
  | waitpid rest =>
    exact Or.inr (Or.inr (Or.inl ⟨rest, rfl, Or.inl ⟨_, _, _, _, rfl, rfl⟩⟩))
  | noChild rest hall => exact Or.inr (Or.inr (Or.inl ⟨rest, rfl, Or.inr ⟨hall, rfl⟩⟩))
  | stage hs => exact Or.inr (Or.inr (Or.inr ⟨_, _, _, _, _, rfl, hs, rfl⟩))

/-- Of several stages the last, or an earlier one. -/
theorem stage_last {before before' after : List (Stage w)} {st st' : Stage w}
    (h : before' ++ st' :: after = before ++ [st]) :
    st' ∈ before ∨ st' = st ∧ before' = before ∧ after = [] := by
  rcases List.eq_nil_or_concat after with rfl | ⟨init, x, rfl⟩
  · obtain ⟨hb, hs⟩ := List.append_inj' h rfl
    exact Or.inr ⟨(List.cons.inj hs).1, hb, rfl⟩
  · left
    have heq : (before' ++ st' :: init) ++ [x] = before ++ [st] := by
      rw [← h]
      simp
    obtain ⟨hb, _⟩ := List.append_inj' heq rfl
    rw [← hb]
    simp

theorem not_stage_of_allReaped {own cap : Nat} {held : OpenFile → Prop} {st st' : Stage w}
    {stages before after : List (Stage w)} {pipes pipes' : Nat → Nat} (h : AllReaped stages)
    (hmem : stages = before ++ st :: after) : ¬ StageStep own cap held st pipes st' pipes' :=
  not_stageStep_reaped (h st (hmem ▸ by simp))

/-- The shell after one more call: the same will have happened when it waits. -/
theorem ShellAt.call {own k cur : Nat} {B : OpenFile} {c : Call} {calls : List Call}
    {pipes : Nat → Nat} {sh : Shell w} (h : ShellAt own B k cur (c :: calls) pipes sh) :
    ShellAt own B k cur calls pipes (c.apply sh) := by
  have hc : c ≠ .pipe := fun he => h.noPipe (he ▸ List.mem_cons_self)
  refine ⟨fun hm => h.noPipe (List.mem_cons_of_mem _ hm), (Call.apply_fresh hc sh).trans h.fresh,
    ?_, h.empty, h.reads, h.settles⟩
  intro p hp hlt hr
  exact h.noOld p hp hlt (Call.refers_of_apply hc hr)

/-- What the stages do to the pipes up to the newest does not concern the shell. -/
theorem ShellAt.congr {own k cur : Nat} {B : OpenFile} {calls : List Call}
    {pipes pipes' : Nat → Nat} {sh : Shell w} (h : ShellAt own B k cur calls pipes sh)
    (hsame : ∀ p, cur < p → pipes' p = pipes p) : ShellAt own B k cur calls pipes' sh := by
  refine ⟨h.noPipe, h.fresh, h.noOld, ?_, h.reads, ?_⟩
  · intro p hp
    rw [hsame p hp]
    exact h.empty p hp
  · intro hk
    have hset := h.settles hk
    refine ⟨hset.input, hset.output, hset.noWrite, hset.fresh, ?_⟩
    intro p hp
    have hcur := hp
    rw [applyAll_fresh h.noPipe, h.fresh] at hcur
    rw [hsame p hcur]
    exact hset.empty p hp

theorem Fits.succ {cap n i : Nat} {out : Nat → Nat} (h : Fits cap n out i)
    (hlast : i + 1 < n → out i ≤ cap) : Fits cap n out (i + 1) := by
  intro j hj hjn
  rcases Nat.lt_succ_iff_lt_or_eq.mp hj with hlt | rfl
  · exact h j hlt hjn
  · exact hlast hjn

theorem AllReaped.concat {before : List (Stage w)} {st : Stage w} (h : AllReaped before)
    (hst : st.phase = .reaped) : AllReaped (before ++ [st]) := by
  intro x hx
  rcases List.mem_append.mp hx with hx | hx
  · exact h x hx
  · rw [List.mem_singleton.mp hx]
    exact hst

/-- **The invariant is kept, and there is less to do.** -/
theorem netStep_spec {own cap n : Nat} {B : OpenFile} {out : Nat → Nat} {net net' : Net w}
    (hB : B.MadeBefore own) (h : Inv own cap B n out net) (hstep : NetStep own cap net net') :
    Inv own cap B n out net' ∧ net'.weight < net.weight := by
  have hcases := netStep_cases hstep
  cases h with
  | @between sh stages pipes k i hn hfits hreaped hsettled =>
    rcases hcases with ⟨c, rest, hscript, rfl⟩ | ⟨calls, output, rest, hscript, rfl⟩ |
      ⟨rest, hscript, _⟩ | ⟨before, st, after, st', pipes', hmem, hst, rfl⟩
    · cases k with
      | zero =>
        cases hscript
        have hi : i = n := hn
        refine ⟨.finished (hi ▸ hfits) hreaped, ?_⟩
        have hfresh : (Call.restore.apply sh).fresh = sh.fresh :=
          Call.apply_fresh (by decide) sh
        simp only [Net.weight, script, List.map_cons, List.map_nil, List.sum_cons, Instr.weight,
          hfresh]
        omega
      | succ k =>
        cases hscript
        have hset := hsettled (Nat.succ_ne_zero k)
        obtain ⟨hshell, hstage⟩ := @pipe_starts w own cap k B pipes sh (out i) hset
        refine ⟨.forking hn hfits hreaped hset.fresh hshell hstage, ?_⟩
        have hsum := inPipes_succ (hset.empty sh.fresh le_rfl)
        simp only [Net.weight, script, List.map_cons, List.sum_cons, Instr.weight,
          hshell.fresh, hsum]
        omega
    · cases k <;> cases hscript
    · cases k <;> cases hscript
    · exact absurd hst (not_stage_of_allReaped hreaped hmem)
  | @forking sh stages pipes k i cur hn hfits hreaped hown hshell hstage =>
    rcases hcases with ⟨c, rest, hscript, _⟩ | ⟨calls, output, rest, hscript, rfl⟩ |
      ⟨rest, hscript, _⟩ | ⟨before, st, after, st', pipes', hmem, hst, rfl⟩
    · cases hscript
    · cases hscript
      refine ⟨.beside hn hfits hreaped hown hshell hstage, ?_⟩
      simp only [Net.weight, List.map_cons, List.map_append, List.map_nil, List.sum_cons,
        List.sum_append, List.sum_nil, Instr.weight, Stage.weight, Phase.weight]
      omega
    · cases hscript
    · exact absurd hst (not_stage_of_allReaped hreaped hmem)
  | @beside sh before st pipes calls k i cur hn hfits hreaped hown hshell hstage =>
    rcases hcases with ⟨c, rest, hscript, rfl⟩ | ⟨cs, output, rest, hscript, rfl⟩ |
      ⟨rest, hscript, hwait⟩ | ⟨before', st₁, after, st', pipes', hmem, hst, rfl⟩
    · cases calls with
      | nil => cases hscript
      | cons d calls =>
        have hcons : Instr.call d :: (calls.map Instr.call ++
            .waitpid :: script out k (i + 1)) = .call c :: rest := hscript
        obtain ⟨hd, rfl⟩ := List.cons.inj hcons
        cases hd
        have hnext := hshell.call
        refine ⟨.beside hn hfits hreaped hown hnext hstage, ?_⟩
        simp only [Net.weight, List.map_cons, List.cons_append, List.sum_cons, Instr.weight,
          hnext.fresh, hshell.fresh]
        omega
    · cases calls <;> cases hscript
    · cases calls with
      | cons d calls => cases hscript
      | nil =>
        cases hscript
        rcases hwait with ⟨before', proc, output, after, hmem, rfl⟩ | ⟨hall, _⟩
        · rcases stage_last hmem.symm with hin | ⟨rfl, rfl, rfl⟩
          · cases hreaped _ hin
          · have hexit := hstage.progressed
            have hfits' := hfits.succ (fun hlt => hexit (by omega))
            refine ⟨.between (by omega) hfits' (hreaped.concat rfl) hshell.settles, ?_⟩
            simp only [Net.weight, List.map_append, List.map_cons, List.map_nil,
              List.nil_append, List.sum_cons, List.sum_append, List.sum_nil, Instr.weight,
              Stage.weight, Phase.weight]
            omega
        · have hst := hall st (by simp)
          have hprog := hstage.progressed
          rw [hst] at hprog
          exact hprog.elim
    · rcases stage_last hmem.symm with hin | ⟨rfl, rfl, rfl⟩
      · exact absurd hst (not_stageStep_reaped (hreaped _ hin))
      · have hheld : k ≠ 0 → Net.Holds (.pipeRead cur)
            ⟨sh, calls.map .call ++ .waitpid :: script out k (i + 1), before' ++ [st₁], pipes⟩ :=
          fun hk => Or.inl (refers_of_applyAll hshell.noPipe ⟨_, hshell.reads hk⟩)
        obtain ⟨hstage', hsame, hless⟩ := stageStep_spec hown hB hheld hstage hst
        refine ⟨.beside hn hfits hreaped hown (hshell.congr hsame) hstage', ?_⟩
        simp only [Net.weight, List.map_append, List.map_cons, List.map_nil, List.sum_append,
          List.sum_cons, List.sum_nil, hshell.fresh]
        omega
  | finished hfits hreaped =>
    rcases hcases with ⟨c, rest, hscript, _⟩ | ⟨calls, output, rest, hscript, _⟩ |
      ⟨rest, hscript, _⟩ | ⟨before, st, after, st', pipes', hmem, hst, rfl⟩
    · cases hscript
    · cases hscript
    · cases hscript
    · exact absurd hst (not_stage_of_allReaped hreaped hmem)

/-! ## 7. Who can go on -/

/-- **A stage beside the waiting shell has a step, or has exited**, when its output fits in a
pipe: what it reads is all there, with nobody to write more, and what it writes has room. -/
theorem stage_progress {own cap k cur output : Nat} {B : OpenFile} {held : OpenFile → Prop}
    {st : Stage w} {pipes : Nat → Nat} (hB : B.MadeBefore own) (hown : own ≤ cur)
    (hfit : k ≠ 0 → output ≤ cap) (hno : ∀ p, own ≤ p → p < cur → ¬ held (.pipeWrite p))
    (h : StageAt own cap B k cur output pipes st) :
    (∃ st' pipes', StageStep own cap held st pipes st' pipes') ∨ st.phase = .exited := by
  obtain ⟨proc, output', phase⟩ := st
  obtain ⟨_, _, hprog⟩ := h
  cases phase with
  | starting calls =>
    left
    cases calls with
    | nil => exact ⟨_, _, .execv⟩
    | cons c calls => exact ⟨_, _, .call c calls⟩
  | reading =>
    left
    obtain ⟨hconn, _⟩ := hprog
    rcases Classical.em (∃ p, own ≤ p ∧ proc.fds.get STDIN_FILENO = some (.pipeRead p)) with
      ⟨p, hp, hget⟩ | hout
    · have hlt : p < cur := Nat.not_le.mp (fun hge => hconn.input p hge hget)
      rcases Nat.eq_zero_or_pos (pipes p) with hzero | hpos
      · exact ⟨_, _, .endOfFile hget hp hzero (hno p hp hlt)⟩
      · exact ⟨_, _, .read hget hp Nat.one_pos hpos⟩
    · exact ⟨_, _, .readOutside (fun p hp hget => hout ⟨p, hp, hget⟩)⟩
  | writing left =>
    left
    obtain ⟨hconn, hwritten⟩ := hprog
    rcases Nat.eq_zero_or_pos left with rfl | hpos
    · exact ⟨_, _, .exit⟩
    · have hget := hconn.output
      rcases eq_or_ne k 0 with rfl | hk
      · rw [if_pos rfl] at hget
        refine ⟨_, _, .writeOutside ?_ hpos⟩
        intro p hp hget'
        rw [hget] at hget'
        cases hget'
        exact absurd hB (Nat.not_lt.mpr hp)
      · rw [if_neg hk] at hget
        obtain ⟨hsum, _⟩ := hwritten hk
        have hroom : pipes cur + 1 ≤ cap := by
          have := hfit hk
          omega
        rcases Classical.em (held (.pipeRead cur)) with hr | hr
        · exact ⟨_, _, .write hget hown hr Nat.one_pos hpos hroom⟩
        · exact ⟨_, _, .brokenPipe hget hown hr hpos⟩
  | exited => exact Or.inr rfl
  | reaped => exact hprog.elim

/-- Nobody holds the write end of an older pipe. -/
theorem old_writers_gone {own cap k cur output : Nat} {B : OpenFile} {calls : List Call}
    {sh : Shell w} {instrs : List Instr} {before : List (Stage w)} {st : Stage w}
    {pipes : Nat → Nat} (hreaped : AllReaped before)
    (hshell : ShellAt own B k cur calls pipes sh)
    (hstage : StageAt own cap B k cur output pipes st) :
    ∀ p, own ≤ p → p < cur →
      ¬ Net.Holds (.pipeWrite p) ⟨sh, instrs, before ++ [st], pipes⟩ := by
  rintro p hp hlt (hr | ⟨x, hx, hlive, hr⟩)
  · exact hshell.noOld p hp hlt hr
  · rcases List.mem_append.mp hx with hx | hx
    · rw [hreaped x hx] at hlive
      exact hlive
    · rw [List.mem_singleton.mp hx] at hr
      exact hstage.noOld p hp hlt hr

/-- **Progress**: when every output but the last fits in a pipe, a pipeline that is not finished has
a step.  A stage that waits for room has a shell that waits for it, so the room must be there from
the start. -/
theorem net_progress {own cap n : Nat} {B : OpenFile} {out : Nat → Nat} {net : Net w}
    (hB : B.MadeBefore own) (hfit : ∀ i, i + 1 < n → out i ≤ cap)
    (h : Inv own cap B n out net) : net.Finished ∨ ∃ net', NetStep own cap net net' := by
  cases h with
  | @between sh stages pipes k i _ _ _ _ =>
    right
    cases k with
    | zero => exact ⟨_, .call .restore []⟩
    | succ k => exact ⟨_, .call .pipe _⟩
  | forking => exact Or.inr ⟨_, .fork _ _ _⟩
  | @beside sh before st pipes calls k i cur hn hfits hreaped hown hshell hstage =>
    right
    cases calls with
    | cons c calls => exact ⟨_, .call c _⟩
    | nil =>
      let rest : List Instr := .waitpid :: script out k (i + 1)
      have hno := @old_writers_gone w own cap k cur (out i) B [] sh rest before st pipes hreaped
        hshell hstage
      rcases @stage_progress w own cap k cur (out i) B
        (fun F => Net.Holds F ⟨sh, rest, before ++ [st], pipes⟩) st pipes hB hown
        (fun hk => hfit i (by omega)) hno hstage with ⟨st', pipes', hst⟩ | hexit
      · exact ⟨_, @NetStep.stage w own cap sh rest before [] st st' pipes pipes' hst⟩
      · obtain ⟨proc, output, phase⟩ := st
        cases hexit
        exact ⟨_, .waitpid _⟩
  | finished hfits hreaped => exact Or.inl ⟨rfl, hreaped⟩

/-- A finished pipeline shows that the outputs fitted. -/
theorem fits_of_finished {own cap n : Nat} {B : OpenFile} {out : Nat → Nat} {net : Net w}
    (h : Inv own cap B n out net) (hfin : net.Finished) : ∀ i, i + 1 < n → out i ≤ cap := by
  obtain ⟨hscript, _⟩ := hfin
  cases h with
  | @between sh stages pipes k i _ _ _ _ => cases k <;> cases hscript
  | forking => cases hscript
  | @beside sh before st pipes calls k i cur => cases calls <;> cases hscript
  | finished hfits _ => exact fun i hi => hfits i (by omega) hi

/-- The call of `handle_pipe` satisfies the invariant. -/
theorem inv_start {s : Shell w} {B : OpenFile} (cap n : Nat) (out : Nat → Nat)
    (h0 : s.fds.get STDIN_FILENO ≠ none) (h1 : s.fds.get STDOUT_FILENO = some B) :
    Inv s.fresh cap B n out (Net.start s n out) := by
  refine .between (Nat.zero_add n) (fun j hj => absurd hj (Nat.not_lt_zero j))
    (fun st hst => absurd hst List.not_mem_nil) ?_
  intro _
  refine ⟨h0, h1, ?_, le_rfl, fun _ _ => rfl⟩
  rintro p hp ⟨k, hk⟩
  exact absurd (s.numbered k _ hk) (Nat.not_lt.mpr hp)

theorem neverStuck_start_iff {s : Shell w} {B : OpenFile} (cap n : Nat) (out : Nat → Nat)
    (h0 : s.fds.get STDIN_FILENO ≠ none) (h1 : s.fds.get STDOUT_FILENO = some B) :
    Progress.NeverStuck (NetStep s.fresh cap) Net.Finished (Net.start s n out) ↔
      ∀ i, i + 1 < n → out i ≤ cap := by
  have hB : B.MadeBefore s.fresh := s.numbered _ _ h1
  exact Progress.neverStuck_iff Net.weight
    (fun _ _ hinv hstep => (netStep_spec hB hinv hstep).1)
    (fun _ _ hinv hstep => (netStep_spec hB hinv hstep).2)
    (fun hfit _ hinv => net_progress hB hfit hinv)
    (fun _ hinv hfin => fits_of_finished hinv hfin) (inv_start cap n out h0 h1)

/-- **A pipeline never gets stuck exactly when what each stage but the last writes fits in a pipe**:
for every number of stages, every capacity, every amount of output and every order of steps,
whatever else the shell has open.  Other shells start all stages and then wait, so that a reader is
there to empty the pipe; this one waits for each stage before it starts the next, and a `cat` in
front of `|` hangs it when its file is longer than a pipe. -/
theorem pipeline_neverStuck_iff (s : Shell w) (cap n : Nat) (out : Nat → Nat)
    (h0 : s.fds.get STDIN_FILENO ≠ none) (h1 : s.fds.get STDOUT_FILENO ≠ none) :
    Progress.NeverStuck (NetStep s.fresh cap) Net.Finished (Net.start s n out) ↔
      ∀ i, i + 1 < n → out i ≤ cap := by
  obtain ⟨B, hB⟩ := Option.ne_none_iff_exists'.mp h1
  exact neverStuck_start_iff cap n out h0 hB

/-- Two stages in a shell that has just been started, with pipes of 64 KiB: the first may write
that much. -/
theorem pipeline_neverStuck_full :
    Progress.NeverStuck (NetStep rootSession.shell.fresh 65536) Net.Finished
      (Net.start rootSession.shell 2 (fun _ => 65536)) :=
  (pipeline_neverStuck_iff rootSession.shell 65536 2 (fun _ => 65536) (by decide)
    (by decide)).mpr (fun _ _ => le_rfl)

/-- One byte more, and the shell waits for a stage that waits for a reader. -/
theorem pipeline_gets_stuck :
    ∃ net, Relation.ReflTransGen (NetStep rootSession.shell.fresh 65536)
        (Net.start rootSession.shell 2 (fun _ => 65537)) net ∧
      ¬ net.Finished ∧ ¬ ∃ net', NetStep rootSession.shell.fresh 65536 net net' := by
  have h0 : rootSession.shell.fds.get STDIN_FILENO ≠ none := by decide
  have h1 : rootSession.shell.fds.get STDOUT_FILENO = some (.inherited 1) := by decide
  by_contra hno
  have hnever : Progress.NeverStuck (NetStep rootSession.shell.fresh 65536) Net.Finished
      (Net.start rootSession.shell 2 (fun _ => 65537)) := by
    intro net hnet
    by_contra hstuck
    push Not at hstuck
    exact hno ⟨net, hnet, hstuck.1, fun ⟨net', h⟩ => hstuck.2 net' h⟩
  have hfit := (neverStuck_start_iff 65536 2 (fun _ => 65537) h0 h1).mp hnever 0 (by decide)
  exact absurd hfit (by decide)

end Osexp.Seush
