/-
# The system calls and the two files: `hide.c`, `hide_user_processes.c`, `fork.c`

* `hide` and `hideUserProcesses` are the two new system calls, for a caller with a given uid.
  `recover` and `on` are C `int`s, kept as their 32 bits.
* `copyProcess` is the one line that the patch adds to `copy_process`, with what that function
  does to the table; the number of the new task is given from outside.
* `procWriteHidden` is a write to `/proc/hide` from the result of `kstrtoint` on.  The two reads
  build a text and copy it to the user (`finishRead`).

Exit with the reaping of cached entries, `setuid` and the change of a task's name are not part of
the patch; they are here so that runs can have them.

The calls are kept as the source has them, with its slips: the value of `on` is not looked at, a
refused call of `hide` returns 0, the terminator of a copied name is put before the copy is made.
What follows from each of these is said in the modules on the results, not here.
-/
import Osexp.Hide.Task
import Osexp.Lib.Text

namespace Osexp.Hide

/-- The size of `kbuf` in `proc_read_hidden_process`. -/
def KBUF_SIZE : Nat := 1000

/-- The size of `str` in `proc_read_hidden`. -/
def STR_SIZE : Nat := 16

/-! ## 1. Marking tasks -/

/-- `p->cloak = v` for the tasks that satisfy `m`. -/
def Task.mark (m : Task → Bool) (v : BitVec 32) (t : Task) : Task :=
  if m t then { t with cloak := v } else t

theorem Task.keeps_mark (m : Task → Bool) (v : BitVec 32) : Keeps (Task.mark m v) := by
  intro t
  unfold Task.mark
  split <;> exact ⟨rfl, rfl, rfl⟩

theorem Task.mark_pid (m : Task → Bool) (v : BitVec 32) (t : Task) :
    (t.mark m v).pid = t.pid := (Task.keeps_mark m v t).1

theorem Task.mark_congr {m n : Task → Bool} {t : Task} (v : BitVec 32) (h : m t = n t) :
    t.mark m v = t.mark n v := by
  rw [Task.mark, Task.mark, h]

/-- The task that was marked last decides. -/
theorem Task.mark_mark (m n : Task → Bool) (v : BitVec 32) (t : Task)
    (hn : n (t.mark m v) = n t) :
    (t.mark m v).mark n v = t.mark (fun t => m t || n t) v := by
  unfold Task.mark at *
  cases hm : m t <;> cases hnt : n t <;> simp_all

/-- The argument `binname`: NULL, an address that cannot be read, or a string. -/
inductive UserString
  | null
  | unreadable
  | string (s : List Char)

namespace Kernel

/-- `p->cloak = v` for several tasks. -/
def setCloak (m : Task → Bool) (v : BitVec 32) (k : Kernel) : Kernel :=
  k.updateTasks (Task.mark m v) (Task.keeps_mark m v)

/-! ## 2. The system calls -/

/-- `hide(pid, on)`, called by a process with this uid. -/
def hide (caller : Nat) (pid : Int) (on : BitVec 32) (k : Kernel) : Nat × Kernel :=
  if 0 < pid ∧ caller = 0 then
    match k.findTask pid.toNat with
    | none => (1, k)
    | some p =>
      (0, ((k.setCloak (fun t => t.pid == p.pid) on).getPid p.threadPid).procFlushPid p.threadPid)
  else (0, k)

/-- `strncmp(a, b, n) == 0`, for strings without NUL; one of more than `n` bytes counts as its
first `n`. -/
def strncmpEq (n : Nat) (a b : List Char) : Bool := a.take n == b.take n

/-- One turn of the loop of `hide_user_processes`. -/
def hideOne (m : Task → Bool) (k : Kernel) (p : Task) : Kernel :=
  if m p then
    ((k.setCloak (fun t => t.pid == p.pid) 1).getPid p.threadPid).procFlushPid p.threadPid
  else k

/-- The loop of `hide_user_processes` over all processes. -/
def hideMatching (m : Task → Bool) (k : Kernel) : Kernel := k.processes.foldl (hideOne m) k

/-- The copy of the name that `strncpy_from_user` makes, cut at the size of the array. -/
def kbinname (s : List Char) : List Char := s.take TASK_COMM_LEN

/-- `hide_user_processes(uid, binname, recover)`, called by a process with uid `caller`. -/
def hideUserProcesses (caller uid : Nat) (binname : UserString) (recover : BitVec 32)
    (k : Kernel) : Nat × Kernel :=
  if caller ≠ 0 then (1, k)
  else if recover = 0 then
    match binname with
    | .null => (0, k.hideMatching (fun p => p.uid == uid))
    | .unreadable => (2, k)
    | .string s =>
      (0, k.hideMatching
        (fun p => p.uid == uid && strncmpEq TASK_COMM_LEN p.comm (kbinname s)))
  else (0, k.setCloak Task.isLeader 0)

/-! ## 3. Creation, exit, change of uid -/

end Kernel

/-- The copy of a task that `copy_process` makes: visible whatever its parent is, and a new process
or, with `CLONE_THREAD`, a new thread of the same group. -/
def Task.copy (p : Task) (thread : Bool) (pid id : Nat) : Task :=
  { p with
    pid := pid
    tgid := if thread then p.tgid else pid
    cloak := 0
    threadPid := id }

/-- The task of this number gets another uid. -/
def Task.setUid (pid uid : Nat) (t : Task) : Task :=
  if t.pid = pid then { t with uid := uid } else t

/-- The task of this number gets another name, cut to fit. -/
def Task.setComm (pid : Nat) (buf : List Char) (t : Task) : Task :=
  if t.pid = pid then
    { t with
      comm := buf.take (TASK_COMM_LEN - 1)
      comm_length := Nat.lt_of_le_of_lt (List.length_take_le _ _) (by decide) }
  else t

theorem Task.keeps_setUid (pid uid : Nat) : Keeps (Task.setUid pid uid) := by
  intro t
  unfold Task.setUid
  split <;> exact ⟨rfl, rfl, rfl⟩

@[simp] theorem Task.setUid_cloak (pid uid : Nat) (t : Task) :
    (t.setUid pid uid).cloak = t.cloak := by
  unfold Task.setUid
  split <;> rfl

@[simp] theorem Task.setComm_cloak (pid : Nat) (buf : List Char) (t : Task) :
    (t.setComm pid buf).cloak = t.cloak := by
  unfold Task.setComm
  split <;> rfl

theorem Task.keeps_setComm (pid : Nat) (buf : List Char) : Keeps (Task.setComm pid buf) := by
  intro t
  unfold Task.setComm
  split <;> exact ⟨rfl, rfl, rfl⟩

namespace Kernel

/-- The number is free for a new task. -/
def FreeNumber (k : Kernel) (pid : Nat) : Prop :=
  (0 < pid ∧ pid < PID_MAX_LIMIT) ∧ ∀ t ∈ k.tasks.list, t.pid ≠ pid

instance (k : Kernel) (pid : Nat) : Decidable (k.FreeNumber pid) :=
  inferInstanceAs (Decidable (_ ∧ _))

/-- `copy_process` by the task `parent`.  It fails when the number is not free. -/
def copyProcess (parent : Nat) (thread : Bool) (pid : Nat) (k : Kernel) : Option Kernel :=
  match hp : k.findTask parent with
  | none => none
  | some p =>
    if h : k.FreeNumber pid then
      some { k with
        tasks := k.tasks.add (p.copy thread pid k.fresh) h.1.2 h.2
          (fun u hu => Nat.ne_of_lt (k.fresh_tasks u hu))
          (by
            cases thread with
            | false => exact Or.inl rfl
            | true => exact Or.inr (k.tasks.grouped p (findTask_eq_some_iff.mp hp).1))
        fresh := k.fresh + 1
        fresh_tasks := by
          intro t ht
          rcases List.mem_append.mp ht with ht | ht
          · exact Nat.lt_succ_of_lt (k.fresh_tasks t ht)
          · rw [List.mem_singleton.mp ht]
            exact Nat.lt_succ_self _
        fresh_dcache := fun d hd => Nat.lt_succ_of_lt (k.fresh_dcache d hd)
        named := by
          intro d hd t ht heq
          rcases List.mem_append.mp ht with ht | ht
          · exact k.named d hd t ht heq
          · rw [List.mem_singleton.mp ht] at heq
            exact absurd heq.symm (Nat.ne_of_lt (k.fresh_dcache d hd)) }
    else none

theorem copyProcess_eq_none_iff {k : Kernel} {parent pid : Nat} {thread : Bool} :
    k.copyProcess parent thread pid = none ↔ k.findTask parent = none ∨ ¬ k.FreeNumber pid := by
  unfold copyProcess
  split
  · rename_i hnone
    simp [hnone]
  · rename_i p hsome
    split <;> simp_all

/-- What `copy_process` leaves. -/
theorem copyProcess_eq_some {k k' : Kernel} {parent pid : Nat} {thread : Bool}
    (h : k.copyProcess parent thread pid = some k') :
    ∃ p, k.findTask parent = some p ∧ k.FreeNumber pid ∧
      k'.tasks.list = k.tasks.list ++ [p.copy thread pid k.fresh] ∧ k'.dcache = k.dcache ∧
      k'.hiddenFlag = k.hiddenFlag := by
  unfold copyProcess at h
  split at h
  · cases h
  · rename_i p hsome
    split at h
    · rename_i hfree
      cases h
      exact ⟨p, hsome, hfree, rfl, rfl, rfl⟩
    · cases h

/-- A task is released, and its cached entries if the reaper gets to them.  A leader stays in the
table until its last thread is gone. -/
def releaseTask (pid : Nat) (flushed : Bool) (k : Kernel) : Kernel :=
  match k.findTask pid with
  | none => k
  | some p =>
    if h : k.tasks.needed p = false then
      let k : Kernel := { k with
        tasks := k.tasks.remove p h
        fresh_tasks := fun t ht => k.fresh_tasks t (List.mem_of_mem_filter ht)
        named := fun d hd t ht => k.named d hd t (List.mem_of_mem_filter ht) }
      if flushed then k.procFlushPid p.threadPid else k
    else k

/-- `setuid`: the task gets another uid. -/
def setuid (pid uid : Nat) (k : Kernel) : Kernel :=
  k.updateTasks (Task.setUid pid uid) (Task.keeps_setUid pid uid)

/-- `__set_task_comm(tsk, buf)`. -/
def setTaskComm (pid : Nat) (buf : List Char) (k : Kernel) : Kernel :=
  k.updateTasks (Task.setComm pid buf) (Task.keeps_setComm pid buf)

/-! ## 4. The two files -/

/-- A write to `/proc/hide`; `none` when `kstrtoint` rejects the text. -/
def procWriteHidden (parsed : Option Int) (k : Kernel) : Kernel :=
  match parsed with
  | none => k
  | some v => { k with hiddenFlag := v }

/-- `sprintf(_, "%ld", (long)n)`. -/
def decimal (n : Nat) : List Char := Nat.toDigits 10 n

/-- The text that `proc_read_hidden` builds in `str`: `snprintf(str, sizeof(str), "%d\n", _)`. -/
def flagText (k : Kernel) : List Char :=
  ((match k.hiddenFlag with
    | .ofNat n => decimal n
    | .negSucc n => '-' :: decimal (n + 1)) ++ ['\n']).take (STR_SIZE - 1)

/-- The text that `proc_read_hidden_process` appends up pid by pid. -/
def hiddenText (k : Kernel) : List Char :=
  k.processes.foldl
    (fun kbuf p => if p.cloak = 1 then kbuf ++ (decimal p.pid ++ [' ']) else kbuf) []

/-- The text in `kbuf` after the loop; `none` when it has run over the array. -/
def kbuf (k : Kernel) : Option (List Char) :=
  if (hiddenText k).length < KBUF_SIZE then some (hiddenText k) else none

/-- A call of `read`: its `count`, and how many bytes from the start of the buffer on can be
written before a fault. -/
structure ReadCall where
  count : Nat
  writable : Nat

/-- What a call of `read` did: the bytes stored in the buffer, its result, the new offset. -/
structure ReadResult where
  stored : List Char
  ret : Int
  ppos : Nat
  deriving DecidableEq

/-- `copy_to_user(buf, src, n)` for the whole of `src`: what is stored, and the number of bytes
that are not. -/
def copyToUser (writable : Nat) (src : List Char) : List Char × Nat :=
  (src.take writable, src.length - writable)

/-- The end of both handlers, from the text they have built on.  `count` is not looked at. -/
def finishRead (str : List Char) (call : ReadCall) (ppos : Nat) : ReadResult :=
  let cnt := str.length
  let (stored, ret) := copyToUser call.writable str
  let ppos := ppos + (cnt - ret)
  if cnt < ppos then ⟨stored, 0, ppos⟩ else ⟨stored, cnt, ppos⟩

/-- `proc_read_hidden`. -/
def procReadHidden (k : Kernel) (call : ReadCall) (ppos : Nat) : Option ReadResult :=
  some (finishRead k.flagText call ppos)

/-- `proc_read_hidden_process`. -/
def procReadHiddenProcess (k : Kernel) (call : ReadCall) (ppos : Nat) : Option ReadResult :=
  k.kbuf.map fun text => finishRead text call ppos

end Kernel

end Osexp.Hide
