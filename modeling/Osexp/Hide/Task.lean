/-
# Tasks, the dentry cache of `/proc`, and the kernel state

What the patched kernel keeps about processes, as far as hiding them goes: the task table with the
new field `cloak`, the global `hidden_flag`, and the cached entries of `/proc`.

A task is named twice.  Its number `pid` is what users see, and may be given to another task
later; its `struct pid` (here a number that is never given twice) is what the inode of a cached
entry refers to.  A name in `/proc` is the decimal text of a number and is written as that number.

The kernel's own invariants are fields of the types: numbers are below `PID_MAX_LIMIT`, numbers
and `struct pid`s are unique, every thread has a leader in the table, the name of a cached entry is
the number of its task.

What is left out of a task is everything that no modelled function reads.  The table is a list in
the order of creation, because that is the order in which the kernel walks it.
-/
import Mathlib.Data.List.Nodup
import Mathlib.Logic.Function.Basic

namespace Osexp.Hide

/-- The size of `comm`, its terminator included. -/
def TASK_COMM_LEN : Nat := 16

/-- Numbers are below this. -/
def PID_MAX_LIMIT : Nat := 4 * 1024 * 1024

/-! ## 1. Tasks -/

/-- `struct task_struct`. -/
structure Task where
  pid : Nat
  tgid : Nat
  uid : Nat
  /-- the name of the process -/
  comm : List Char
  comm_length : comm.length < TASK_COMM_LEN
  /-- 0 visible, 1 hidden -/
  cloak : BitVec 32
  /-- the `struct pid` -/
  threadPid : Nat
  deriving DecidableEq

/-- `thread_group_leader(p)`. -/
def Task.isLeader (t : Task) : Bool := t.pid == t.tgid

theorem Task.isLeader_iff {t : Task} : t.isLeader = true ↔ t.pid = t.tgid := beq_iff_eq

/-- A change of a task that leaves its numbers. -/
def Keeps (f : Task → Task) : Prop :=
  ∀ t, (f t).pid = t.pid ∧ (f t).tgid = t.tgid ∧ (f t).threadPid = t.threadPid

/-- The task table, in the order of `for_each_process`. -/
structure Tasks where
  list : List Task
  pids : (list.map Task.pid).Nodup
  ids : (list.map Task.threadPid).Nodup
  small : ∀ t ∈ list, t.pid < PID_MAX_LIMIT
  grouped : ∀ t ∈ list, ∃ l ∈ list, l.isLeader = true ∧ l.pid = t.tgid

namespace Tasks

variable {ts : Tasks} {t u : Task}

theorem eq_of_pid (ht : t ∈ ts.list) (hu : u ∈ ts.list) (h : t.pid = u.pid) : t = u :=
  List.inj_on_of_nodup_map ts.pids ht hu h

theorem eq_of_threadPid (ht : t ∈ ts.list) (hu : u ∈ ts.list) (h : t.threadPid = u.threadPid) :
    t = u :=
  List.inj_on_of_nodup_map ts.ids ht hu h

/-- Change tasks without touching their numbers. -/
def update (ts : Tasks) (f : Task → Task) (hf : Keeps f) : Tasks where
  list := ts.list.map f
  pids := by
    have h : (ts.list.map f).map Task.pid = ts.list.map Task.pid := by
      rw [List.map_map]
      exact List.map_congr_left (fun t _ => (hf t).1)
    rw [h]
    exact ts.pids
  ids := by
    have h : (ts.list.map f).map Task.threadPid = ts.list.map Task.threadPid := by
      rw [List.map_map]
      exact List.map_congr_left (fun t _ => (hf t).2.2)
    rw [h]
    exact ts.ids
  small := by
    intro t ht
    obtain ⟨u, hu, rfl⟩ := List.mem_map.mp ht
    rw [(hf u).1]
    exact ts.small u hu
  grouped := by
    intro t ht
    obtain ⟨u, hu, rfl⟩ := List.mem_map.mp ht
    obtain ⟨l, hl, hlead, hpid⟩ := ts.grouped u hu
    obtain ⟨hlpid, hltgid, _⟩ := hf l
    refine ⟨f l, List.mem_map_of_mem hl, ?_, ?_⟩
    · rw [Task.isLeader_iff, hlpid, hltgid]
      exact Task.isLeader_iff.mp hlead
    · rw [hlpid, (hf u).2.1, hpid]

/-- Add a task with new numbers: a thread of a group that exists, or a new leader. -/
def add (ts : Tasks) (t : Task) (hsmall : t.pid < PID_MAX_LIMIT)
    (hpid : ∀ u ∈ ts.list, u.pid ≠ t.pid) (hid : ∀ u ∈ ts.list, u.threadPid ≠ t.threadPid)
    (hgroup : t.pid = t.tgid ∨ ∃ l ∈ ts.list, l.isLeader = true ∧ l.pid = t.tgid) : Tasks where
  list := ts.list ++ [t]
  pids := by
    rw [List.map_append, List.map_singleton, List.nodup_append]
    refine ⟨ts.pids, List.nodup_singleton _, ?_⟩
    intro a ha b hb
    obtain ⟨u, hu, rfl⟩ := List.mem_map.mp ha
    rw [List.mem_singleton.mp hb]
    exact hpid u hu
  ids := by
    rw [List.map_append, List.map_singleton, List.nodup_append]
    refine ⟨ts.ids, List.nodup_singleton _, ?_⟩
    intro a ha b hb
    obtain ⟨u, hu, rfl⟩ := List.mem_map.mp ha
    rw [List.mem_singleton.mp hb]
    exact hid u hu
  small := by
    intro u hu
    rcases List.mem_append.mp hu with hu | hu
    · exact ts.small u hu
    · rw [List.mem_singleton.mp hu]
      exact hsmall
  grouped := by
    intro u hu
    rcases List.mem_append.mp hu with hu | hu
    · obtain ⟨l, hl, h⟩ := ts.grouped u hu
      exact ⟨l, List.mem_append_left _ hl, h⟩
    · rw [List.mem_singleton.mp hu]
      rcases hgroup with hlead | ⟨l, hl, h⟩
      · exact ⟨t, by simp, Task.isLeader_iff.mpr hlead, hlead⟩
      · exact ⟨l, List.mem_append_left _ hl, h⟩

/-- The task is a leader that other threads still need. -/
def needed (ts : Tasks) (t : Task) : Bool :=
  ts.list.any fun u => u.tgid == t.pid && u.pid != t.pid

/-- Take a task out of the table. -/
def remove (ts : Tasks) (t : Task) (h : ts.needed t = false) : Tasks where
  list := ts.list.filter (fun u => u.pid != t.pid)
  pids := ts.pids.sublist (List.filter_sublist.map _)
  ids := ts.ids.sublist (List.filter_sublist.map _)
  small := fun u hu => ts.small u (List.mem_of_mem_filter hu)
  grouped := by
    intro u hu
    obtain ⟨hu, hne⟩ := List.mem_filter.mp hu
    obtain ⟨l, hl, hlead, hpid⟩ := ts.grouped u hu
    refine ⟨l, List.mem_filter.mpr ⟨hl, ?_⟩, hlead, hpid⟩
    rw [bne_iff_ne]
    intro heq
    have huse := List.any_eq_false.mp h u hu
    rw [← hpid, heq, beq_self_eq_true, hne] at huse
    exact huse rfl

end Tasks

/-! ## 2. The dentry cache and the state -/

/-- A cached entry of `/proc`: its name, and the `struct pid` of its inode. -/
structure Dentry where
  name : Nat
  pid : Nat
  deriving DecidableEq

/-- The state.  `taskRefs` and `pidRefs` count the references that the modelled functions take on
a task and on a `struct pid` and have not given back, `fresh` is the next `struct pid`. -/
structure Kernel where
  tasks : Tasks
  dcache : List Dentry
  hiddenFlag : Int
  fresh : Nat
  taskRefs : Nat → Nat
  pidRefs : Nat → Nat
  fresh_tasks : ∀ t ∈ tasks.list, t.threadPid < fresh
  fresh_dcache : ∀ d ∈ dcache, d.pid < fresh
  names : (dcache.map Dentry.name).Nodup
  named : ∀ d ∈ dcache, ∀ t ∈ tasks.list, t.threadPid = d.pid → t.pid = d.name

namespace Kernel

variable {k : Kernel}

/-- `find_task_by_vpid(n)`, and `pid_task(find_vpid(n), PIDTYPE_PID)`. -/
def findTask (k : Kernel) (n : Nat) : Option Task := k.tasks.list.find? (·.pid == n)

/-- The tasks that `for_each_process` visits. -/
def processes (k : Kernel) : List Task := k.tasks.list.filter Task.isLeader

theorem findTask_eq_some_iff {n : Nat} {t : Task} :
    k.findTask n = some t ↔ t ∈ k.tasks.list ∧ t.pid = n := by
  constructor
  · intro h
    have hp := List.find?_some h
    exact ⟨List.mem_of_find?_eq_some h, beq_iff_eq.mp hp⟩
  · rintro ⟨ht, rfl⟩
    cases h : k.findTask t.pid with
    | none =>
      have hno := List.find?_eq_none.mp h t ht
      simp at hno
    | some u =>
      have hp := List.find?_some h
      rw [k.tasks.eq_of_pid (List.mem_of_find?_eq_some h) ht (beq_iff_eq.mp hp)]

theorem findTask_eq_none_iff {n : Nat} :
    k.findTask n = none ↔ ∀ t ∈ k.tasks.list, t.pid ≠ n := by
  rw [findTask, List.find?_eq_none]
  simp

theorem mem_processes {t : Task} :
    t ∈ k.processes ↔ t ∈ k.tasks.list ∧ t.isLeader = true := List.mem_filter

/-- Change tasks without touching their numbers. -/
def updateTasks (k : Kernel) (f : Task → Task) (hf : Keeps f) : Kernel :=
  { k with
    tasks := k.tasks.update f hf
    fresh_tasks := by
      intro t ht
      obtain ⟨u, hu, rfl⟩ := List.mem_map.mp ht
      rw [(hf u).2.2]
      exact k.fresh_tasks u hu
    named := by
      intro d hd t ht h
      obtain ⟨u, hu, rfl⟩ := List.mem_map.mp ht
      rw [(hf u).2.2] at h
      rw [(hf u).1]
      exact k.named d hd u hu h }

/-- Drop cached entries. -/
def keepDentries (k : Kernel) (p : Dentry → Bool) : Kernel :=
  { k with
    dcache := k.dcache.filter p
    fresh_dcache := fun d hd => k.fresh_dcache d (List.mem_of_mem_filter hd)
    names := k.names.sublist (List.filter_sublist.map _)
    named := fun d hd => k.named d (List.mem_of_mem_filter hd) }

/-- `proc_flush_pid(pid)`: every cached entry of the `struct pid` goes. -/
def procFlushPid (id : Nat) (k : Kernel) : Kernel := k.keepDentries (fun d => d.pid != id)

/-- `get_pid(pid)`. -/
def getPid (id : Nat) (k : Kernel) : Kernel :=
  { k with pidRefs := Function.update k.pidRefs id (k.pidRefs id + 1) }

/-- `get_task_struct(t)`. -/
def getTaskStruct (t : Task) (k : Kernel) : Kernel :=
  { k with taskRefs := Function.update k.taskRefs t.threadPid (k.taskRefs t.threadPid + 1) }

/-- `put_task_struct(t)`. -/
def putTaskStruct (t : Task) (k : Kernel) : Kernel :=
  { k with taskRefs := Function.update k.taskRefs t.threadPid (k.taskRefs t.threadPid - 1) }

@[simp] theorem getPid_tasks (id : Nat) (k : Kernel) : (k.getPid id).tasks = k.tasks := rfl
@[simp] theorem getPid_dcache (id : Nat) (k : Kernel) : (k.getPid id).dcache = k.dcache := rfl
@[simp] theorem getPid_flag (id : Nat) (k : Kernel) :
    (k.getPid id).hiddenFlag = k.hiddenFlag := rfl
@[simp] theorem procFlushPid_tasks (id : Nat) (k : Kernel) :
    (k.procFlushPid id).tasks = k.tasks := rfl
@[simp] theorem procFlushPid_flag (id : Nat) (k : Kernel) :
    (k.procFlushPid id).hiddenFlag = k.hiddenFlag := rfl
@[simp] theorem procFlushPid_dcache (id : Nat) (k : Kernel) :
    (k.procFlushPid id).dcache = k.dcache.filter (fun d => d.pid != id) := rfl
@[simp] theorem updateTasks_dcache (k : Kernel) (f : Task → Task) (hf : Keeps f) :
    (k.updateTasks f hf).dcache = k.dcache := rfl
@[simp] theorem updateTasks_flag (k : Kernel) (f : Task → Task) (hf : Keeps f) :
    (k.updateTasks f hf).hiddenFlag = k.hiddenFlag := rfl
@[simp] theorem updateTasks_list (k : Kernel) (f : Task → Task) (hf : Keeps f) :
    (k.updateTasks f hf).tasks.list = k.tasks.list.map f := rfl

end Kernel

end Osexp.Hide
