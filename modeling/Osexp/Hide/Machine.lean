/-
# The operations on the kernel, and what one of them can do

* `Op` are the system calls of the patch by callers of any uid, writes to `/proc/hide`, the
  creation, the change and the end of tasks, and the two directory operations.
* `Op.after_list` says for all of them at once what becomes of the task table: some tasks go, those
  that stay are changed by `Op.effect`, some come.  `Op.asks` is the value for `cloak` that an
  operation asks for a task, and `effect_cloak` that it is all that ever changes a `cloak`.
* `after_flag` and `after_dcache` do the same for the flag and the dentry cache.

The invariants of the later modules are all derived from these three.

That an operation has a hundred lines of C behind it and another one line does not matter to an
invariant of the table.  Every operation can do three things to it, and which of them it does is
decided by what it is, by the uid of its caller and by the numbers it is given.
-/
import Osexp.Hide.Procfs
import Osexp.Lib.Runs

namespace Osexp.Hide

/-! ## 1. Operations -/

inductive Op
  | hide (caller : Nat) (pid : Int) (on : BitVec 32)
  | hideUserProcesses (caller uid : Nat) (binname : UserString) (recover : BitVec 32)
  | writeHidden (parsed : Option Int)
  | copyProcess (parent : Nat) (thread : Bool) (pid : Nat)
  | exit (pid : Nat) (flushed : Bool)
  | setuid (pid uid : Nat)
  | setTaskComm (pid : Nat) (buf : List Char)
  | readdir (info : ProcFsInfo) (ctx : DirContext)
  | resolve (info : ProcFsInfo) (name : Option Nat)

/-- A kernel that runs nothing but `init`. -/
def Kernel.initial : Kernel where
  tasks :=
    { list := [⟨1, 1, 0, ['i', 'n', 'i', 't'], by decide, 0, 0⟩]
      pids := by decide
      ids := by decide
      small := by decide
      grouped := by decide }
  dcache := []
  hiddenFlag := 1
  fresh := 1
  taskRefs := fun _ => 0
  pidRefs := fun _ => 0
  fresh_tasks := by decide
  fresh_dcache := by decide
  names := by decide
  named := by decide

namespace Op

/-- The state that the operation leaves. -/
def after (k : Kernel) : Op → Kernel
  | hide caller pid on => (k.hide caller pid on).2
  | hideUserProcesses caller uid binname recover =>
    (k.hideUserProcesses caller uid binname recover).2
  | writeHidden parsed => k.procWriteHidden parsed
  | copyProcess parent thread pid => (k.copyProcess parent thread pid).getD k
  | exit pid flushed => k.releaseTask pid flushed
  | setuid pid uid => k.setuid pid uid
  | setTaskComm pid buf => k.setTaskComm pid buf
  | readdir info ctx => (k.procPidReaddir info ctx).2
  | resolve info name => (k.resolve info name).2

/-- The step relation of the kernel. -/
def Step (k : Kernel) (op : Op) (k' : Kernel) : Prop := k' = op.after k

/-- The run of these operations. -/
def trail : Kernel → List Op → Lts.Trail Kernel Op
  | _, [] => []
  | k, op :: ops => (op, op.after k) :: trail (op.after k) ops

theorem run_trail (k : Kernel) (ops : List Op) : Lts.Run Step k (trail k ops) := by
  induction ops generalizing k with
  | nil => exact .nil k
  | cons op ops ih => exact .cons rfl (ih _)

end Op

/-- The kernel has just come up: every task is visible, the flag has its initial value, nothing is
cached. -/
structure Kernel.Booted (k : Kernel) : Prop where
  visible : ∀ t ∈ k.tasks.list, t.cloak = 0
  flag : k.hiddenFlag = 1
  cold : k.dcache = []

theorem Kernel.booted_initial : Kernel.initial.Booted where
  visible := by decide
  flag := rfl
  cold := rfl

/-! ## 2. What an operation asks for -/

/-- The name given covers this `comm`: every one, none, or one that is equal. -/
def UserString.covers : UserString → List Char → Bool
  | null, _ => true
  | unreadable, _ => false
  | string s, comm => s == comm

namespace Op

/-- The value for `cloak` that the operation asks for the task. -/
def asks (t : Task) : Op → Option (BitVec 32)
  | hide caller pid on => if caller = 0 ∧ 0 < pid ∧ (t.pid : Int) = pid then some on else none
  | hideUserProcesses caller uid binname recover =>
    if caller = 0 ∧ t.isLeader = true then
      if recover = 0 then
        if t.uid = uid ∧ binname.covers t.comm = true then some 1 else none
      else some 0
    else none
  | _ => none

/-- The value that the operation writes to `hidden_flag`. -/
def written : Op → Option Int
  | writeHidden parsed => parsed
  | _ => none

/-- What the operation does to a task that stays. -/
def effect (t : Task) : Op → Task
  | setuid pid uid => t.setUid pid uid
  | setTaskComm pid buf => t.setComm pid buf
  | op => { t with cloak := (op.asks t).getD t.cloak }

/-- The task stays in the table. -/
def keeps (k : Kernel) (t : Task) : Op → Bool
  | exit pid _ => t.pid != pid || k.tasks.needed t
  | _ => true

/-- The new tasks. -/
def born (k : Kernel) : Op → List Task
  | copyProcess parent thread pid =>
    match k.findTask parent with
    | none => []
    | some p => if k.FreeNumber pid then [p.copy thread pid k.fresh] else []
  | _ => []

variable {op : Op} {t : Task} {k : Kernel}

theorem keeps_effect (op : Op) : Keeps (fun t => op.effect t) := by
  intro t
  cases op with
  | setuid pid uid => exact Task.keeps_setUid pid uid t
  | setTaskComm pid buf => exact Task.keeps_setComm pid buf t
  | _ => exact ⟨rfl, rfl, rfl⟩

@[simp] theorem effect_pid : (op.effect t).pid = t.pid := (op.keeps_effect t).1
@[simp] theorem effect_tgid : (op.effect t).tgid = t.tgid := (op.keeps_effect t).2.1
@[simp] theorem effect_threadPid : (op.effect t).threadPid = t.threadPid :=
  (op.keeps_effect t).2.2

@[simp] theorem effect_isLeader : (op.effect t).isLeader = t.isLeader := by
  rw [Task.isLeader, effect_pid, effect_tgid, Task.isLeader]

/-- **Only what is asked for changes a `cloak`.**  Every invariant of `cloak` starts here. -/
theorem effect_cloak : (op.effect t).cloak = (op.asks t).getD t.cloak := by
  cases op with
  | setuid pid uid => exact Task.setUid_cloak pid uid t
  | setTaskComm pid buf => exact Task.setComm_cloak pid buf t
  | _ => rfl

theorem mem_born : t ∈ op.born k ↔ ∃ parent thread pid p, op = copyProcess parent thread pid ∧
    k.findTask parent = some p ∧ k.FreeNumber pid ∧ t = p.copy thread pid k.fresh := by
  constructor
  · intro h
    cases op with
    | copyProcess parent thread pid =>
      simp only [born] at h
      split at h
      · cases h
      · rename_i p hp
        split at h
        · rename_i hfree
          exact ⟨parent, thread, pid, p, rfl, hp, hfree, List.mem_singleton.mp h⟩
        · cases h
    | _ => cases h
  · rintro ⟨parent, thread, pid, p, rfl, hp, hfree, rfl⟩
    simp only [born, hp, if_pos hfree, List.mem_singleton]

/-- **A new task is visible**, and nothing else has its `struct pid`. -/
theorem born_cloak (h : t ∈ op.born k) : t.cloak = 0 ∧ t.threadPid = k.fresh := by
  obtain ⟨_, _, _, _, _, _, _, rfl⟩ := mem_born.mp h
  exact ⟨rfl, rfl⟩

end Op

/-! ## 3. The task table -/

namespace Kernel

variable {k : Kernel}

/-- A name cut to the array is compared as the whole name, since no `comm` fills the array. -/
theorem strncmpEq_kbinname {comm : List Char} (h : comm.length < TASK_COMM_LEN) (s : List Char) :
    strncmpEq TASK_COMM_LEN comm (kbinname s) = (s == comm) := by
  unfold strncmpEq kbinname
  rw [List.take_of_length_le (Nat.le_of_lt h), List.take_take, Nat.min_self, Bool.eq_iff_iff,
    beq_iff_eq, beq_iff_eq]
  constructor
  · intro heq
    have hlen := congrArg List.length heq
    rw [List.length_take] at hlen
    rw [heq, List.take_of_length_le (by omega)]
  · rintro rfl
    rw [List.take_of_length_le (Nat.le_of_lt h)]

theorem hideMatching_foldl (m : Task → Bool) (ps : List Task) :
    ∀ k : Kernel, (ps.foldl (hideOne m) k).tasks.list =
        k.tasks.list.map (Task.mark (fun t => ps.any (fun p => m p && t.pid == p.pid)) 1) ∧
      (ps.foldl (hideOne m) k).dcache =
        k.dcache.filter (fun d => !ps.any (fun p => m p && d.pid == p.threadPid)) ∧
      (ps.foldl (hideOne m) k).hiddenFlag = k.hiddenFlag ∧
      (ps.foldl (hideOne m) k).fresh = k.fresh := by
  induction ps with
  | nil =>
    intro k
    refine ⟨?_, ?_, rfl, rfl⟩
    · have hid : ∀ t ∈ k.tasks.list,
          Task.mark (fun t => ([] : List Task).any (fun p => m p && t.pid == p.pid)) 1 t = t :=
        fun _ _ => rfl
      rw [List.map_congr_left hid, List.map_id']
      rfl
    · simp
  | cons p ps ih =>
    intro k
    obtain ⟨hlist, hdcache, hflag, hfresh⟩ := ih (hideOne m k p)
    rw [List.foldl_cons]
    cases hm : m p with
    | false =>
      have hone : hideOne m k p = k := by simp [hideOne, hm]
      rw [hone] at hlist hdcache hflag hfresh ⊢
      simp only [List.any_cons, hm, Bool.false_and, Bool.false_or]
      exact ⟨hlist, hdcache, hflag, hfresh⟩
    | true =>
      have hone : hideOne m k p =
          ((k.setCloak (fun t => t.pid == p.pid) 1).getPid p.threadPid).procFlushPid
            p.threadPid := by
        simp [hideOne, hm]
      rw [hone] at hlist hdcache hflag hfresh ⊢
      refine ⟨?_, ?_, hflag, hfresh⟩
      · rw [hlist, procFlushPid_tasks, getPid_tasks, setCloak, updateTasks_list, List.map_map]
        refine List.map_congr_left fun t _ => ?_
        simp only [Function.comp, List.any_cons, hm, Bool.true_and]
        exact Task.mark_mark _ _ _ _ (by simp only [Task.mark_pid])
      · rw [hdcache, procFlushPid_dcache, getPid_dcache, setCloak, updateTasks_dcache,
          List.filter_filter]
        refine List.filter_congr fun d _ => ?_
        simp only [List.any_cons, hm, Bool.true_and, Bool.not_or]
        rw [Bool.and_comm]
        rfl

theorem hideMatching_list (m : Task → Bool) (k : Kernel) :
    (k.hideMatching m).tasks.list =
      k.tasks.list.map (Task.mark (fun t => t.isLeader && m t) 1) := by
  refine (hideMatching_foldl m k.processes k).1.trans (List.map_congr_left fun t ht => ?_)
  -- the task that a process names by its number is that process
  have hany : k.processes.any (fun p => m p && t.pid == p.pid) = (t.isLeader && m t) := by
    rw [Bool.eq_iff_iff, List.any_eq_true, Bool.and_eq_true]
    constructor
    · rintro ⟨p, hp, hmp⟩
      rw [Bool.and_eq_true, beq_iff_eq] at hmp
      obtain ⟨hp, hlead⟩ := mem_processes.mp hp
      rw [k.tasks.eq_of_pid ht hp hmp.2]
      exact ⟨hlead, hmp.1⟩
    · rintro ⟨hlead, hm⟩
      exact ⟨t, mem_processes.mpr ⟨ht, hlead⟩, by simp [hm]⟩
  exact Task.mark_congr 1 hany

theorem hideMatching_dcache (m : Task → Bool) (k : Kernel) :
    (k.hideMatching m).dcache =
      k.dcache.filter (fun d => !k.processes.any (fun p => m p && d.pid == p.threadPid)) :=
  (hideMatching_foldl m k.processes k).2.1

@[simp] theorem hideMatching_flag (m : Task → Bool) (k : Kernel) :
    (k.hideMatching m).hiddenFlag = k.hiddenFlag :=
  (hideMatching_foldl m k.processes k).2.2.1

@[simp] theorem hideMatching_fresh (m : Task → Bool) (k : Kernel) :
    (k.hideMatching m).fresh = k.fresh :=
  (hideMatching_foldl m k.processes k).2.2.2

end Kernel

namespace Op

variable {op : Op} {k : Kernel} {t : Task} {d : Dentry}

theorem hide_list (caller : Nat) (pid : Int) (on : BitVec 32) (k : Kernel) :
    (k.hide caller pid on).2.tasks.list = k.tasks.list.map (hide caller pid on).effect := by
  unfold Kernel.hide
  split
  · rename_i h
    split
    · rename_i hnone
      have hid : ∀ t ∈ k.tasks.list, (hide caller pid on).effect t = t := by
        intro t ht
        have hne := Kernel.findTask_eq_none_iff.mp hnone t ht
        have hask : (hide caller pid on).asks t = none := if_neg (by omega)
        simp only [effect, hask, Option.getD_none]
      rw [List.map_congr_left hid, List.map_id']
    · rename_i p hsome
      obtain ⟨_, hp⟩ := Kernel.findTask_eq_some_iff.mp hsome
      simp only [Kernel.procFlushPid_tasks, Kernel.getPid_tasks, Kernel.setCloak,
        Kernel.updateTasks_list]
      refine List.map_congr_left fun t _ => ?_
      have hiff : t.pid = p.pid ↔ caller = 0 ∧ 0 < pid ∧ (t.pid : Int) = pid := by omega
      simp only [effect, asks, Task.mark, beq_iff_eq, hiff]
      split <;> rfl
  · rename_i h
    have hid : ∀ t ∈ k.tasks.list, (hide caller pid on).effect t = t := by
      intro t _
      have hask : (hide caller pid on).asks t = none := if_neg (by omega)
      simp only [effect, hask, Option.getD_none]
    rw [List.map_congr_left hid, List.map_id']

theorem hideUserProcesses_list (caller uid : Nat) (binname : UserString) (recover : BitVec 32)
    (k : Kernel) :
    (k.hideUserProcesses caller uid binname recover).2.tasks.list =
      k.tasks.list.map (hideUserProcesses caller uid binname recover).effect := by
  -- the tasks that the call marks are those for which it asks for a value
  have hmark : ∀ (m : Task → Bool) (v : BitVec 32),
      (∀ t, (hideUserProcesses caller uid binname recover).asks t =
        if m t = true then some v else none) →
      k.tasks.list.map (Task.mark m v) =
        k.tasks.list.map (hideUserProcesses caller uid binname recover).effect := by
    intro m v h
    refine List.map_congr_left fun t _ => ?_
    simp only [effect, h, Task.mark]
    split <;> rfl
  have hnone : (∀ t, (hideUserProcesses caller uid binname recover).asks t = none) →
      k.tasks.list = k.tasks.list.map (hideUserProcesses caller uid binname recover).effect := by
    intro h
    have hid : ∀ t ∈ k.tasks.list, (hideUserProcesses caller uid binname recover).effect t = t := by
      intro t _
      simp only [effect, h, Option.getD_none]
    rw [List.map_congr_left hid, List.map_id']
  unfold Kernel.hideUserProcesses
  split
  · rename_i hroot
    exact hnone fun t => if_neg fun h => hroot h.1
  · rename_i hroot
    have hroot : caller = 0 := not_not.mp hroot
    split
    · rename_i hrec
      cases binname with
      | null =>
        rw [← hmark (fun t => t.isLeader && t.uid == uid) 1 ?_]
        · exact Kernel.hideMatching_list _ k
        · intro t
          simp only [asks, hroot, hrec, UserString.covers, Bool.and_eq_true, beq_iff_eq]
          grind
      | unreadable =>
        refine hnone fun t => ?_
        simp [asks, hrec, UserString.covers]
      | string s =>
        rw [← hmark (fun t => t.isLeader && (t.uid == uid &&
          Kernel.strncmpEq TASK_COMM_LEN t.comm (Kernel.kbinname s))) 1 ?_]
        · exact Kernel.hideMatching_list _ k
        · intro t
          rw [Kernel.strncmpEq_kbinname t.comm_length]
          simp only [asks, hroot, hrec, UserString.covers, Bool.and_eq_true, beq_iff_eq]
          grind
    · rename_i hrec
      rw [← hmark Task.isLeader 0 ?_]
      · rfl
      · intro t
        simp only [asks, hroot, hrec, if_false, true_and]

theorem releaseTask_list (pid : Nat) (flushed : Bool) (k : Kernel) :
    (k.releaseTask pid flushed).tasks.list =
      k.tasks.list.filter (fun t => (exit pid flushed).keeps k t) := by
  unfold Kernel.releaseTask
  split
  · rename_i hnone
    symm
    refine List.filter_eq_self.mpr fun t ht => ?_
    simp [keeps, Kernel.findTask_eq_none_iff.mp hnone t ht]
  · rename_i p hsome
    obtain ⟨hp, rfl⟩ := Kernel.findTask_eq_some_iff.mp hsome
    split
    · rename_i hfree
      have hgone : k.tasks.list.filter (fun t => t.pid != p.pid) =
          k.tasks.list.filter (fun t => (exit p.pid flushed).keeps k t) := by
        refine List.filter_congr fun t ht => ?_
        cases hne : t.pid != p.pid with
        | true => simp [keeps, hne]
        | false =>
          have heq : t = p := k.tasks.eq_of_pid ht hp (by simpa using hne)
          simp [keeps, heq, hfree]
      dsimp only
      split <;> exact hgone
    · rename_i hneeded
      symm
      refine List.filter_eq_self.mpr fun t ht => ?_
      simp only [keeps, Bool.or_eq_true, bne_iff_ne]
      by_contra hno
      obtain ⟨hpid, hfree⟩ := not_or.mp hno
      rw [k.tasks.eq_of_pid ht hp (not_not.mp hpid)] at hfree
      exact hneeded (Bool.eq_false_iff.mpr hfree)

/-- **What becomes of the task table**: some tasks go, those that stay are changed, some come.  An
invariant of the table has to be looked at in these three places, and nowhere in the operations
themselves. -/
theorem after_list (op : Op) (k : Kernel) :
    (op.after k).tasks.list =
      (k.tasks.list.filter (fun t => op.keeps k t)).map op.effect ++ op.born k := by
  -- an operation that only changes tasks
  have hstay : (∀ t, op.keeps k t = true) → op.born k = [] →
      k.tasks.list.map op.effect =
        (k.tasks.list.filter (fun t => op.keeps k t)).map op.effect ++ op.born k := by
    intro hkeeps hborn
    rw [hborn, List.append_nil, List.filter_eq_self.mpr fun t _ => hkeeps t]
  have hid : k.tasks.list = k.tasks.list.map id := (List.map_id _).symm
  cases op with
  | hide caller pid on => exact (hide_list caller pid on k).trans (hstay (fun _ => rfl) rfl)
  | hideUserProcesses caller uid binname recover =>
    exact (hideUserProcesses_list caller uid binname recover k).trans (hstay (fun _ => rfl) rfl)
  | writeHidden parsed =>
    have htasks : (k.procWriteHidden parsed).tasks = k.tasks := by
      cases parsed <;> rfl
    exact (congrArg Tasks.list htasks).trans (hid.trans (hstay (fun _ => rfl) rfl))
  | copyProcess parent thread pid =>
    have hall := List.filter_eq_self.mpr fun t (_ : t ∈ k.tasks.list) =>
      (rfl : (copyProcess parent thread pid).keeps k t = true)
    have hmap : k.tasks.list = k.tasks.list.map (copyProcess parent thread pid).effect := hid
    rw [hall, ← hmap]
    cases h : k.copyProcess parent thread pid with
    | none =>
      have hborn : (copyProcess parent thread pid).born k = [] := by
        rcases Kernel.copyProcess_eq_none_iff.mp h with hp | hbusy
        · simp only [born, hp]
        · simp only [born, if_neg hbusy]
          split <;> rfl
      rw [hborn, List.append_nil, after, h, Option.getD_none]
    | some k' =>
      obtain ⟨p, hp, hfree, hlist, _⟩ := Kernel.copyProcess_eq_some h
      have hborn : (copyProcess parent thread pid).born k = [p.copy thread pid k.fresh] := by
        simp only [born, hp, if_pos hfree]
      rw [hborn, after, h, Option.getD_some, hlist]
  | exit pid flushed =>
    refine (releaseTask_list pid flushed k).trans ?_
    exact (List.map_id _).symm.trans (List.append_nil _).symm
  | setuid pid uid => exact hstay (fun _ => rfl) rfl
  | setTaskComm pid buf => exact hstay (fun _ => rfl) rfl
  | readdir info ctx =>
    have htasks := ((Kernel.sameTasks k).readdir info ctx ⟨rfl, rfl, rfl⟩).1
    exact (congrArg Tasks.list htasks).trans (hid.trans (hstay (fun _ => rfl) rfl))
  | resolve info name =>
    have htasks := ((Kernel.sameTasks k).resolve info name ⟨rfl, rfl, rfl⟩).1
    exact (congrArg Tasks.list htasks).trans (hid.trans (hstay (fun _ => rfl) rfl))

theorem mem_after :
    t ∈ (op.after k).tasks.list ↔
      (∃ u ∈ k.tasks.list, op.keeps k u = true ∧ op.effect u = t) ∨ t ∈ op.born k := by
  rw [after_list, List.mem_append, List.mem_map]
  simp only [List.mem_filter, and_assoc]

/-! ## 4. The flag and the cache -/

/-- **What becomes of the flag.** -/
theorem after_flag (op : Op) (k : Kernel) :
    (op.after k).hiddenFlag = op.written.getD k.hiddenFlag := by
  cases op with
  | hide caller pid on =>
    simp only [after, Kernel.hide]
    split
    · split <;> rfl
    · rfl
  | hideUserProcesses caller uid binname recover =>
    simp only [after, Kernel.hideUserProcesses]
    split
    · rfl
    · split
      · split
        · exact Kernel.hideMatching_flag _ k
        · rfl
        · exact Kernel.hideMatching_flag _ k
      · rfl
  | writeHidden parsed => cases parsed <;> rfl
  | copyProcess parent thread pid =>
    rw [after]
    cases h : k.copyProcess parent thread pid with
    | none => rfl
    | some k' =>
      obtain ⟨_, _, _, _, _, hflag⟩ := Kernel.copyProcess_eq_some h
      exact hflag
  | exit pid flushed =>
    simp only [after, Kernel.releaseTask]
    split
    · rfl
    · split
      · split <;> rfl
      · rfl
  | setuid pid uid => rfl
  | setTaskComm pid buf => rfl
  | readdir info ctx => exact ((Kernel.sameTasks k).readdir info ctx ⟨rfl, rfl, rfl⟩).2.1
  | resolve info name =>
    exact ((Kernel.sameTasks k).resolve info name ⟨rfl, rfl, rfl⟩).2.1

/-- No `struct pid` is given twice. -/
theorem fresh_le_after (op : Op) (k : Kernel) : k.fresh ≤ (op.after k).fresh := by
  cases op with
  | hide caller pid on =>
    simp only [after, Kernel.hide]
    split
    · split <;> exact Nat.le_refl _
    · exact Nat.le_refl _
  | hideUserProcesses caller uid binname recover =>
    simp only [after, Kernel.hideUserProcesses]
    split
    · exact Nat.le_refl _
    · split
      · split
        · exact Nat.le_of_eq (Kernel.hideMatching_fresh _ k).symm
        · exact Nat.le_refl _
        · exact Nat.le_of_eq (Kernel.hideMatching_fresh _ k).symm
      · exact Nat.le_refl _
  | writeHidden parsed => cases parsed <;> exact Nat.le_refl _
  | copyProcess parent thread pid =>
    simp only [after, Kernel.copyProcess]
    split
    · exact Nat.le_refl _
    · split
      · exact Nat.le_succ _
      · exact Nat.le_refl _
  | exit pid flushed =>
    simp only [after, Kernel.releaseTask]
    split
    · exact Nat.le_refl _
    · split
      · split <;> exact Nat.le_refl _
      · exact Nat.le_refl _
  | setuid pid uid => exact Nat.le_refl _
  | setTaskComm pid buf => exact Nat.le_refl _
  | readdir info ctx =>
    exact Nat.le_of_eq ((Kernel.sameTasks k).readdir info ctx ⟨rfl, rfl, rfl⟩).2.2.symm
  | resolve info name =>
    exact Nat.le_of_eq ((Kernel.sameTasks k).resolve info name ⟨rfl, rfl, rfl⟩).2.2.symm

/-- The operation is one of the two on the directory. -/
def onDirectory : Op → Bool
  | readdir _ _ => true
  | resolve _ _ => true
  | _ => false

/-- The entries that stay after `hideMatching` are of tasks that it has not marked. -/
theorem hideMatching_dropped {m : Task → Bool} (h : d ∈ (k.hideMatching m).dcache) :
    d ∈ k.dcache ∧ ∀ t ∈ k.tasks.list, t.isLeader = true → d.pid = t.threadPid → m t = false := by
  rw [Kernel.hideMatching_dcache, List.mem_filter] at h
  refine ⟨h.1, fun t ht hlead hpid => ?_⟩
  have hno := List.any_eq_false.mp (Bool.not_eq_true' _ ▸ h.2) t
    (Kernel.mem_processes.mpr ⟨ht, hlead⟩)
  simpa [hpid] using hno

/-- `hide` drops the entries of the process that it hides. -/
theorem hide_dcache {caller : Nat} {pid : Int} {on : BitVec 32}
    (h : d ∈ ((hide caller pid on).after k).dcache) :
    d ∈ k.dcache ∧
      ∀ t ∈ k.tasks.list, d.pid = t.threadPid → (hide caller pid on).asks t ≠ some 1 := by
  simp only [after, Kernel.hide] at h
  split at h
  · rename_i hroot
    split at h
    · rename_i hnone
      refine ⟨h, fun t ht _ => ?_⟩
      have hne := Kernel.findTask_eq_none_iff.mp hnone t ht
      have hask : (hide caller pid on).asks t = none := if_neg (by omega)
      simp [hask]
    · rename_i p hsome
      obtain ⟨hp, hnum⟩ := Kernel.findTask_eq_some_iff.mp hsome
      rw [Kernel.procFlushPid_dcache, List.mem_filter] at h
      refine ⟨h.1, fun t ht hpid => ?_⟩
      have hask : (hide caller pid on).asks t = none := by
        refine if_neg fun hall => ?_
        have heq : t = p := k.tasks.eq_of_pid ht hp (by omega)
        rw [hpid, heq] at h
        simpa using h.2
      simp [hask]
  · rename_i hroot
    refine ⟨h, fun t _ _ => ?_⟩
    have hask : (hide caller pid on).asks t = none := if_neg (by omega)
    simp [hask]

/-- `hide_user_processes` drops the entries of the processes that it hides. -/
theorem hideUserProcesses_dcache {caller uid : Nat} {binname : UserString} {recover : BitVec 32}
    (h : d ∈ ((hideUserProcesses caller uid binname recover).after k).dcache) :
    d ∈ k.dcache ∧ ∀ t ∈ k.tasks.list, d.pid = t.threadPid →
      (hideUserProcesses caller uid binname recover).asks t ≠ some 1 := by
  simp only [after, Kernel.hideUserProcesses] at h
  split at h
  · rename_i hroot
    exact ⟨h, fun t _ _ => by simp [asks, hroot]⟩
  · split at h
    · rename_i hrec
      split at h
      · obtain ⟨hd, hno⟩ := hideMatching_dropped h
        refine ⟨hd, fun t ht hpid => ?_⟩
        have hask := hno t ht
        simp only [asks, hrec]
        grind
      · exact ⟨h, fun t _ _ => by simp [asks, hrec, UserString.covers]⟩
      · obtain ⟨hd, hno⟩ := hideMatching_dropped h
        refine ⟨hd, fun t ht hpid => ?_⟩
        have hask := hno t ht
        rw [Kernel.strncmpEq_kbinname t.comm_length] at hask
        simp only [asks, hrec, UserString.covers]
        grind
    · rename_i hrec
      refine ⟨h, fun t _ _ => ?_⟩
      simp only [asks, hrec]
      split <;> simp

/-- **What becomes of the cache** but for the directory operations: no entry comes, and those of a
task that the operation hides go. -/
theorem after_dcache (hop : op.onDirectory = false) (h : d ∈ (op.after k).dcache) :
    d ∈ k.dcache ∧ ∀ t ∈ k.tasks.list, d.pid = t.threadPid → op.asks t ≠ some 1 := by
  cases op with
  | hide caller pid on => exact hide_dcache h
  | hideUserProcesses caller uid binname recover => exact hideUserProcesses_dcache h
  | writeHidden parsed =>
    refine ⟨?_, fun t _ _ => by simp [asks]⟩
    cases parsed <;> exact h
  | copyProcess parent thread pid =>
    refine ⟨?_, fun t _ _ => by simp [asks]⟩
    rw [after] at h
    cases hcopy : k.copyProcess parent thread pid with
    | none =>
      rw [hcopy] at h
      exact h
    | some k' =>
      obtain ⟨_, _, _, _, hdcache, _⟩ := Kernel.copyProcess_eq_some hcopy
      rw [hcopy, Option.getD_some, hdcache] at h
      exact h
  | exit pid flushed =>
    refine ⟨?_, fun t _ _ => by simp [asks]⟩
    simp only [after, Kernel.releaseTask] at h
    split at h
    · exact h
    · split at h
      · split at h
        · exact List.mem_of_mem_filter h
        · exact h
      · exact h
  | setuid pid uid => exact ⟨h, fun t _ _ => by simp [asks]⟩
  | setTaskComm pid buf => exact ⟨h, fun t _ _ => by simp [asks]⟩
  | readdir info ctx => cases hop
  | resolve info name => cases hop

end Op

end Osexp.Hide
