/-
# References taken and given back

* `proc_pid_lookup` and `proc_pid_readdir` take a reference on each task that they look at.  The
  listing gives every one back, on each way out of its loop; the lookup does not when the task is
  hidden, since the test of the patch goes to `out` past the `put_task_struct`
  (`task_refs_balanced_iff`).
* `hide` and `hide_user_processes` take a reference on the `struct pid` of each task that they mark,
  for `proc_flush_pid`, which gives none back.  So a call leaves the counts alone exactly when it
  marks nothing (`pid_refs_balanced_iff`), and every call that marks a task adds one
  (`pidRefs_after`).

A reference count is a promise to give back what was taken.  One that is too high costs memory for
as long as the system runs, and nothing shows it: the calls answer as they should.  Only a count
over every way out of the functions finds it, also over those ways on which nothing is found or the
caller's buffer is full.
-/
import Osexp.Hide.Machine

namespace Osexp.Hide

open Kernel Lts

/-! ## 1. Tasks -/

/-- The name is the number of a hidden task. -/
def NamesHidden (name : Option Nat) (k : Kernel) : Prop :=
  ∃ task, name.bind k.findTask = some task ∧ k.hidesTask task = true

section TaskRefs

variable {k : Kernel} {task : Task}

/-- What is taken and given back is as it was. -/
theorem putTaskStruct_getTaskStruct (task : Task) (k : Kernel) :
    ((k.getTaskStruct task).putTaskStruct task).taskRefs = k.taskRefs := by
  simp [getTaskStruct, putTaskStruct]

theorem procPidInstantiate_taskRefs (task : Task) (k : Kernel) :
    (k.procPidInstantiate task).taskRefs = k.taskRefs := by
  unfold procPidInstantiate
  split <;> rfl

theorem procFillCache_taskRefs (task : Task) (k : Kernel) :
    (k.procFillCache task).taskRefs = k.taskRefs := by
  unfold procFillCache
  split
  · rfl
  · exact procPidInstantiate_taskRefs task k

/-- Giving back speaks of the counts only. -/
theorem putTaskStruct_congr {k k' : Kernel} (h : k'.taskRefs = k.taskRefs) (task : Task) :
    (k'.putTaskStruct task).taskRefs = (k.putTaskStruct task).taskRefs := by
  simp only [putTaskStruct, h]

/-- **The loop of the listing** holds one reference from turn to turn, on the previous task, and
gives it back: by induction on its turns. -/
theorem readdirLoop_taskRefs (info : ProcFsInfo) (tgid : Nat) (previous : Option Task)
    (ctx : DirContext) (k : Kernel) :
    (readdirLoop info tgid previous ctx k).2.taskRefs = (putPrevious previous k).taskRefs := by
  induction tgid, previous, ctx, k using Kernel.readdirLoop.induct info with
  | case1 tgid previous ctx k h => rw [readdirLoop_end h]
  | case2 tgid previous ctx k n task h k' hskip ih =>
    rw [readdirLoop_skip h hskip, ih]
    exact putTaskStruct_getTaskStruct task (putPrevious previous k)
  | case3 tgid previous ctx k n task h k' hshow ctx' hfull =>
    rw [readdirLoop_full h hshow hfull, putTaskStruct_congr (procFillCache_taskRefs task _)]
    exact putTaskStruct_getTaskStruct task (putPrevious previous k)
  | case4 tgid previous ctx k n task h k' hshow ctx' k'' ctx'' hroom ih =>
    rw [readdirLoop_emit h hshow hroom, ih]
    exact (putTaskStruct_congr (procFillCache_taskRefs task k') task).trans
      (putTaskStruct_getTaskStruct task (putPrevious previous k))

theorem procPidReaddir_taskRefs (info : ProcFsInfo) (ctx : DirContext) (k : Kernel) :
    (k.procPidReaddir info ctx).2.taskRefs = k.taskRefs := by
  unfold procPidReaddir
  split
  · rfl
  · split
    · rfl
    · split
      · rfl
      · exact readdirLoop_taskRefs info _ none _ k

/-- A lookup gives back what it took, but for a hidden task. -/
theorem procPidLookup_taskRefs (info : ProcFsInfo) (name : Option Nat) (k : Kernel) :
    (k.procPidLookup info name).2.taskRefs = k.taskRefs ↔ ¬ NamesHidden name k := by
  have hother : (∀ task, name.bind k.findTask = some task → k.hidesTask task = false) →
      ¬ NamesHidden name k := by
    rintro h ⟨task, hname, hhid⟩
    rw [h task hname] at hhid
    cases hhid
  cases name with
  | none => exact iff_of_true rfl (hother (by rintro task ⟨⟩))
  | some n =>
    cases hfind : k.findTask n with
    | none =>
      rw [procPidLookup, hfind]
      refine iff_of_true rfl (hother fun task hname => ?_)
      rw [Option.bind_some, hfind] at hname
      cases hname
    | some task =>
      rw [procPidLookup, hfind]
      dsimp only
      cases hhid : k.hidesTask task with
      | true =>
        rw [if_pos (show (k.getTaskStruct task).hidesTask task = true from hhid)]
        refine iff_of_false (fun heq => ?_) (not_not.mpr ⟨task, hfind, hhid⟩)
        have hcount := congrFun heq task.threadPid
        simp [getTaskStruct] at hcount
      | false =>
        rw [if_neg (by rw [show (k.getTaskStruct task).hidesTask task = false from hhid]; decide)]
        refine iff_of_true ?_ (hother fun task' hname => ?_)
        · split
          · exact putTaskStruct_getTaskStruct task k
          · exact (putTaskStruct_congr (procPidInstantiate_taskRefs task _) task).trans
              (putTaskStruct_getTaskStruct task k)
        · rw [Option.bind_some, hfind] at hname
          cases hname
          exact hhid

end TaskRefs

/-- **When a lookup and a listing leave the references on all tasks as they found them**: when the
name looked up is not that of a hidden task.  A reference that is not given back keeps the
`task_struct` for good, also after the task has ended, so each lookup of a hidden name is a leak
that anyone can repeat. -/
theorem task_refs_balanced_iff (info : ProcFsInfo) (name : Option Nat) (ctx : DirContext)
    (k : Kernel) :
    ((k.procPidLookup info name).2.taskRefs = k.taskRefs ∧
        (k.procPidReaddir info ctx).2.taskRefs = k.taskRefs) ↔ ¬ NamesHidden name k := by
  rw [procPidLookup_taskRefs]
  exact and_iff_left (procPidReaddir_taskRefs info ctx k)

/-- `/proc/1` is looked up while `init` is hidden: a reference on it stays. -/
theorem hidden_lookup_leaks :
    (((initial.hide 0 1 1).2.procPidLookup ⟨.off, false, fun _ => true⟩ (some 1)).2.taskRefs 0 =
        (initial.hide 0 1 1).2.taskRefs 0 + 1) ∧
      ¬ (((initial.hide 0 1 1).2.procPidLookup ⟨.off, false, fun _ => true⟩ (some 1)).2.taskRefs =
          (initial.hide 0 1 1).2.taskRefs ∧
        ((initial.hide 0 1 1).2.procPidReaddir ⟨.off, false, fun _ => true⟩
          ⟨FIRST_PROCESS_ENTRY, 3, []⟩).2.taskRefs = (initial.hide 0 1 1).2.taskRefs) := by
  have hleak : ((initial.hide 0 1 1).2.procPidLookup ⟨.off, false, fun _ => true⟩
      (some 1)).2.taskRefs 0 = (initial.hide 0 1 1).2.taskRefs 0 + 1 := by decide +kernel
  refine ⟨hleak, ?_⟩
  rintro ⟨hlookup, _⟩
  rw [hlookup] at hleak
  omega

/-! ## 2. Numbers -/

namespace Op

/-- One of the two system calls of the patch. -/
def isHideCall : Op → Bool
  | hide _ _ _ => true
  | hideUserProcesses _ _ _ _ => true
  | _ => false

/-- The call takes a reference on the `struct pid` of the task: it marks it, and does not just
recover it. -/
def pins (t : Task) : Op → Bool
  | hide caller pid on => ((hide caller pid on).asks t).isSome
  | hideUserProcesses caller uid binname recover =>
    recover == 0 && ((hideUserProcesses caller uid binname recover).asks t).isSome
  | _ => false

end Op

/-- The call takes no reference. -/
def PinsNothing (k : Kernel) (op : Op) : Prop := ∀ t ∈ k.tasks.list, op.pins t = false

section PidRefs

variable {k : Kernel} {op : Op} {id : Nat}

/-- The task with a number in use is counted once. -/
theorem countP_of_pid {p : Task} (hp : p ∈ k.tasks.list) (id : Nat) :
    k.tasks.list.countP (fun t => t.pid == p.pid && t.threadPid == id) =
      if p.threadPid = id then 1 else 0 := by
  have hone : k.tasks.list.countP (fun t => t.pid == p.pid) = 1 := by
    have hcount := List.count_eq_one_of_mem k.tasks.pids (List.mem_map_of_mem hp)
    rwa [List.count, List.countP_map] at hcount
  split
  · rename_i hid
    rw [← hone]
    refine List.countP_congr fun t ht => ?_
    constructor
    · exact fun h => (Bool.and_eq_true_iff.mp h).1
    · intro h
      rw [k.tasks.eq_of_pid ht hp (beq_iff_eq.mp h), hid]
      simp
  · rename_i hid
    refine List.countP_eq_zero.mpr fun t ht h => hid ?_
    rw [Bool.and_eq_true, beq_iff_eq, beq_iff_eq] at h
    rw [← k.tasks.eq_of_pid ht hp h.1]
    exact h.2

/-- Marking a task takes one reference on its `struct pid`, and `proc_flush_pid` drops none. -/
theorem getPid_pidRefs (threadPid id : Nat) (k : Kernel) :
    (k.getPid threadPid).pidRefs id = k.pidRefs id + if threadPid = id then 1 else 0 := by
  show Function.update k.pidRefs threadPid (k.pidRefs threadPid + 1) id = _
  rw [Function.update_apply]
  by_cases hid : id = threadPid
  · rw [if_pos hid, if_pos hid.symm, hid]
  · rw [if_neg hid, if_neg (Ne.symm hid), Nat.add_zero]

theorem hideOne_pidRefs (m : Task → Bool) (id : Nat) (k : Kernel) (p : Task) :
    (hideOne m k p).pidRefs id =
      k.pidRefs id + if (m p && p.threadPid == id) = true then 1 else 0 := by
  unfold hideOne
  cases hm : m p with
  | false => rfl
  | true =>
    simp only [Bool.true_and, beq_iff_eq]
    exact getPid_pidRefs p.threadPid id (k.setCloak (fun t => t.pid == p.pid) 1)

/-- The loop over the processes takes one reference for each that matches. -/
theorem foldl_hideOne_pidRefs (m : Task → Bool) (id : Nat) (ps : List Task) :
    ∀ k : Kernel, (ps.foldl (hideOne m) k).pidRefs id =
      k.pidRefs id + ps.countP (fun p => m p && p.threadPid == id) := by
  induction ps with
  | nil => exact fun k => rfl
  | cons p ps ih =>
    intro k
    rw [List.foldl_cons, ih, hideOne_pidRefs, List.countP_cons]
    omega

theorem hideMatching_pidRefs (m : Task → Bool) (id : Nat) (k : Kernel) :
    (k.hideMatching m).pidRefs id =
      k.pidRefs id + k.tasks.list.countP (fun t => t.isLeader && m t && t.threadPid == id) := by
  refine (foldl_hideOne_pidRefs m id k.processes k).trans ?_
  rw [processes, List.countP_filter]
  congr 1
  refine List.countP_congr fun t _ => ?_
  simp only [Bool.and_eq_true]
  tauto

/-- The count depends on which tasks of the table the call takes a reference on. -/
theorem countP_pins {m : Task → Bool} (h : ∀ t ∈ k.tasks.list, op.pins t = m t) :
    k.tasks.list.countP (fun t => op.pins t && t.threadPid == id) =
      k.tasks.list.countP (fun t => m t && t.threadPid == id) :=
  List.countP_congr fun t ht => by rw [h t ht]

theorem countP_pinsNothing (h : PinsNothing k op) :
    k.tasks.list.countP (fun t => op.pins t && t.threadPid == id) = 0 :=
  List.countP_eq_zero.mpr fun t ht hpin => by simp [h t ht] at hpin

/-- `hide` takes a reference on the task that root names. -/
theorem hide_pidRefs (caller : Nat) (pid : Int) (on : BitVec 32) (k : Kernel) (id : Nat) :
    (k.hide caller pid on).2.pidRefs id = k.pidRefs id +
      k.tasks.list.countP (fun t => (Op.hide caller pid on).pins t && t.threadPid == id) := by
  have hpins : ∀ t, (Op.hide caller pid on).pins t =
      decide (caller = 0 ∧ 0 < pid ∧ (t.pid : Int) = pid) := by
    intro t
    rw [Op.pins, Op.asks]
    split
    · rename_i hall
      rw [Option.isSome_some, decide_eq_true hall]
    · rename_i hall
      rw [Option.isSome_none, decide_eq_false hall]
  unfold Kernel.hide
  split
  · rename_i hroot
    split
    · rename_i hfind
      have hnothing : PinsNothing k (.hide caller pid on) := by
        intro t ht
        have hne := findTask_eq_none_iff.mp hfind t ht
        rw [hpins, decide_eq_false (by omega)]
      rw [countP_pinsNothing hnothing, Nat.add_zero]
    · rename_i p hfind
      obtain ⟨hp, hpid⟩ := findTask_eq_some_iff.mp hfind
      have hone : ∀ t ∈ k.tasks.list, (Op.hide caller pid on).pins t = (t.pid == p.pid) := by
        intro t _
        rw [hpins, Bool.eq_iff_iff, decide_eq_true_iff, beq_iff_eq]
        omega
      rw [countP_pins hone, countP_of_pid hp]
      exact getPid_pidRefs p.threadPid id (k.setCloak (fun t => t.pid == p.pid) on)
  · rename_i hroot
    have hnothing : PinsNothing k (.hide caller pid on) := by
      intro t _
      rw [hpins, decide_eq_false (by omega)]
    rw [countP_pinsNothing hnothing, Nat.add_zero]

/-- `hide_user_processes` takes a reference on every process that it marks. -/
theorem hideUserProcesses_pidRefs (caller uid : Nat) (binname : UserString) (recover : BitVec 32)
    (k : Kernel) (id : Nat) :
    (k.hideUserProcesses caller uid binname recover).2.pidRefs id = k.pidRefs id +
      k.tasks.list.countP (fun t =>
        (Op.hideUserProcesses caller uid binname recover).pins t && t.threadPid == id) := by
  unfold Kernel.hideUserProcesses
  split
  · rename_i hroot
    have hnothing : PinsNothing k (.hideUserProcesses caller uid binname recover) :=
      fun t _ => by simp [Op.pins, Op.asks, hroot]
    rw [countP_pinsNothing hnothing, Nat.add_zero]
  · rename_i hroot
    have hroot : caller = 0 := not_not.mp hroot
    split
    · rename_i hrec
      cases binname with
      | null =>
        rw [countP_pins (m := fun t => t.isLeader && t.uid == uid)]
        · exact hideMatching_pidRefs _ id k
        · intro t _
          simp only [Op.pins, Op.asks, hroot, hrec, UserString.covers]
          cases t.isLeader <;> by_cases huid : t.uid = uid <;> simp [huid]
      | unreadable =>
        have hnothing : PinsNothing k (.hideUserProcesses caller uid .unreadable recover) :=
          fun t _ => by simp [Op.pins, Op.asks, hrec, UserString.covers]
        rw [countP_pinsNothing hnothing, Nat.add_zero]
      | string s =>
        rw [countP_pins (m := fun t => t.isLeader &&
          (t.uid == uid && strncmpEq TASK_COMM_LEN t.comm (kbinname s)))]
        · exact hideMatching_pidRefs _ id k
        · intro t _
          rw [strncmpEq_kbinname t.comm_length]
          simp only [Op.pins, Op.asks, hroot, hrec, UserString.covers]
          cases t.isLeader <;> by_cases huid : t.uid = uid <;>
            by_cases hname : s = t.comm <;> simp [huid, hname]
    · rename_i hrec
      have hnothing : PinsNothing k (.hideUserProcesses caller uid binname recover) :=
        fun t _ => by rw [Op.pins, beq_eq_false_iff_ne.mpr hrec, Bool.false_and]
      rw [countP_pinsNothing hnothing, Nat.add_zero]
      rfl

/-- **What a call adds to the count of a `struct pid`**: one if it marks the task that has it. -/
theorem pidRefs_after (hcall : op.isHideCall = true) (k : Kernel) (id : Nat) :
    (op.after k).pidRefs id =
      k.pidRefs id + k.tasks.list.countP (fun t => op.pins t && t.threadPid == id) := by
  cases op with
  | hide caller pid on => exact hide_pidRefs caller pid on k id
  | hideUserProcesses caller uid binname recover =>
    exact hideUserProcesses_pidRefs caller uid binname recover k id
  | _ => cases hcall

/-- **One call** leaves the counts as they are exactly when it takes no reference. -/
theorem pidRefs_after_eq_iff (hcall : op.isHideCall = true) :
    (op.after k).pidRefs = k.pidRefs ↔ PinsNothing k op := by
  constructor
  · intro h t ht
    have hid := congrFun h t.threadPid
    rw [pidRefs_after hcall] at hid
    have hzero : k.tasks.list.countP (fun u => op.pins u && u.threadPid == t.threadPid) = 0 := by
      omega
    simpa using List.countP_eq_zero.mp hzero t ht
  · intro h
    funext id
    rw [pidRefs_after hcall, countP_pinsNothing h, Nat.add_zero]

end PidRefs

/-- **When the calls of a run leave the references on every `struct pid` as they found them**: when
none of them marks a task.  Both calls take the reference for `proc_flush_pid`, which does not give
it back, so that hiding a process and showing it again pins its `struct pid` twice.  What a call
that does nothing leaves is not affected, whether it is refused or names nobody. -/
theorem pid_refs_balanced_iff {k : Kernel} {w : Trail Kernel Op} (hrun : Run Op.Step k w)
    (hcalls : ∀ p ∈ w, p.1.isHideCall = true) :
    Always (fun s => s.pidRefs = k.pidRefs) w ↔ StepsOk PinsNothing k w := by
  have hinv : ∀ (s : Kernel) (op : Op) (t : Kernel), True →
      Op.Step s op t ∧ op.isHideCall = true → True := fun _ _ _ _ _ => trivial
  refine (hrun.restrict hcalls).always_iff hinv ?_ trivial rfl
  rintro s op t _ hs ⟨rfl, hcall⟩
  rw [← pidRefs_after_eq_iff hcall, ← hs]

/-- A refused call, one for a number that is not in use, and a recovery. -/
theorem pid_refs_balanced_recover :
    Always (fun s => s.pidRefs = initial.pidRefs)
      (Op.trail initial [.hide 1000 1 1, .hide 0 2 1, .hideUserProcesses 0 0 .null 1]) := by
  refine (pid_refs_balanced_iff (Op.run_trail _ _) ?_).mpr ⟨?_, ?_, ?_, trivial⟩
  · intro p hp
    simp only [Op.trail, List.mem_cons, List.not_mem_nil, or_false] at hp
    rcases hp with rfl | rfl | rfl <;> rfl
  · unfold PinsNothing
    decide +kernel
  · unfold PinsNothing
    decide +kernel
  · unfold PinsNothing
    decide +kernel

/-- Root hides `init` and shows it again: two references on its `struct pid` stay. -/
theorem hide_show_pins :
    (∀ p ∈ Op.trail initial [.hide 0 1 1, .hide 0 1 0], p.1.isHideCall = true) ∧
      (final initial (Op.trail initial [.hide 0 1 1, .hide 0 1 0])).pidRefs 0 = 2 ∧
      ¬ Always (fun s => s.pidRefs = initial.pidRefs)
        (Op.trail initial [.hide 0 1 1, .hide 0 1 0]) := by
  have hcalls : ∀ p ∈ Op.trail initial [.hide 0 1 1, .hide 0 1 0], p.1.isHideCall = true := by
    intro p hp
    simp only [Op.trail, List.mem_cons, List.not_mem_nil, or_false] at hp
    rcases hp with rfl | rfl <;> rfl
  refine ⟨hcalls, by decide +kernel, ?_⟩
  intro h
  have hzero := congrFun (h _ List.mem_cons_self) 0
  revert hzero
  decide +kernel

end Osexp.Hide
