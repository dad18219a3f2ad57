/-
# `for_each_process`, turn by turn

A loop over the processes stands at a task and goes to the next one from there.  Nothing is locked,
so between two turns any operation can come.  What it does to the list is what `Osexp.Lib.Walk` is
about: some processes leave, new ones come at the end (`processIds_after`).  The processes are taken
by their ids, which are never given twice and which no operation changes.

`Osexp.Hide.Concurrent` and `Osexp.Hide.ReadTurns` are about the two loops of the patch that go
through the processes like this, one in a system call and one in a read.  What they share is here:
where the loop stands, which processes it has passed, and that an operation in between changes
neither as long as the process at which it stands does not end.

That last condition cannot be left out: a task that has left the list still points into it, and
where the loop goes from there depends on what became of its neighbours.
-/
import Osexp.Hide.ThreadListing
import Osexp.Lib.Walk

namespace Osexp.Hide

open Kernel Walk

/-! ## 1. The processes and the next one -/

/-- The ids of the processes, in the order of `for_each_process`. -/
def Kernel.processIds (k : Kernel) : List Nat := k.processes.map Task.threadPid

/-- The process to which the next turn goes; `none` at the end of the list. -/
def Kernel.nextProcess (k : Kernel) (stand : Option Nat) : Option Task :=
  (ahead k.processIds stand).head?.bind k.pidTask

/-- The operation leaves the process at which a loop stands. -/
def Op.LeavesStand (k : Kernel) (o : Op) (stand : Option Nat) : Prop :=
  ∀ t ∈ k.tasks.list, stand = some t.threadPid → o.keeps k t = true

instance (k : Kernel) (o : Op) (stand : Option Nat) : Decidable (o.LeavesStand k stand) :=
  inferInstanceAs (Decidable (∀ t ∈ k.tasks.list, _ → _))

/-- The operation keeps the task with this id. -/
def Op.keepsId (k : Kernel) (o : Op) (id : Nat) : Bool :=
  k.tasks.list.any (fun t => t.threadPid == id && o.keeps k t)

variable {k q : Kernel} {o : Op} {t : Task} {stand : Option Nat}

/-! ## 2. The ids -/


theorem keepsId_of_mem (ht : t ∈ k.tasks.list) : o.keepsId k t.threadPid = o.keeps k t := by
  rw [Op.keepsId, Bool.eq_iff_iff, List.any_eq_true]
  constructor
  · rintro ⟨u, hu, huse⟩
    rw [Bool.and_eq_true, beq_iff_eq] at huse
    rw [← k.tasks.eq_of_threadPid hu ht huse.1]
    exact huse.2
  · intro h
    exact ⟨t, ht, by rw [beq_self_eq_true, h, Bool.and_self]⟩

theorem processIds_nodup (k : Kernel) : k.processIds.Nodup :=
  k.tasks.ids.sublist (List.filter_sublist.map _)

theorem mem_processIds (ht : t ∈ k.tasks.list) :
    t.threadPid ∈ k.processIds ↔ t.isLeader = true := by
  rw [processIds, List.mem_map]
  constructor
  · rintro ⟨u, hu, hid⟩
    obtain ⟨hu, hlead⟩ := mem_processes.mp hu
    rw [← k.tasks.eq_of_threadPid hu ht hid]
    exact hlead
  · intro hlead
    exact ⟨t, mem_processes.mpr ⟨ht, hlead⟩, rfl⟩

theorem lt_fresh_of_mem {id : Nat} (h : id ∈ k.processIds) : id < k.fresh := by
  obtain ⟨t, ht, rfl⟩ := List.mem_map.mp h
  exact k.fresh_tasks t (mem_processes.mp ht).1

/-- A change of the tasks that leaves their numbers leaves the processes. -/
theorem processIds_map {f : Task → Task} (hf : Keeps f)
    (h : k.tasks.list = q.tasks.list.map f) : k.processIds = q.processIds := by
  have hlead : ∀ t, (f t).isLeader = t.isLeader := by
    intro t
    rw [Task.isLeader, Task.isLeader, (hf t).1, (hf t).2.1]
  rw [processIds, processIds, processes, processes, h, List.filter_map, List.map_map]
  simp only [Function.comp_def, hlead]
  exact List.map_congr_left fun t _ => (hf t).2.2

/-- **The processes after an operation**: those it keeps, and new ones at the end. -/
theorem processIds_after (o : Op) (k : Kernel) :
    (o.after k).processIds =
      k.processIds.filter (o.keepsId k) ++
        ((o.born k).filter Task.isLeader).map Task.threadPid := by
  rw [processIds, processes, Op.after_list, List.filter_append, List.map_append]
  congr 1
  rw [List.filter_map, List.map_map, processIds, processes, List.filter_map, List.filter_filter,
    List.filter_filter]
  have hleft : ∀ t, (Task.threadPid ∘ o.effect) t = t.threadPid := fun t => Op.effect_threadPid
  rw [List.map_congr_left fun t _ => hleft t]
  congr 1
  refine List.filter_congr fun t ht => ?_
  simp only [Function.comp, Op.effect_isLeader, keepsId_of_mem ht, Bool.and_comm]

/-! ## 3. One operation and one turn -/

theorem keepsId_stand (hstand : Stands k.processIds stand) (hleaves : o.LeavesStand k stand) :
    ∀ s ∈ stand, o.keepsId k s = true := by
  intro s hs
  obtain ⟨t, ht, rfl⟩ := List.mem_map.mp (hstand s hs)
  have hmem := (mem_processes.mp ht).1
  rw [keepsId_of_mem hmem]
  exact hleaves t hmem hs

/-- The loop still stands at a process. -/
theorem stands_after (hstand : Stands k.processIds stand) (hleaves : o.LeavesStand k stand) :
    Stands (o.after k).processIds stand := by
  rw [processIds_after]
  exact hstand.change (keepsId_stand hstand hleaves)

/-- **No operation moves a process past the loop**, -/
theorem passed_after (hstand : Stands k.processIds stand) (hleaves : o.LeavesStand k stand)
    (ht : t ∈ k.tasks.list) (hkeep : o.keeps k t = true) :
    Passed (o.after k).processIds stand t.threadPid ↔ Passed k.processIds stand t.threadPid := by
  have hnew : t.threadPid ∉ ((o.born k).filter Task.isLeader).map Task.threadPid := by
    intro hmem
    obtain ⟨u, hu, hid⟩ := List.mem_map.mp hmem
    have hlt := k.fresh_tasks t ht
    rw [← hid, (Op.born_cloak (List.mem_of_mem_filter hu)).2] at hlt
    exact Nat.lt_irrefl _ hlt
  rw [processIds_after, passed_change hstand (keepsId_stand hstand hleaves), keepsId_of_mem ht]
  simp only [hkeep, hnew, not_false_eq_true, and_true]

/-- and a new one is before it. -/
theorem not_passed_born (hstand : Stands k.processIds stand) (hleaves : o.LeavesStand k stand)
    (ht : t ∈ o.born k) : ¬ Passed (o.after k).processIds stand t.threadPid := by
  rw [processIds_after, passed_change hstand (keepsId_stand hstand hleaves)]
  intro h
  have hlt := lt_fresh_of_mem h.1.1
  rw [(Op.born_cloak ht).2] at hlt
  exact Nat.lt_irrefl _ hlt

/-- Where the next turn goes. -/
theorem nextProcess_eq_some (h : k.nextProcess stand = some t) :
    t ∈ k.processes ∧ ∃ rest, ahead k.processIds stand = t.threadPid :: rest := by
  obtain ⟨id, hid, ht⟩ := Option.bind_eq_some_iff.mp h
  obtain ⟨rest, hrest⟩ := List.head?_eq_some_iff.mp hid
  have hmem : id ∈ k.processIds := mem_of_mem_ahead (hrest ▸ List.mem_cons_self)
  obtain ⟨hfound, rfl⟩ := pidTask_eq_some_iff.mp ht
  exact ⟨mem_processes.mpr ⟨hfound, (mem_processIds hfound).mp hmem⟩, rest, hrest⟩

theorem nextProcess_eq_none (h : k.nextProcess stand = none) : ahead k.processIds stand = [] := by
  cases hids : ahead k.processIds stand with
  | nil => rfl
  | cons id rest =>
    have hmem : id ∈ k.processIds := mem_of_mem_ahead (hids ▸ List.mem_cons_self)
    obtain ⟨t, ht, hid⟩ := List.mem_map.mp hmem
    have hfound : k.pidTask id = some t :=
      pidTask_eq_some_iff.mpr ⟨(mem_processes.mp ht).1, hid⟩
    rw [nextProcess, hids, List.head?_cons, Option.bind_some, hfound] at h
    cases h

/-- **A turn** takes the process it goes to behind the loop, and no other one. -/
theorem passed_turn {u : Task} (h : k.nextProcess stand = some u) {id : Nat} :
    Passed k.processIds (some u.threadPid) id ↔
      Passed k.processIds stand id ∨ id = u.threadPid := by
  obtain ⟨_, rest, hrest⟩ := nextProcess_eq_some h
  exact passed_next (processIds_nodup k) hrest

/-- At the end every process is behind it. -/
theorem passed_all (h : k.nextProcess stand = none) {id : Nat} :
    Passed k.processIds stand id ↔ id ∈ k.processIds := passed_last (nextProcess_eq_none h)

end Osexp.Hide
