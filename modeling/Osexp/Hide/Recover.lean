/-
# Showing everything again

`hide_user_processes` with `recover` other than 0 goes through the processes, that is, through the
leaders, and sets their `cloak` to 0.  `hide` sets the `cloak` of any thread that its number names.
So a thread that was hidden by its own number stays hidden.

`recovers_iff` says this of one state, and `recover_iff` of runs: recovering is complete in every
state reached exactly when no step hides a thread that is not a leader.

The comment in the source promises that the call displays all processes, also those that were hidden
before.  Who hides a process by the number of one of its threads, by mistake or on purpose, leaves
something behind that the call does not find, and that has to be shown with the same number it was
hidden with.

The condition is on the steps that hide, so a run that uses `hide_user_processes` only, or `hide`
with the numbers that `/proc` shows, satisfies it.
-/
import Osexp.Hide.Agreement

namespace Osexp.Hide

open Kernel Lts

/-! ## 1. What recovering promises -/

/-- Whether `proc_pid_lookup` finds an entry without the test that the patch adds. -/
def Kernel.unpatchedLookup (info : ProcFsInfo) (name : Option Nat) (k : Kernel) : Bool :=
  match name.bind k.findTask with
  | none => false
  | some task =>
    if info.hidePid = .notPtraceable ∧ ¬ hasPidPermissions info task .noAccess then false else true

/-- Nothing is hidden: no task is marked, every number is looked up as in the kernel before the
patch, and `/proc/hidden_process` is empty. -/
structure NothingHidden (k : Kernel) : Prop where
  cloak : ∀ t ∈ k.tasks.list, t.cloak ≠ 1
  lookup : ∀ info name, (k.procPidLookup info name).1 = k.unpatchedLookup info name
  text : k.kbuf = some []

/-- When root recovers in this state nothing is hidden, with whatever flag afterwards. -/
def Recovers (k : Kernel) : Prop :=
  ∀ uid binname recover flag, recover ≠ 0 →
    NothingHidden ((k.hideUserProcesses 0 uid binname recover).2.procWriteHidden (some flag))

/-- No thread but a leader is marked. -/
def ThreadsShown (k : Kernel) : Prop := ∀ t ∈ k.tasks.list, t.isLeader = false → t.cloak ≠ 1

/-- The step does not hide a thread that is not a leader. -/
def HidesNoThread (k : Kernel) (op : Op) : Prop :=
  ∀ t ∈ k.tasks.list, t.isLeader = false → op.asks t ≠ some 1

/-! ## 2. One state -/

section State

variable {k : Kernel} {op : Op} {recover : BitVec 32}

/-- When no task is marked nothing is hidden. -/
theorem nothingHidden_of_cloak (h : ∀ t ∈ k.tasks.list, t.cloak ≠ 1) : NothingHidden k where
  cloak := h
  lookup := by
    intro info name
    cases name with
    | none => rfl
    | some n =>
      cases htask : k.findTask n with
      | none => simp [procPidLookup, unpatchedLookup, htask]
      | some task =>
        have hshow : ¬ (k.getTaskStruct task).hidesTask task = true := by
          rw [hidesTask, Bool.and_eq_true, beq_iff_eq, beq_iff_eq]
          exact fun hboth => h task (findTask_eq_some_iff.mp htask).1 hboth.2
        simp only [procPidLookup, unpatchedLookup, htask, Option.bind_some]
        rw [if_neg hshow]
        exact apply_ite Prod.fst _ _ _
  text := by
    have hnone : k.processes.filter Task.cloaked = [] := by
      refine List.filter_eq_nil_iff.mpr fun t ht hc => ?_
      exact h t (mem_processes.mp ht).1 (Task.cloaked_iff.mp hc)
    rw [kbuf, hiddenText_eq, pidText, hnone]
    rfl

/-- What the call leaves: the leaders are shown, the other threads are as they were. -/
theorem recover_list (uid : Nat) (binname : UserString) (hrec : recover ≠ 0) :
    (k.hideUserProcesses 0 uid binname recover).2.tasks.list =
      k.tasks.list.map (Task.mark Task.isLeader 0) := by
  have hcall : k.hideUserProcesses 0 uid binname recover = (0, k.setCloak Task.isLeader 0) := by
    unfold hideUserProcesses
    rw [if_neg (not_not.mpr rfl), if_neg hrec]
  rw [hcall]
  rfl

/-- **When recovering is complete.**  In a single state this is a matter of the threads: the
leaders are shown by the call in any case. -/
theorem recovers_iff (k : Kernel) : Recovers k ↔ ThreadsShown k := by
  constructor
  · intro h t ht hthread
    have hall := (h 0 .null 1 1 (by decide)).cloak
    refine hall t ?_
    have hlist := @recover_list k 1 0 .null (by decide)
    have hself : t.mark Task.isLeader 0 = t := by rw [Task.mark, if_neg (by simp [hthread])]
    have hmem : t.mark Task.isLeader 0 ∈ k.tasks.list.map (Task.mark Task.isLeader 0) :=
      List.mem_map_of_mem ht
    rw [hself, ← hlist] at hmem
    exact hmem
  · intro h uid binname recover flag hrec
    refine nothingHidden_of_cloak ?_
    intro t ht
    have hmem : t ∈ k.tasks.list.map (Task.mark Task.isLeader 0) := by
      rw [← recover_list uid binname hrec]
      exact ht
    obtain ⟨u, hu, rfl⟩ := List.mem_map.mp hmem
    cases hlead : u.isLeader with
    | true =>
      rw [Task.mark, if_pos hlead]
      exact (by decide : (0 : BitVec 32) ≠ 1)
    | false =>
      rw [Task.mark, if_neg (by simp [hlead])]
      exact h u hu hlead

/-! ## 3. A run -/

/-- **One step**: only a call that asks for it marks a thread. -/
theorem threadsShown_after (hk : ThreadsShown k) :
    ThreadsShown (op.after k) ↔ HidesNoThread k op := by
  constructor
  · intro h t ht hthread hask
    obtain ⟨_, hkeeps⟩ := written_of_asks (k := k) hask
    have hmem : op.effect t ∈ (op.after k).tasks.list :=
      Op.mem_after.mpr (Or.inl ⟨t, ht, hkeeps t, rfl⟩)
    refine h _ hmem (Op.effect_isLeader.trans hthread) ?_
    rw [Op.effect_cloak, hask, Option.getD_some]
  · intro h t ht hthread
    rcases Op.mem_after.mp ht with ⟨u, hu, _, rfl⟩ | hborn
    · rw [Op.effect_isLeader] at hthread
      rw [Op.effect_cloak]
      have hno := h u hu hthread
      cases hask : op.asks u with
      | none => exact hk u hu hthread
      | some v => exact fun hv => hno (hask.trans (congrArg some hv))
    · rw [(Op.born_cloak hborn).1]
      decide

end State

/-- **The exact condition for recovering to be complete.** Root's `hide_user_processes` with
`recover` is the documented way to show everything again, whatever has been hidden before and by
which call.  It does so in every state of a run exactly when no step of the run hides a thread that
is not a leader: the loop goes through the leaders. -/
theorem recover_iff {k : Kernel} {w : Trail Kernel Op} (hboot : k.Booted)
    (hrun : Run Op.Step k w) : Always Recovers w ↔ StepsOk HidesNoThread k w := by
  have hinv : ∀ (s : Kernel) (op : Op) (t : Kernel), True → Op.Step s op t → True :=
    fun _ _ _ _ _ => trivial
  have hstart : Recovers k := by
    rw [recovers_iff]
    intro t ht _
    rw [hboot.visible t ht]
    decide
  refine hrun.always_iff hinv ?_ trivial hstart
  rintro s op t _ hs rfl
  rw [recovers_iff] at hs ⊢
  exact threadsShown_after hs

/-- `init` has a second thread, and is hidden. -/
theorem recover_leader :
    Always Recovers (Op.trail initial [.copyProcess 1 true 2, .hide 0 1 1]) := by
  refine (recover_iff booted_initial (Op.run_trail _ _)).mpr ⟨?_, ?_, trivial⟩
  · exact fun _ _ _ h => (by cases h)
  · unfold HidesNoThread
    decide +kernel

/-- The second thread is hidden by its own number, and stays so. -/
theorem thread_stays_hidden :
    Run Op.Step initial (Op.trail initial [.copyProcess 1 true 2, .hide 0 2 1]) ∧
      ¬ Recovers (final initial (Op.trail initial [.copyProcess 1 true 2, .hide 0 2 1])) := by
  refine ⟨Op.run_trail _ _, ?_⟩
  rw [recovers_iff]
  unfold ThreadsShown
  decide +kernel

end Osexp.Hide
