/-
# What the two system calls report, and whom they hide

* `hide` returns 0 for a call that it refuses, as for one that it carries out: both go to the one
  `return 0` at its end.  Its result tells the truth exactly for a positive number given by root
  (`hide_reports_iff`).
* `hide_user_processes` compares a copy of the name, cut to the 16 bytes of its array, with names of
  at most 15.  The terminator that it puts at the end of the array is overwritten by the copy, so a
  name of 16 bytes and more is equal to none of them, not even to the 15 bytes that the kernel has
  kept of it (`hides_asked_iff`).

The two results are about one call, in any state of the kernel and by any caller; what becomes of
its effects over a run is the subject of `Osexp.Hide.Cloak`.  They are stated as one would put them
in a manual (`HideReports`, `HidesAsked`), and say for which calls the manual would be right.
-/
import Osexp.Hide.Machine

namespace Osexp.Hide

open Kernel

/-! ## 1. `hide` -/

/-- Root names a live task. -/
def Names (caller : Nat) (pid : Int) (k : Kernel) : Prop :=
  caller = 0 ∧ 0 < pid ∧ ∃ t ∈ k.tasks.list, (t.pid : Int) = pid

/-- The call returns 0 exactly when root names a live task; then that task, and no other, gets the
value, and otherwise all are left alone. -/
structure HideReports (caller : Nat) (pid : Int) (on : BitVec 32) (k : Kernel) : Prop where
  ret : (k.hide caller pid on).1 = 0 ↔ Names caller pid k
  marked : Names caller pid k → (k.hide caller pid on).2.tasks.list =
    k.tasks.list.map (Task.mark (fun t => (t.pid : Int) == pid) on)
  refused : ¬ Names caller pid k → (k.hide caller pid on).2.tasks.list = k.tasks.list

section Hide

variable {caller : Nat} {pid : Int} {on : BitVec 32} {k : Kernel}

/-- A refused call returns 0, and any other says whether it has found the task. -/
theorem hide_ret :
    (k.hide caller pid on).1 = 0 ↔ ¬ (caller = 0 ∧ 0 < pid) ∨ Names caller pid k := by
  unfold Kernel.hide
  split
  · rename_i hroot
    have hno : ¬ ¬ (caller = 0 ∧ 0 < pid) := not_not.mpr hroot.symm
    rw [or_iff_right hno]
    split
    · rename_i hnone
      refine iff_of_false Nat.one_ne_zero ?_
      rintro ⟨_, hpos, t, ht, hpid⟩
      exact findTask_eq_none_iff.mp hnone t ht (by omega)
    · rename_i p hsome
      obtain ⟨hp, hpid⟩ := findTask_eq_some_iff.mp hsome
      exact iff_of_true rfl ⟨hroot.2, hroot.1, p, hp, by omega⟩
  · rename_i hroot
    exact iff_of_true rfl (Or.inl fun h => hroot h.symm)

theorem hide_marked (h : Names caller pid k) : (k.hide caller pid on).2.tasks.list =
    k.tasks.list.map (Task.mark (fun t => (t.pid : Int) == pid) on) := by
  obtain ⟨hroot, hpos, _⟩ := h
  rw [Op.hide_list]
  refine List.map_congr_left fun t _ => ?_
  simp only [Op.effect, Op.asks, Task.mark, beq_iff_eq, hroot, hpos, true_and]
  split <;> rfl

theorem hide_refused (h : ¬ Names caller pid k) :
    (k.hide caller pid on).2.tasks.list = k.tasks.list := by
  rw [Op.hide_list]
  have hid : ∀ t ∈ k.tasks.list, (Op.hide caller pid on).effect t = t := by
    intro t ht
    have hask : (Op.hide caller pid on).asks t = none :=
      if_neg fun hcall => h ⟨hcall.1, hcall.2.1, t, ht, hcall.2.2⟩
    simp only [Op.effect, hask, Option.getD_none]
  rw [List.map_congr_left hid, List.map_id']

end Hide

/-- **When `hide` reports what it did.** A caller has nothing but the result to learn whether the
process is hidden now.  A number that is not in use is reported by 1; but a refused call goes on to
the same `return 0` as one that is carried out, so 0 can be trusted exactly when root calls, with a
positive number. -/
theorem hide_reports_iff (caller : Nat) (pid : Int) (on : BitVec 32) (k : Kernel) :
    HideReports caller pid on k ↔ caller = 0 ∧ 0 < pid := by
  constructor
  · intro h
    by_contra hcall
    obtain ⟨hroot, hpos, _⟩ := h.ret.mp (hide_ret.mpr (Or.inl hcall))
    exact hcall ⟨hroot, hpos⟩
  · intro hcall
    exact ⟨hide_ret.trans (or_iff_right (not_not.mpr hcall)), hide_marked, hide_refused⟩

/-- A call by uid 1000 is refused and returns 0. -/
theorem hide_denied_returns_zero :
    (initial.hide 1000 1 1).1 = 0 ∧ ¬ HideReports 1000 1 1 initial := by
  refine ⟨by decide, ?_⟩
  intro h
  exact absurd (h.ret.mp (by decide)).1 (by decide)

/-! ## 2. `hide_user_processes` -/

/-- The name is that of a binary whose processes have this `comm`: its first 15 bytes. -/
def UserString.names : UserString → List Char → Bool
  | null, _ => true
  | unreadable, _ => false
  | string s, comm => s.take (TASK_COMM_LEN - 1) == comm

/-- The call hides the processes of the uid with this binary name and no other task; it fails, and
hides nothing, if the name cannot be read or the caller is not root. -/
structure HidesAsked (caller uid : Nat) (binname : UserString) (k : Kernel) : Prop where
  hides : caller = 0 → binname ≠ .unreadable →
    (k.hideUserProcesses caller uid binname 0).2.tasks.list =
      k.tasks.list.map
        (Task.mark (fun t => t.isLeader && (t.uid == uid && binname.names t.comm)) 1)
  refused : ∀ recover, caller ≠ 0 ∨ recover = 0 ∧ binname = .unreadable →
    (k.hideUserProcesses caller uid binname recover).1 ≠ 0 ∧
      (k.hideUserProcesses caller uid binname recover).2.tasks.list = k.tasks.list

/-- The name is shorter than the array, or the processes that its first 15 bytes name are marked
already. -/
def NameFits (uid : Nat) (binname : UserString) (k : Kernel) : Prop :=
  ∀ s, binname = .string s → TASK_COMM_LEN ≤ s.length →
    ∀ t ∈ k.processes, t.uid = uid → s.take (TASK_COMM_LEN - 1) = t.comm → t.cloak = 1

section HideUserProcesses

variable {caller uid : Nat} {binname : UserString} {k : Kernel}

theorem Task.mark_eq_mark_iff {m n : Task → Bool} {v : BitVec 32} {t : Task}
    (h : m t = true → n t = true) :
    t.mark m v = t.mark n v ↔ (n t = true → m t = false → t.cloak = v) := by
  unfold Task.mark
  cases hm : m t with
  | true => simp [h hm]
  | false =>
    cases hn : n t with
    | false => simp
    | true =>
      simp only [Bool.false_eq_true, if_false, if_true, forall_const]
      constructor
      · intro heq
        rw [heq]
      · rintro rfl
        rfl

theorem refused (recover : BitVec 32)
    (h : caller ≠ 0 ∨ recover = 0 ∧ binname = .unreadable) :
    (k.hideUserProcesses caller uid binname recover).1 ≠ 0 ∧
      (k.hideUserProcesses caller uid binname recover).2.tasks.list = k.tasks.list := by
  unfold Kernel.hideUserProcesses
  split
  · exact ⟨Nat.one_ne_zero, rfl⟩
  · rename_i hroot
    obtain ⟨hrec, rfl⟩ := h.resolve_left hroot
    rw [if_pos hrec]
    exact ⟨Nat.succ_ne_zero 1, rfl⟩

/-- A name that the array cuts is equal to no `comm`. -/
theorem strncmpEq_long {comm s : List Char} (hcomm : comm.length < TASK_COMM_LEN)
    (hs : TASK_COMM_LEN ≤ s.length) : strncmpEq TASK_COMM_LEN comm (kbinname s) = false := by
  rw [strncmpEq_kbinname hcomm, beq_eq_false_iff_ne]
  rintro rfl
  omega

/-- The processes of the uid whose `comm` is equal to the copy of the name. -/
def matchesCopy (uid : Nat) (s : List Char) (t : Task) : Bool :=
  t.isLeader && (t.uid == uid && strncmpEq TASK_COMM_LEN t.comm (kbinname s))

/-- The copy of a short name is the name. -/
theorem mark_short {s : List Char} (hs : ¬ TASK_COMM_LEN ≤ s.length) (t : Task) :
    t.mark (matchesCopy uid s) 1 =
      t.mark (fun t => t.isLeader && (t.uid == uid && (UserString.string s).names t.comm)) 1 := by
  refine Task.mark_congr 1 ?_
  have htake : s.take (TASK_COMM_LEN - 1) = s :=
    List.take_of_length_le (by unfold TASK_COMM_LEN at *; omega)
  rw [matchesCopy, strncmpEq_kbinname t.comm_length, UserString.names, htake]

/-- No `comm` is equal to the copy of a long name, so a process asked for has to be marked
already. -/
theorem mark_long_iff {s : List Char} (hs : TASK_COMM_LEN ≤ s.length) (t : Task) :
    t.mark (matchesCopy uid s) 1 =
        t.mark (fun t => t.isLeader && (t.uid == uid && (UserString.string s).names t.comm)) 1 ↔
      (t.isLeader = true → t.uid = uid → s.take (TASK_COMM_LEN - 1) = t.comm → t.cloak = 1) := by
  have hnone : matchesCopy uid s t = false := by
    simp [matchesCopy, strncmpEq_long t.comm_length hs]
  rw [Task.mark_eq_mark_iff (by simp [hnone])]
  simp [hnone, UserString.names]

end HideUserProcesses

/-- **When `hide_user_processes` hides the processes asked for**, and those only.  Callers other
than root and names that cannot be read are refused, as they should be.  For root the length of the
name decides: one that fills the array has no terminator behind it and is equal to no `comm`, so the
call hides nobody and reports success (`NameFits`). -/
theorem hides_asked_iff (caller uid : Nat) (binname : UserString) (k : Kernel) :
    HidesAsked caller uid binname k ↔ (caller = 0 → NameFits uid binname k) := by
  have hsplit : HidesAsked caller uid binname k ↔ (caller = 0 → binname ≠ .unreadable →
      (k.hideUserProcesses caller uid binname 0).2.tasks.list =
        k.tasks.list.map
          (Task.mark (fun t => t.isLeader && (t.uid == uid && binname.names t.comm)) 1)) :=
    ⟨HidesAsked.hides, fun h => ⟨h, fun recover => refused recover⟩⟩
  rw [hsplit]
  refine imp_congr_right fun hroot => ?_
  have hcall : k.hideUserProcesses caller uid binname 0 = k.hideUserProcesses 0 uid binname 0 := by
    rw [hroot]
  rw [hcall]
  cases binname with
  | null =>
    refine iff_of_true (fun _ => ?_) (by rintro s ⟨⟩)
    refine (hideMatching_list (fun p => p.uid == uid) k).trans ?_
    simp only [UserString.names, Bool.and_true]
  | unreadable => exact iff_of_true (fun h => absurd rfl h) (by rintro s ⟨⟩)
  | string s =>
    have hlist : (k.hideUserProcesses 0 uid (.string s) 0).2.tasks.list =
        k.tasks.list.map (Task.mark (matchesCopy uid s) 1) := hideMatching_list _ k
    rw [hlist, List.map_inj_left, imp_iff_right (by simp)]
    by_cases hlen : TASK_COMM_LEN ≤ s.length
    · simp only [mark_long_iff hlen]
      constructor
      · rintro h s' hs' - t ht
        cases hs'
        obtain ⟨ht, hlead⟩ := mem_processes.mp ht
        exact h t ht hlead
      · intro h t ht hlead
        exact h s rfl hlen t (mem_processes.mpr ⟨ht, hlead⟩)
    · refine iff_of_true (fun t _ => mark_short hlen t) ?_
      rintro s' hs' hlen'
      cases hs'
      exact absurd hlen' hlen

/-- The name of `init`'s binary is changed to one of 16 bytes. -/
def longName : List Char := "session-launcher".toList

/-- Root asks for the processes of uid 0 with that name: the call succeeds and `init`, whose `comm`
is the first 15 bytes, stays visible. -/
theorem long_name_hides_nothing :
    ((initial.setTaskComm 1 longName).hideUserProcesses 0 0 (.string longName) 0).1 = 0 ∧
      ¬ HidesAsked 0 0 (.string longName) (initial.setTaskComm 1 longName) := by
  refine ⟨by decide, ?_⟩
  intro h
  have hmarked := congrArg (List.map Task.cloak) (h.hides rfl (by rintro ⟨⟩))
  revert hmarked
  decide +kernel

end Osexp.Hide
