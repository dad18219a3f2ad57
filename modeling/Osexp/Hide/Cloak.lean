/-
# The field `cloak` over a run

* `last_request_decides`: in every run from boot, the `cloak` of a live task is what the latest
  request for it asked for, among those that root made since the task was created, and 0 if there
  was none.  Creation, exit, the reuse of a number, requests by others: nothing else sets it.
* `two_valued_iff`: `cloak` keeps to its two documented values, 0 visible and 1 hidden, as long as
  `hide` is only called with one of them for `on`; the call does not check this.

The field is the whole state of the feature: everything that hides a process reads it, and two
system calls write it.  So before anything is said about listings one wants to know what it holds,
from the outside, without following the calls.  The first result says that it is a record of the
requests; the second that it is a record of two values only if the callers see to it.

Both are proved from what one operation can ask for a task (`Op.asks`), by going back along the run
to the latest one that asked for something.
-/
import Osexp.Hide.Machine

namespace Osexp.Hide

open Kernel Lts

/-! ## 1. The latest request -/

/-- What an operation asks for the live task with this `struct pid`. -/
def asked (id : Nat) (k : Kernel) (op : Op) : Option (BitVec 32) :=
  (k.tasks.list.find? (·.threadPid == id)).bind fun t => op.asks t

/-- What the latest request in a run asked for the task with this `struct pid`. -/
def lastRequest (id : Nat) : Kernel → Trail Kernel Op → Option (BitVec 32)
  | _, [] => none
  | k, (op, k') :: w => (lastRequest id k' w).or (asked id k op)

/-- What was written last to `/proc/hide`. -/
def lastWritten : Trail Kernel Op → Option Int
  | [] => none
  | (op, _) :: w => (lastWritten w).or op.written

section Requests

variable {id : Nat} {k k' : Kernel} {op : Op} {t : Task} {w : Trail Kernel Op}

theorem lastRequest_concat :
    lastRequest id k (w ++ [(op, k')]) = (asked id (final k w) op).or (lastRequest id k w) := by
  induction w generalizing k with
  | nil =>
    rw [List.nil_append, lastRequest, lastRequest, lastRequest, Option.none_or, Option.or_none,
      final_nil]
  | cons p w ih => rw [List.cons_append, lastRequest, ih, lastRequest, Option.or_assoc, final_cons]

theorem lastWritten_concat :
    lastWritten (w ++ [(op, k')]) = op.written.or (lastWritten w) := by
  induction w with
  | nil => simp [lastWritten]
  | cons p w ih => rw [List.cons_append, lastWritten, ih, lastWritten, Option.or_assoc]

theorem asked_of_mem (ht : t ∈ k.tasks.list) : asked t.threadPid k op = op.asks t := by
  have hfind : k.tasks.list.find? (·.threadPid == t.threadPid) = some t := by
    cases h : k.tasks.list.find? (·.threadPid == t.threadPid) with
    | none => simpa using List.find?_eq_none.mp h t ht
    | some u =>
      have hu := List.find?_some h
      rw [k.tasks.eq_of_threadPid (List.mem_of_find?_eq_some h) ht (beq_iff_eq.mp hu)]
  rw [asked, hfind, Option.bind_some]

/-- Before its creation there is no request for a task. -/
theorem asked_of_fresh_le (h : k.fresh ≤ id) : asked id k op = none := by
  have hfind : k.tasks.list.find? (·.threadPid == id) = none := by
    refine List.find?_eq_none.mpr fun t ht => ?_
    have hlt := k.fresh_tasks t ht
    rw [beq_iff_eq]
    omega
  rw [asked, hfind, Option.bind_none]

theorem fresh_le_final (hrun : Run Op.Step k w) : k.fresh ≤ (final k w).fresh := by
  induction hrun with
  | nil => exact Nat.le_refl _
  | cons h _ ih =>
    subst h
    exact Nat.le_trans (Op.fresh_le_after _ _) ih

theorem lastRequest_of_fresh_le (hrun : Run Op.Step k w) (h : (final k w).fresh ≤ id) :
    lastRequest id k w = none := by
  induction hrun with
  | nil => rfl
  | cons hstep hrun ih =>
    have hle := Nat.le_trans (fresh_le_final (.cons hstep hrun)) h
    rw [lastRequest, ih h, asked_of_fresh_le hle, Option.or_none]

/-- The history invariant, by induction on the run from its end: a task of the last state was there
before the last step or is new. -/
theorem cloak_eq_lastRequest (hboot : k.Booted) (hrun : Run Op.Step k w) :
    ∀ t ∈ (final k w).tasks.list, t.cloak = (lastRequest t.threadPid k w).getD 0 := by
  induction w using List.reverseRecOn with
  | nil => exact hboot.visible
  | append_singleton w p ih =>
    obtain ⟨op, k'⟩ := p
    obtain ⟨hpast, rfl⟩ := run_concat.mp hrun
    intro t ht
    rw [final_concat, Op.mem_after] at ht
    rw [lastRequest_concat]
    rcases ht with ⟨u, hu, _, rfl⟩ | hborn
    · rw [Op.effect_threadPid, asked_of_mem hu, Op.effect_cloak, ih hpast u hu]
      cases op.asks u <;> rfl
    · obtain ⟨hcloak, hid⟩ := Op.born_cloak hborn
      rw [hcloak, hid, asked_of_fresh_le (Nat.le_refl _),
        lastRequest_of_fresh_le hpast (Nat.le_refl _)]
      rfl

theorem flag_eq_lastWritten (hrun : Run Op.Step k w) :
    (final k w).hiddenFlag = (lastWritten w).getD k.hiddenFlag := by
  induction w using List.reverseRecOn with
  | nil => rfl
  | append_singleton w p ih =>
    obtain ⟨op, k'⟩ := p
    obtain ⟨hpast, rfl⟩ := run_concat.mp hrun
    rw [final_concat, Op.after_flag, lastWritten_concat, ih hpast]
    cases op.written <;> rfl

end Requests

/-- **The last authorised request decides** whether a task is hidden, and only `/proc/hide` sets the
flag.  This is what "hidden" means over the life of a system: it can be read off the requests,
without looking at the kernel, and nobody but root has a say.  A number that is given to a new task
does not bring the old marking with it. -/
theorem last_request_decides {k : Kernel} {w : Trail Kernel Op} (hboot : k.Booted)
    (hrun : Run Op.Step k w) :
    (∀ t ∈ (final k w).tasks.list, t.cloak = (lastRequest t.threadPid k w).getD 0) ∧
      (final k w).hiddenFlag = (lastWritten w).getD 1 := by
  refine ⟨cloak_eq_lastRequest hboot hrun, ?_⟩
  rw [← hboot.flag]
  exact flag_eq_lastWritten hrun

/-- Root hides the new process 2, it forks 3, and a request of uid 1000 to show it is refused. -/
theorem last_request_decides_child :
    (final initial (Op.trail initial [.copyProcess 1 false 2, .hide 0 2 1, .copyProcess 2 false 3,
        .hide 1000 2 0])).tasks.list.map (fun t => (t.pid, t.cloak)) = [(1, 0), (2, 1), (3, 0)] ∧
      ∀ t ∈ (final initial (Op.trail initial [.copyProcess 1 false 2, .hide 0 2 1,
        .copyProcess 2 false 3, .hide 1000 2 0])).tasks.list,
        t.cloak = (lastRequest t.threadPid initial (Op.trail initial [.copyProcess 1 false 2,
          .hide 0 2 1, .copyProcess 2 false 3, .hide 1000 2 0])).getD 0 :=
  ⟨by decide, (last_request_decides booted_initial (Op.run_trail _ _)).1⟩

/-! ## 2. Two values -/

/-- Every live task has one of the two documented values. -/
def TwoValued (k : Kernel) : Prop := ∀ t ∈ k.tasks.list, t.cloak = 0 ∨ t.cloak = 1

/-- A call of `hide` by root on a live task passes 0 or 1. -/
def PassesFlag (k : Kernel) : Op → Prop
  | .hide caller pid on =>
    caller = 0 → 0 < pid → (∃ t ∈ k.tasks.list, (t.pid : Int) = pid) → on = 0 ∨ on = 1
  | _ => True

section Values

variable {k : Kernel} {op : Op} {t : Task}

/-- `hide_user_processes` asks for 0 or 1 only, `hide` for whatever it is given. -/
theorem asks_two_valued (ht : t ∈ k.tasks.list) (hok : PassesFlag k op) {v : BitVec 32}
    (h : op.asks t = some v) : v = 0 ∨ v = 1 := by
  cases op with
  | hide caller pid on =>
    simp only [Op.asks, Option.ite_none_right_eq_some, Option.some.injEq] at h
    obtain ⟨⟨hroot, hpos, hpid⟩, rfl⟩ := h
    exact hok hroot hpos ⟨t, ht, hpid⟩
  | hideUserProcesses caller uid binname recover =>
    simp only [Op.asks] at h
    split at h
    · split at h
      · split at h
        · exact Or.inr (Option.some.inj h).symm
        · cases h
      · exact Or.inl (Option.some.inj h).symm
    · cases h
  | _ => cases h

theorem twoValued_after (hk : TwoValued k) : TwoValued (op.after k) ↔ PassesFlag k op := by
  constructor
  · intro hafter
    cases op with
    | hide caller pid on =>
      rintro hroot hpos ⟨t, ht, hpid⟩
      have hask : (Op.hide caller pid on).asks t = some on := if_pos ⟨hroot, hpos, hpid⟩
      have hmem : (Op.hide caller pid on).effect t ∈ ((Op.hide caller pid on).after k).tasks.list :=
        Op.mem_after.mpr (Or.inl ⟨t, ht, rfl, rfl⟩)
      have hval := hafter _ hmem
      rw [Op.effect_cloak, hask] at hval
      exact hval
    | _ => trivial
  · intro hok t ht
    rcases Op.mem_after.mp ht with ⟨u, hu, _, rfl⟩ | hborn
    · rw [Op.effect_cloak]
      cases h : op.asks u with
      | none => exact hk u hu
      | some v => exact asks_two_valued hu hok h
    · exact Or.inl (Op.born_cloak hborn).1

end Values

/-- **The exact condition for a two-valued `cloak`.** The field is documented with two values, 0
visible and 1 hidden, and every reader of it tests for 1; so a task with any third value is shown to
all, although the call that set it has reported success.  No third value comes up along a run
exactly when `hide` is called with 0 or 1 for `on` wherever root names a live task. -/
theorem two_valued_iff {k : Kernel} {w : Trail Kernel Op} (hboot : k.Booted)
    (hrun : Run Op.Step k w) : Always TwoValued w ↔ StepsOk PassesFlag k w := by
  have hinv : ∀ (s : Kernel) (op : Op) (t : Kernel), True → Op.Step s op t → True :=
    fun _ _ _ _ _ => trivial
  refine hrun.always_iff hinv ?_ trivial (fun t ht => Or.inl (hboot.visible t ht))
  rintro s op t _ hs rfl
  exact twoValued_after hs

theorem two_valued_hide_show : Always TwoValued (Op.trail initial [.hide 0 1 1, .hide 0 1 0]) :=
  (two_valued_iff booted_initial (Op.run_trail _ _)).mpr
    ⟨fun _ _ _ => Or.inr rfl, fun _ _ _ => Or.inl rfl, trivial⟩

/-- Root calls `hide(1, 2)`: the call succeeds and `cloak` is 2. -/
theorem hide_stores_two :
    (initial.hide 0 1 2).1 = 0 ∧ Run Op.Step initial (Op.trail initial [.hide 0 1 2]) ∧
      ¬ TwoValued (final initial (Op.trail initial [.hide 0 1 2])) := by
  refine ⟨by decide, Op.run_trail _ _, ?_⟩
  intro h
  have hval : ∀ t ∈ (final initial (Op.trail initial [.hide 0 1 2])).tasks.list,
    t.cloak = 0 ∨ t.cloak = 1 := h
  revert hval
  decide

end Osexp.Hide
