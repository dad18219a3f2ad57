/-
# System calls at the same time

Everywhere else a system call is one step.  But `hide_user_processes` goes through the processes
without a lock, and between two turns of its loop other processes make system calls, fork and end,
and other calls of `hide_user_processes` are in their own loops.

`Parallel` is the kernel with `threads` callers that may be in such a loop; everything else is one
step, and comes between any two turns.  Here a call is as good as whole: `calls_as_whole` says that
when all calls have returned, the tasks are what they would be if each call had been made at once,
at the moment of its return.  What this needs (`Undisturbed`): no process ends while a call stands
at it, calls that hide and calls that recover are not in their loops together, and whoever changes
the uid, the name or the `cloak` of a process does not contradict a call that is in its loop.

`returns`: a call in its loop can always go on, and returns if it is let.

The proof goes along the run with the whole calls beside it: `Follows` says how the tasks of the two
differ while calls are in their loops, namely in the `cloak` of the processes that such a call has
passed.
-/
import Osexp.Hide.AnyOrder
import Osexp.Hide.ProcessWalk

namespace Osexp.Hide

open Kernel Lts Walk

/-! ## 1. A call and its loop -/

/-- A call of `hide_user_processes` by root. -/
structure Call where
  uid : Nat
  binname : UserString
  recover : BitVec 32

namespace Call

/-- The call as one step. -/
def op (call : Call) : Op := .hideUserProcesses 0 call.uid call.binname call.recover

/-- The call gets to a loop: there is no name to copy, or it can be copied. -/
def loops (call : Call) : Bool :=
  match call.binname with
  | .unreadable => call.recover != 0
  | _ => true

/-- The body of the loop that it gets to, at a process. -/
def turn (call : Call) (k : Kernel) (p : Task) : Kernel :=
  if call.recover = 0 then
    match call.binname with
    | .null => hideOne (fun p => p.uid == call.uid) k p
    | .unreadable => k
    | .string s =>
      hideOne (fun p => p.uid == call.uid && strncmpEq TASK_COMM_LEN p.comm (kbinname s)) k p
  else k.setCloak (fun t => t.pid == p.pid) 0

/-- What it stores in `cloak`. -/
def value (call : Call) : BitVec 32 := if call.recover = 0 then 1 else 0

/-- It stores it for this task. -/
def wants (call : Call) (t : Task) : Bool := (call.op.asks t).isSome

end Call

/-! ## 2. The kernel with its callers -/

/-- A call in its loop, and the process at which it stands. -/
structure InLoop where
  call : Call
  stand : Option Nat

structure Parallel (threads : Nat) where
  kernel : Kernel
  calls : Fin threads → Option InLoop

/-- Something that is one step, the beginning of a loop, or the next turn of one. -/
inductive Act (threads : Nat)
  | op (op : Op)
  | enter (c : Fin threads) (call : Call)
  | next (c : Fin threads)

namespace Parallel

variable {threads : Nat}

/-- The next turn of a call: it goes to the next process, or returns.  When the process at which it
stands has gone, it reads from memory that is no task. -/
def turn (p : Parallel threads) (c : Fin threads) (l : InLoop) : Option (Parallel threads) :=
  if Stands p.kernel.processIds l.stand then
    match p.kernel.nextProcess l.stand with
    | some t =>
      some ⟨l.call.turn p.kernel t, Function.update p.calls c (some ⟨l.call, some t.threadPid⟩)⟩
    | none => some ⟨p.kernel, Function.update p.calls c none⟩
  else none

/-- What an action leads to, if it is possible. -/
def after (p : Parallel threads) : Act threads → Option (Parallel threads)
  | .op o => some ⟨o.after p.kernel, p.calls⟩
  | .enter c call =>
    if (p.calls c).isNone ∧ call.loops = true then
      some ⟨p.kernel, Function.update p.calls c (some ⟨call, none⟩)⟩
    else none
  | .next c => (p.calls c).bind (p.turn c)

def Step (p : Parallel threads) (a : Act threads) (p' : Parallel threads) : Prop :=
  p.after a = some p'

/-- The same as one sequence of whole steps: a call is made when it returns. -/
def whole (p : Parallel threads) : Act threads → List Op
  | .op o => [o]
  | .enter _ _ => []
  | .next c =>
    match p.calls c with
    | none => []
    | some l => if (p.kernel.nextProcess l.stand).isNone then [l.call.op] else []

def wholeRun : Parallel threads → Trail (Parallel threads) (Act threads) → List Op
  | _, [] => []
  | p, (a, p') :: r => p.whole a ++ wholeRun p' r

/-- The operation leaves alone what a call in its loop rests on. -/
structure Leaves (k : Kernel) (o : Op) (l : InLoop) : Prop where
  stand : o.LeavesStand k l.stand
  wants : ∀ t ∈ k.tasks.list, l.call.wants (o.effect t) = l.call.wants t
  agrees : ∀ t ∈ k.tasks.list, l.call.wants t = true → ∀ v ∈ o.asks t, v = l.call.value

/-- What `calls_as_whole` needs of a step. -/
def Undisturbed (p : Parallel threads) : Act threads → Prop
  | .op o => ∀ c, ∀ l ∈ p.calls c, Leaves p.kernel o l
  | .enter _ call => ∀ c, ∀ l ∈ p.calls c, l.call.value = call.value
  | .next _ => True

end Parallel

/-! ## 3. One turn -/

namespace Call

variable {call : Call} {k : Kernel} {p t : Task}

theorem asks_eq (call : Call) (t : Task) :
    call.op.asks t = if call.wants t = true then some call.value else none := by
  unfold wants op value Op.asks
  by_cases hrec : call.recover = 0
  · simp only [hrec]
    grind
  · simp only [hrec]
    grind

/-- What the call wants is said of the uid, the name and the numbers. -/
theorem wants_mark (call : Call) (m : Task → Bool) (v : BitVec 32) (t : Task) :
    call.wants (t.mark m v) = call.wants t := by
  unfold Task.mark
  split <;> rfl

theorem wants_leader (h : call.wants t = true) : t.isLeader = true := by
  unfold wants op Op.asks at h
  grind

theorem hideOne_list {m : Task → Bool} (hp : p ∈ k.processes) (hm : m p = call.wants p)
    (hvalue : call.value = 1) :
    (hideOne m k p).tasks.list =
      k.tasks.list.map (Task.mark (fun t => t.pid == p.pid && call.wants t) call.value) := by
  have hone : ∀ t ∈ k.tasks.list, (t.pid == p.pid) = true → t = p := fun t ht h =>
    k.tasks.eq_of_pid ht (mem_processes.mp hp).1 (beq_iff_eq.mp h)
  unfold hideOne
  rw [hvalue]
  split
  · rename_i hyes
    rw [procFlushPid_tasks, getPid_tasks, setCloak, updateTasks_list]
    refine List.map_congr_left fun t ht => Task.mark_congr 1 ?_
    cases h : t.pid == p.pid with
    | false => rfl
    | true => rw [hone t ht h, ← hm, hyes, Bool.and_self]
  · rename_i hno
    refine ((List.map_congr_left fun t ht => ?_).trans (List.map_id _)).symm
    unfold Task.mark
    refine if_neg fun h => hno ?_
    rw [Bool.and_eq_true] at h
    rw [hm, ← hone t ht h.1]
    exact h.2

/-- **One turn** marks the process at which it is made, if the call wants it. -/
theorem turn_list (hloops : call.loops = true) (hp : p ∈ k.processes) :
    (call.turn k p).tasks.list =
      k.tasks.list.map (Task.mark (fun t => t.pid == p.pid && call.wants t) call.value) := by
  have hlead : p.isLeader = true := (mem_processes.mp hp).2
  unfold turn
  split
  · rename_i hrec
    have hvalue : call.value = 1 := if_pos hrec
    cases hname : call.binname with
    | null =>
      refine hideOne_list hp ?_ hvalue
      simp only [wants, op, Op.asks, hrec, hname, hlead, UserString.covers]
      grind
    | unreadable => simp [loops, hname, hrec] at hloops
    | string s =>
      refine hideOne_list hp ?_ hvalue
      rw [strncmpEq_kbinname p.comm_length]
      simp only [wants, op, Op.asks, hrec, hname, hlead, UserString.covers]
      grind
  · rename_i hrec
    have hvalue : call.value = 0 := if_neg hrec
    rw [setCloak, updateTasks_list, hvalue]
    refine List.map_congr_left fun t ht => Task.mark_congr 0 ?_
    cases h : t.pid == p.pid with
    | false => rfl
    | true =>
      have heq : t = p := k.tasks.eq_of_pid ht (mem_processes.mp hp).1 (beq_iff_eq.mp h)
      have hasks : call.op.asks p = some 0 := by
        rw [op, Op.asks, if_pos ⟨rfl, hlead⟩, if_neg hrec]
      rw [heq, wants, hasks]
      rfl

theorem turn_fresh : (call.turn k p).fresh = k.fresh := by
  unfold turn hideOne
  split
  · split
    · split <;> rfl
    · rfl
    · split <;> rfl
  · rfl

end Call

/-! ## 4. Kernels that differ in marks -/

section Marks

variable {k q : Kernel} {m : Task → Bool} {v : BitVec 32} {t : Task}

theorem keeps_marked (h : k.tasks.list = q.tasks.list.map (Task.mark m v)) (o : Op) (t : Task) :
    o.keeps k (t.mark m v) = o.keeps q t := by
  cases o with
  | exit pid flushed =>
    have hneeded : k.tasks.needed (t.mark m v) = q.tasks.needed t := by
      unfold Tasks.needed
      rw [h, List.any_map]
      refine List.any_congr rfl fun u => ?_
      simp only [Function.comp, Task.mark_pid, (Task.keeps_mark m v u).2.1]
    rw [Op.keeps, Op.keeps, hneeded, Task.mark_pid]
  | _ => rfl

theorem findTask_marked (h : k.tasks.list = q.tasks.list.map (Task.mark m v)) (n : Nat) :
    k.findTask n = (q.findTask n).map (Task.mark m v) := by
  unfold Kernel.findTask
  rw [h, List.find?_map]
  simp only [Function.comp_def, Task.mark_pid]

theorem freeNumber_marked (h : k.tasks.list = q.tasks.list.map (Task.mark m v)) (pid : Nat) :
    k.FreeNumber pid ↔ q.FreeNumber pid := by
  unfold Kernel.FreeNumber
  rw [h, List.forall_mem_map]
  simp only [Task.mark_pid]

/-- A mark is not inherited. -/
theorem copy_mark (t : Task) (thread : Bool) (pid id : Nat) :
    (t.mark m v).copy thread pid id = t.copy thread pid id := by
  unfold Task.mark
  split <;> rfl

theorem born_marked (h : k.tasks.list = q.tasks.list.map (Task.mark m v))
    (hfresh : k.fresh = q.fresh) (o : Op) : o.born k = o.born q := by
  cases o with
  | copyProcess parent thread pid =>
    simp only [Op.born]
    rw [findTask_marked h]
    cases q.findTask parent with
    | none => rfl
    | some p =>
      dsimp only [Option.map_some]
      rw [copy_mark, hfresh]
      exact if_congr (freeNumber_marked h pid) rfl rfl
  | _ => rfl

/-- No operation asks because of a mark. -/
theorem asks_marked (o : Op) (t : Task) : o.asks (t.mark m v) = o.asks t := by
  unfold Task.mark
  split
  · cases o <;> rfl
  · rfl

/-- An operation does to a marked task what it does to the task, and keeps the mark unless it asks
for another value. -/
theorem effect_marked (o : Op) (hm : m t = true) :
    o.effect (t.mark m v) = { o.effect t with cloak := (o.asks t).getD v } := by
  rw [Task.mark, if_pos hm]
  cases o with
  | setuid pid uid =>
    simp only [Op.effect, Op.asks, Task.setUid]
    split <;> rfl
  | setTaskComm pid buf =>
    simp only [Op.effect, Op.asks, Task.setComm]
    split <;> rfl
  | _ => rfl

end Marks

/-! ## 5. The calls ahead of their return -/

/-- The loop has been at the task, and the call wants it. -/
def InLoop.marks (k : Kernel) (l : InLoop) (t : Task) : Prop :=
  Passed k.processIds l.stand t.threadPid ∧ l.call.wants t = true

instance (k : Kernel) (l : InLoop) (t : Task) : Decidable (l.marks k t) :=
  inferInstanceAs (Decidable (_ ∧ _))

namespace Parallel

variable {threads : Nat} {p p' : Parallel threads} {q : Kernel} {v : BitVec 32} {o : Op}
  {c : Fin threads} {call : Call} {l : InLoop} {t : Task}

open Classical in
/-- Some call that has not returned has been at the task, and wants it. -/
noncomputable def marked (p : Parallel threads) (t : Task) : Bool :=
  decide (∃ c, ∃ l ∈ p.calls c, l.marks p.kernel t)

theorem marked_iff : p.marked t = true ↔ ∃ c, ∃ l ∈ p.calls c, l.marks p.kernel t :=
  decide_eq_true_iff

/-- **What the calls in their loops have done so far** is all that the kernel is ahead of the
sequence of whole steps. -/
structure Follows (p : Parallel threads) (v : BitVec 32) (q : Kernel) : Prop where
  list : p.kernel.tasks.list = q.tasks.list.map (Task.mark p.marked v)
  fresh : p.kernel.fresh = q.fresh
  stands : ∀ c, ∀ l ∈ p.calls c, Stands p.kernel.processIds l.stand
  loops : ∀ c, ∀ l ∈ p.calls c, l.call.loops = true
  value : ∀ c, ∀ l ∈ p.calls c, l.call.value = v

/-- Whether a task is marked does not depend on its marks. -/
theorem marked_mark (m : Task → Bool) (t : Task) : p.marked (t.mark m v) = p.marked t := by
  have hiff : ∀ l : InLoop, l.marks p.kernel (t.mark m v) ↔ l.marks p.kernel t := by
    intro l
    rw [InLoop.marks, InLoop.marks, Call.wants_mark, (Task.keeps_mark m v t).2.2]
  rw [Bool.eq_iff_iff, marked_iff, marked_iff]
  simp only [hiff]

/-- A step that is whole. -/
theorem Follows.op (h : Follows p v q) (ho : ∀ c, ∀ l ∈ p.calls c, Leaves p.kernel o l) :
    Follows ⟨o.after p.kernel, p.calls⟩ v (o.after q) := by
  have hborn := born_marked h.list h.fresh o
  -- whether a task is marked afterwards
  have hmarks : ∀ t ∈ p.kernel.tasks.list, o.keeps p.kernel t = true →
      marked ⟨o.after p.kernel, p.calls⟩ (o.effect t) = p.marked t := by
    intro t ht hkeep
    rw [Bool.eq_iff_iff, marked_iff, marked_iff]
    refine exists_congr fun c => exists_congr fun l => and_congr_right fun hl => ?_
    rw [InLoop.marks, InLoop.marks, Op.effect_threadPid, (ho c l hl).wants t ht,
      passed_after (h.stands c l hl) (ho c l hl).stand ht hkeep]
  refine ⟨?_, ?_, ?_, h.loops, h.value⟩
  · dsimp only
    rw [Op.after_list, Op.after_list, List.map_append, hborn]
    congr 1
    · -- the tasks that stay
      rw [h.list, List.filter_map, List.map_map, List.map_map]
      simp only [Function.comp_def, keeps_marked h.list]
      refine List.map_congr_left fun t ht => ?_
      obtain ⟨ht, hkeep⟩ := List.mem_filter.mp ht
      have hmem : t.mark p.marked v ∈ p.kernel.tasks.list :=
        h.list ▸ List.mem_map_of_mem ht
      have hmarked := hmarks _ hmem ((keeps_marked h.list o t).trans hkeep)
      rw [marked_mark] at hmarked
      cases hm : p.marked t with
      | false =>
        have heq : t.mark p.marked v = t := by simp [Task.mark, hm]
        rw [heq] at hmarked ⊢
        rw [Task.mark, hmarked, hm]
        rfl
      | true =>
        have hvalue : (o.asks t).getD v = v := by
          obtain ⟨c, l, hl, _, hwants⟩ := marked_iff.mp ((marked_mark _ t).trans hm)
          have hagrees := (ho c l hl).agrees _ hmem hwants
          rw [asks_marked] at hagrees
          cases hasks : o.asks t with
          | none => rfl
          | some v' => exact (hagrees v' hasks).trans (h.value c l hl)
        have hsame : o.effect (t.mark p.marked v) = (o.effect t).mark (fun _ => true) v := by
          rw [effect_marked o hm, hvalue]
          rfl
        rw [hm, hsame, marked_mark] at hmarked
        rw [hsame, Task.mark, Task.mark, if_pos rfl, if_pos hmarked]
    · -- the new ones
      refine ((List.map_congr_left fun t ht => ?_).trans (List.map_id _)).symm
      have hno : marked ⟨o.after p.kernel, p.calls⟩ t = false := by
        rw [Bool.eq_false_iff, Ne, marked_iff]
        rintro ⟨c, l, hl, hpassed, _⟩
        exact not_passed_born (h.stands c l hl) (ho c l hl).stand (hborn ▸ ht) hpassed
      rw [Task.mark, hno]
      rfl
  · rw [Op.after_fresh, Op.after_fresh, hborn, h.fresh]
  · exact fun c l hl => stands_after (h.stands c l hl) (ho c l hl).stand

theorem mem_update {calls : Fin threads → Option InLoop} {x : Option InLoop} {c' : Fin threads} :
    l ∈ Function.update calls c x c' ↔ c' = c ∧ l ∈ x ∨ c' ≠ c ∧ l ∈ calls c' := by
  rw [Function.update_apply]
  split <;> simp_all

/-- The other calls, and what has become of this one. -/
theorem marked_update {k : Kernel} {x : Option InLoop} :
    marked ⟨k, Function.update p.calls c x⟩ t = true ↔
      (∃ l ∈ x, l.marks k t) ∨ ∃ c', c' ≠ c ∧ ∃ l ∈ p.calls c', l.marks k t := by
  rw [marked_iff]
  simp only [mem_update]
  constructor
  · rintro ⟨c', l, ⟨rfl, hl⟩ | ⟨hne, hl⟩, hmarks⟩
    · exact Or.inl ⟨l, hl, hmarks⟩
    · exact Or.inr ⟨c', hne, l, hl, hmarks⟩
  · rintro (⟨l, hl, hmarks⟩ | ⟨c', hne, l, hl, hmarks⟩)
    · exact ⟨c, l, Or.inl ⟨rfl, hl⟩, hmarks⟩
    · exact ⟨c', l, Or.inr ⟨hne, hl⟩, hmarks⟩

theorem marked_split :
    p.marked t = true ↔
      (∃ l ∈ p.calls c, l.marks p.kernel t) ∨
        ∃ c', c' ≠ c ∧ ∃ l ∈ p.calls c', l.marks p.kernel t := by
  have hsame : p = ⟨p.kernel, Function.update p.calls c (p.calls c)⟩ := by
    rw [Function.update_eq_self]
  conv_lhs => rw [hsame]
  exact marked_update

/-- A call gets to its loop. -/
theorem Follows.enter (h : Follows p v q) (hidle : p.calls c = none) (hloops : call.loops = true)
    (hvalue : ∀ c, ∀ l ∈ p.calls c, l.call.value = call.value) :
    Follows ⟨p.kernel, Function.update p.calls c (some ⟨call, none⟩)⟩ call.value q := by
  have hmarked : ∀ t, marked ⟨p.kernel, Function.update p.calls c (some ⟨call, none⟩)⟩ t =
      p.marked t := by
    intro t
    rw [Bool.eq_iff_iff, marked_update, marked_split (c := c), hidle]
    refine or_congr_left ⟨?_, ?_⟩
    · rintro ⟨l, hl, hpassed, _⟩
      cases hl
      exact absurd hpassed not_passed_none
    · rintro ⟨l, hl, _⟩
      cases hl
  have hall : ∀ c', ∀ l ∈ Function.update p.calls c (some ⟨call, none⟩) c',
      l = ⟨call, none⟩ ∨ l ∈ p.calls c' := by
    intro c' l hl
    rcases mem_update.mp hl with ⟨_, hl⟩ | ⟨_, hl⟩
    · exact Or.inl (Option.mem_some.mp hl).symm
    · exact Or.inr hl
  refine ⟨?_, h.fresh, ?_, ?_, ?_⟩
  · -- if a mark is there, it is of a call that stores this value
    rw [h.list]
    refine List.map_congr_left fun t _ => ?_
    rw [Task.mark_congr call.value (hmarked t)]
    cases hm : p.marked t with
    | false => rw [Task.mark, Task.mark, hm]; rfl
    | true =>
      obtain ⟨c', l, hl, _⟩ := marked_iff.mp hm
      rw [← hvalue c' l hl, h.value c' l hl]
  · intro c' l hl
    rcases hall c' l hl with rfl | hl
    · exact stands_none
    · exact h.stands c' l hl
  · intro c' l hl
    rcases hall c' l hl with rfl | hl
    · exact hloops
    · exact h.loops c' l hl
  · intro c' l hl
    rcases hall c' l hl with rfl | hl
    · rfl
    · exact hvalue c' l hl

/-- A call goes on to the next process. -/
theorem Follows.move (h : Follows p v q) (hl : l ∈ p.calls c)
    (ht : p.kernel.nextProcess l.stand = some t) :
    Follows ⟨l.call.turn p.kernel t,
      Function.update p.calls c (some ⟨l.call, some t.threadPid⟩)⟩ v q := by
  obtain ⟨hproc, rest, hahead⟩ := nextProcess_eq_some ht
  have hmem := (mem_processes.mp hproc).1
  have hlist := Call.turn_list (h.loops c l hl) hproc
  rw [h.value c l hl] at hlist
  have hids : (l.call.turn p.kernel t).processIds = p.kernel.processIds :=
    processIds_map (Task.keeps_mark _ _) hlist
  have hall : ∀ c', ∀ l' ∈ Function.update p.calls c (some ⟨l.call, some t.threadPid⟩) c',
      l' = ⟨l.call, some t.threadPid⟩ ∨ l' ∈ p.calls c' := by
    intro c' l' hl'
    rcases mem_update.mp hl' with ⟨_, hl'⟩ | ⟨_, hl'⟩
    · exact Or.inl (Option.mem_some.mp hl').symm
    · exact Or.inr hl'
  refine ⟨?_, Call.turn_fresh.trans h.fresh, ?_, ?_, ?_⟩
  · dsimp only
    rw [hlist, h.list, List.map_map]
    refine List.map_congr_left fun u hu => ?_
    rw [Function.comp, Task.mark_mark _ _ _ _ (by rw [Call.wants_mark, Task.mark_pid])]
    refine Task.mark_congr v ?_
    -- `u` in the table of `p`
    have hmu : u.mark p.marked v ∈ p.kernel.tasks.list := h.list ▸ List.mem_map_of_mem hu
    have hsame : u.threadPid = t.threadPid ↔ u.pid = t.pid := by
      rw [← (Task.keeps_mark p.marked v u).2.2, ← Task.mark_pid p.marked v u]
      constructor
      · intro hid
        rw [p.kernel.tasks.eq_of_threadPid hmu hmem hid]
      · intro hid
        rw [p.kernel.tasks.eq_of_pid hmu hmem hid]
    rw [Bool.eq_iff_iff, Bool.or_eq_true, Bool.and_eq_true, beq_iff_eq, marked_split (c := c),
      marked_update]
    simp only [InLoop.marks, hids, Option.mem_def, Option.mem_def.mp hl, Option.some.injEq,
      exists_eq_left', passed_turn ht, hsame]
    rw [or_and_right, or_right_comm]
  · intro c' l' hl'
    rw [hids]
    rcases hall c' l' hl' with rfl | hl'
    · exact stands_some (mem_of_mem_ahead (hahead ▸ List.mem_cons_self))
    · exact h.stands c' l' hl'
  · intro c' l' hl'
    rcases hall c' l' hl' with rfl | hl'
    · exact h.loops c l hl
    · exact h.loops c' l' hl'
  · intro c' l' hl'
    rcases hall c' l' hl' with rfl | hl'
    · exact h.value c l hl
    · exact h.value c' l' hl'

/-- A call returns, having been at every process. -/
theorem Follows.leave (h : Follows p v q) (hl : l ∈ p.calls c)
    (ht : p.kernel.nextProcess l.stand = none) :
    Follows ⟨p.kernel, Function.update p.calls c none⟩ v (l.call.op.after q) := by
  have hall : ∀ c', ∀ l' ∈ Function.update p.calls c none c', l' ∈ p.calls c' := by
    intro c' l' hl'
    rcases mem_update.mp hl' with ⟨_, hl'⟩ | ⟨_, hl'⟩
    · cases hl'
    · exact hl'
  refine ⟨?_, ?_, fun c' l' hl' => h.stands c' l' (hall c' l' hl'),
    fun c' l' hl' => h.loops c' l' (hall c' l' hl'),
    fun c' l' hl' => h.value c' l' (hall c' l' hl')⟩
  · have hq : (l.call.op.after q).tasks.list = q.tasks.list.map l.call.op.effect :=
      Op.hideUserProcesses_list _ _ _ _ q
    rw [hq, h.list, List.map_map]
    refine List.map_congr_left fun u hu => ?_
    have heffect : l.call.op.effect u = u.mark l.call.wants v := by
      have heq : l.call.op.effect u = { u with cloak := (l.call.op.asks u).getD u.cloak } := rfl
      rw [heq, Call.asks_eq, h.value c l hl, Task.mark]
      split <;> rfl
    rw [Function.comp, heffect, Task.mark_mark _ _ _ _ (marked_mark _ u)]
    refine Task.mark_congr v ?_
    have hmu : u.mark p.marked v ∈ p.kernel.tasks.list := h.list ▸ List.mem_map_of_mem hu
    have hleader : l.call.wants u = true → u.threadPid ∈ p.kernel.processIds := by
      intro hwants
      have hmem := mem_processIds hmu
      rw [(Task.keeps_mark p.marked v u).2.2] at hmem
      exact hmem.mpr (Call.wants_leader ((Call.wants_mark _ _ _ u).trans hwants))
    rw [Bool.eq_iff_iff, Bool.or_eq_true, marked_split (c := c), marked_update]
    simp only [InLoop.marks, Option.mem_def, Option.mem_def.mp hl, Option.some.injEq,
      exists_eq_left', passed_all ht, reduceCtorEq, false_and, exists_false, false_or]
    rw [and_iff_right_of_imp hleader]
  · rw [Op.after_fresh]
    exact h.fresh

/-! ## 6. Runs -/

variable {a : Act threads} {r : Trail (Parallel threads) (Act threads)}

/-- **One step of the callers** is matched by the whole steps that it stands for.  A turn of a loop
is matched by nothing, a return by the whole call, everything else by itself. -/
theorem Follows.step (h : Follows p v q) (hok : Undisturbed p a) (hstep : Step p a p') :
    ∃ v', Follows p' v' (Op.afterAll q (p.whole a)) := by
  unfold Step after at hstep
  cases a with
  | op o =>
    cases hstep
    exact ⟨v, h.op hok⟩
  | enter c call =>
    dsimp only at hstep
    split at hstep
    · rename_i hguard
      cases hstep
      exact ⟨call.value, h.enter (Option.isNone_iff_eq_none.mp hguard.1) hguard.2 hok⟩
    · cases hstep
  | next c =>
    obtain ⟨l, hl, hturn⟩ := Option.bind_eq_some_iff.mp hstep
    have hwhole : p.whole (.next c) =
        if (p.kernel.nextProcess l.stand).isNone then [l.call.op] else [] := by
      rw [whole, hl]
    rw [hwhole]
    unfold turn at hturn
    split at hturn
    · split at hturn
      · rename_i t ht
        cases hturn
        rw [ht]
        exact ⟨v, h.move hl ht⟩
      · rename_i ht
        cases hturn
        rw [ht]
        exact ⟨v, h.leave hl ht⟩
    · cases hturn

theorem Follows.run (hr : Run Step p r) : ∀ {v : BitVec 32} {q : Kernel}, Follows p v q →
    StepsOk Undisturbed p r → ∃ v', Follows (final p r) v' (Op.afterAll q (wholeRun p r)) := by
  induction hr with
  | nil p => exact fun h _ => ⟨_, h⟩
  | cons hstep _ ih =>
    intro v q h hok
    obtain ⟨v', h'⟩ := h.step hok.1 hstep
    obtain ⟨v'', h''⟩ := ih h' hok.2
    refine ⟨v'', ?_⟩
    rw [wholeRun, Op.afterAll, List.foldl_append]
    exact h''

/-- No call is in its loop. -/
def idle (k : Kernel) : Parallel threads := ⟨k, fun _ => none⟩

theorem follows_idle (k : Kernel) (v : BitVec 32) : Follows (idle k : Parallel threads) v k := by
  have hno : ∀ t, marked (idle k : Parallel threads) t = false := by
    intro t
    rw [Bool.eq_false_iff, Ne, marked_iff]
    rintro ⟨c, l, hl, _⟩
    cases hl
  refine ⟨?_, rfl, ?_, ?_, ?_⟩
  · refine ((List.map_congr_left fun t _ => ?_).trans (List.map_id _)).symm
    rw [Task.mark, hno]
    rfl
  all_goals
    intro c l hl
    cases hl

/-- **Calls at the same time are as good as whole.** When every call has returned, the tasks are
those of a run in which each call is one step, at the moment of its return.  This is what lets the
other modules take a call as one step, although nothing is locked while its loop goes through the
processes; `Undisturbed` says when it may be done. -/
theorem calls_as_whole {k : Kernel} (hr : Run Step (idle k) r)
    (hok : StepsOk Undisturbed (idle k) r) (hdone : ∀ c, (final (idle k) r).calls c = none) :
    (final (idle k) r).kernel.tasks.list = (Op.afterAll k (wholeRun (idle k) r)).tasks.list := by
  obtain ⟨v, h⟩ := Follows.run hr (follows_idle k 0) hok
  rw [h.list]
  refine (List.map_congr_left fun t _ => ?_).trans (List.map_id _)
  have hno : (final (idle k) r).marked t = false := by
    rw [Bool.eq_false_iff, Ne, marked_iff]
    rintro ⟨c, l, hl, _⟩
    rw [hdone c] at hl
    cases hl
  rw [Task.mark, hno]
  rfl

/-- **A call returns** if it is let: after one turn for each process before it, and one more. -/
theorem returns : ∀ {n : Nat} {p : Parallel threads} {l : InLoop}, l ∈ p.calls c →
    l.call.loops = true → Stands p.kernel.processIds l.stand →
    (ahead p.kernel.processIds l.stand).length = n →
    ∃ r, Run Step p r ∧ (∀ x ∈ r, x.1 = .next c) ∧ r.length = n + 1 ∧ (final p r).calls c = none
  | 0, p, l, hl, _, hstand, hlen => by
    have hnext : p.kernel.nextProcess l.stand = none := by
      rw [nextProcess, List.length_eq_zero_iff.mp hlen]
      rfl
    have hstep : Step p (.next c) ⟨p.kernel, Function.update p.calls c none⟩ := by
      rw [Step, after, Option.mem_def.mp hl, Option.bind_some, turn, if_pos hstand, hnext]
    exact ⟨_, .cons hstep (.nil _), by simp, rfl, Function.update_self ..⟩
  | n + 1, p, l, hl, hloops, hstand, hlen => by
    obtain ⟨id, rest, hahead⟩ := List.exists_cons_of_length_eq_add_one hlen
    obtain ⟨t, ht⟩ : ∃ t, p.kernel.nextProcess l.stand = some t := by
      refine Option.ne_none_iff_exists'.mp fun hnone => ?_
      rw [nextProcess_eq_none hnone] at hahead
      cases hahead
    obtain ⟨hproc, rest', hahead'⟩ := nextProcess_eq_some ht
    rw [hahead', List.length_cons] at hlen
    have hids : (l.call.turn p.kernel t).processIds = p.kernel.processIds :=
      processIds_map (Task.keeps_mark _ _) (Call.turn_list hloops hproc)
    set p' : Parallel threads :=
      ⟨l.call.turn p.kernel t, Function.update p.calls c (some ⟨l.call, some t.threadPid⟩)⟩
    have hstep : Step p (.next c) p' := by
      rw [Step, after, Option.mem_def.mp hl, Option.bind_some, turn, if_pos hstand, ht]
    have hahead₁ : ahead p'.kernel.processIds (some t.threadPid) = rest' := by
      rw [hids]
      exact ahead_next (processIds_nodup _) hahead'
    obtain ⟨r, hr, hnexts, hlength, hdone⟩ :=
      returns (n := n) (p := p') (l := ⟨l.call, some t.threadPid⟩) (Function.update_self ..) hloops
        (hids ▸ stands_some (List.mem_map_of_mem hproc)) (by rw [hahead₁]; omega)
    exact ⟨(.next c, p') :: r, .cons hstep hr, List.forall_mem_cons.mpr ⟨rfl, hnexts⟩,
      by rw [List.length_cons, hlength], hdone⟩

/-- The run of these actions, as far as they are possible. -/
def trail (p : Parallel threads) : List (Act threads) → Trail (Parallel threads) (Act threads)
  | [] => []
  | a :: as =>
    match p.after a with
    | some p' => (a, p') :: trail p' as
    | none => []

theorem run_trail (p : Parallel threads) (as : List (Act threads)) : Run Step p (trail p as) := by
  induction as generalizing p with
  | nil => exact .nil p
  | cons a as ih =>
    rw [trail]
    split
    · rename_i p' hp
      exact .cons hp (ih p')
    · exact .nil p

-- An operation asks at most one value of a task; the words of 32 bits are never run through.
instance (k : Kernel) (o : Op) (l : InLoop) : Decidable (Leaves k o l) :=
  decidable_of_iff
    (o.LeavesStand k l.stand ∧ ∀ t ∈ k.tasks.list, l.call.wants (o.effect t) = l.call.wants t ∧
      (l.call.wants t = true → (o.asks t).all (fun v => v == l.call.value) = true)) (by
    simp only [Option.all_eq_true, beq_iff_eq]
    exact ⟨fun h => ⟨h.1, fun t ht => (h.2 t ht).1, fun t ht => (h.2 t ht).2⟩,
      fun h => ⟨h.stand, fun t ht => ⟨h.wants t ht, h.agrees t ht⟩⟩⟩)

instance (p : Parallel threads) : ∀ a : Act threads, Decidable (Undisturbed p a)
  | .op o => inferInstanceAs (Decidable (∀ c, ∀ l ∈ p.calls c, Leaves p.kernel o l))
  | .enter _ call =>
    inferInstanceAs (Decidable (∀ c, ∀ l ∈ p.calls c, l.call.value = call.value))
  | .next _ => isTrue trivial

/-- Two calls that hide the processes of root, one of them by their name; 4 is forked while both
are in their loops, 3 ends, and 5 is forked when the first call has returned. -/
def twoCalls : List (Act 2) :=
  [.op (.copyProcess 1 false 2), .op (.copyProcess 1 false 3), .enter 0 ⟨0, .null, 0⟩, .next 0,
    .enter 1 ⟨0, .string "init".toList, 0⟩, .op (.copyProcess 1 false 4), .next 0, .next 1,
    .op (.exit 3 true), .next 0, .next 0, .op (.copyProcess 1 false 5), .next 1, .next 1, .next 1,
    .next 1]

theorem calls_as_whole_two :
    (final (idle Kernel.initial) (trail (idle Kernel.initial) twoCalls)).kernel.tasks.list =
        (Op.afterAll Kernel.initial
          (wholeRun (idle Kernel.initial) (trail (idle Kernel.initial) twoCalls))).tasks.list ∧
      (final (idle Kernel.initial) (trail (idle Kernel.initial) twoCalls)).kernel.tasks.list.map
        (fun t => (t.pid, t.cloak)) = [(1, 1), (2, 1), (4, 1), (5, 1)] :=
  ⟨calls_as_whole (run_trail _ twoCalls) (by decide +kernel) (by decide +kernel),
    by decide +kernel⟩

/-- Without that, a call that hides and one that recovers can each have the last word on one of the
processes. -/
example : (final (idle Kernel.initial) (trail (idle Kernel.initial : Parallel 2)
    [.op (.copyProcess 1 false 2), .enter 0 ⟨0, .null, 0⟩, .enter 1 ⟨0, .null, 1⟩, .next 1, .next 0,
      .next 0, .next 1, .next 0, .next 1])).kernel.tasks.list.map (fun t => (t.pid, t.cloak)) =
        [(1, 1), (2, 0)] := by decide +kernel

end Parallel

end Osexp.Hide
