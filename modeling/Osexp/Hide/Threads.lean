/-
# The directory `/proc/<pid>/task`: `fs/proc/base.c`

* `procTaskReaddir` lists the threads of a group from where the last call stopped: `f_version` keeps
  the number of the thread that found no room, and the position how many were emitted.
* `procTaskLookup` looks a thread up by its number.

Neither looks at `cloak` or at `hidden_flag`.  The dots come from `dir_emit_dots`.  The entries that
are cached under this directory are left out: `proc_fill_cache` emits whether or not it could make
one.

`threads` is the circular list of a group: the leader first, then the others in the order in which
they were created.  `procTaskReaddir_spec` says what one call emits, and that it leaves the kernel,
references included, as it was.

The three functions are modelled with the threads that are skipped when the thread of `f_version` is
gone, because that is the way on which the listing loses its place.
-/
import Osexp.Hide.References

namespace Osexp.Hide

/-! ## 1. Thread groups -/

namespace Tasks

/-- The threads of a group, in the order of `next_thread`. -/
def threads (ts : Tasks) (tgid : Nat) : List Task :=
  ts.list.filter (fun t => t.tgid == tgid && t.isLeader) ++
    ts.list.filter (fun t => t.tgid == tgid && !t.isLeader)

/-- `next_thread(p)`. -/
def nextThread (ts : Tasks) (p : Task) : Task :=
  match (ts.threads p.tgid).dropWhile (fun t => t.threadPid != p.threadPid) with
  | _ :: next :: _ => next
  | _ => (ts.threads p.tgid).head?.getD p

/-- `get_nr_threads(task)`. -/
def getNrThreads (ts : Tasks) (task : Task) : Nat := (ts.threads task.tgid).length

/-- `do { if (!nr--) goto found; } while_each_thread(task, pos)`, in the group of `leader`. -/
def walkThreads (ts : Tasks) (leader : Task) : Nat → Task → Option Task
  | 0, pos => some pos
  | nr + 1, pos =>
    let pos := ts.nextThread pos
    if pos.threadPid = leader.threadPid then none else ts.walkThreads leader nr pos

end Tasks

/-- What `dir_emit` is given. -/
inductive TaskEntry
  | dot
  | dotdot
  | thread (tid : Nat)
  deriving DecidableEq

/-- An open `/proc/<pid>/task`: the `struct pid` of its inode, the thread for which there was no
room, and the position. -/
structure TaskDir where
  pid : Nat
  version : Nat
  pos : Nat
  deriving DecidableEq

namespace Kernel

/-- `pid_task(pid, PIDTYPE_PID)`. -/
def pidTask (k : Kernel) (id : Nat) : Option Task := k.tasks.list.find? (·.threadPid == id)

/-- `same_thread_group(p1, p2)`. -/
def sameThreadGroup (p1 p2 : Task) : Bool := p1.tgid == p2.tgid

/-- `pid_alive(p)`. -/
def pidAlive (k : Kernel) (p : Task) : Bool := k.tasks.list.any (·.threadPid == p.threadPid)

/-- `task->group_leader`. -/
def groupLeader (k : Kernel) (task : Task) : Option Task := k.tasks.leaderOf task.tgid

/-! ## 2. The listing -/

/-- The thread at which `first_tid` arrives, before it takes a reference. -/
def firstTidPos (k : Kernel) (id tid nr : Nat) : Option Task :=
  match k.pidTask id with
  | none => none
  | some task =>
    match (if tid ≠ 0 ∧ nr ≠ 0 then (k.findTask tid).filter (sameThreadGroup task) else none) with
    | some pos => some pos
    | none =>
      if k.tasks.getNrThreads task ≤ nr then none
      else (k.groupLeader task).bind fun leader => k.tasks.walkThreads leader nr leader

/-- `get_task_struct` on the task that was found, if there is one. -/
def getFound (found : Option Task) (k : Kernel) : Kernel :=
  match found with
  | none => k
  | some t => k.getTaskStruct t

/-- `first_tid`. -/
def firstTid (id tid nr : Nat) (k : Kernel) : Option Task × Kernel :=
  (k.firstTidPos id tid nr, getFound (k.firstTidPos id tid nr) k)

/-- The thread at which `next_tid` arrives. -/
def nextTidPos (k : Kernel) (start : Task) : Option Task :=
  if k.pidAlive start then
    let pos := k.tasks.nextThread start
    if pos.isLeader then none else some pos
  else none

/-- `next_tid`. -/
def nextTid (start : Task) (k : Kernel) : Option Task × Kernel :=
  (k.nextTidPos start, (getFound (k.nextTidPos start) k).putTaskStruct start)

/-- What a loop over the threads leaves: the position, `f_version`, the entries, the state. -/
structure TaskListing where
  pos : Nat
  version : Nat
  emitted : List TaskEntry
  kernel : Kernel

/-- The loop of `proc_task_readdir` at `task`, with room for `room` entries. -/
def taskReaddirLoop : Nat → Option Task → Nat → List TaskEntry → Kernel → TaskListing
  | _, none, pos, emitted, k => ⟨pos, 0, emitted, k⟩
  | 0, some task, pos, emitted, k => ⟨pos, task.pid, emitted, k.putTaskStruct task⟩
  | room + 1, some task, pos, emitted, k =>
    let (next, k) := nextTid task k
    taskReaddirLoop room next (pos + 1) (emitted ++ [.thread task.pid]) k

/-- The dots that are due at the position, of which `dir_emit_dots` emits those with room. -/
def dotsFrom (pos : Nat) : List TaskEntry := [TaskEntry.dot, .dotdot].drop pos

/-- `proc_task_readdir`; `none` when the inode is dead. -/
def procTaskReaddir (dir : TaskDir) (room : Nat) (k : Kernel) : Option TaskListing :=
  if (k.pidTask dir.pid).isNone then none
  else
    let dots := dotsFrom dir.pos
    if room < dots.length then
      some ⟨dir.pos + room, dir.version, dots.take room, k⟩
    else
      let pos := dir.pos + dots.length
      let (task, k) := firstTid dir.pid dir.version (pos - 2) k
      some (taskReaddirLoop (room - dots.length) task pos dots k)

/-! ## 3. The lookup -/

/-- `proc_task_lookup`: whether there is an entry, and the state. -/
def procTaskLookup (dir : TaskDir) (name : Option Nat) (k : Kernel) : Bool × Kernel :=
  match k.pidTask dir.pid with
  | none => (false, k)
  | some leader =>
    let k := k.getTaskStruct leader
    match name with
    | none => (false, k.putTaskStruct leader)
    | some tid =>
      match k.findTask tid with
      | none => (false, k.putTaskStruct leader)
      | some task =>
        let k := k.getTaskStruct task
        (sameThreadGroup leader task, (k.putTaskStruct task).putTaskStruct leader)

end Kernel

/-! ## 4. The list of a group -/

namespace Tasks

variable {ts : Tasks} {g : Nat} {t u : Task} {pre post : List Task}

/-- The list is a rearrangement of the group. -/
theorem threads_perm (ts : Tasks) (g : Nat) :
    (ts.threads g).Perm (ts.list.filter (fun t => t.tgid == g)) := by
  have hpart := List.filter_append_perm Task.isLeader (ts.list.filter (fun t => t.tgid == g))
  simp only [List.filter_filter, Bool.and_comm] at hpart
  exact hpart

theorem mem_threads : t ∈ ts.threads g ↔ t ∈ ts.list ∧ t.tgid = g := by
  rw [(ts.threads_perm g).mem_iff, List.mem_filter, beq_iff_eq]

/-- No thread is twice in the list. -/
theorem threads_nodup {f : Task → Nat} (hf : (ts.list.map f).Nodup) (g : Nat) :
    ((ts.threads g).map f).Nodup :=
  ((ts.threads_perm g).map f).nodup_iff.mpr (hf.sublist (List.filter_sublist.map f))

/-- Once it has been passed, a thread does not come again. -/
theorem threads_apart {f : Task → Nat} (hf : (ts.list.map f).Nodup)
    (h : ts.threads g = pre ++ post) (ht : t ∈ pre) (hu : u ∈ post) : f t ≠ f u := by
  have hnodup := threads_nodup hf g
  rw [h, List.map_append, List.nodup_append] at hnodup
  exact hnodup.2.2 _ (List.mem_map_of_mem ht) _ (List.mem_map_of_mem hu)

/-- The leader is the first, and no other is a leader. -/
theorem threads_eq_cons (ht : t ∈ ts.list) (hg : t.tgid = g) :
    ∃ leader rest, ts.threads g = leader :: rest ∧ ts.leaderOf g = some leader ∧
      leader.isLeader = true ∧ ∀ u ∈ rest, u.isLeader = false := by
  obtain ⟨l, hl, hlead, hpid⟩ := ts.grouped t ht
  have htgid : l.tgid = g := (Task.isLeader_iff.mp hlead).symm.trans (hpid.trans hg)
  have hsome : ts.leaderOf g = some l :=
    leaderOf_eq_some_iff.mpr ⟨hl, hlead, hpid.trans hg⟩
  have hmem : l ∈ ts.list.filter (fun t => t.tgid == g && t.isLeader) :=
    List.mem_filter.mpr ⟨hl, by simp [htgid, hlead]⟩
  have hnodup : ((ts.list.filter (fun t => t.tgid == g && t.isLeader)).map Task.pid).Nodup :=
    ts.pids.sublist (List.filter_sublist.map _)
  have hall : ∀ u ∈ ts.list.filter (fun t => t.tgid == g && t.isLeader), u.pid = g := by
    intro u hu
    have hu := (List.mem_filter.mp hu).2
    rw [Bool.and_eq_true, beq_iff_eq] at hu
    exact (Task.isLeader_iff.mp hu.2).trans hu.1
  -- the leaders of the group all have its number, so there is one
  have hone : ts.list.filter (fun t => t.tgid == g && t.isLeader) = [l] := by
    cases hlist : ts.list.filter (fun t => t.tgid == g && t.isLeader) with
    | nil =>
      rw [hlist] at hmem
      cases hmem
    | cons a as =>
      rw [hlist] at hmem hnodup hall
      cases as with
      | nil => rw [List.mem_singleton.mp hmem]
      | cons b bs =>
        have hab : a.pid = b.pid := (hall a (by simp)).trans (hall b (by simp)).symm
        simp [hab] at hnodup
  refine ⟨l, ts.list.filter (fun t => t.tgid == g && !t.isLeader), ?_, hsome, hlead, ?_⟩
  · rw [threads, hone]
    rfl
  · intro u hu
    have hu := (List.mem_filter.mp hu).2
    rw [Bool.and_eq_true, Bool.not_eq_true'] at hu
    exact hu.2

/-- The next thread in the list, and behind the last one the first. -/
theorem nextThread_eq (h : ts.threads t.tgid = pre ++ t :: post) :
    ts.nextThread t = (post.head?).getD ((ts.threads t.tgid).head?.getD t) := by
  have hdrop : (ts.threads t.tgid).dropWhile (fun u => u.threadPid != t.threadPid) = t :: post := by
    have hpre : ∀ u ∈ pre, (u.threadPid != t.threadPid) = true := by
      intro u hu
      rw [bne_iff_ne]
      exact threads_apart ts.ids h hu List.mem_cons_self
    rw [h, List.dropWhile_append_of_pos hpre, List.dropWhile_cons_of_neg (by simp)]
  rw [nextThread, hdrop]
  cases post with
  | nil => rfl
  | cons u post => rfl

end Tasks

namespace Kernel

variable {k : Kernel} {g : Nat} {t : Task} {pre post : List Task}

theorem pidTask_eq_some_iff {id : Nat} :
    k.pidTask id = some t ↔ t ∈ k.tasks.list ∧ t.threadPid = id := by
  constructor
  · intro h
    have hp := List.find?_some h
    exact ⟨List.mem_of_find?_eq_some h, beq_iff_eq.mp hp⟩
  · rintro ⟨ht, rfl⟩
    cases h : k.pidTask t.threadPid with
    | none =>
      have hno := List.find?_eq_none.mp h t ht
      simp at hno
    | some u =>
      have hp := List.find?_some h
      rw [k.tasks.eq_of_threadPid (List.mem_of_find?_eq_some h) ht (beq_iff_eq.mp hp)]

/-! ## 5. References -/

@[simp] theorem put_get (t : Task) (k : Kernel) : (k.getTaskStruct t).putTaskStruct t = k := by
  have hrefs := putTaskStruct_getTaskStruct t k
  unfold putTaskStruct getTaskStruct at *
  congr 1

/-- A reference passes from one task to the next. -/
theorem put_get_get (t u : Task) (k : Kernel) :
    ((k.getTaskStruct t).getTaskStruct u).putTaskStruct t = k.getTaskStruct u := by
  unfold putTaskStruct getTaskStruct
  congr 1
  funext n
  simp only [Function.update_apply]
  split <;> split <;> simp_all

theorem nextTid_get (t : Task) (k : Kernel) :
    nextTid t (k.getTaskStruct t) = (k.nextTidPos t, getFound (k.nextTidPos t) k) := by
  have hpos : (k.getTaskStruct t).nextTidPos t = k.nextTidPos t := rfl
  rw [nextTid, hpos]
  cases k.nextTidPos t with
  | none => exact congrArg _ (put_get t k)
  | some u => exact congrArg _ (put_get_get t u k)

/-! ## 6. One call -/

/-- `next_tid` goes on in the list and stops at its end. -/
theorem nextTidPos_eq (h : k.tasks.threads g = pre ++ t :: post) :
    k.nextTidPos t = post.head? := by
  have hmem : t ∈ k.tasks.threads g := by
    rw [h]
    exact List.mem_append_right _ List.mem_cons_self
  obtain ⟨ht, rfl⟩ := Tasks.mem_threads.mp hmem
  obtain ⟨leader, rest, hcons, _, hlead, hrest⟩ := Tasks.threads_eq_cons ht rfl
  have halive : k.pidAlive t = true := List.any_eq_true.mpr ⟨t, ht, beq_self_eq_true _⟩
  rw [nextTidPos, if_pos halive]
  dsimp only
  rw [Tasks.nextThread_eq h]
  cases post with
  | nil =>
    -- back at the leader
    rw [hcons]
    exact if_pos hlead
  | cons u post =>
    have hu : u ∈ rest := by
      have htail : (k.tasks.threads t.tgid).tail = (pre ++ t :: u :: post).tail := by rw [h]
      rw [hcons, List.tail_cons] at htail
      rw [htail]
      cases pre <;> simp
    exact if_neg (by simp [hrest u hu])

/-- **What the loop emits**, from any thread of the list on: by induction on the room. -/
theorem taskReaddirLoop_eq (room : Nat) : ∀ {pre post : List Task} (pos : Nat)
    (emitted : List TaskEntry), k.tasks.threads g = pre ++ post →
    taskReaddirLoop room post.head? pos emitted (getFound post.head? k) =
      ⟨pos + min room post.length, ((post.drop room).head?.map Task.pid).getD 0,
        emitted ++ (post.take room).map (fun t => .thread t.pid), k⟩ := by
  induction room with
  | zero =>
    intro pre post pos emitted h
    cases post with
    | nil => simp [taskReaddirLoop, getFound]
    | cons t post => simp [taskReaddirLoop, getFound]
  | succ room ih =>
    intro pre post pos emitted h
    cases post with
    | nil => simp [taskReaddirLoop, getFound]
    | cons t post =>
      have hnext := nextTidPos_eq h
      have hsplit : k.tasks.threads g = (pre ++ [t]) ++ post := by simp [h]
      rw [List.head?_cons, getFound, taskReaddirLoop, nextTid_get, hnext]
      dsimp only
      rw [ih (pos + 1) (emitted ++ [TaskEntry.thread t.pid]) hsplit]
      have hlen : pos + 1 + min room post.length = pos + min (room + 1) (t :: post).length := by
        rw [List.length_cons]
        omega
      rw [hlen, List.drop_succ_cons, List.take_succ_cons, List.map_cons, List.append_assoc,
        List.singleton_append]

/-- `first_tid` arrives in the list, or nowhere. -/
theorem firstTidPos_split {id : Nat} {task : Task} (hid : k.pidTask id = some task) (tid nr : Nat) :
    ∃ pre post, k.tasks.threads task.tgid = pre ++ post ∧ k.firstTidPos id tid nr = post.head? := by
  have hwalk : ∀ (leader : Task) (nr : Nat) (pos t : Task), pos ∈ k.tasks.threads task.tgid →
      k.tasks.walkThreads leader nr pos = some t → t ∈ k.tasks.threads task.tgid := by
    intro leader nr
    induction nr with
    | zero =>
      intro pos t hpos hsome
      cases hsome
      exact hpos
    | succ nr ih =>
      intro pos t hpos hsome
      rw [Tasks.walkThreads] at hsome
      split at hsome
      · cases hsome
      · refine ih _ t ?_ hsome
        obtain ⟨a, b, hab⟩ := List.append_of_mem hpos
        have hg : pos.tgid = task.tgid := (Tasks.mem_threads.mp hpos).2
        rw [← hg] at hab ⊢
        rw [Tasks.nextThread_eq hab]
        cases b with
        | cons u b => rw [hab]; simp
        | nil =>
          cases hlist : k.tasks.threads pos.tgid with
          | nil =>
            rw [hlist] at hab
            simp at hab
          | cons x xs => simp
  have hmem : ∀ t, k.firstTidPos id tid nr = some t → t ∈ k.tasks.threads task.tgid := by
    intro t ht
    rw [firstTidPos, hid] at ht
    dsimp only at ht
    split at ht
    · rename_i pos hpos
      cases ht
      split at hpos
      · obtain ⟨hfound, hsame⟩ := Option.filter_eq_some_iff.mp hpos
        exact Tasks.mem_threads.mpr ⟨(findTask_eq_some_iff.mp hfound).1, (beq_iff_eq.mp hsame).symm⟩
      · cases hpos
    · split at ht
      · cases ht
      · obtain ⟨leader, hlead, hwalked⟩ := Option.bind_eq_some_iff.mp ht
        obtain ⟨hl, hisl, hpid⟩ := Tasks.leaderOf_eq_some_iff.mp hlead
        refine hwalk leader nr leader t (Tasks.mem_threads.mpr ⟨hl, ?_⟩) hwalked
        rw [← Task.isLeader_iff.mp hisl, hpid]
  cases hpos : k.firstTidPos id tid nr with
  | none => exact ⟨k.tasks.threads task.tgid, [], by simp, rfl⟩
  | some t =>
    obtain ⟨pre, post, hsplit⟩ := List.append_of_mem (hmem t hpos)
    exact ⟨pre, t :: post, hsplit, rfl⟩

/-- At the start of the directory it is the first thread, -/
theorem firstTidPos_start {id tid : Nat} {task : Task} (hid : k.pidTask id = some task) :
    k.firstTidPos id tid 0 = (k.tasks.threads task.tgid).head? := by
  obtain ⟨ht, _⟩ := pidTask_eq_some_iff.mp hid
  obtain ⟨leader, rest, hcons, hlead, _⟩ := Tasks.threads_eq_cons ht rfl
  have hsome : ¬ k.tasks.getNrThreads task ≤ 0 := by
    rw [Tasks.getNrThreads, hcons]
    simp
  rw [firstTidPos, hid]
  dsimp only
  rw [if_neg (by simp)]
  dsimp only
  rw [if_neg hsome, groupLeader, hlead, hcons]
  rfl

/-- and later the one that found no room, if it is still there. -/
theorem firstTidPos_resume {id nr : Nat} {task c : Task} (hid : k.pidTask id = some task)
    (hc : c ∈ k.tasks.list) (hgroup : c.tgid = task.tgid) (hpos : c.pid ≠ 0) (hnr : nr ≠ 0) :
    k.firstTidPos id c.pid nr = some c := by
  have hfound : k.findTask c.pid = some c := findTask_eq_some_iff.mpr ⟨hc, rfl⟩
  have hsame : sameThreadGroup task c = true := beq_iff_eq.mpr hgroup.symm
  rw [firstTidPos, hid]
  dsimp only
  rw [if_pos ⟨hpos, hnr⟩, hfound, Option.filter_some, if_pos hsame]

/-- What a call of `proc_task_readdir` leaves when it starts where `post` does. -/
def listed (dir : TaskDir) (room : Nat) (post : List Task) (k : Kernel) : TaskListing :=
  let dots := dotsFrom dir.pos
  ⟨dir.pos + dots.length + min (room - dots.length) post.length,
    ((post.drop (room - dots.length)).head?.map Task.pid).getD 0,
    dots ++ (post.take (room - dots.length)).map (fun t => .thread t.pid), k⟩

/-- **What one call emits**: the dots that are due, and then the threads from the one at which it
arrives on.  The kernel is as it was, references included. -/
theorem procTaskReaddir_eq {dir : TaskDir} {task : Task} {room : Nat}
    (hid : k.pidTask dir.pid = some task) (hroom : ¬ room < (dotsFrom dir.pos).length)
    (hsplit : k.tasks.threads task.tgid = pre ++ post)
    (hfirst : k.firstTidPos dir.pid dir.version (dir.pos + (dotsFrom dir.pos).length - 2) =
      post.head?) :
    k.procTaskReaddir dir room = some (listed dir room post k) := by
  rw [procTaskReaddir, hid, if_neg (by simp)]
  dsimp only
  rw [if_neg hroom, firstTid, hfirst]
  exact congrArg some (taskReaddirLoop_eq _ _ _ hsplit)

/-- **A lookup finds the threads of the group**, and leaves the kernel as it was. -/
theorem procTaskLookup_eq {dir : TaskDir} {task : Task} (hid : k.pidTask dir.pid = some task)
    (n : Nat) : (k.procTaskLookup dir (some n)).2 = k ∧
      ((k.procTaskLookup dir (some n)).1 = true ↔ ∃ t ∈ k.tasks.threads task.tgid, t.pid = n) := by
  rw [procTaskLookup, hid]
  dsimp only
  have hsame : (k.getTaskStruct task).findTask n = k.findTask n := rfl
  rw [hsame]
  cases hn : k.findTask n with
  | none =>
    refine ⟨put_get task k, iff_of_false Bool.false_ne_true ?_⟩
    rintro ⟨t, ht, hpid⟩
    exact findTask_eq_none_iff.mp hn t (Tasks.mem_threads.mp ht).1 hpid
  | some t =>
    obtain ⟨ht, hpid⟩ := findTask_eq_some_iff.mp hn
    dsimp only
    rw [put_get, put_get]
    refine ⟨rfl, ?_⟩
    constructor
    · intro h
      exact ⟨t, Tasks.mem_threads.mpr ⟨ht, (beq_iff_eq.mp h).symm⟩, hpid⟩
    · rintro ⟨u, hu, hupid⟩
      obtain ⟨hu, hgroup⟩ := Tasks.mem_threads.mp hu
      rw [k.tasks.eq_of_pid ht hu (hpid.trans hupid.symm)]
      exact beq_iff_eq.mpr hgroup.symm

end Kernel

end Osexp.Hide
