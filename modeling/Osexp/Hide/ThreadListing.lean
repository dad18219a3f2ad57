/-
# A listing of `/proc/<pid>/task` in several calls

As in a listing of `/proc`, the kernel does anything between the calls.  Here the reader's memory is
the number of a thread, so what counts is that this thread is still there when the next call comes:
otherwise `first_tid` counts threads from the leader, and may pass over some.

`threads_listed`: if no thread ends at which the listing stands, every thread that is in the group
at every call is emitted once, hidden or not, and a number that no thread of the group has is not
emitted.  `Standing` is the invariant: the list of the group is split at the thread where the
listing stands, what is before it has been emitted and what is behind it has not.

Hiding plays no part in it: the directory of a hidden process, once it is open, lists its threads
like any other.  The patch does not touch this code, and the result is here because what it says is
part of what hiding a process does not do.
-/
import Osexp.Hide.Threads

namespace Osexp.Hide

open Kernel Lts

/-! ## 1. What an operation does to a group -/

namespace Tasks

/-- **The list of a group** loses the threads that end, and gets new ones at its end. -/
theorem threads_after {k : Kernel} {u : Task} (op : Op) (hu : u ∈ k.tasks.list) :
    ∃ new, (∀ t ∈ new, t ∈ op.born k) ∧ (op.after k).tasks.threads u.tgid =
      ((k.tasks.threads u.tgid).filter (fun t => op.keeps k t)).map op.effect ++ new := by
  have hold : ∀ p : Task → Bool, (∀ t, p (op.effect t) = p t) →
      (op.after k).tasks.list.filter p =
        ((k.tasks.list.filter p).filter (fun t => op.keeps k t)).map op.effect ++
          (op.born k).filter p := by
    intro p hp
    have hcomp : p ∘ op.effect = p := funext hp
    rw [Op.after_list, List.filter_append, List.filter_map, hcomp, List.filter_filter,
      List.filter_filter]
    simp only [Bool.and_comm]
  -- the number of the group is taken, so no new process has it
  have hnone : (op.born k).filter (fun t => t.tgid == u.tgid && t.isLeader) = [] := by
    refine List.filter_eq_nil_iff.mpr fun t ht h => ?_
    rw [Bool.and_eq_true, beq_iff_eq] at h
    obtain ⟨parent, thread, pid, p, rfl, _, hfree, rfl⟩ := Op.mem_born.mp ht
    obtain ⟨l, hl, _, hpid⟩ := k.tasks.grouped u hu
    exact hfree.2 l hl (hpid.trans (h.1.symm.trans (Task.isLeader_iff.mp h.2).symm))
  refine ⟨(op.born k).filter (fun t => t.tgid == u.tgid && !t.isLeader),
    fun t ht => List.mem_of_mem_filter ht, ?_⟩
  rw [threads, hold _ (fun t => by rw [Op.effect_tgid, Op.effect_isLeader]),
    hold _ (fun t => by rw [Op.effect_tgid, Op.effect_isLeader]), hnone, List.append_nil, threads,
    List.filter_append, List.map_append, List.append_assoc]

end Tasks

/-- Numbers are positive. -/
def Kernel.Numbered (k : Kernel) : Prop := ∀ t ∈ k.tasks.list, 0 < t.pid

theorem Kernel.Numbered.after {k : Kernel} (h : k.Numbered) (op : Op) :
    (op.after k).Numbered := by
  intro t ht
  rcases Op.mem_after.mp ht with ⟨u, hu, _, rfl⟩ | hborn
  · rw [Op.effect_pid]
    exact h u hu
  · obtain ⟨_, _, _, _, rfl, _, hfree, rfl⟩ := Op.mem_born.mp hborn
    exact hfree.1.1

/-- The thread with the `struct pid` `n` and the number `p` is in the group of the task `id`. -/
def InGroup (id n p : Nat) (k : Kernel) : Prop :=
  ∃ d t, k.pidTask id = some d ∧ t ∈ k.tasks.threads d.tgid ∧ t.threadPid = n ∧ t.pid = p

/-- No thread of the group of the task `id` has the number `p`. -/
def NotInGroup (id p : Nat) (k : Kernel) : Prop :=
  ∀ d, k.pidTask id = some d → ∀ t ∈ k.tasks.threads d.tgid, t.pid ≠ p

/-- A thread that is in the group after an operation was there before, unless it is new. -/
theorem InGroup.before {id n p : Nat} {k : Kernel} {op : Op} (hid : id < k.fresh)
    (hn : n < k.fresh) (h : InGroup id n p (op.after k)) : InGroup id n p k := by
  have hold : ∀ t ∈ (op.after k).tasks.list, t.threadPid < k.fresh →
      ∃ u ∈ k.tasks.list, op.effect u = t := by
    intro t ht hlt
    rcases Op.mem_after.mp ht with ⟨u, hu, _, heq⟩ | hborn
    · exact ⟨u, hu, heq⟩
    · rw [(Op.born_cloak hborn).2] at hlt
      exact absurd hlt (Nat.lt_irrefl _)
  obtain ⟨d, t, hd, ht, hnum, hpid⟩ := h
  obtain ⟨hdmem, hdnum⟩ := pidTask_eq_some_iff.mp hd
  obtain ⟨htmem, hgroup⟩ := Tasks.mem_threads.mp ht
  obtain ⟨d', hd', rfl⟩ := hold d hdmem (by omega)
  obtain ⟨t', ht', rfl⟩ := hold t htmem (by omega)
  rw [Op.effect_tgid, Op.effect_tgid] at hgroup
  rw [Op.effect_threadPid] at hdnum hnum
  rw [Op.effect_pid] at hpid
  exact ⟨d', t', pidTask_eq_some_iff.mpr ⟨hd', hdnum⟩, Tasks.mem_threads.mpr ⟨ht', hgroup⟩, hnum,
    hpid⟩

/-! ## 2. Sessions -/

/-- The kernel, the open directory, and the entries that the reader was given. -/
structure ThreadSession where
  kernel : Kernel
  dir : TaskDir
  emitted : List TaskEntry

namespace ThreadSession

/-- An operation on the kernel, or a call of `proc_task_readdir` with some room. -/
inductive Act
  | op (o : Op)
  | call (room : Nat)

/-- The session after the act. -/
def after (s : ThreadSession) : Act → ThreadSession
  | .op o => { s with kernel := o.after s.kernel }
  | .call room =>
    match s.kernel.procTaskReaddir s.dir room with
    | none => s
    | some l =>
      ⟨l.kernel, { s.dir with version := l.version, pos := l.pos }, s.emitted ++ l.emitted⟩

def Step (s : ThreadSession) (a : Act) (s' : ThreadSession) : Prop := s' = s.after a

/-- The run of these acts. -/
def trail : ThreadSession → List Act → Trail ThreadSession Act
  | _, [] => []
  | s, a :: as => (a, s.after a) :: trail (s.after a) as

theorem run_trail (s : ThreadSession) (as : List Act) : Run Step s (trail s as) := by
  induction as generalizing s with
  | nil => exact .nil s
  | cons a as ih => exact .cons rfl (ih _)

/-- The listing has come to the end of the list. -/
def Ended (s : ThreadSession) : Prop := s.dir.version = 0 ∧ 2 ≤ s.dir.pos

/-- The thread at which the listing stands does not end, and nothing is read beyond the end. -/
def Undisturbed (s : ThreadSession) : Act → Prop
  | .op (.exit pid _) => pid ≠ s.dir.version
  | .op _ => True
  | .call _ => ¬ Ended s

instance (s : ThreadSession) : Decidable (Ended s) := inferInstanceAs (Decidable (_ ∧ _))

instance (s : ThreadSession) (a : Act) : Decidable (Undisturbed s a) :=
  match a with
  | .op (.exit pid _) => inferInstanceAs (Decidable (pid ≠ s.dir.version))
  | .op (.hide _ _ _) => isTrue trivial
  | .op (.hideUserProcesses _ _ _ _) => isTrue trivial
  | .op (.writeHidden _) => isTrue trivial
  | .op (.copyProcess _ _ _) => isTrue trivial
  | .op (.setuid _ _) => isTrue trivial
  | .op (.setTaskComm _ _) => isTrue trivial
  | .op (.readdir _ _) => isTrue trivial
  | .op (.resolve _ _) => isTrue trivial
  | .call _ => inferInstanceAs (Decidable (¬ Ended s))

/-- `P` holds of the directory and the kernel at every call of the run. -/
def DuringCalls (P : Nat → Kernel → Prop) : ThreadSession → Trail ThreadSession Act → Prop :=
  StepsOk fun s a => ∀ room, a = .call room → P s.dir.pid s.kernel

/-! ## 3. The invariant -/

variable {s s' : ThreadSession} {a : Act} {n p : Nat}

/-- How often the number was emitted. -/
def times (s : ThreadSession) (p : Nat) : Nat := s.emitted.count (.thread p)

/-- No thread has been emitted yet. -/
structure Before (p : Nat) (s : ThreadSession) : Prop where
  version : s.dir.version = 0
  pos : s.dir.pos < 2
  times : s.times p = 0

/-- Where the listing stands: the list of the group is split there. -/
structure Split (p : Nat) (s : ThreadSession) (d : Task) (pre : List Task) (c : Task)
    (post : List Task) : Prop where
  dir : s.kernel.pidTask s.dir.pid = some d
  list : s.kernel.tasks.threads d.tgid = pre ++ c :: post
  version : c.pid = s.dir.version
  start : s.dir.pos = 2 → pre = []
  passed : (∃ t ∈ pre, t.pid = p) → s.times p = 1
  ahead : (∃ t ∈ c :: post, t.pid = p) → s.times p = 0

/-- The listing stands at a thread. -/
structure Standing (n p : Nat) (s : ThreadSession) : Prop where
  version : s.dir.version ≠ 0
  pos : 2 ≤ s.dir.pos
  given : n < s.kernel.fresh ∧ s.dir.pid < s.kernel.fresh
  split : InGroup s.dir.pid n p s.kernel → ∃ d pre c post, Split p s d pre c post

/-- The invariant for a thread that is in the group at every call. -/
def Listed (n p : Nat) (s : ThreadSession) : Prop :=
  s.kernel.Numbered ∧ (Before p s ∨ Standing n p s ∨ (Ended s ∧ s.times p = 1))

/-! ## 4. An operation -/

theorem Standing.op (h : Standing n p s) {o : Op} (hstay : Undisturbed s (.op o)) :
    Standing n p (s.after (.op o)) where
  version := h.version
  pos := h.pos
  given := by
    have hle := Op.fresh_le_after o s.kernel
    exact ⟨Nat.lt_of_lt_of_le h.given.1 hle, Nat.lt_of_lt_of_le h.given.2 hle⟩
  split := by
    intro hin
    have hbefore : InGroup s.dir.pid n p s.kernel := hin.before h.given.2 h.given.1
    obtain ⟨d, pre, c, post, hsplit⟩ := h.split hbefore
    obtain ⟨d', _, hd', _⟩ := hin
    obtain ⟨hdmem, hdpid⟩ := pidTask_eq_some_iff.mp hsplit.dir
    obtain ⟨hdmem', hdpid'⟩ := pidTask_eq_some_iff.mp hd'
    -- the directory is still of the same group
    have hdir : d' = o.effect d := by
      rcases Op.mem_after.mp hdmem' with ⟨u, hu, _, rfl⟩ | hborn
      · rw [Op.effect_threadPid] at hdpid'
        rw [s.kernel.tasks.eq_of_threadPid hu hdmem (hdpid'.trans hdpid.symm)]
      · have hlt : s.dir.pid < s.kernel.fresh := h.given.2
        have hnewid : d'.threadPid = s.kernel.fresh := (Op.born_cloak hborn).2
        have hid : d'.threadPid = s.dir.pid := hdpid'
        omega
    have hgroup : d'.tgid = d.tgid := by rw [hdir, Op.effect_tgid]
    obtain ⟨new, hnew, hlist⟩ := Tasks.threads_after o hdmem
    have hkept : o.keeps s.kernel c = true := by
      cases o with
      | exit pid flushed =>
        have hne : pid ≠ s.dir.version := hstay
        rw [Op.keeps, hsplit.version, Bool.or_eq_true, bne_iff_ne]
        exact Or.inl hne.symm
      | _ => rfl
    -- a new thread has not the number of one that is there
    have hnewpid : ∀ t ∈ new, t.pid ≠ p := by
      rintro t ht rfl
      obtain ⟨_, _, _, _, _, _, hfree, rfl⟩ := Op.mem_born.mp (hnew t ht)
      obtain ⟨_, u, _, hu, _, hpid⟩ := hbefore
      exact hfree.2 u (Tasks.mem_threads.mp hu).1 hpid
    have hback : ∀ l : List Task,
        (∃ t ∈ (l.filter (fun t => o.keeps s.kernel t)).map o.effect, t.pid = p) →
          ∃ t ∈ l, t.pid = p := by
      rintro l ⟨t, ht, rfl⟩
      obtain ⟨u, hu, rfl⟩ := List.mem_map.mp ht
      exact ⟨u, List.mem_of_mem_filter hu, Op.effect_pid.symm⟩
    refine ⟨d', (pre.filter (fun t => o.keeps s.kernel t)).map o.effect, o.effect c,
      (post.filter (fun t => o.keeps s.kernel t)).map o.effect ++ new, hd', ?_, ?_, ?_, ?_, ?_⟩
    · change (o.after s.kernel).tasks.threads d'.tgid = _
      have hcons : (c :: post).filter (fun t => o.keeps s.kernel t) =
          c :: post.filter (fun t => o.keeps s.kernel t) := List.filter_cons_of_pos hkept
      rw [hgroup, hlist, hsplit.list, List.filter_append, hcons, List.map_append, List.map_cons,
        List.append_assoc, List.cons_append]
    · rw [Op.effect_pid]
      exact hsplit.version
    · intro hpos
      rw [hsplit.start hpos]
      rfl
    · exact fun hpre => hsplit.passed (hback pre hpre)
    · rintro ⟨t, ht, hpid⟩
      refine hsplit.ahead ?_
      rcases List.mem_cons.mp ht with rfl | ht
      · exact ⟨c, List.mem_cons_self, Op.effect_pid.symm.trans hpid⟩
      · rcases List.mem_append.mp ht with ht | ht
        · obtain ⟨u, hu, hupid⟩ := hback post ⟨t, ht, hpid⟩
          exact ⟨u, List.mem_cons_of_mem _ hu, hupid⟩
        · exact absurd hpid (hnewpid t ht)

/-! ## 5. A call -/

/-- What a call gives for a list of threads. -/
def entries (l : List Task) : List TaskEntry := l.map (fun t => .thread t.pid)

theorem mem_entries {l : List Task} : TaskEntry.thread p ∈ entries l ↔ ∃ t ∈ l, t.pid = p := by
  simp [entries]

theorem count_entries {l : List Task} (hl : (l.map Task.pid).Nodup) (h : ∃ t ∈ l, t.pid = p) :
    (entries l).count (.thread p) = 1 := by
  have hinj : Function.Injective TaskEntry.thread := fun _ _ heq => TaskEntry.thread.inj heq
  have hmap : entries l = (l.map Task.pid).map TaskEntry.thread := by
    rw [entries, List.map_map]
    rfl
  refine List.count_eq_one_of_mem ?_ (mem_entries.mpr h)
  rw [hmap]
  exact hl.map hinj

theorem count_entries_of_not {l : List Task} (h : ∀ t ∈ l, t.pid ≠ p) :
    (entries l).count (.thread p) = 0 :=
  List.count_eq_zero.mpr fun hmem => by
    obtain ⟨t, ht, hpid⟩ := mem_entries.mp hmem
    exact h t ht hpid

theorem thread_notMem_dots (pos p : Nat) : TaskEntry.thread p ∉ dotsFrom pos := by
  intro hmem
  have hdots : TaskEntry.thread p ∈ [TaskEntry.dot, .dotdot] := List.mem_of_mem_drop hmem
  simp at hdots

theorem count_dots (pos p : Nat) : (dotsFrom pos).count (TaskEntry.thread p) = 0 :=
  List.count_eq_zero.mpr (thread_notMem_dots pos p)

theorem length_dots (pos : Nat) : (dotsFrom pos).length = 2 - pos := by
  rw [dotsFrom, List.length_drop]
  rfl

/-- **A call from a split of the list on** moves the split. -/
theorem Listed.goesOn {d t : Task} {pre post : List Task} {room : Nat}
    (hnum : s.kernel.Numbered) (hd : s.kernel.pidTask s.dir.pid = some d)
    (ht : t ∈ s.kernel.tasks.threads d.tgid) (hn : t.threadPid = n) (hp : t.pid = p)
    (hroom : ¬ room < (dotsFrom s.dir.pos).length)
    (hlist : s.kernel.tasks.threads d.tgid = pre ++ post)
    (hfirst : s.kernel.firstTidPos s.dir.pid s.dir.version
      (s.dir.pos + (dotsFrom s.dir.pos).length - 2) = post.head?)
    (hstart : s.dir.pos + (dotsFrom s.dir.pos).length = 2 → pre = [])
    (hpassed : (∃ t ∈ pre, t.pid = p) → s.times p = 1)
    (hahead : (∃ t ∈ post, t.pid = p) → s.times p = 0) : Listed n p (s.after (.call room)) := by
  have hlen : 2 ≤ s.dir.pos + (dotsFrom s.dir.pos).length := by
    rw [length_dots]
    omega
  obtain ⟨m, hm⟩ : ∃ m, m = room - (dotsFrom s.dir.pos).length := ⟨_, rfl⟩
  have hafter : s.after (.call room) =
      ⟨s.kernel,
        { s.dir with
          version := ((post.drop m).head?.map Task.pid).getD 0
          pos := s.dir.pos + (dotsFrom s.dir.pos).length + min m post.length },
        s.emitted ++ (dotsFrom s.dir.pos ++ entries (post.take m))⟩ := by
    rw [after, procTaskReaddir_eq hd hroom hlist hfirst, listed, hm]
    rfl
  have htimes : (s.after (.call room)).times p =
      s.times p + (entries (post.take m)).count (.thread p) := by
    rw [hafter, times, times, List.count_append, List.count_append, count_dots, Nat.zero_add]
  have hpids := s.kernel.tasks.pids
  have htaken : ((post.take m).map Task.pid).Nodup := by
    have hnodup := Tasks.threads_nodup hpids d.tgid
    rw [hlist, List.map_append] at hnodup
    exact (List.nodup_append.mp hnodup).2.1.sublist ((List.take_sublist m post).map _)
  have hsplit : s.kernel.tasks.threads d.tgid = (pre ++ post.take m) ++ post.drop m := by
    rw [List.append_assoc, List.take_append_drop, hlist]
  -- what the reader has now been given
  have hgiven : (∃ t ∈ pre ++ post.take m, t.pid = p) → (s.after (.call room)).times p = 1 := by
    rintro ⟨u, hu, hup⟩
    rw [htimes]
    rcases List.mem_append.mp hu with hu | hu
    · have hnot : ∀ v ∈ post.take m, v.pid ≠ p := by
        intro v hv hvp
        exact Tasks.threads_apart hpids hlist hu (List.mem_of_mem_take hv) (hup.trans hvp.symm)
      rw [hpassed ⟨u, hu, hup⟩, count_entries_of_not hnot]
    · rw [hahead ⟨u, List.mem_of_mem_take hu, hup⟩, count_entries htaken ⟨u, hu, hup⟩]
  refine ⟨by rw [hafter]; exact hnum, Or.inr ?_⟩
  cases hdrop : post.drop m with
  | nil =>
    refine Or.inr ⟨?_, hgiven ⟨t, ?_, hp⟩⟩
    · rw [hafter, hdrop]
      exact ⟨rfl, by dsimp only; omega⟩
    · rw [hsplit, hdrop, List.append_nil] at ht
      exact ht
  | cons c rest =>
    rw [hdrop] at hsplit
    have hthread : c ∈ s.kernel.tasks.threads d.tgid := by
      rw [hsplit]
      exact List.mem_append_right _ List.mem_cons_self
    have hc : c ∈ s.kernel.tasks.list := (Tasks.mem_threads.mp hthread).1
    have hversion : (s.after (.call room)).dir.version = c.pid := by
      rw [hafter, hdrop]
      rfl
    refine Or.inl ⟨?_, ?_, ?_, ?_⟩
    · rw [hversion]
      exact Nat.ne_of_gt (hnum c hc)
    · rw [hafter]
      dsimp only
      omega
    · rw [hafter]
      refine ⟨?_, ?_⟩
      · rw [← hn]
        exact s.kernel.fresh_tasks t (Tasks.mem_threads.mp ht).1
      · obtain ⟨hdmem, hdpid⟩ := pidTask_eq_some_iff.mp hd
        exact hdpid ▸ s.kernel.fresh_tasks d hdmem
    · intro _
      refine ⟨d, pre ++ post.take m, c, rest, ?_, ?_, hversion.symm, ?_, hgiven, ?_⟩
      · rw [hafter]
        exact hd
      · rw [hafter]
        exact hsplit
      · intro hpos
        rw [hafter] at hpos
        dsimp only at hpos
        have hlength : m < post.length := by
          by_contra hle
          rw [List.drop_eq_nil_of_le (Nat.le_of_not_lt hle)] at hdrop
          cases hdrop
        have hzero : m = 0 := by omega
        rw [hstart (by omega), hzero, List.take_zero]
        rfl
      · rintro ⟨u, hu, hup⟩
        have hupost : u ∈ post := by
          rw [← hdrop] at hu
          exact List.mem_of_mem_drop hu
        have hnot : ∀ v ∈ post.take m, v.pid ≠ p := by
          intro v hv hvp
          exact Tasks.threads_apart hpids hsplit (List.mem_append_right _ hv) hu
            (hvp.trans hup.symm)
        rw [htimes, hahead ⟨u, hupost, hup⟩, count_entries_of_not hnot]

/-- **A call.** -/
theorem Listed.call {room : Nat} (h : Listed n p s) (hopen : ¬ Ended s)
    (hin : InGroup s.dir.pid n p s.kernel) : Listed n p (s.after (.call room)) := by
  obtain ⟨hnum, hwhere⟩ := h
  obtain ⟨d, t, hd, ht, hn, hp⟩ := hin
  rcases hwhere with hbefore | hstanding | hended
  · by_cases hroom : room < (dotsFrom s.dir.pos).length
    · -- there is no room for the dots
      have hlt := hroom
      rw [length_dots] at hlt
      have hafter : s.after (.call room) = ⟨s.kernel, { s.dir with pos := s.dir.pos + room },
          s.emitted ++ (dotsFrom s.dir.pos).take room⟩ := by
        rw [after, procTaskReaddir, hd, if_neg (by simp)]
        dsimp only
        rw [if_pos hroom]
      rw [hafter]
      refine ⟨hnum, Or.inl ⟨hbefore.version, ?_, ?_⟩⟩
      · dsimp only
        omega
      · rw [times, List.count_append]
        refine Nat.add_eq_zero_iff.mpr ⟨hbefore.times, List.count_eq_zero.mpr fun hmem => ?_⟩
        exact thread_notMem_dots _ _ (List.mem_of_mem_take hmem)
    · have hzero : s.dir.pos + (dotsFrom s.dir.pos).length - 2 = 0 := by
        have hpos := hbefore.pos
        rw [length_dots]
        omega
      refine Listed.goesOn hnum hd ht hn hp hroom (List.nil_append _).symm ?_ (fun _ => rfl)
        ?_ (fun _ => hbefore.times)
      · rw [hzero, firstTidPos_start hd]
      · rintro ⟨u, hu, _⟩
        cases hu
  · obtain ⟨d', pre, c, post, hsplit⟩ := hstanding.split ⟨d, t, hd, ht, hn, hp⟩
    cases hd.symm.trans hsplit.dir
    have hdots : (dotsFrom s.dir.pos).length = 0 := by
      have hpos := hstanding.pos
      rw [length_dots]
      omega
    have hc : c ∈ s.kernel.tasks.threads d.tgid := by
      rw [hsplit.list]
      exact List.mem_append_right _ List.mem_cons_self
    obtain ⟨hcmem, hcgroup⟩ := Tasks.mem_threads.mp hc
    refine Listed.goesOn hnum hd ht hn hp (by omega) hsplit.list ?_
      (fun hpos => hsplit.start (by omega)) hsplit.passed hsplit.ahead
    rw [hdots, Nat.add_zero, List.head?_cons]
    by_cases hpos : s.dir.pos = 2
    · -- nothing has been emitted, and the walk starts at the leader
      rw [hpos, Nat.sub_self, firstTidPos_start hd, hsplit.list, hsplit.start hpos]
      rfl
    · have hle := hstanding.pos
      rw [← hsplit.version]
      refine firstTidPos_resume hd hcmem hcgroup ?_ (by omega)
      rw [hsplit.version]
      exact hstanding.version
  · exact absurd hended.1 hopen

/-! ## 6. Whole sessions -/

theorem listed_step (h : Listed n p s) (hok : Undisturbed s a)
    (hin : ∀ room, a = .call room → InGroup s.dir.pid n p s.kernel) (hstep : Step s a s') :
    Listed n p s' := by
  obtain rfl : s' = s.after a := hstep
  cases a with
  | call room => exact h.call hok (hin room rfl)
  | op o =>
    obtain ⟨hnum, hwhere⟩ := h
    refine ⟨hnum.after o, ?_⟩
    rcases hwhere with hbefore | hstanding | hended
    · exact Or.inl ⟨hbefore.version, hbefore.pos, hbefore.times⟩
    · exact Or.inr (Or.inl (hstanding.op hok))
    · exact Or.inr (Or.inr hended)

/-- A call gives numbers of the group, and dots. -/
theorem notListed_step (h : TaskEntry.thread p ∉ s.emitted)
    (hnot : ∀ room, a = .call room → NotInGroup s.dir.pid p s.kernel) (hstep : Step s a s') :
    TaskEntry.thread p ∉ s'.emitted := by
  obtain rfl : s' = s.after a := hstep
  cases a with
  | op o => exact h
  | call room =>
    cases hd : s.kernel.pidTask s.dir.pid with
    | none =>
      have hafter : s.after (.call room) = s := by rw [after, procTaskReaddir, hd]; rfl
      rw [hafter]
      exact h
    | some d =>
      by_cases hroom : room < (dotsFrom s.dir.pos).length
      · have hemitted : (s.after (.call room)).emitted =
            s.emitted ++ (dotsFrom s.dir.pos).take room := by
          rw [after, procTaskReaddir, hd, if_neg (by simp)]
          dsimp only
          rw [if_pos hroom]
        rw [hemitted, List.mem_append, not_or]
        exact ⟨h, fun hmem => thread_notMem_dots _ _ (List.mem_of_mem_take hmem)⟩
      · obtain ⟨pre, post, hlist, hfirst⟩ := firstTidPos_split hd s.dir.version
          (s.dir.pos + (dotsFrom s.dir.pos).length - 2)
        have hemitted : (s.after (.call room)).emitted = s.emitted ++ (dotsFrom s.dir.pos ++
            entries (post.take (room - (dotsFrom s.dir.pos).length))) := by
          rw [after, procTaskReaddir_eq hd hroom hlist hfirst, listed]
          rfl
        rw [hemitted, List.mem_append, List.mem_append, not_or, not_or]
        refine ⟨h, thread_notMem_dots _ _, fun hmem => ?_⟩
        obtain ⟨t, ht, hpid⟩ := mem_entries.mp hmem
        refine hnot room rfl d hd t ?_ hpid
        rw [hlist]
        exact List.mem_append_right _ (List.mem_of_mem_take ht)

/-- **A listing of the threads in several calls loses and repeats nothing**, hidden or not, as long
as the thread stays at which it stands.  The patch leaves `/proc/<pid>/task` alone; this says what a
reader finds there, and with `hidden_group_iff` that hiding a process is no protection once its
directory is open. -/
theorem threads_listed {s : ThreadSession} {w : Trail ThreadSession Act}
    (hnum : s.kernel.Numbered) (hversion : s.dir.version = 0) (hpos : s.dir.pos = 0)
    (hnew : s.emitted = []) (hrun : Run Step s w) (hok : StepsOk Undisturbed s w)
    (hend : Ended (final s w)) :
    (∀ n p, DuringCalls (fun id k => InGroup id n p k) s w →
        (final s w).emitted.count (.thread p) = 1) ∧
      (∀ p, DuringCalls (fun id k => NotInGroup id p k) s w →
        TaskEntry.thread p ∉ (final s w).emitted) := by
  refine ⟨fun n p hin => ?_, fun p hnot => ?_⟩
  · have hstart : Listed n p s :=
      ⟨hnum, Or.inl ⟨hversion, by omega, by rw [times, hnew]; rfl⟩⟩
    have hall : StepsOk (fun s a => Undisturbed s a ∧
        ∀ room, a = .call room → InGroup s.dir.pid n p s.kernel) s w := hok.and hin
    obtain ⟨_, hbefore | hstanding | hended⟩ := final_of_always hstart
      (hrun.always_of_stepsOk (fun _ _ _ h hok hstep => listed_step h hok.1 hok.2 hstep) hstart hall)
    · exact absurd hend.2 (Nat.not_le.mpr hbefore.pos)
    · exact absurd hend.1 hstanding.version
    · exact hended.2
  · have hstart : TaskEntry.thread p ∉ s.emitted := by
      rw [hnew]
      exact List.not_mem_nil
    exact final_of_always (P := fun s : ThreadSession => TaskEntry.thread p ∉ s.emitted) hstart
      (hrun.always_of_stepsOk (fun _ _ _ h hok hstep => notListed_step h hok hstep) hstart hnot)

/-- `init` with two more threads, 2 and 3, and its directory open. -/
def threeThreads : ThreadSession where
  kernel := (Op.copyProcess 1 true 3).after ((Op.copyProcess 1 true 2).after initial)
  dir := ⟨0, 0, 0⟩
  emitted := []

/-- Room for the dots and one thread; then thread 3 is hidden, and the rest is read. -/
theorem threads_listed_hidden :
    (final threeThreads
      (trail threeThreads [.call 3, .op (.hide 0 3 1), .call 5])).emitted.count (.thread 3) = 1 := by
  refine (threads_listed (by unfold Numbered; decide) rfl rfl rfl
    (run_trail threeThreads [.call 3, .op (.hide 0 3 1), .call 5]) (by decide) (by decide)).1 2 3
      ⟨?_, ?_, ?_, trivial⟩
  · intro room _
    exact ⟨⟨1, 1, 0, ['i', 'n', 'i', 't'], by decide, 0, 0⟩,
      ⟨3, 1, 0, ['i', 'n', 'i', 't'], by decide, 0, 2⟩, by decide, by decide, rfl, rfl⟩
  · rintro room ⟨⟩
  · intro room _
    exact ⟨⟨1, 1, 0, ['i', 'n', 'i', 't'], by decide, 0, 0⟩,
      ⟨3, 1, 0, ['i', 'n', 'i', 't'], by decide, 1, 2⟩, by decide, by decide, rfl, rfl⟩

/-- Without that, a thread may be passed over: the listing stands at 3 when 2 and 3 end, and 4 is
not given. -/
example : (final threeThreads (trail threeThreads [.op (.copyProcess 1 true 4), .call 4,
    .op (.exit 2 true), .op (.exit 3 true), .call 5])).emitted =
      [.dot, .dotdot, .thread 1, .thread 2] := by decide

end ThreadSession

end Osexp.Hide
