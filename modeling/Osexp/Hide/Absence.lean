/-
# A hidden process and one that is not there

What does hiding achieve?  A kernel with hidden tasks is compared with the same kernel without them
(`Kernel.without`).  `Op.answer` is what the caller of an operation learns.

`Tells` are the operations that tell the two kernels apart: `hide` by root on a hidden number,
`recover` by root, a write to `/proc/hide` that is not 1, and a `copy_process` by a hidden task or
with a hidden number.  As long as none of these is made the two kernels go side by side and answer
the same (`absent_simulates`).

`Absent` is the relation between the kernels.  It does not speak of the references, so the turns
that `next_tgid` spends on hidden tasks do not matter.  `/proc/hidden_process`, which is there to
name the hidden processes, is none of the operations.

The comparison is the strongest thing that can be asked of a hidden process: not only that it is
missing in listings, but that nothing else shows that it is there.  It also says what cannot be had.
A number stays taken while its process is hidden, so whoever asks for it learns that it is; and the
hidden process itself goes on and may be seen by what it does.
-/
import Osexp.Hide.Machine
import Osexp.Lib.Simulation

namespace Osexp.Hide

/-! ## 1. Answers -/

/-- What the caller of an operation learns: the result of a system call, whether a task was
created, the entries of a listing, whether a name was found. -/
inductive Answer
  | done
  | returned (ret : Nat)
  | created (success : Bool)
  | entries (ctx : DirContext)
  | found (success : Bool)

namespace Op

def answer (k : Kernel) : Op → Answer
  | hide caller pid on => .returned (k.hide caller pid on).1
  | hideUserProcesses caller uid binname recover =>
    .returned (k.hideUserProcesses caller uid binname recover).1
  | copyProcess parent thread pid => .created (k.copyProcess parent thread pid).isSome
  | readdir info ctx => .entries (k.procPidReaddir info ctx).1
  | resolve info name => .found (k.resolve info name).1
  | _ => .done

/-- The answers to these operations, one after the other. -/
def answers : Kernel → List Op → List Answer
  | _, [] => []
  | k, op :: ops => op.answer k :: answers (op.after k) ops

end Op

/-! ## 2. The kernel without the hidden tasks -/

/-- The tasks whose `struct pid` is in `H` are hidden: whole groups, none of them cached. -/
structure Hides (H : Nat → Bool) (k : Kernel) : Prop where
  hidden : ∀ t ∈ k.tasks.list, H t.threadPid = true → k.hidesTask t = true
  groups : ∀ t ∈ k.tasks.list, ∀ u ∈ k.tasks.list, t.tgid = u.tgid →
    H t.threadPid = H u.threadPid
  uncached : ∀ d ∈ k.dcache, H d.pid = false
  given : ∀ n, H n = true → n < k.fresh

/-- A task of `H` that is there. -/
def Kernel.Lives (k : Kernel) (H : Nat → Bool) (t : Task) : Prop :=
  t ∈ k.tasks.list ∧ H t.threadPid = true

/-- The same kernel, had the tasks of `H` never been. -/
def Kernel.without (k : Kernel) (H : Nat → Bool) (h : Hides H k) : Kernel :=
  { k with
    tasks :=
      { list := k.tasks.list.filter (fun t => !H t.threadPid)
        pids := k.tasks.pids.sublist (List.filter_sublist.map _)
        ids := k.tasks.ids.sublist (List.filter_sublist.map _)
        small := fun t ht => k.tasks.small t (List.mem_of_mem_filter ht)
        grouped := by
          intro t ht
          obtain ⟨ht, hshown⟩ := List.mem_filter.mp ht
          obtain ⟨l, hl, hlead, hpid⟩ := k.tasks.grouped t ht
          have hgroup : l.tgid = t.tgid := (Task.isLeader_iff.mp hlead).symm.trans hpid
          refine ⟨l, List.mem_filter.mpr ⟨hl, ?_⟩, hlead, hpid⟩
          rw [h.groups l hl t ht hgroup]
          exact hshown }
    fresh_tasks := fun t ht => k.fresh_tasks t (List.mem_of_mem_filter ht)
    named := fun d hd t ht => k.named d hd t (List.mem_of_mem_filter ht) }

/-- `k'` is `k` without the tasks of `H`, which are hidden in `k`. -/
structure Absent (H : Nat → Bool) (k k' : Kernel) : Prop where
  hides : Hides H k
  tasks : k'.tasks.list = k.tasks.list.filter (fun t => !H t.threadPid)
  dcache : k'.dcache = k.dcache
  flag : k'.hiddenFlag = k.hiddenFlag
  fresh : k'.fresh = k.fresh

theorem Kernel.without_absent {k : Kernel} {H : Nat → Bool} (h : Hides H k) :
    Absent H k (k.without H h) := ⟨h, rfl, rfl, rfl, rfl⟩

/-- The operation tells hidden tasks from tasks that are not there. -/
def Op.Tells (H : Nat → Bool) (k : Kernel) : Op → Prop
  | hide caller pid _ => caller = 0 ∧ 0 < pid ∧ ∃ t, k.Lives H t ∧ (t.pid : Int) = pid
  | hideUserProcesses caller _ _ recover => caller = 0 ∧ recover ≠ 0 ∧ ∃ t, k.Lives H t
  | writeHidden parsed => ∃ v, parsed = some v ∧ v ≠ 1 ∧ ∃ t, k.Lives H t
  | copyProcess parent _ pid =>
    ∃ p ∈ k.tasks.list, p.pid = parent ∧
      ((H p.threadPid = true ∧ k.FreeNumber pid) ∨
        (H p.threadPid = false ∧ 0 < pid ∧ ∃ t, k.Lives H t ∧ t.pid = pid))
  | _ => False

/-- **Hidden tasks stay hidden** while the directory operations run. -/
theorem Hides.cacheRule (H : Nat → Bool) : Kernel.CacheRule (Hides H) where
  refs := by
    intro k k' hk htasks hdcache hflag hfresh
    refine ⟨?_, ?_, ?_, ?_⟩
    · intro t ht hH
      rw [htasks] at ht
      rw [Kernel.hidesTask_congr hflag]
      exact hk.hidden t ht hH
    · rw [htasks]
      exact hk.groups
    · rw [hdcache]
      exact hk.uncached
    · rw [hfresh]
      exact hk.given
  drop := fun _ hk => ⟨hk.hidden, hk.groups,
    fun d hd => hk.uncached d (List.mem_of_mem_filter hd), hk.given⟩
  instantiate := by
    intro k task hk hshown
    unfold Kernel.procPidInstantiate
    split
    · rename_i h
      refine ⟨hk.hidden, hk.groups, List.forall_mem_cons.mpr ⟨?_, hk.uncached⟩, hk.given⟩
      rw [← Bool.not_eq_true]
      intro hH
      cases (hk.hidden task h.1 hH).symm.trans hshown
    · exact hk

/-! ## 3. The directory -/

namespace Tasks

variable {ts : Tasks} {n p : Nat} {t : Task}

theorem findTgid_eq_some_iff : ts.findTgid n = some (p, t) ↔
    t ∈ ts.list ∧ t.isLeader = true ∧ t.pid = p ∧ n ≤ p ∧
      ∀ u ∈ ts.list, u.isLeader = true → n ≤ u.pid → p ≤ u.pid := by
  obtain ⟨hsome, hnone⟩ := ts.findTgid_spec n
  constructor
  · exact hsome p t
  · rintro ⟨ht, hlead, rfl, hn, hfirst⟩
    cases h : ts.findTgid n with
    | none => exact absurd (hnone h t ht hlead) (Nat.not_lt.mpr hn)
    | some found =>
      obtain ⟨q, u⟩ := found
      obtain ⟨hu, hulead, rfl, hun, hufirst⟩ := hsome q u h
      have heq : u = t :=
        ts.eq_of_pid hu ht (Nat.le_antisymm (hufirst t ht hlead hn) (hfirst u hu hulead hun))
      rw [heq]

theorem findTgid_eq_none_iff : ts.findTgid n = none ↔
    ∀ u ∈ ts.list, u.isLeader = true → u.pid < n := by
  obtain ⟨hsome, hnone⟩ := ts.findTgid_spec n
  constructor
  · exact hnone
  · intro hall
    cases h : ts.findTgid n with
    | none => rfl
    | some found =>
      obtain ⟨q, u⟩ := found
      obtain ⟨ht, hlead, rfl, hn, _⟩ := hsome q u h
      exact absurd (hall u ht hlead) (Nat.not_lt.mpr hn)

/-- The search starts anywhere before the leader that it finds. -/
theorem findTgid_congr {m : Nat}
    (h : ∀ t ∈ ts.list, t.isLeader = true → (n ≤ t.pid ↔ m ≤ t.pid)) :
    ts.findTgid n = ts.findTgid m := by
  cases hm : ts.findTgid m with
  | none =>
    rw [findTgid_eq_none_iff] at hm ⊢
    intro u hu hlead
    have hlt := hm u hu hlead
    have hiff := h u hu hlead
    omega
  | some found =>
    obtain ⟨q, u⟩ := found
    obtain ⟨hu, hlead, rfl, hge, hfirst⟩ := findTgid_eq_some_iff.mp hm
    exact findTgid_eq_some_iff.mpr ⟨hu, hlead, rfl, (h u hu hlead).mpr hge,
      fun v hv hvl hvn => hfirst v hv hvl ((h v hv hvl).mp hvn)⟩

end Tasks

namespace Kernel

/-- So does the loop. -/
theorem readdirLoop_congr {k : Kernel} {n m : Nat} (h : k.tasks.findTgid n = k.tasks.findTgid m)
    (info : ProcFsInfo) (previous : Option Task) (ctx : DirContext) :
    readdirLoop info n previous ctx k = readdirLoop info m previous ctx k := by
  cases hm : k.tasks.findTgid m with
  | none => rw [readdirLoop_end hm, readdirLoop_end (h.trans hm)]
  | some found =>
    obtain ⟨q, task⟩ := found
    by_cases hskip : hasPidPermissions info task .invisible = false ∨
        ((putPrevious previous k).getTaskStruct task).hidesTask task = true
    · rw [readdirLoop_skip hm hskip, readdirLoop_skip (h.trans hm) hskip]
    · cases hroom : ({ ctx with pos := q + TGID_OFFSET } : DirContext).dirEmit (.process q) with
      | none => rw [readdirLoop_full hm hskip hroom, readdirLoop_full (h.trans hm) hskip hroom]
      | some ctx' =>
        rw [readdirLoop_emit hm hskip hroom, readdirLoop_emit (h.trans hm) hskip hroom]

end Kernel

namespace Absent

variable {H : Nat → Bool} {k k' : Kernel} {t task : Task} {n p : Nat}

theorem mem_iff (h : Absent H k k') :
    t ∈ k'.tasks.list ↔ t ∈ k.tasks.list ∧ H t.threadPid = false := by
  rw [h.tasks, List.mem_filter, Bool.not_eq_true']

theorem hidesTask (h : Absent H k k') (t : Task) : k'.hidesTask t = k.hidesTask t :=
  Kernel.hidesTask_congr h.flag t

/-- A task that is not hidden is in neither kernel a task of `H`. -/
theorem shown (h : Absent H k k') (ht : t ∈ k.tasks.list) (hshown : k.hidesTask t = false) :
    H t.threadPid = false := by
  rw [← Bool.not_eq_true]
  intro hH
  cases (h.hides.hidden t ht hH).symm.trans hshown

/-! The references play no part. -/

theorem refs {k₁ k₂ : Kernel} (h : Absent H k k') (htasks : k₁.tasks = k.tasks)
    (hdcache : k₁.dcache = k.dcache) (hflag : k₁.hiddenFlag = k.hiddenFlag)
    (hfresh : k₁.fresh = k.fresh) (htasks' : k₂.tasks = k'.tasks) (hdcache' : k₂.dcache = k'.dcache)
    (hflag' : k₂.hiddenFlag = k'.hiddenFlag) (hfresh' : k₂.fresh = k'.fresh) : Absent H k₁ k₂ where
  hides := (Hides.cacheRule H).refs h.hides htasks hdcache hflag hfresh
  tasks := by rw [htasks', htasks, h.tasks]
  dcache := by rw [hdcache', hdcache, h.dcache]
  flag := by rw [hflag', hflag, h.flag]
  fresh := by rw [hfresh', hfresh, h.fresh]

theorem get (h : Absent H k k') (t : Task) : Absent H (k.getTaskStruct t) (k'.getTaskStruct t) :=
  h.refs rfl rfl rfl rfl rfl rfl rfl rfl

theorem put (h : Absent H k k') (t : Task) : Absent H (k.putTaskStruct t) (k'.putTaskStruct t) :=
  h.refs rfl rfl rfl rfl rfl rfl rfl rfl

theorem previous (h : Absent H k k') (a b : Option Task) :
    Absent H (Kernel.putPrevious a k) (Kernel.putPrevious b k') := by
  obtain ⟨hdcache, hflag, hfresh⟩ := Kernel.putPrevious_frame a k
  obtain ⟨hdcache', hflag', hfresh'⟩ := Kernel.putPrevious_frame b k'
  exact h.refs (Kernel.putPrevious_tasks a k) hdcache hflag hfresh (Kernel.putPrevious_tasks b k')
    hdcache' hflag' hfresh'

/-! What is looked up. -/

theorem findTask_none (h : Absent H k k') (hn : k.findTask n = none) : k'.findTask n = none :=
  Kernel.findTask_eq_none_iff.mpr fun t ht =>
    Kernel.findTask_eq_none_iff.mp hn t (h.mem_iff.mp ht).1

theorem findTask_shown (h : Absent H k k') (hn : k.findTask n = some t)
    (hH : H t.threadPid = false) : k'.findTask n = some t := by
  obtain ⟨ht, hpid⟩ := Kernel.findTask_eq_some_iff.mp hn
  exact Kernel.findTask_eq_some_iff.mpr ⟨h.mem_iff.mpr ⟨ht, hH⟩, hpid⟩

theorem findTask_hidden (h : Absent H k k') (hn : k.findTask n = some t)
    (hH : H t.threadPid = true) : k'.findTask n = none := by
  obtain ⟨ht, rfl⟩ := Kernel.findTask_eq_some_iff.mp hn
  refine Kernel.findTask_eq_none_iff.mpr fun u hu hpid => ?_
  obtain ⟨hu, hHu⟩ := h.mem_iff.mp hu
  rw [k.tasks.eq_of_pid hu ht hpid, hH] at hHu
  cases hHu

theorem cached (h : Absent H k k') (n : Nat) : k'.cached n = k.cached n := by
  rw [Kernel.cached, Kernel.cached, h.dcache]

theorem revalidate (h : Absent H k k') {d : Dentry} (hd : d ∈ k.dcache) :
    k'.pidRevalidate d = k.pidRevalidate d := by
  unfold Kernel.pidRevalidate
  rw [Bool.eq_iff_iff, List.any_eq_true, List.any_eq_true]
  constructor
  · rintro ⟨t, ht, hpid⟩
    exact ⟨t, (h.mem_iff.mp ht).1, hpid⟩
  · rintro ⟨t, ht, hpid⟩
    refine ⟨t, h.mem_iff.mpr ⟨ht, ?_⟩, hpid⟩
    rw [beq_iff_eq.mp hpid]
    exact h.hides.uncached d hd

/-! What is done to the cache. -/

theorem keep (h : Absent H k k') (p : Dentry → Bool) :
    Absent H (k.keepDentries p) (k'.keepDentries p) where
  hides := (Hides.cacheRule H).drop p h.hides
  tasks := h.tasks
  dcache := congrArg (List.filter p) h.dcache
  flag := h.flag
  fresh := h.fresh

theorem instantiate (h : Absent H k k') (ht : task ∈ k.tasks.list)
    (hshown : k.hidesTask task = false) :
    Absent H (k.procPidInstantiate task) (k'.procPidInstantiate task) where
  hides := (Hides.cacheRule H).instantiate task h.hides hshown
  tasks := by rw [Kernel.procPidInstantiate_tasks, Kernel.procPidInstantiate_tasks, h.tasks]
  dcache := by
    have hmem : task ∈ k'.tasks.list := h.mem_iff.mpr ⟨ht, h.shown ht hshown⟩
    unfold Kernel.procPidInstantiate
    by_cases hnew : ∀ d ∈ k.dcache, d.name ≠ task.pid
    · have hnew' : ∀ d ∈ k'.dcache, d.name ≠ task.pid := by
        rw [h.dcache]
        exact hnew
      rw [dif_pos (And.intro hmem hnew'), dif_pos (And.intro ht hnew)]
      exact congrArg (List.cons _) h.dcache
    · have hold : ¬ ∀ d ∈ k'.dcache, d.name ≠ task.pid := by
        rw [h.dcache]
        exact hnew
      rw [dif_neg (fun hboth => hold hboth.2), dif_neg (fun hboth => hnew hboth.2)]
      exact h.dcache
  flag := by rw [Kernel.procPidInstantiate_flag, Kernel.procPidInstantiate_flag, h.flag]
  fresh := by rw [Kernel.procPidInstantiate_fresh, Kernel.procPidInstantiate_fresh, h.fresh]

theorem fillCache (h : Absent H k k') (ht : task ∈ k.tasks.list)
    (hshown : k.hidesTask task = false) :
    Absent H (k.procFillCache task) (k'.procFillCache task) := by
  unfold Kernel.procFillCache
  rw [h.cached]
  cases k.cached task.pid with
  | none => exact h.instantiate ht hshown
  | some d => exact h

/-- **A lookup** finds the same and leaves kernels related as before. -/
theorem lookup (h : Absent H k k') (info : ProcFsInfo) (name : Option Nat) :
    (k'.procPidLookup info name).1 = (k.procPidLookup info name).1 ∧
      Absent H (k.procPidLookup info name).2 (k'.procPidLookup info name).2 := by
  cases name with
  | none => exact ⟨rfl, h⟩
  | some n =>
    unfold Kernel.procPidLookup
    dsimp only
    cases hn : k.findTask n with
    | none =>
      rw [h.findTask_none hn]
      exact ⟨rfl, h⟩
    | some task =>
      have ht := (Kernel.findTask_eq_some_iff.mp hn).1
      have hget : (k.getTaskStruct task).hidesTask task = k.hidesTask task := rfl
      cases hH : H task.threadPid with
      | true =>
        -- hidden in the one, and not there in the other
        rw [h.findTask_hidden hn hH]
        dsimp only
        rw [hget, h.hides.hidden task ht hH, if_pos rfl]
        exact ⟨rfl, h.refs rfl rfl rfl rfl rfl rfl rfl rfl⟩
      | false =>
        have hget' : (k'.getTaskStruct task).hidesTask task = k.hidesTask task := h.hidesTask task
        rw [h.findTask_shown hn hH]
        dsimp only
        rw [hget, hget']
        cases hshown : k.hidesTask task with
        | true => exact ⟨rfl, h.get task⟩
        | false =>
          rw [if_neg Bool.false_ne_true, if_neg Bool.false_ne_true]
          split
          · exact ⟨rfl, (h.get task).put task⟩
          · exact ⟨rfl, ((h.get task).instantiate ht hshown).put task⟩

/-- **A path walk** finds the same. -/
theorem resolve (h : Absent H k k') (info : ProcFsInfo) (name : Option Nat) :
    (k'.resolve info name).1 = (k.resolve info name).1 ∧
      Absent H (k.resolve info name).2 (k'.resolve info name).2 := by
  have hcached : k'.cached = k.cached := funext h.cached
  unfold Kernel.resolve
  rw [hcached]
  split
  · exact h.lookup info name
  · rename_i d hd
    obtain ⟨n, _, hn⟩ := Option.bind_eq_some_iff.mp hd
    rw [h.revalidate (List.mem_of_find?_eq_some hn)]
    split
    · exact ⟨rfl, h⟩
    · exact (h.keep _).lookup info name

/-! What the search for the next process finds. -/

theorem findTgid_none (h : Absent H k k') (hn : k.tasks.findTgid n = none) :
    k'.tasks.findTgid n = none :=
  Tasks.findTgid_eq_none_iff.mpr fun t ht =>
    Tasks.findTgid_eq_none_iff.mp hn t (h.mem_iff.mp ht).1

theorem findTgid_shown (h : Absent H k k') (hn : k.tasks.findTgid n = some (p, task))
    (hH : H task.threadPid = false) : k'.tasks.findTgid n = some (p, task) := by
  obtain ⟨ht, hlead, hpid, hge, hfirst⟩ := Tasks.findTgid_eq_some_iff.mp hn
  exact Tasks.findTgid_eq_some_iff.mpr ⟨h.mem_iff.mpr ⟨ht, hH⟩, hlead, hpid, hge,
    fun u hu => hfirst u (h.mem_iff.mp hu).1⟩

/-- A hidden leader is passed over. -/
theorem findTgid_hidden (h : Absent H k k') (hn : k.tasks.findTgid n = some (p, task))
    (hH : H task.threadPid = true) : k'.tasks.findTgid n = k'.tasks.findTgid (p + 1) := by
  obtain ⟨ht, hlead, rfl, hge, hfirst⟩ := Tasks.findTgid_eq_some_iff.mp hn
  refine Tasks.findTgid_congr fun u hu hulead => ?_
  obtain ⟨hu, hHu⟩ := h.mem_iff.mp hu
  have hne : u.pid ≠ task.pid := by
    intro hpid
    rw [k.tasks.eq_of_pid hu ht hpid, hH] at hHu
    cases hHu
  have hle := hfirst u hu hulead
  omega

/-- **The loop of a listing emits the same**, by induction on its turns: those on hidden tasks have
no counterpart. -/
theorem readdirLoop (info : ProcFsInfo) (tgid : Nat) (previous : Option Task) (ctx : DirContext)
    (k : Kernel) : ∀ (k' : Kernel) (previous' : Option Task), Absent H k k' →
      (Kernel.readdirLoop info tgid previous' ctx k').1 =
          (Kernel.readdirLoop info tgid previous ctx k).1 ∧
        Absent H (Kernel.readdirLoop info tgid previous ctx k).2
          (Kernel.readdirLoop info tgid previous' ctx k').2 := by
  induction tgid, previous, ctx, k using Kernel.readdirLoop.induct info with
  | case1 tgid previous ctx k hn =>
    intro k' previous' h
    rw [Kernel.readdirLoop_end hn, Kernel.readdirLoop_end (h.findTgid_none hn)]
    exact ⟨rfl, h.previous _ _⟩
  | case2 tgid previous ctx k n task hn k₁ hskip ih =>
    intro k' previous' h
    rw [Kernel.readdirLoop_skip hn hskip]
    cases hH : H task.threadPid with
    | true =>
      rw [Kernel.readdirLoop_congr (h.findTgid_hidden hn hH)]
      exact ih _ previous' ((h.previous previous none).refs rfl rfl rfl rfl rfl rfl rfl rfl)
    | false =>
      have h₁ := (h.previous previous previous').get task
      rw [Kernel.readdirLoop_skip (h.findTgid_shown hn hH) (by
        rw [h₁.hidesTask task]
        exact hskip)]
      exact ih _ (some task) h₁
  | case3 tgid previous ctx k n task hn k₁ hshow ctx' hfull =>
    intro k' previous' h
    obtain ⟨ht, _⟩ := Tasks.findTgid_eq_some_iff.mp hn
    have hshown : k₁.hidesTask task = false := by simpa using (not_or.mp hshow).2
    have hk₁ : k₁.hidesTask task = k.hidesTask task :=
      Kernel.hidesTask_congr (Kernel.putPrevious_frame previous k).2.1 task
    have htasks : k₁.tasks = k.tasks := Kernel.putPrevious_tasks previous k
    have h₁ := (h.previous previous previous').get task
    rw [Kernel.readdirLoop_full hn hshow hfull,
      Kernel.readdirLoop_full (h.findTgid_shown hn (h.shown ht (hk₁.symm.trans hshown))) (by
        rw [h₁.hidesTask task]
        exact hshow) hfull]
    exact ⟨rfl, (h₁.fillCache (htasks ▸ ht) hshown).put task⟩
  | case4 tgid previous ctx k n task hn k₁ hshow ctx' k₂ ctx'' hroom ih =>
    intro k' previous' h
    obtain ⟨ht, _⟩ := Tasks.findTgid_eq_some_iff.mp hn
    have hshown : k₁.hidesTask task = false := by simpa using (not_or.mp hshow).2
    have hk₁ : k₁.hidesTask task = k.hidesTask task :=
      Kernel.hidesTask_congr (Kernel.putPrevious_frame previous k).2.1 task
    have htasks : k₁.tasks = k.tasks := Kernel.putPrevious_tasks previous k
    have h₁ := (h.previous previous previous').get task
    rw [Kernel.readdirLoop_emit hn hshow hroom,
      Kernel.readdirLoop_emit (h.findTgid_shown hn (h.shown ht (hk₁.symm.trans hshown))) (by
        rw [h₁.hidesTask task]
        exact hshow) hroom]
    exact ih _ (some task) (h₁.fillCache (htasks ▸ ht) hshown)

/-- **A listing emits the same.** -/
theorem readdir (h : Absent H k k') (info : ProcFsInfo) (ctx : DirContext) :
    (k'.procPidReaddir info ctx).1 = (k.procPidReaddir info ctx).1 ∧
      Absent H (k.procPidReaddir info ctx).2 (k'.procPidReaddir info ctx).2 := by
  unfold Kernel.procPidReaddir
  split
  · exact ⟨rfl, h⟩
  · split
    · exact ⟨rfl, h⟩
    · split
      · exact ⟨rfl, h⟩
      · exact readdirLoop info _ none _ k _ none h

/-! ## 4. The operations -/

variable {op : Op}

/-- A task that may go goes in both kernels: no thread of a hidden group needs it. -/
theorem keeps_eq (h : Absent H k k') (op : Op) (ht : t ∈ k.tasks.list)
    (hH : H t.threadPid = false) : op.keeps k' t = op.keeps k t := by
  cases op with
  | exit pid flushed =>
    have hneeded : k'.tasks.needed t = k.tasks.needed t := by
      unfold Tasks.needed
      rw [Bool.eq_iff_iff, List.any_eq_true, List.any_eq_true]
      constructor
      · rintro ⟨u, hu, huse⟩
        exact ⟨u, (h.mem_iff.mp hu).1, huse⟩
      · rintro ⟨u, hu, huse⟩
        refine ⟨u, h.mem_iff.mpr ⟨hu, ?_⟩, huse⟩
        rw [Bool.and_eq_true, beq_iff_eq] at huse
        -- the leader of `u` has the number of `t`
        obtain ⟨l, hl, hlead, hpid⟩ := k.tasks.grouped u hu
        have heq : l = t := k.tasks.eq_of_pid hl ht (hpid.trans huse.1)
        have hgroup : u.tgid = t.tgid := by
          rw [heq] at hlead hpid
          rw [← hpid, Task.isLeader_iff.mp hlead]
        rw [h.hides.groups u hu t ht hgroup, hH]
    unfold Op.keeps
    rw [hneeded]
  | _ => rfl

/-- A number is free in both kernels, unless a hidden task has it. -/
theorem freeNumber_iff (h : Absent H k k') {pid : Nat}
    (hno : 0 < pid → ∀ u, k.Lives H u → u.pid ≠ pid) : k'.FreeNumber pid ↔ k.FreeNumber pid := by
  constructor
  · rintro ⟨hrange, hfree⟩
    refine ⟨hrange, fun u hu => ?_⟩
    cases hHu : H u.threadPid with
    | true => exact hno hrange.1 u ⟨hu, hHu⟩
    | false => exact hfree u (h.mem_iff.mpr ⟨hu, hHu⟩)
  · rintro ⟨hrange, hfree⟩
    exact ⟨hrange, fun u hu => hfree u (h.mem_iff.mp hu).1⟩

/-- **The same tasks are created.** -/
theorem born_eq (h : Absent H k k') (hop : ¬ op.Tells H k) : op.born k' = op.born k := by
  cases op with
  | copyProcess parent thread pid =>
    simp only [Op.born]
    cases hp : k.findTask parent with
    | none => rw [h.findTask_none hp]
    | some p =>
      obtain ⟨hmem, hpid⟩ := Kernel.findTask_eq_some_iff.mp hp
      cases hH : H p.threadPid with
      | true =>
        have hbusy : ¬ k.FreeNumber pid := fun hfree => hop ⟨p, hmem, hpid, Or.inl ⟨hH, hfree⟩⟩
        rw [h.findTask_hidden hp hH]
        dsimp only
        rw [if_neg hbusy]
      | false =>
        have hno : 0 < pid → ∀ u, k.Lives H u → u.pid ≠ pid :=
          fun hpos u hu hnum => hop ⟨p, hmem, hpid, Or.inr ⟨hH, hpos, u, hu, hnum⟩⟩
        rw [h.findTask_shown hp hH]
        dsimp only
        rw [h.fresh]
        exact if_congr (h.freeNumber_iff hno) rfl rfl
  | _ => rfl

end Absent

namespace Op

variable {H : Nat → Bool} {k k' : Kernel} {op : Op} {t : Task}

theorem born_copyProcess_none {parent pid : Nat} {thread : Bool}
    (h : k.copyProcess parent thread pid = none) :
    (copyProcess parent thread pid).born k = [] := by
  simp only [born]
  rcases Kernel.copyProcess_eq_none_iff.mp h with hp | hbusy
  · simp only [hp]
  · simp only [if_neg hbusy]
    split <;> rfl

theorem born_copyProcess_some {parent pid : Nat} {thread : Bool}
    (h : k.copyProcess parent thread pid = some k') :
    ∃ t, (copyProcess parent thread pid).born k = [t] ∧ k'.fresh = k.fresh + 1 := by
  obtain ⟨p, hp, hfree, _⟩ := Kernel.copyProcess_eq_some h
  refine ⟨p.copy thread pid k.fresh, by simp only [born, hp, if_pos hfree], ?_⟩
  unfold Kernel.copyProcess at h
  split at h
  · cases h
  · rw [dif_pos hfree] at h
    cases h
    rfl

theorem copyProcess_dcache (k : Kernel) (parent : Nat) (thread : Bool) (pid : Nat) :
    ((copyProcess parent thread pid).after k).dcache = k.dcache := by
  rw [after]
  cases h : k.copyProcess parent thread pid with
  | none => rfl
  | some k' =>
    obtain ⟨_, _, _, _, hdcache, _⟩ := Kernel.copyProcess_eq_some h
    exact hdcache

/-- A task is created or not. -/
theorem isSome_copyProcess (k : Kernel) (parent : Nat) (thread : Bool) (pid : Nat) :
    (k.copyProcess parent thread pid).isSome =
      !((copyProcess parent thread pid).born k).isEmpty := by
  cases h : k.copyProcess parent thread pid with
  | none =>
    rw [born_copyProcess_none h]
    rfl
  | some k' =>
    obtain ⟨t, hborn, _⟩ := born_copyProcess_some h
    rw [hborn]
    rfl

/-- Every new task takes one `struct pid`. -/
theorem after_fresh (op : Op) (k : Kernel) :
    (op.after k).fresh = k.fresh + (op.born k).length := by
  cases op with
  | hide caller pid on =>
    simp only [after, Kernel.hide]
    split
    · split <;> rfl
    · rfl
  | hideUserProcesses caller uid binname recover =>
    simp only [after, Kernel.hideUserProcesses]
    split
    · rfl
    · split
      · split
        · exact Kernel.hideMatching_fresh _ k
        · rfl
        · exact Kernel.hideMatching_fresh _ k
      · rfl
  | writeHidden parsed => cases parsed <;> rfl
  | copyProcess parent thread pid =>
    rw [after]
    cases h : k.copyProcess parent thread pid with
    | none =>
      rw [born_copyProcess_none h]
      rfl
    | some k' =>
      obtain ⟨t, hborn, hfresh⟩ := born_copyProcess_some h
      rw [hborn]
      exact hfresh
  | exit pid flushed =>
    simp only [after, Kernel.releaseTask]
    split
    · rfl
    · split
      · split <;> rfl
      · rfl
  | setuid pid uid => rfl
  | setTaskComm pid buf => rfl
  | readdir info ctx => exact ((Kernel.sameTasks k).readdir info ctx ⟨rfl, rfl, rfl⟩).2.2
  | resolve info name => exact ((Kernel.sameTasks k).resolve info name ⟨rfl, rfl, rfl⟩).2.2

/-- No value but 1 is asked for a task of `H`. -/
theorem asks_of_not_tells (hop : ¬ op.Tells H k) (ht : k.Lives H t) (h : t.cloak = 1) :
    (op.effect t).cloak = 1 := by
  rw [effect_cloak]
  cases op with
  | hide caller pid on =>
    have hask : (hide caller pid on).asks t = none :=
      if_neg fun hall => hop ⟨hall.1, hall.2.1, t, ht, hall.2.2⟩
    rw [hask, Option.getD_none, h]
  | hideUserProcesses caller uid binname recover =>
    simp only [asks]
    split
    · rename_i hroot
      split
      · split
        · rfl
        · exact h
      · rename_i hrec
        exact absurd ⟨hroot.1, hrec, t, ht⟩ hop
    · exact h
  | _ => exact h

/-- While a task of `H` is there the flag stays. -/
theorem flag_of_not_tells (hop : ¬ op.Tells H k) (ht : k.Lives H t) (h : k.hiddenFlag = 1) :
    (op.after k).hiddenFlag = 1 := by
  rw [after_flag]
  cases op with
  | writeHidden parsed =>
    cases parsed with
    | none => exact h
    | some v =>
      by_contra hv
      exact hop ⟨v, rfl, hv, t, ht⟩
  | _ => exact h

end Op

/-- **Hidden tasks stay hidden** under an operation that does not tell. -/
theorem Hides.after {H : Nat → Bool} {k : Kernel} {op : Op} (h : Hides H k)
    (hop : ¬ op.Tells H k) : Hides H (op.after k) where
  hidden := by
    intro t ht hH
    rcases Op.mem_after.mp ht with ⟨u, hu, _, rfl⟩ | hborn
    · rw [Op.effect_threadPid] at hH
      have hhid := h.hidden u hu hH
      rw [Kernel.hidesTask, Bool.and_eq_true, beq_iff_eq, beq_iff_eq] at hhid ⊢
      exact ⟨Op.flag_of_not_tells hop ⟨hu, hH⟩ hhid.1, Op.asks_of_not_tells hop ⟨hu, hH⟩ hhid.2⟩
    · have hlt := h.given _ hH
      rw [(Op.born_cloak hborn).2] at hlt
      exact absurd hlt (Nat.lt_irrefl _)
  groups := by
    -- a new thread joins the group of its parent, which is not hidden; a new process is alone
    have hnew : ∀ t ∈ op.born k, ∀ u ∈ k.tasks.list, t.tgid = u.tgid → H u.threadPid = false := by
      intro t ht u hu hgroup
      obtain ⟨parent, thread, pid, p, rfl, hp, hfree, rfl⟩ := Op.mem_born.mp ht
      obtain ⟨hmem, hpid⟩ := Kernel.findTask_eq_some_iff.mp hp
      cases thread with
      | true =>
        rw [← h.groups p hmem u hu hgroup, ← Bool.not_eq_true]
        exact fun hH => hop ⟨p, hmem, hpid, Or.inl ⟨hH, hfree⟩⟩
      | false =>
        obtain ⟨l, hl, _, hlpid⟩ := k.tasks.grouped u hu
        exact absurd (hlpid.trans hgroup.symm) (hfree.2 l hl)
    have hfresh : ∀ t ∈ op.born k, H t.threadPid = false := by
      intro t ht
      rw [(Op.born_cloak ht).2, ← Bool.not_eq_true]
      exact fun hH => Nat.lt_irrefl _ (h.given _ hH)
    intro t ht u hu hgroup
    rcases Op.mem_after.mp ht with ⟨t, htold, _, rfl⟩ | htnew <;>
      rcases Op.mem_after.mp hu with ⟨u, huold, _, rfl⟩ | hunew
    · rw [Op.effect_tgid, Op.effect_tgid] at hgroup
      rw [Op.effect_threadPid, Op.effect_threadPid]
      exact h.groups t htold u huold hgroup
    · rw [Op.effect_tgid] at hgroup
      rw [Op.effect_threadPid, hnew u hunew t htold hgroup.symm, hfresh u hunew]
    · rw [Op.effect_tgid] at hgroup
      rw [Op.effect_threadPid, hnew t htnew u huold hgroup, hfresh t htnew]
    · rw [hfresh t htnew, hfresh u hunew]
  uncached := by
    cases hdir : op.onDirectory with
    | false => exact fun d hd => h.uncached d (Op.after_dcache hdir hd).1
    | true =>
      cases op with
      | readdir info ctx => exact ((Hides.cacheRule H).readdir info ctx h).uncached
      | resolve info name => exact ((Hides.cacheRule H).resolve info name h).uncached
      | _ => cases hdir
  given := fun n hn => Nat.lt_of_lt_of_le (h.given n hn) (Op.fresh_le_after op k)

namespace Absent

variable {H : Nat → Bool} {k k' : Kernel} {op : Op}

/-- What `hide` drops from the cache. -/
theorem hide (h : Absent H k k') {caller : Nat} {pid : Int} {on : BitVec 32}
    (hop : ¬ (Op.hide caller pid on).Tells H k) :
    (k'.hide caller pid on).1 = (k.hide caller pid on).1 ∧
      (k'.hide caller pid on).2.dcache = (k.hide caller pid on).2.dcache := by
  unfold Kernel.hide
  split
  · rename_i hroot
    cases hp : k.findTask pid.toNat with
    | none =>
      rw [h.findTask_none hp]
      exact ⟨rfl, h.dcache⟩
    | some p =>
      obtain ⟨hmem, hpid⟩ := Kernel.findTask_eq_some_iff.mp hp
      have hH : H p.threadPid = false := by
        rw [← Bool.not_eq_true]
        exact fun hH => hop ⟨hroot.2, hroot.1, p, ⟨hmem, hH⟩, by omega⟩
      rw [h.findTask_shown hp hH]
      exact ⟨rfl, congrArg (List.filter _) h.dcache⟩
  · exact ⟨rfl, h.dcache⟩

/-- Entries go for processes that are not of `H`. -/
theorem hideMatching_dcache (h : Absent H k k') (m : Task → Bool) :
    (k'.hideMatching m).dcache = (k.hideMatching m).dcache := by
  rw [Kernel.hideMatching_dcache, Kernel.hideMatching_dcache, h.dcache]
  refine List.filter_congr fun d hd => ?_
  congr 1
  rw [Bool.eq_iff_iff, List.any_eq_true, List.any_eq_true]
  constructor
  · rintro ⟨p, hp, hm⟩
    obtain ⟨hp, hlead⟩ := Kernel.mem_processes.mp hp
    exact ⟨p, Kernel.mem_processes.mpr ⟨(h.mem_iff.mp hp).1, hlead⟩, hm⟩
  · rintro ⟨p, hp, hm⟩
    obtain ⟨hp, hlead⟩ := Kernel.mem_processes.mp hp
    have hH : H p.threadPid = false := by
      rw [Bool.and_eq_true, beq_iff_eq] at hm
      rw [← hm.2]
      exact h.hides.uncached d hd
    exact ⟨p, Kernel.mem_processes.mpr ⟨h.mem_iff.mpr ⟨hp, hH⟩, hlead⟩, hm⟩

theorem hideUserProcesses (h : Absent H k k') (caller uid : Nat) (binname : UserString)
    (recover : BitVec 32) :
    (k'.hideUserProcesses caller uid binname recover).1 =
        (k.hideUserProcesses caller uid binname recover).1 ∧
      (k'.hideUserProcesses caller uid binname recover).2.dcache =
        (k.hideUserProcesses caller uid binname recover).2.dcache := by
  unfold Kernel.hideUserProcesses
  split
  · exact ⟨rfl, h.dcache⟩
  · split
    · cases binname with
      | null => exact ⟨rfl, h.hideMatching_dcache _⟩
      | unreadable => exact ⟨rfl, h.dcache⟩
      | string s => exact ⟨rfl, h.hideMatching_dcache _⟩
    · exact ⟨rfl, h.dcache⟩

/-- The end of a hidden task drops nothing. -/
theorem releaseTask_dcache (h : Absent H k k') (pid : Nat) (flushed : Bool) :
    (k'.releaseTask pid flushed).dcache = (k.releaseTask pid flushed).dcache := by
  unfold Kernel.releaseTask
  cases hp : k.findTask pid with
  | none =>
    rw [h.findTask_none hp]
    exact h.dcache
  | some p =>
    have hmem := (Kernel.findTask_eq_some_iff.mp hp).1
    cases hH : H p.threadPid with
    | true =>
      have hkept : k.dcache.filter (fun d => d.pid != p.threadPid) = k.dcache := by
        refine List.filter_eq_self.mpr fun d hd => ?_
        rw [bne_iff_ne]
        intro heq
        have hno := h.hides.uncached d hd
        rw [heq, hH] at hno
        cases hno
      rw [h.findTask_hidden hp hH]
      dsimp only
      split
      · split
        · exact h.dcache.trans hkept.symm
        · exact h.dcache
      · exact h.dcache
    | false =>
      have hneeded : k'.tasks.needed p = k.tasks.needed p := by
        have hkeeps := h.keeps_eq (.exit p.pid flushed) hmem hH
        simpa [Op.keeps] using hkeeps
      rw [h.findTask_shown hp hH]
      dsimp only
      by_cases hfree : k.tasks.needed p = false
      · rw [dif_pos (hneeded.trans hfree), dif_pos hfree]
        split
        · exact congrArg (List.filter _) h.dcache
        · exact h.dcache
      · rw [dif_neg (fun hno => hfree (hneeded.symm.trans hno)), dif_neg hfree]
        exact h.dcache

/-- **One operation** that does not tell answers the same, and the two kernels go on as before. -/
theorem step (h : Absent H k k') (hop : ¬ op.Tells H k) :
    op.answer k' = op.answer k ∧ Absent H (op.after k) (op.after k') := by
  have hborn := h.born_eq hop
  have hsame : op.answer k' = op.answer k ∧ (op.after k').dcache = (op.after k).dcache := by
    cases op with
    | hide caller pid on =>
      obtain ⟨hret, hdcache⟩ := h.hide hop
      exact ⟨congrArg Answer.returned hret, hdcache⟩
    | hideUserProcesses caller uid binname recover =>
      obtain ⟨hret, hdcache⟩ := h.hideUserProcesses caller uid binname recover
      exact ⟨congrArg Answer.returned hret, hdcache⟩
    | writeHidden parsed => exact ⟨rfl, by cases parsed <;> exact h.dcache⟩
    | copyProcess parent thread pid =>
      refine ⟨?_, ?_⟩
      · rw [Op.answer, Op.answer, Op.isSome_copyProcess, Op.isSome_copyProcess, hborn]
      · rw [Op.copyProcess_dcache, Op.copyProcess_dcache, h.dcache]
    | exit pid flushed => exact ⟨rfl, h.releaseTask_dcache pid flushed⟩
    | setuid pid uid => exact ⟨rfl, h.dcache⟩
    | setTaskComm pid buf => exact ⟨rfl, h.dcache⟩
    | readdir info ctx =>
      obtain ⟨hctx, hafter⟩ := h.readdir info ctx
      exact ⟨congrArg Answer.entries hctx, hafter.dcache⟩
    | resolve info name =>
      obtain ⟨hfound, hafter⟩ := h.resolve info name
      exact ⟨congrArg Answer.found hfound, hafter.dcache⟩
  refine ⟨hsame.1, h.hides.after hop, ?_, hsame.2, ?_, ?_⟩
  · -- the task tables
    have hnew : ∀ t ∈ op.born k, (!H t.threadPid) = true := by
      intro t ht
      rw [(Op.born_cloak ht).2, Bool.not_eq_true', ← Bool.not_eq_true]
      exact fun hH => Nat.lt_irrefl _ (h.hides.given _ hH)
    rw [Op.after_list, Op.after_list, hborn, h.tasks, List.filter_append,
      List.filter_eq_self.mpr hnew, List.filter_map, List.filter_filter, List.filter_filter]
    congr 2
    refine List.filter_congr fun t ht => ?_
    simp only [Function.comp, Op.effect_threadPid]
    cases hH : H t.threadPid with
    | true => simp
    | false => simp [h.keeps_eq op ht hH]
  · rw [Op.after_flag, Op.after_flag, h.flag]
  · rw [Op.after_fresh, Op.after_fresh, h.fresh, hborn]

end Absent

/-- **The kernel with the hidden tasks is simulated by the kernel without them.**  So whatever is
asked of `/proc` after any run without a telling operation has the answer that it would have if the
tasks had never been. -/
theorem absent_simulates (H : Nat → Bool) :
    Lts.Simulation Op.Step Op.Step (fun k op => ¬ op.Tells H k) (Absent H) id
      (fun k op k' _ => op.answer k' = op.answer k) where
  matched := by
    rintro k _ op k' h hop rfl
    obtain ⟨hanswer, hafter⟩ := h.step hop
    exact ⟨op.after k', rfl, hafter, hanswer⟩

end Osexp.Hide
