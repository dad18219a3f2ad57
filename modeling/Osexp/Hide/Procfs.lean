/-
# The directory `/proc`: `fs/proc/base.c`

* `procPidLookup` looks a name up, `procPidReaddir` lists the directory from a position on.  Both
  leave entries in the dentry cache.
* `resolve` is the path walk: a cached entry is taken while `pid_revalidate` accepts it, and
  otherwise `proc_pid_lookup` is asked.

A name is given as the number that `name_to_int` makes of it, `none` where it makes none.  What the
reader of `/proc` may see by the mount option `hidepid` comes from outside (`ProcFsInfo`).

`procPidReaddir_lists` says what a call emits and where it stops, and `CacheRule` by which steps the
directory operations change the state.

These are functions of the kernel that the patch changes in one line each: a test of `cloak` and the
flag, put in front of what was there.  They are modelled as a whole, with the references they take
and the entries they leave in the cache, because that is where the line has effects that its author
did not think of.
-/
import Osexp.Hide.Calls

namespace Osexp.Hide

def FIRST_PROCESS_ENTRY : Nat := 256
def TGID_OFFSET : Nat := FIRST_PROCESS_ENTRY + 2

/-! ## 1. The mount option -/

/-- `enum proc_hidepid`. -/
inductive HidePid
  | off | noAccess | invisible | notPtraceable
  deriving DecidableEq

def HidePid.value : HidePid → Nat
  | .off => 0
  | .noAccess => 1
  | .invisible => 2
  | .notPtraceable => 4

/-- The mount, and what the reader may do: whether it is in the group `pid_gid`, and
`ptrace_may_access`. -/
structure ProcFsInfo where
  hidePid : HidePid
  inGroup : Bool
  mayAccess : Task → Bool

/-- `has_pid_permissions`. -/
def hasPidPermissions (info : ProcFsInfo) (task : Task) (hidePidMin : HidePid) : Bool :=
  if info.hidePid = .notPtraceable then info.mayAccess task
  else if info.hidePid.value < hidePidMin.value then true
  else if info.inGroup then true
  else info.mayAccess task

/-! ## 2. The search for the next process -/

namespace Tasks

variable {ts : Tasks} {n p : Nat} {t : Task}

/-- `find_ge_pid(n)`: the smallest number in use from `n` on. -/
def findGePid (ts : Tasks) (n : Nat) : Option Nat :=
  ((ts.list.map Task.pid).filter (n ≤ ·)).min?

/-- `pid_task(pid, PIDTYPE_TGID)` for the number of `pid`. -/
def leaderOf (ts : Tasks) (n : Nat) : Option Task :=
  ts.list.find? (fun t => t.pid == n && t.isLeader)

/-- How many numbers are in use from `n` on. -/
def pidsFrom (ts : Tasks) (n : Nat) : Nat := ts.list.countP (fun t => decide (n ≤ t.pid))

theorem findGePid_eq_some_iff :
    ts.findGePid n = some p ↔
      (∃ t ∈ ts.list, t.pid = p) ∧ n ≤ p ∧ ∀ t ∈ ts.list, n ≤ t.pid → p ≤ t.pid := by
  unfold findGePid
  rw [List.min?_eq_some_iff]
  simp only [List.mem_filter, List.mem_map, decide_eq_true_eq, and_imp, forall_exists_index,
    forall_apply_eq_imp_iff₂]
  tauto

theorem findGePid_eq_none_iff : ts.findGePid n = none ↔ ∀ t ∈ ts.list, t.pid < n := by
  unfold findGePid
  rw [List.min?_eq_none_iff, List.filter_eq_nil_iff]
  simp

theorem leaderOf_eq_some_iff :
    ts.leaderOf n = some t ↔ t ∈ ts.list ∧ t.isLeader = true ∧ t.pid = n := by
  constructor
  · intro h
    have hp := List.find?_some h
    rw [Bool.and_eq_true, beq_iff_eq] at hp
    exact ⟨List.mem_of_find?_eq_some h, hp.2, hp.1⟩
  · rintro ⟨ht, hlead, rfl⟩
    cases h : ts.leaderOf t.pid with
    | none =>
      have hno := List.find?_eq_none.mp h t ht
      simp [hlead] at hno
    | some u =>
      have hp := List.find?_some h
      rw [Bool.and_eq_true, beq_iff_eq] at hp
      rw [ts.eq_of_pid (List.mem_of_find?_eq_some h) ht hp.1]

theorem countP_lt_countP {l : List Task} {p q : Task → Bool}
    (hpq : ∀ t ∈ l, p t = true → q t = true)
    (ht : t ∈ l) (hp : p t = false) (hq : q t = true) : l.countP p < l.countP q := by
  induction l with
  | nil => cases ht
  | cons u l ih =>
    obtain ⟨hu, hl⟩ := List.forall_mem_cons.mp hpq
    rw [List.countP_cons, List.countP_cons]
    have hmono := List.countP_mono_left hl
    rcases List.mem_cons.mp ht with rfl | ht
    · rw [hp, hq]
      simp only [Bool.false_eq_true, if_false, if_true]
      omega
    · have hlt := ih hl ht
      cases hpu : p u with
      | false =>
        simp only [Bool.false_eq_true, if_false]
        omega
      | true =>
        rw [hu hpu]
        omega

theorem pidsFrom_lt {m : Nat} (ht : t ∈ ts.list) (hn : n ≤ t.pid) (hm : t.pid < m) :
    ts.pidsFrom m < ts.pidsFrom n := by
  refine countP_lt_countP ?_ ht ?_ ?_
  · intro u _ hu
    rw [decide_eq_true_eq] at hu ⊢
    omega
  · rw [decide_eq_false_iff_not]
    omega
  · rw [decide_eq_true_eq]
    exact hn

theorem pidsFrom_findGePid (h : ts.findGePid n = some p) :
    ts.pidsFrom (p + 1) < ts.pidsFrom n := by
  obtain ⟨⟨t, ht, rfl⟩, hle, _⟩ := findGePid_eq_some_iff.mp h
  exact pidsFrom_lt ht hle (Nat.lt_succ_self _)

/-- The `retry` loop of `next_tgid`: the first number from `n` on that a leader has. -/
def findTgid (ts : Tasks) (n : Nat) : Option (Nat × Task) :=
  match _h : ts.findGePid n with
  | none => none
  | some p =>
    match ts.leaderOf p with
    | some task => some (p, task)
    | none => findTgid ts (p + 1)
termination_by ts.pidsFrom n
decreasing_by exact pidsFrom_findGePid _h

/-- **The loop finds the next leader**, or there is none: by induction on its turns. -/
theorem findTgid_spec (ts : Tasks) (n : Nat) :
    (∀ p t, ts.findTgid n = some (p, t) → t ∈ ts.list ∧ t.isLeader = true ∧ t.pid = p ∧ n ≤ p ∧
        ∀ u ∈ ts.list, u.isLeader = true → n ≤ u.pid → p ≤ u.pid) ∧
      (ts.findTgid n = none → ∀ u ∈ ts.list, u.isLeader = true → u.pid < n) := by
  induction n using Tasks.findTgid.induct ts with
  | case1 n h =>
    have heq : ts.findTgid n = none := by
      rw [findTgid]
      split
      · rfl
      · rename_i p h'
        cases h.symm.trans h'
    refine ⟨?_, ?_⟩
    · intro p t hpt
      cases heq.symm.trans hpt
    · exact fun _ u hu _ => findGePid_eq_none_iff.mp h u hu
  | case2 n p h task hl =>
    have heq : ts.findTgid n = some (p, task) := by
      rw [findTgid]
      split
      · rename_i h'
        cases h.symm.trans h'
      · rename_i q h'
        cases h.symm.trans h'
        rw [hl]
    obtain ⟨_, hle, hmin⟩ := findGePid_eq_some_iff.mp h
    obtain ⟨ht, hlead, hpid⟩ := leaderOf_eq_some_iff.mp hl
    refine ⟨?_, ?_⟩
    · intro q t hqt
      cases heq.symm.trans hqt
      exact ⟨ht, hlead, hpid, hle, fun u hu _ hun => hmin u hu hun⟩
    · intro hnone
      cases heq.symm.trans hnone
  | case3 n p h hl ih =>
    have heq : ts.findTgid n = ts.findTgid (p + 1) := by
      rw [findTgid]
      split
      · rename_i h'
        cases h.symm.trans h'
      · rename_i q h'
        cases h.symm.trans h'
        rw [hl]
    obtain ⟨hsome, hnone⟩ := ih
    obtain ⟨_, hle, hmin⟩ := findGePid_eq_some_iff.mp h
    -- a leader from `n` on is a leader after `p`, since the task numbered `p` is none
    have hafter : ∀ u ∈ ts.list, u.isLeader = true → n ≤ u.pid → p + 1 ≤ u.pid := by
      intro u hu hlead hun
      rcases Nat.lt_or_eq_of_le (hmin u hu hun) with hlt | rfl
      · exact hlt
      · rw [leaderOf_eq_some_iff.mpr ⟨hu, hlead, rfl⟩] at hl
        cases hl
    rw [heq]
    refine ⟨?_, ?_⟩
    · intro q t hqt
      obtain ⟨ht, hlead, hpid, hq, hfirst⟩ := hsome q t hqt
      exact ⟨ht, hlead, hpid, by omega, fun u hu hul hun => hfirst u hu hul (hafter u hu hul hun)⟩
    · intro hend u hu hlead
      by_contra hun
      have hge := hafter u hu hlead (Nat.not_lt.mp hun)
      have hlt := hnone hend u hu hlead
      omega

end Tasks

/-! ## 3. The directory context -/

/-- What `dir_emit` is given. -/
inductive Entry
  | self
  | threadSelf
  | process (tgid : Nat)
  deriving DecidableEq

/-- The position, the entries for which there is still room, and those emitted. -/
structure DirContext where
  pos : Nat
  room : Nat
  emitted : List Entry

/-- `dir_emit`, which refuses when there is no room. -/
def DirContext.dirEmit (e : Entry) (ctx : DirContext) : Option DirContext :=
  if ctx.room = 0 then none
  else some { ctx with room := ctx.room - 1, emitted := ctx.emitted ++ [e] }

namespace Kernel

/-- The test that the patch adds to `proc_pid_lookup` and to `proc_pid_readdir`. -/
def hidesTask (k : Kernel) (task : Task) : Bool := k.hiddenFlag == 1 && task.cloak == 1

/-! ## 4. Entries -/

/-- `d_lookup`: the cached entry of a name. -/
def cached (k : Kernel) (name : Nat) : Option Dentry := k.dcache.find? (·.name == name)

/-- `proc_pid_instantiate`: an entry for the task under its number, if there is none yet. -/
def procPidInstantiate (task : Task) (k : Kernel) : Kernel :=
  if h : task ∈ k.tasks.list ∧ ∀ d ∈ k.dcache, d.name ≠ task.pid then
    { k with
      dcache := ⟨task.pid, task.threadPid⟩ :: k.dcache
      fresh_dcache := List.forall_mem_cons.mpr ⟨k.fresh_tasks task h.1, k.fresh_dcache⟩
      names := by
        rw [List.map_cons, List.nodup_cons]
        refine ⟨?_, k.names⟩
        intro hmem
        obtain ⟨d, hd, hname⟩ := List.mem_map.mp hmem
        exact h.2 d hd hname
      named := by
        refine List.forall_mem_cons.mpr ⟨?_, k.named⟩
        intro t ht heq
        rw [k.tasks.eq_of_threadPid ht h.1 heq] }
  else k

/-- `proc_pid_lookup`: whether there is an entry, and the state.  A hidden task keeps the reference
that was taken on it. -/
def procPidLookup (info : ProcFsInfo) (name : Option Nat) (k : Kernel) : Bool × Kernel :=
  match name with
  | none => (false, k)
  | some tgid =>
    match k.findTask tgid with
    | none => (false, k)
    | some task =>
      let k := k.getTaskStruct task
      if k.hidesTask task then (false, k)
      else if info.hidePid = .notPtraceable ∧ ¬ hasPidPermissions info task .noAccess then
        (false, k.putTaskStruct task)
      else (true, (k.procPidInstantiate task).putTaskStruct task)

/-- `pid_revalidate`: some task still has the `struct pid` of the inode. -/
def pidRevalidate (d : Dentry) (k : Kernel) : Bool :=
  k.tasks.list.any (fun t => t.threadPid == d.pid)

/-- The path walk to a name in `/proc`: whether it succeeds, and the state. -/
def resolve (info : ProcFsInfo) (name : Option Nat) (k : Kernel) : Bool × Kernel :=
  match name.bind k.cached with
  | none => procPidLookup info name k
  | some d =>
    if pidRevalidate d k then (true, k)
    else procPidLookup info name (k.keepDentries (fun e => e.name != d.name))

/-- The part of `proc_fill_cache` before `dir_emit`. -/
def procFillCache (task : Task) (k : Kernel) : Kernel :=
  match k.cached task.pid with
  | some _ => k
  | none => k.procPidInstantiate task


/-! ## 5. The listing -/

/-- `put_task_struct` on the previous task of the iteration. -/
def putPrevious (previous : Option Task) (k : Kernel) : Kernel :=
  match previous with
  | none => k
  | some t => k.putTaskStruct t

@[simp] theorem putPrevious_tasks (previous : Option Task) (k : Kernel) :
    (putPrevious previous k).tasks = k.tasks := by
  cases previous <;> rfl

@[simp] theorem procPidInstantiate_tasks (task : Task) (k : Kernel) :
    (k.procPidInstantiate task).tasks = k.tasks := by
  unfold procPidInstantiate
  split <;> rfl

@[simp] theorem procPidInstantiate_flag (task : Task) (k : Kernel) :
    (k.procPidInstantiate task).hiddenFlag = k.hiddenFlag := by
  unfold procPidInstantiate
  split <;> rfl

@[simp] theorem procPidInstantiate_fresh (task : Task) (k : Kernel) :
    (k.procPidInstantiate task).fresh = k.fresh := by
  unfold procPidInstantiate
  split <;> rfl

@[simp] theorem procFillCache_tasks (task : Task) (k : Kernel) :
    (k.procFillCache task).tasks = k.tasks := by
  unfold procFillCache
  split
  · rfl
  · exact procPidInstantiate_tasks task k

theorem findTgid_lt {ts : Tasks} {n p : Nat} {t : Task} (h : ts.findTgid n = some (p, t)) :
    ts.pidsFrom (p + 1) < ts.pidsFrom n := by
  obtain ⟨ht, _, rfl, hn, _⟩ := (ts.findTgid_spec n).1 p t h
  exact Tasks.pidsFrom_lt ht hn (Nat.lt_succ_self _)

/-- The loop of `proc_pid_readdir`, from the call of `next_tgid` at the number `tgid` on. -/
def readdirLoop (info : ProcFsInfo) (tgid : Nat) (previous : Option Task) (ctx : DirContext)
    (k : Kernel) : DirContext × Kernel :=
  match _h : k.tasks.findTgid tgid with
  | none => ({ ctx with pos := PID_MAX_LIMIT + TGID_OFFSET }, putPrevious previous k)
  | some (n, task) =>
    let k' := (putPrevious previous k).getTaskStruct task
    if hasPidPermissions info task .invisible = false ∨ k'.hidesTask task = true then
      readdirLoop info (n + 1) (some task) ctx k'
    else
      let ctx := { ctx with pos := n + TGID_OFFSET }
      let k' := k'.procFillCache task
      match ctx.dirEmit (.process n) with
      | none => (ctx, k'.putTaskStruct task)
      | some ctx => readdirLoop info (n + 1) (some task) ctx k'
termination_by k.tasks.pidsFrom tgid
decreasing_by
  · have htasks : ((putPrevious previous k).getTaskStruct task).tasks = k.tasks :=
      putPrevious_tasks previous k
    rw [htasks]
    exact findTgid_lt _h
  · have htasks : (((putPrevious previous k).getTaskStruct task).procFillCache task).tasks =
        k.tasks := (procFillCache_tasks task _).trans (putPrevious_tasks previous k)
    rw [htasks]
    exact findTgid_lt _h

/-! The four ways a turn of the loop goes. -/

section Turns

variable {info : ProcFsInfo} {tgid n : Nat} {previous : Option Task} {ctx ctx' : DirContext}
  {k : Kernel} {task : Task}

theorem readdirLoop_end (h : k.tasks.findTgid tgid = none) :
    readdirLoop info tgid previous ctx k =
      ({ ctx with pos := PID_MAX_LIMIT + TGID_OFFSET }, putPrevious previous k) := by
  rw [readdirLoop]
  split
  · rfl
  · rename_i h'
    cases h.symm.trans h'

theorem readdirLoop_skip (h : k.tasks.findTgid tgid = some (n, task))
    (hskip : hasPidPermissions info task .invisible = false ∨
      ((putPrevious previous k).getTaskStruct task).hidesTask task = true) :
    readdirLoop info tgid previous ctx k =
      readdirLoop info (n + 1) (some task) ctx ((putPrevious previous k).getTaskStruct task) := by
  rw [readdirLoop]
  split
  · rename_i h'
    cases h.symm.trans h'
  · rename_i h'
    cases h.symm.trans h'
    exact if_pos hskip

theorem readdirLoop_full (h : k.tasks.findTgid tgid = some (n, task))
    (hshow : ¬ (hasPidPermissions info task .invisible = false ∨
      ((putPrevious previous k).getTaskStruct task).hidesTask task = true))
    (hfull : ({ ctx with pos := n + TGID_OFFSET } : DirContext).dirEmit (.process n) = none) :
    readdirLoop info tgid previous ctx k =
      ({ ctx with pos := n + TGID_OFFSET },
        (((putPrevious previous k).getTaskStruct task).procFillCache task).putTaskStruct task) := by
  rw [readdirLoop]
  split
  · rename_i h'
    cases h.symm.trans h'
  · rename_i h'
    cases h.symm.trans h'
    dsimp only
    rw [if_neg hshow, hfull]

theorem readdirLoop_emit (h : k.tasks.findTgid tgid = some (n, task))
    (hshow : ¬ (hasPidPermissions info task .invisible = false ∨
      ((putPrevious previous k).getTaskStruct task).hidesTask task = true))
    (hroom : ({ ctx with pos := n + TGID_OFFSET } : DirContext).dirEmit (.process n) = some ctx') :
    readdirLoop info tgid previous ctx k =
      readdirLoop info (n + 1) (some task) ctx'
        (((putPrevious previous k).getTaskStruct task).procFillCache task) := by
  rw [readdirLoop]
  split
  · rename_i h'
    cases h.symm.trans h'
  · rename_i h'
    cases h.symm.trans h'
    dsimp only
    rw [if_neg hshow, hroom]

end Turns

/-- `proc_pid_readdir`. -/
def procPidReaddir (info : ProcFsInfo) (ctx : DirContext) (k : Kernel) : DirContext × Kernel :=
  if PID_MAX_LIMIT + TGID_OFFSET ≤ ctx.pos then (ctx, k)
  else
    match (if ctx.pos = TGID_OFFSET - 2 then
        (ctx.dirEmit .self).map (fun ctx => { ctx with pos := ctx.pos + 1 }) else some ctx) with
    | none => (ctx, k)
    | some ctx =>
      match (if ctx.pos = TGID_OFFSET - 1 then
          (ctx.dirEmit .threadSelf).map (fun ctx => { ctx with pos := ctx.pos + 1 })
        else some ctx) with
      | none => (ctx, k)
      | some ctx => readdirLoop info (ctx.pos - TGID_OFFSET) none ctx k

/-! ## 6. What the directory operations keep -/

/-- The obligations of a property that a lookup or a listing keeps: it does not speak of the
references, entries may go, and an entry may come for a task that is not hidden. -/
structure CacheRule (I : Kernel → Prop) : Prop where
  refs : ∀ {k k' : Kernel}, I k → k'.tasks = k.tasks → k'.dcache = k.dcache →
    k'.hiddenFlag = k.hiddenFlag → k'.fresh = k.fresh → I k'
  drop : ∀ {k : Kernel} (p : Dentry → Bool), I k → I (k.keepDentries p)
  instantiate : ∀ {k : Kernel} (task : Task), I k → k.hidesTask task = false →
    I (k.procPidInstantiate task)

theorem hidesTask_congr {k k' : Kernel} (h : k'.hiddenFlag = k.hiddenFlag) (task : Task) :
    k'.hidesTask task = k.hidesTask task := by
  rw [hidesTask, hidesTask, h]

theorem putPrevious_frame (previous : Option Task) (k : Kernel) :
    (putPrevious previous k).dcache = k.dcache ∧
      (putPrevious previous k).hiddenFlag = k.hiddenFlag ∧
      (putPrevious previous k).fresh = k.fresh := by
  cases previous <;> exact ⟨rfl, rfl, rfl⟩

namespace CacheRule

variable {I : Kernel → Prop} {k : Kernel}

theorem lookup (R : CacheRule I) (info : ProcFsInfo) (name : Option Nat) (hk : I k) :
    I (k.procPidLookup info name).2 := by
  unfold procPidLookup
  split
  · exact hk
  · split
    · exact hk
    · rename_i task _
      have hget : I (k.getTaskStruct task) := R.refs hk rfl rfl rfl rfl
      dsimp only
      split
      · exact hget
      · rename_i hhidden
        split
        · exact R.refs hget rfl rfl rfl rfl
        · exact R.refs (R.instantiate task hget (by simpa using hhidden)) rfl rfl rfl rfl

theorem resolve (R : CacheRule I) (info : ProcFsInfo) (name : Option Nat) (hk : I k) :
    I (k.resolve info name).2 := by
  unfold Kernel.resolve
  split
  · exact R.lookup info name hk
  · split
    · exact hk
    · exact R.lookup info name (R.drop _ hk)

theorem fillCache (R : CacheRule I) (task : Task) (hk : I k) (h : k.hidesTask task = false) :
    I (k.procFillCache task) := by
  unfold procFillCache
  split
  · exact hk
  · exact R.instantiate task hk h

theorem previous (R : CacheRule I) (previous : Option Task) (hk : I k) :
    I (putPrevious previous k) := by
  obtain ⟨hdcache, hflag, hfresh⟩ := putPrevious_frame previous k
  exact R.refs hk (putPrevious_tasks previous k) hdcache hflag hfresh

/-- By induction on the turns of the loop. -/
theorem readdirLoop (R : CacheRule I) (info : ProcFsInfo) (tgid : Nat) (previous : Option Task)
    (ctx : DirContext) (k : Kernel) (hk : I k) : I (readdirLoop info tgid previous ctx k).2 := by
  induction tgid, previous, ctx, k using Kernel.readdirLoop.induct info with
  | case1 tgid previous ctx k h =>
    rw [readdirLoop_end h]
    exact R.previous previous hk
  | case2 tgid previous ctx k n task h k' hskip ih =>
    rw [readdirLoop_skip h hskip]
    exact ih (R.refs (R.previous previous hk) rfl rfl rfl rfl)
  | case3 tgid previous ctx k n task h k' hshow ctx' hfull =>
    rw [readdirLoop_full h hshow hfull]
    have hget : I k' := R.refs (R.previous previous hk) rfl rfl rfl rfl
    have hfill := R.fillCache task hget (by simpa using (not_or.mp hshow).2)
    exact R.refs hfill rfl rfl rfl rfl
  | case4 tgid previous ctx k n task h k' hshow ctx' k'' ctx'' hroom ih =>
    rw [readdirLoop_emit h hshow hroom]
    have hget : I k' := R.refs (R.previous previous hk) rfl rfl rfl rfl
    exact ih (R.fillCache task hget (by simpa using (not_or.mp hshow).2))

theorem readdir (R : CacheRule I) (info : ProcFsInfo) (ctx : DirContext) (hk : I k) :
    I (k.procPidReaddir info ctx).2 := by
  unfold procPidReaddir
  split
  · exact hk
  · split
    · exact hk
    · split
      · exact hk
      · exact R.readdirLoop info _ none _ k hk

end CacheRule

/-- The directory operations leave tasks and flag alone, and give no `struct pid`. -/
theorem sameTasks (k₀ : Kernel) : CacheRule (fun k =>
    k.tasks = k₀.tasks ∧ k.hiddenFlag = k₀.hiddenFlag ∧ k.fresh = k₀.fresh) where
  refs := by
    rintro k k' ⟨htasks, hflag, hfresh⟩ htasks' _ hflag' hfresh'
    exact ⟨htasks'.trans htasks, hflag'.trans hflag, hfresh'.trans hfresh⟩
  drop := fun _ hk => hk
  instantiate := by
    rintro k task ⟨htasks, hflag, hfresh⟩ _
    exact ⟨(procPidInstantiate_tasks task k).trans htasks,
      (procPidInstantiate_flag task k).trans hflag, (procPidInstantiate_fresh task k).trans hfresh⟩

/-! ## 7. What a listing emits -/

/-- `n` is the number of a process that the reader may see and that is not hidden. -/
def Shown (info : ProcFsInfo) (k : Kernel) (n : Nat) : Prop :=
  ∃ t ∈ k.tasks.list, t.isLeader = true ∧ t.pid = n ∧
    hasPidPermissions info t .invisible = true ∧ k.hidesTask t = false

theorem shown_congr {info : ProcFsInfo} {k k' : Kernel} (htasks : k'.tasks = k.tasks)
    (hflag : k'.hiddenFlag = k.hiddenFlag) (n : Nat) : Shown info k' n ↔ Shown info k n := by
  unfold Shown
  rw [htasks]
  simp only [hidesTask_congr hflag]

/-- `new` are the numbers shown from `p` up to `q`, in ascending order. -/
structure Emits (info : ProcFsInfo) (k : Kernel) (p q : Nat) (new : List Nat) : Prop where
  sorted : new.Pairwise (· < ·)
  mem_iff : ∀ n, n ∈ new ↔ p ≤ n ∧ n < q ∧ Shown info k n

namespace Emits

variable {info : ProcFsInfo} {k k' : Kernel} {p q n : Nat} {new : List Nat} {task : Task}

theorem congr (htasks : k'.tasks = k.tasks) (hflag : k'.hiddenFlag = k.hiddenFlag)
    (h : Emits info k' p q new) : Emits info k p q new where
  sorted := h.sorted
  mem_iff := fun n => by rw [h.mem_iff, shown_congr htasks hflag]

/-- Up to the next leader there is nothing to show. -/
theorem upTo (h : ∀ t ∈ k.tasks.list, t.isLeader = true → p ≤ t.pid → q ≤ t.pid) :
    Emits info k p q [] where
  sorted := List.Pairwise.nil
  mem_iff := by
    intro n
    constructor
    · intro hn
      cases hn
    · rintro ⟨hp, hq, t, ht, hlead, rfl, _⟩
      exact absurd (h t ht hlead hp) (Nat.not_le.mpr hq)

/-- A listing goes on where the previous one stopped. -/
theorem append {m : Nat} {new' : List Nat} (h : Emits info k p m new)
    (h' : Emits info k m q new') (hpm : p ≤ m) (hmq : m ≤ q) :
    Emits info k p q (new ++ new') where
  sorted := by
    refine List.pairwise_append.mpr ⟨h.sorted, h'.sorted, ?_⟩
    intro a ha b hb
    exact Nat.lt_of_lt_of_le ((h.mem_iff a).mp ha).2.1 ((h'.mem_iff b).mp hb).1
  mem_iff := by
    intro n
    rw [List.mem_append, h.mem_iff, h'.mem_iff]
    constructor
    · rintro (⟨h1, h2, h3⟩ | ⟨h1, h2, h3⟩)
      · exact ⟨h1, by omega, h3⟩
      · exact ⟨by omega, h2, h3⟩
    · rintro ⟨h1, h2, h3⟩
      rcases Nat.lt_or_ge n m with hn | hn
      · exact Or.inl ⟨h1, hn, h3⟩
      · exact Or.inr ⟨hn, h2, h3⟩

/-- The turn of a task that is shown. -/
theorem shown (h : Shown info k n) : Emits info k n (n + 1) [n] where
  sorted := List.pairwise_singleton _ _
  mem_iff := by
    intro m
    rw [List.mem_singleton]
    constructor
    · rintro rfl
      exact ⟨Nat.le_refl _, Nat.lt_succ_self _, h⟩
    · rintro ⟨h1, h2, _⟩
      omega

/-- The turn of a task that is not. -/
theorem hidden (h : ¬ Shown info k n) : Emits info k n (n + 1) [] where
  sorted := List.Pairwise.nil
  mem_iff := by
    intro m
    constructor
    · intro hm
      cases hm
    · rintro ⟨h1, h2, hm⟩
      have hmn : m = n := by omega
      exact absurd (hmn ▸ hm) h

end Emits

section Listing

variable {info : ProcFsInfo} {k : Kernel} {n tgid : Nat} {task : Task}

theorem shown_iff_of_leader (ht : task ∈ k.tasks.list) (hlead : task.isLeader = true) :
    Shown info k task.pid ↔
      hasPidPermissions info task .invisible = true ∧ k.hidesTask task = false := by
  constructor
  · rintro ⟨t, htmem, _, hpid, h⟩
    rw [k.tasks.eq_of_pid ht htmem hpid.symm]
    exact h
  · intro h
    exact ⟨task, ht, hlead, rfl, h⟩

/-- The result of a listing from the number `p` on: the position `q` where it stopped, and the
numbers it emitted. -/
structure Lists (info : ProcFsInfo) (k : Kernel) (p q : Nat) (new : List Nat)
    (ctx ctx' : DirContext) : Prop where
  pos : ctx'.pos = q + TGID_OFFSET
  from_le : p ≤ q
  le_limit : q ≤ PID_MAX_LIMIT
  emitted : ctx'.emitted = ctx.emitted ++ new.map Entry.process
  emits : Emits info k p q new
  complete : k.tasks.pidsFrom p ≤ ctx.room → q = PID_MAX_LIMIT

/-- **What the loop emits**: by induction on its turns. -/
theorem readdirLoop_lists (info : ProcFsInfo) (tgid : Nat) (previous : Option Task)
    (ctx : DirContext) (k : Kernel) (hlimit : tgid ≤ PID_MAX_LIMIT) :
    ∃ q new, Lists info k tgid q new ctx (readdirLoop info tgid previous ctx k).1 := by
  induction tgid, previous, ctx, k using Kernel.readdirLoop.induct info with
  | case1 tgid previous ctx k h =>
    rw [readdirLoop_end h]
    refine ⟨PID_MAX_LIMIT, [], rfl, hlimit, Nat.le_refl _, by simp, ?_, fun _ => rfl⟩
    refine Emits.upTo fun t ht hlead hge => ?_
    exact absurd ((k.tasks.findTgid_spec tgid).2 h t ht hlead) (Nat.not_lt.mpr hge)
  | case2 tgid previous ctx k n task h k' hskip ih =>
    rw [readdirLoop_skip h hskip]
    obtain ⟨ht, hlead, rfl, hge, hfirst⟩ := (k.tasks.findTgid_spec tgid).1 n task h
    have htasks : k'.tasks = k.tasks := putPrevious_tasks previous k
    have hflag : k'.hiddenFlag = k.hiddenFlag := (putPrevious_frame previous k).2.1
    obtain ⟨q, new, hlist⟩ := ih (k.tasks.small task ht)
    have hnot : ¬ Shown info k task.pid := by
      rw [shown_iff_of_leader ht hlead, ← hidesTask_congr hflag]
      rintro ⟨hperm, hvis⟩
      rcases hskip with hno | hhid
      · rw [hno] at hperm
        cases hperm
      · rw [hhid] at hvis
        cases hvis
    have htail := (Emits.upTo hfirst).append (Emits.hidden hnot) hge (Nat.le_succ _)
    have hrest := hlist.emits.congr htasks hflag
    refine ⟨q, new, hlist.pos, by have := hlist.from_le; omega, hlist.le_limit, hlist.emitted,
      htail.append hrest (by omega) hlist.from_le, ?_⟩
    intro hroom
    refine hlist.complete ?_
    have hlt := findTgid_lt h
    rw [htasks]
    omega
  | case3 tgid previous ctx k n task h k' hshow ctx' hfull =>
    rw [readdirLoop_full h hshow hfull]
    obtain ⟨ht, hlead, rfl, hge, hfirst⟩ := (k.tasks.findTgid_spec tgid).1 n task h
    refine ⟨task.pid, [], rfl, hge, Nat.le_of_lt (k.tasks.small task ht), by simp,
      Emits.upTo hfirst, ?_⟩
    intro hroom
    -- there is a number from `tgid` on, so room for it, and `dir_emit` had none
    have hlt := findTgid_lt h
    have hzero : ctx.room = 0 := by simpa [DirContext.dirEmit] using hfull
    omega
  | case4 tgid previous ctx k n task h k' hshow ctx' k'' ctx'' hroom ih =>
    rw [readdirLoop_emit h hshow hroom]
    obtain ⟨ht, hlead, rfl, hge, hfirst⟩ := (k.tasks.findTgid_spec tgid).1 n task h
    have htasks : k''.tasks = k.tasks :=
      (procFillCache_tasks task k').trans (putPrevious_tasks previous k)
    have hflag : k''.hiddenFlag = k.hiddenFlag :=
      ((sameTasks k').fillCache task ⟨rfl, rfl, rfl⟩ (by
        simpa using (not_or.mp hshow).2)).2.1.trans (putPrevious_frame previous k).2.1
    obtain ⟨q, new, hlist⟩ := ih (k.tasks.small task ht)
    have hvis : k.hidesTask task = k'.hidesTask task :=
      hidesTask_congr (putPrevious_frame previous k).2.1.symm task
    have hshown : Shown info k task.pid := by
      rw [shown_iff_of_leader ht hlead, hvis]
      simpa using hshow
    have htail := (Emits.upTo hfirst).append (Emits.shown hshown) hge (Nat.le_succ _)
    have hrest := hlist.emits.congr htasks hflag
    have hctx : ctx''.emitted = ctx.emitted ++ [.process task.pid] ∧ ctx''.room = ctx.room - 1 := by
      unfold DirContext.dirEmit at hroom
      split at hroom
      · cases hroom
      · cases hroom
        exact ⟨rfl, rfl⟩
    refine ⟨q, task.pid :: new, hlist.pos, by have := hlist.from_le; omega, hlist.le_limit, ?_,
      htail.append hrest (by omega) hlist.from_le, ?_⟩
    · rw [hlist.emitted, hctx.1, List.append_assoc, List.map_cons, List.singleton_append]
    · intro hall
      refine hlist.complete ?_
      have hlt := findTgid_lt h
      rw [htasks, hctx.2]
      omega

/-- **What a call of `proc_pid_readdir` emits** from a process position on. -/
theorem procPidReaddir_lists (info : ProcFsInfo) (k : Kernel) {p : Nat} {ctx : DirContext}
    (hpos : ctx.pos = p + TGID_OFFSET) (hlimit : p ≤ PID_MAX_LIMIT) :
    ∃ q new, Lists info k p q new ctx (k.procPidReaddir info ctx).1 := by
  unfold procPidReaddir
  rcases Nat.lt_or_eq_of_le hlimit with hlt | rfl
  · rw [if_neg (by omega), if_neg (by unfold TGID_OFFSET at *; omega)]
    dsimp only
    rw [if_neg (by unfold TGID_OFFSET at *; omega)]
    dsimp only
    have hsub : ctx.pos - TGID_OFFSET = p := by omega
    rw [hsub]
    exact readdirLoop_lists info p none ctx k hlimit
  · rw [if_pos (by omega)]
    refine ⟨PID_MAX_LIMIT, [], hpos, Nat.le_refl _, Nat.le_refl _, by simp, ?_, fun _ => rfl⟩
    exact Emits.upTo fun _ _ _ hge => hge

end Listing

end Kernel

end Osexp.Hide
