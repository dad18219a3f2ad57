/-
# Reaching a hidden process through `/proc`

Two laws about a process that is marked while the flag is 1, each with the steps that keep it.

* `hidden_by_name_iff`: its name does not resolve.  A cached entry would still be taken, and the one
  step that can meet such an entry is the write of 1 to the flag: `hide` and
  `hide_user_processes` drop the entries of what they mark, that write drops nothing.
* `hidden_group_iff`: the number of no thread of it is found by `proc_pid_lookup`, which tests the
  thread's own `cloak`.  The calls mark one thread, a new thread starts unmarked.

A listing that leaves a process out hides it from those who do not know its number.  The two laws
are about those who do: whether `/proc/<number>` can still be opened.  Both ways in are in the
kernel for good reasons, a cache that saves a lookup and threads that have numbers of their own, and
the patch does not close either of them completely.

Each law holds along a run as long as its steps satisfy a condition that speaks of the state before
the step, and is broken by the first step that does not.
-/
import Osexp.Hide.Agreement

namespace Osexp.Hide

open Kernel Lts

/-! ## 1. By its name -/

/-- While the flag is 1 the name of a marked process does not resolve, for any reader. -/
def HiddenByName (k : Kernel) : Prop :=
  k.hiddenFlag = 1 → ∀ t ∈ k.processes, t.cloaked = true →
    ∀ info, (k.resolve info (some t.pid)).1 = false

/-- No marked process has a cached entry. -/
def Uncached (k : Kernel) : Prop :=
  ∀ t ∈ k.processes, t.cloaked = true → ∀ d ∈ k.dcache, d.pid ≠ t.threadPid

section Name

variable {k : Kernel} {op : Op} {t : Task}

theorem cached_eq_some {n : Nat} {d : Dentry} (h : k.cached n = some d) :
    d ∈ k.dcache ∧ d.name = n := by
  have hname := List.find?_some h
  exact ⟨List.mem_of_find?_eq_some h, beq_iff_eq.mp hname⟩

theorem lookup_hidden (ht : t ∈ k.tasks.list) (hhid : k.hidesTask t = true) (info : ProcFsInfo) :
    (k.procPidLookup info (some t.pid)).1 = false := by
  have hget : (k.getTaskStruct t).hidesTask t = true := hhid
  simp only [procPidLookup, findTask_eq_some_iff.mpr ⟨ht, rfl⟩, if_pos hget]

/-- A hidden task is reached exactly through a cached entry of its own. -/
theorem resolve_hidden (ht : t ∈ k.tasks.list) (hhid : k.hidesTask t = true) (info : ProcFsInfo) :
    (k.resolve info (some t.pid)).1 = false ↔ ∀ d ∈ k.dcache, d.pid ≠ t.threadPid := by
  have hown : ∀ d ∈ k.dcache, d.pid = t.threadPid → d.name = t.pid :=
    fun d hd h => (k.named d hd t ht h.symm).symm
  rw [resolve, Option.bind_some]
  cases hcached : k.cached t.pid with
  | none =>
    refine iff_of_true (lookup_hidden ht hhid info) fun d hd h => ?_
    have hno := List.find?_eq_none.mp hcached d hd
    exact hno (beq_iff_eq.mpr (hown d hd h))
  | some d =>
    obtain ⟨hd, hname⟩ := cached_eq_some hcached
    dsimp only
    cases hval : pidRevalidate d k with
    | true =>
      obtain ⟨u, hu, hid⟩ := List.any_eq_true.mp hval
      have heq : u = t :=
        k.tasks.eq_of_pid hu ht ((k.named d hd u hu (beq_iff_eq.mp hid)).trans hname)
      refine iff_of_false (by simp) fun h => ?_
      exact h d hd ((beq_iff_eq.mp hid).symm.trans (congrArg Task.threadPid heq))
    | false =>
      have hstale := List.any_eq_false.mp hval t ht
      refine iff_of_true ?_ fun e he h => ?_
      · exact lookup_hidden (k := k.keepDentries (fun e => e.name != d.name)) ht hhid info
      · -- the entry of the name is the only one of that name
        have heq : e = d := List.inj_on_of_nodup_map k.names he hd ((hown e he h).trans hname.symm)
        exact hstale (beq_iff_eq.mpr (heq ▸ h.symm))

theorem hiddenByName_iff : HiddenByName k ↔ (k.hiddenFlag = 1 → Uncached k) := by
  refine imp_congr_right fun hflag => forall₃_congr fun t ht hcloak => ?_
  have hhid : k.hidesTask t = true := by
    rw [hidesTask, hflag]
    exact hcloak
  have hmem := (mem_processes.mp ht).1
  constructor
  · exact fun h => (resolve_hidden hmem hhid ⟨.off, false, fun _ => true⟩).mp (h _)
  · exact fun h info => (resolve_hidden hmem hhid info).mpr h

/-- The directory operations cache no hidden process. -/
theorem uncached_rule : CacheRule (fun k => k.hiddenFlag = 1 → Uncached k) where
  refs := by
    intro k k' hk htasks hdcache hflag _ hone t ht hcloak d hd
    rw [processes, htasks] at ht
    rw [hdcache] at hd
    exact hk (hflag.symm.trans hone) t ht hcloak d hd
  drop := fun p hk hone t ht hcloak d hd => hk hone t ht hcloak d (List.mem_of_mem_filter hd)
  instantiate := by
    intro k task hk hshow hone t ht hcloak d hd
    unfold procPidInstantiate at hone ht hd
    split at hd
    · rename_i hnew
      rw [dif_pos hnew] at hone ht
      rcases List.mem_cons.mp hd with rfl | hd
      · intro hid
        have heq := k.tasks.eq_of_threadPid hnew.1 (mem_processes.mp ht).1 hid
        rw [hidesTask, hone, heq] at hshow
        exact Bool.false_ne_true (hshow.symm.trans hcloak)
      · exact hk hone t ht hcloak d hd
    · rename_i hold
      rw [dif_neg hold] at hone ht
      exact hk hone t ht hcloak d hd

/-- The other operations leave no entry of a process that they mark. -/
theorem uncached_after (hop : op.onDirectory = false) (hk : Uncached k) :
    Uncached (op.after k) := by
  intro t ht hcloak d hd
  obtain ⟨hd, hask⟩ := Op.after_dcache hop hd
  obtain ⟨ht, hlead⟩ := mem_processes.mp ht
  rcases Op.mem_after.mp ht with ⟨u, hu, _, rfl⟩ | hborn
  · rw [Op.effect_threadPid]
    rw [Op.effect_isLeader] at hlead
    intro hid
    rw [Task.cloaked_iff, Op.effect_cloak] at hcloak
    have hno := hask u hu hid
    cases hu' : op.asks u with
    | none =>
      rw [hu', Option.getD_none] at hcloak
      exact hk u (mem_processes.mpr ⟨hu, hlead⟩) (Task.cloaked_iff.mpr hcloak) d hd hid
    | some v =>
      rw [hu', Option.getD_some] at hcloak
      exact hno (hu'.trans (congrArg some hcloak))
  · rw [Task.cloaked_iff, (Op.born_cloak hborn).1] at hcloak
    exact absurd hcloak (by decide)

end Name

/-- The step keeps marked processes out of reach: 1 is not written to the flag while a marked
process has a cached entry, unless the flag is 1 already. -/
def KeepsUncached (k : Kernel) (op : Op) : Prop :=
  op.written = some 1 → k.hiddenFlag = 1 ∨ Uncached k

theorem hiddenByName_after {k : Kernel} {op : Op} (hk : HiddenByName k) :
    HiddenByName (op.after k) ↔ KeepsUncached k op := by
  rw [hiddenByName_iff] at hk ⊢
  cases hwritten : op.written with
  | none =>
    refine iff_of_true ?_ (fun h => by rw [hwritten] at h; cases h)
    cases hop : op.onDirectory with
    | true =>
      cases op with
      | readdir info ctx => exact uncached_rule.readdir info ctx hk
      | resolve info name => exact uncached_rule.resolve info name hk
      | _ => cases hop
    | false =>
      rw [Op.after_flag, hwritten, Option.getD_none]
      exact fun hflag => uncached_after hop (hk hflag)
  | some v =>
    have hsame : Uncached (op.after k) ↔ Uncached k := by
      cases op with
      | writeHidden parsed => cases parsed <;> exact Iff.rfl
      | _ => cases hwritten
    rw [Op.after_flag, hwritten, Option.getD_some, hsame, KeepsUncached, hwritten, Option.some_inj]
    refine imp_congr_right fun _ => ?_
    rw [or_iff_right_of_imp hk]

/-- **The exact condition for marked processes to stay out of reach by name.** A listing that leaves
a process out is of little use when `/proc/<pid>` can still be opened.  Along a run from boot it
cannot, after every step, exactly when every step satisfies `KeepsUncached`: no entry of a marked
process is in the cache when the flag is set to 1. -/
theorem hidden_by_name_iff {k : Kernel} {w : Trail Kernel Op} (hboot : k.Booted)
    (hrun : Run Op.Step k w) : Always HiddenByName w ↔ StepsOk KeepsUncached k w := by
  have hinv : ∀ (s : Kernel) (op : Op) (t : Kernel), True → Op.Step s op t → True :=
    fun _ _ _ _ _ => trivial
  have hstart : HiddenByName k := by
    rw [hiddenByName_iff]
    intro _ t _ _ d hd
    rw [hboot.cold] at hd
    cases hd
  refine hrun.always_iff hinv ?_ trivial hstart
  rintro s op t _ hs rfl
  exact hiddenByName_after hs

/-- The flag goes to 0 and back to 1 while the hidden `init` is not looked up. -/
theorem hidden_by_name_switch :
    Always HiddenByName (Op.trail initial [.hide 0 1 1,
      .resolve ⟨.off, false, fun _ => true⟩ (some 1), .writeHidden (some 0),
      .writeHidden (some 1)]) := by
  refine (hidden_by_name_iff booted_initial (Op.run_trail _ _)).mpr
    ⟨by rintro ⟨⟩, by rintro ⟨⟩, by rintro ⟨⟩, fun _ => Or.inr ?_, trivial⟩
  have hcold : ∀ d ∈ (final initial (Op.trail initial [.hide 0 1 1,
    .resolve ⟨.off, false, fun _ => true⟩ (some 1), .writeHidden (some 0)])).dcache, False := by
    decide +kernel
  exact fun t _ _ d hd => (hcold d hd).elim

/-- It is looked up while the flag is 0, and the entry is still taken when the flag is 1 again. -/
theorem cached_name_reaches :
    Run Op.Step initial (Op.trail initial [.writeHidden (some 0), .hide 0 1 1,
        .resolve ⟨.off, false, fun _ => true⟩ (some 1), .writeHidden (some 1)]) ∧
      ¬ HiddenByName (final initial (Op.trail initial [.writeHidden (some 0), .hide 0 1 1,
        .resolve ⟨.off, false, fun _ => true⟩ (some 1), .writeHidden (some 1)])) := by
  refine ⟨Op.run_trail _ _, fun h => ?_⟩
  have hreach : ∃ t ∈ (final initial (Op.trail initial [.writeHidden (some 0), .hide 0 1 1,
      .resolve ⟨.off, false, fun _ => true⟩ (some 1), .writeHidden (some 1)])).processes,
      t.cloaked = true ∧ ((final initial (Op.trail initial [.writeHidden (some 0), .hide 0 1 1,
        .resolve ⟨.off, false, fun _ => true⟩ (some 1), .writeHidden (some 1)])).resolve
          ⟨.off, false, fun _ => true⟩ (some t.pid)).1 = true := by
    decide +kernel
  obtain ⟨t, ht, hcloak, hres⟩ := hreach
  exact Bool.false_ne_true ((h (by decide +kernel) t ht hcloak _).symm.trans hres)

/-! ## 2. Through its threads -/

/-- While the flag is 1 no thread of a marked process is found by its number, by any reader. -/
def HiddenGroup (k : Kernel) : Prop :=
  k.hiddenFlag = 1 → ∀ l ∈ k.processes, l.cloaked = true → ∀ t ∈ k.tasks.list, t.tgid = l.pid →
    ∀ info, (k.procPidLookup info (some t.pid)).1 = false

/-- All threads of a marked process are marked. -/
def Covered (k : Kernel) : Prop :=
  ∀ l ∈ k.processes, l.cloaked = true → ∀ t ∈ k.tasks.list, t.tgid = l.pid → t.cloaked = true

/-- The process of a thread is not marked. -/
def LeaderShown (k : Kernel) (t : Task) : Prop :=
  ∀ l ∈ k.processes, l.pid = t.tgid → l.cloaked = false

/-- The step keeps the threads of marked processes marked. -/
structure KeepsCovered (k : Kernel) (op : Op) : Prop where
  /-- 1 is written to the flag when they are -/
  flag : op.written = some 1 → k.hiddenFlag = 1 ∨ Covered k
  /-- a process that is hidden has no other thread that is not -/
  hides : k.hiddenFlag = 1 → ∀ l ∈ k.processes, op.asks l = some 1 →
    ∀ t ∈ k.tasks.list, t.tgid = l.pid → t ≠ l → t.cloaked = true
  /-- a thread is shown only when its process is -/
  shows : k.hiddenFlag = 1 → ∀ t ∈ k.tasks.list, t.isLeader = false →
    ∀ v, op.asks t = some v → v = 1 ∨ LeaderShown k t
  /-- a thread is created only in a process that is shown -/
  clones : k.hiddenFlag = 1 → ∀ t ∈ op.born k, t.isLeader = false → LeaderShown k t

section Group

variable {k : Kernel} {op : Op} {l t u : Task} {v : BitVec 32}

theorem lookup_hidden_iff (hflag : k.hiddenFlag = 1) (ht : t ∈ k.tasks.list) :
    (∀ info, (k.procPidLookup info (some t.pid)).1 = false) ↔ t.cloaked = true := by
  constructor
  · intro h
    have hoff := h ⟨.off, false, fun _ => true⟩
    by_contra hshow
    have hvis : ¬ (k.getTaskStruct t).hidesTask t = true := by
      rw [hidesTask, Bool.and_eq_true]
      exact fun hboth => hshow hboth.2
    simp [procPidLookup, findTask_eq_some_iff.mpr ⟨ht, rfl⟩, hvis] at hoff
  · intro hcloak info
    refine lookup_hidden ht ?_ info
    rw [hidesTask, hflag]
    exact hcloak

theorem hiddenGroup_iff : HiddenGroup k ↔ (k.hiddenFlag = 1 → Covered k) :=
  imp_congr_right fun hflag => forall₃_congr fun _ _ _ =>
    forall₃_congr fun _ ht _ => lookup_hidden_iff hflag ht

/-- A call that asks for a thread asks for no other task of its group. -/
theorem asks_group (ht : t ∈ k.tasks.list) (hu : u ∈ k.tasks.list) (hgroup : u.tgid = t.tgid)
    (hne : u ≠ t) (h : op.asks t = some v) : op.asks u = none := by
  have hpid : u.pid ≠ t.pid := fun heq => hne (k.tasks.eq_of_pid hu ht heq)
  cases op with
  | hide caller pid on =>
    simp only [Op.asks, Option.ite_none_right_eq_some, Option.some.injEq] at h
    exact if_neg (by omega)
  | hideUserProcesses caller uid binname recover =>
    simp only [Op.asks] at h ⊢
    split at h
    · rename_i hcall
      -- `t` is the leader, so `u` is not
      have hlead := Task.isLeader_iff.mp hcall.2
      refine if_neg fun hcall' => hpid ?_
      rw [Task.isLeader_iff.mp hcall'.2, hgroup, hlead]
    · cases h
  | _ => cases h

theorem effect_cloaked_of_none (h : op.asks t = none) : (op.effect t).cloaked = t.cloaked := by
  rw [Task.cloaked, Op.effect_cloak, h, Option.getD_none, Task.cloaked]

theorem effect_cloaked_of_some (h : op.asks t = some v) :
    (op.effect t).cloaked = true ↔ v = 1 := by
  rw [Task.cloaked_iff, Op.effect_cloak, h, Option.getD_some]

/-- The thread that is born is not marked, and no process has its number. -/
theorem born_thread (h : t ∈ op.born k) :
    t.cloaked = false ∧ (∀ u ∈ k.tasks.list, u.pid ≠ t.pid) ∧
      ∀ u, op.keeps k u = true ∧ op.asks u = none := by
  have hcloak : t.cloaked = false := by
    rw [Task.cloaked, (Op.born_cloak h).1]
    decide
  obtain ⟨parent, thread, pid, p, rfl, _, hfree, rfl⟩ := Op.mem_born.mp h
  exact ⟨hcloak, hfree.2, fun _ => ⟨rfl, rfl⟩⟩

/-- What a step needs to keep the threads covered. -/
theorem keepsCovered_of_after (hwritten : op.written = none) (h : Covered (op.after k)) :
    KeepsCovered k op where
  flag := fun hone => by
    rw [hwritten] at hone
    cases hone
  hides := by
    intro _ l hl hask t ht hgroup hne
    obtain ⟨_, hkeeps⟩ := written_of_asks (k := k) hask
    obtain ⟨hl, hlead⟩ := mem_processes.mp hl
    have hl' : op.effect l ∈ (op.after k).processes :=
      mem_processes.mpr ⟨Op.mem_after.mpr (Or.inl ⟨l, hl, hkeeps l, rfl⟩),
        Op.effect_isLeader.trans hlead⟩
    have ht' : op.effect t ∈ (op.after k).tasks.list :=
      Op.mem_after.mpr (Or.inl ⟨t, ht, hkeeps t, rfl⟩)
    have hcov := h _ hl' ((effect_cloaked_of_some hask).mpr rfl) _ ht' (by simpa using hgroup)
    have hnone := asks_group hl ht (hgroup.trans (Task.isLeader_iff.mp hlead)) hne hask
    rwa [effect_cloaked_of_none hnone] at hcov
  shows := by
    intro _ t ht hthread v hask
    refine or_iff_not_imp_left.mpr fun hv l hl hpid => ?_
    obtain ⟨_, hkeeps⟩ := written_of_asks (k := k) hask
    obtain ⟨hl, hlead⟩ := mem_processes.mp hl
    have hne : l ≠ t := by
      rintro rfl
      rw [hlead] at hthread
      cases hthread
    have hnone := asks_group ht hl ((Task.isLeader_iff.mp hlead).symm.trans hpid) hne hask
    by_contra hcloak
    have hl' : op.effect l ∈ (op.after k).processes :=
      mem_processes.mpr ⟨Op.mem_after.mpr (Or.inl ⟨l, hl, hkeeps l, rfl⟩),
        Op.effect_isLeader.trans hlead⟩
    have ht' : op.effect t ∈ (op.after k).tasks.list :=
      Op.mem_after.mpr (Or.inl ⟨t, ht, hkeeps t, rfl⟩)
    have hcov := h _ hl' ((effect_cloaked_of_none hnone).trans (by simpa using hcloak)) _ ht'
      (by simpa using hpid.symm)
    exact hv ((effect_cloaked_of_some hask).mp hcov)
  clones := by
    intro _ t ht _ l hl hpid
    obtain ⟨hshown, _, hframe⟩ := born_thread ht
    obtain ⟨hl, hlead⟩ := mem_processes.mp hl
    by_contra hcloak
    have hl' : op.effect l ∈ (op.after k).processes :=
      mem_processes.mpr ⟨Op.mem_after.mpr (Or.inl ⟨l, hl, (hframe l).1, rfl⟩),
        Op.effect_isLeader.trans hlead⟩
    have hcov := h _ hl' ((effect_cloaked_of_none (hframe l).2).trans (by simpa using hcloak)) t
      (Op.mem_after.mpr (Or.inr ht)) (by simpa using hpid.symm)
    rw [hshown] at hcov
    cases hcov

/-- And that is enough: by cases on where the process and the thread of the new state come from. -/
theorem covered_after (hflag : k.hiddenFlag = 1) (hk : Covered k) (hok : KeepsCovered k op) :
    Covered (op.after k) := by
  intro l' hl' hcloak t' ht' hgroup
  obtain ⟨hl', hlead⟩ := mem_processes.mp hl'
  rcases Op.mem_after.mp hl' with ⟨l, hl, _, rfl⟩ | hborn
  · rw [Op.effect_isLeader] at hlead
    rw [Op.effect_pid] at hgroup
    have hlmem : l ∈ k.processes := mem_processes.mpr ⟨hl, hlead⟩
    have hltgid : l.pid = l.tgid := Task.isLeader_iff.mp hlead
    rcases Op.mem_after.mp ht' with ⟨t, ht, _, rfl⟩ | hborn
    · rw [Op.effect_tgid] at hgroup
      rcases eq_or_ne t l with rfl | hne
      · exact hcloak
      cases hask : op.asks l with
      | some v =>
        have hv := (effect_cloaked_of_some hask).mp hcloak
        rw [effect_cloaked_of_none (asks_group hl ht (hgroup.trans hltgid) hne hask)]
        exact hok.hides hflag l hlmem (hask.trans (congrArg some hv)) t ht hgroup hne
      | none =>
        rw [effect_cloaked_of_none hask] at hcloak
        cases hthread : op.asks t with
        | none =>
          rw [effect_cloaked_of_none hthread]
          exact hk l hlmem hcloak t ht hgroup
        | some v =>
          have hnot : t.isLeader = false := by
            refine Bool.eq_false_iff.mpr fun htlead => hne ?_
            exact k.tasks.eq_of_pid ht hl ((Task.isLeader_iff.mp htlead).trans hgroup)
          rcases hok.shows hflag t ht hnot v hthread with hv | hshown
          · exact (effect_cloaked_of_some hthread).mpr hv
          · rw [hshown l hlmem hgroup.symm] at hcloak
            cases hcloak
    · obtain ⟨_, hfree, hframe⟩ := born_thread hborn
      have hnot : t'.isLeader = false := by
        refine Bool.eq_false_iff.mpr fun htlead => hfree l hl ?_
        rw [Task.isLeader_iff.mp htlead, hgroup]
      rw [effect_cloaked_of_none (hframe l).2,
        hok.clones hflag t' hborn hnot l hlmem hgroup.symm] at hcloak
      cases hcloak
  · rw [(born_thread hborn).1] at hcloak
    cases hcloak

theorem hiddenGroup_after (hk : HiddenGroup k) :
    HiddenGroup (op.after k) ↔ KeepsCovered k op := by
  rw [hiddenGroup_iff] at hk ⊢
  cases hwritten : op.written with
  | none =>
    rw [Op.after_flag, hwritten, Option.getD_none]
    constructor
    · intro h
      by_cases hflag : k.hiddenFlag = 1
      · exact keepsCovered_of_after hwritten (h hflag)
      · refine ⟨?_, fun hone => absurd hone hflag, fun hone => absurd hone hflag,
          fun hone => absurd hone hflag⟩
        rw [hwritten]
        rintro ⟨⟩
    · exact fun hok hflag => covered_after hflag (hk hflag) hok
  | some v =>
    have hwrite : (Covered (op.after k) ↔ Covered k) ∧ (∀ t, op.asks t = none) ∧
        op.born k = [] := by
      cases op with
      | writeHidden parsed => cases parsed <;> exact ⟨Iff.rfl, fun _ => rfl, rfl⟩
      | _ => cases hwritten
    obtain ⟨hsame, hasks, hborn⟩ := hwrite
    rw [Op.after_flag, hwritten, Option.getD_some, hsame]
    constructor
    · intro h
      refine ⟨fun hone => Or.inr ?_, ?_, ?_, ?_⟩
      · rw [hwritten] at hone
        exact h (Option.some.inj hone)
      · intro _ l _ hask
        rw [hasks] at hask
        cases hask
      · intro _ t _ _ u hask
        rw [hasks] at hask
        cases hask
      · intro _ t ht
        rw [hborn] at ht
        cases ht
    · rintro hok rfl
      exact (hok.flag hwritten).elim hk id

end Group

/-- **The exact condition for hiding to cover whole groups.** A process is hidden by its leader, and
each of its threads has a number of its own under which `/proc` can be asked for it.  The calls mark
the leader only.  So the group is out of reach exactly along the runs whose steps satisfy
`KeepsCovered`, which speaks of the threads at the time of the marking and of those that are started
later. -/
theorem hidden_group_iff {k : Kernel} {w : Trail Kernel Op} (hboot : k.Booted)
    (hrun : Run Op.Step k w) : Always HiddenGroup w ↔ StepsOk KeepsCovered k w := by
  have hinv : ∀ (s : Kernel) (op : Op) (t : Kernel), True → Op.Step s op t → True :=
    fun _ _ _ _ _ => trivial
  have hstart : HiddenGroup k := by
    rw [hiddenGroup_iff]
    intro _ l hl hcloak
    rw [Task.cloaked_iff, hboot.visible l (mem_processes.mp hl).1] at hcloak
    exact absurd hcloak (by decide)
  refine hrun.always_iff hinv ?_ trivial hstart
  rintro s op t _ hs rfl
  exact hiddenGroup_after hs

/-- First the thread of `init` is hidden and then `init`. -/
theorem hidden_group_threads :
    Always HiddenGroup (Op.trail initial [.copyProcess 1 true 2, .hide 0 2 1, .hide 0 1 1]) := by
  have hone : ∀ {pid : Int} {t : Task} {v : BitVec 32},
      (Op.hide 0 pid 1).asks t = some v → v = 1 := by
    intro pid t v h
    simp only [Op.asks, Option.ite_none_right_eq_some, Option.some.injEq] at h
    exact h.2.symm
  refine (hidden_group_iff booted_initial (Op.run_trail _ _)).mpr ⟨?_, ?_, ?_, trivial⟩
  · refine ⟨by rintro ⟨⟩, fun _ _ _ h => (by cases h), fun _ _ _ _ _ h => (by cases h),
      fun _ => ?_⟩
    unfold LeaderShown
    decide +kernel
  · exact ⟨by rintro ⟨⟩, fun _ => by decide +kernel, fun _ _ _ _ _ h => Or.inl (hone h),
      fun _ _ h => (by cases h)⟩
  · exact ⟨by rintro ⟨⟩, fun _ => by decide +kernel, fun _ _ _ _ _ h => Or.inl (hone h),
      fun _ _ h => (by cases h)⟩

/-- Process 2 has a second thread 3.  Root hides 2, and 3 is still found. -/
theorem thread_number_reaches :
    Run Op.Step initial
        (Op.trail initial [.copyProcess 1 false 2, .copyProcess 2 true 3, .hide 0 2 1]) ∧
      ¬ HiddenGroup (final initial
        (Op.trail initial [.copyProcess 1 false 2, .copyProcess 2 true 3, .hide 0 2 1])) := by
  refine ⟨Op.run_trail _ _, fun h => ?_⟩
  have hreach : ∃ l ∈ (final initial (Op.trail initial [.copyProcess 1 false 2,
      .copyProcess 2 true 3, .hide 0 2 1])).processes, l.cloaked = true ∧
      ∃ t ∈ (final initial (Op.trail initial [.copyProcess 1 false 2,
        .copyProcess 2 true 3, .hide 0 2 1])).tasks.list, t.tgid = l.pid ∧
        ((final initial (Op.trail initial [.copyProcess 1 false 2, .copyProcess 2 true 3,
          .hide 0 2 1])).procPidLookup ⟨.off, false, fun _ => true⟩ (some t.pid)).1 = true := by
    decide +kernel
  obtain ⟨l, hl, hcloak, t, ht, hgroup, hfound⟩ := hreach
  exact Bool.false_ne_true ((h (by decide +kernel) l hl hcloak t ht hgroup _).symm.trans hfound)

end Osexp.Hide
