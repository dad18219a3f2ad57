/-
# The operations that tell

* `Absent.told`: an operation that tells is found out, by its answer or by the next lookup.
* `hidden_as_absent_iff`: so a run gets the answers of the kernel without the hidden tasks exactly
  as long as none of its operations tells.
* `hides_after_hide`: root hides a process of one thread, and the theorem speaks of it.

The converse of the simulation in `Osexp.Hide.Absence`.  That a run without telling operations is
answered alike leaves open whether the list of these operations is too long.  It is not: each of
them is found out at once, by its own answer, or by looking up the number of a hidden task next, in
the same kernel.

So the theorem is an exact condition on runs, for hidden tasks that make up whole groups and are not
cached; `Hides` says what that means, and it is what a call of `hide` leaves for a process of one
thread that nobody has looked up.
-/
import Osexp.Hide.Absence

namespace Osexp.Hide

/-! ## 1. Telling the kernels apart -/

namespace Op

variable {H : Nat → Bool} {k k' : Kernel} {op : Op}

theorem stepsOk_trail_of_all {P : Kernel → Op → Prop} {more : List Op}
    (h : ∀ k, ∀ op ∈ more, P k op) (k : Kernel) : Lts.StepsOk P k (trail k more) := by
  induction more generalizing k with
  | nil => trivial
  | cons op more ih =>
    exact ⟨h k op List.mem_cons_self, ih (fun k' o ho => h k' o (List.mem_cons_of_mem _ ho)) _⟩

/-- Part of a run, and more steps that are fine anywhere. -/
theorem stepsOk_trail_take {P : Kernel → Op → Prop} {ops more : List Op} {k : Kernel}
    (hops : Lts.StepsOk P k (trail k ops)) (hmore : ∀ k, ∀ op ∈ more, P k op) (n : Nat) :
    Lts.StepsOk P k (trail k (ops.take n ++ more)) := by
  induction ops generalizing k n with
  | nil =>
    rw [List.take_nil]
    exact stepsOk_trail_of_all hmore k
  | cons op ops ih =>
    cases n with
    | zero => exact stepsOk_trail_of_all hmore k
    | succ n => exact ⟨hops.1, ih hops.2 n⟩

/-- Kernels that go side by side answer the same. -/
theorem answers_of_sideBySide {ops : List Op} {w : Lts.Trail Kernel Op}
    (h : Lts.SideBySide id (fun k op k' _ => op.answer k' = op.answer k) k (trail k ops) k' w)
    (hw : Lts.Run Step k' w) : answers k' ops = answers k ops := by
  induction ops generalizing k k' w with
  | nil => rfl
  | cons op ops ih =>
    cases h with
    | cons hanswer hside =>
      cases hw with
      | cons hstep hrun =>
        cases hstep
        exact congrArg₂ List.cons hanswer (ih hside hrun)

theorem not_tells_of_onDirectory (hdir : op.onDirectory = true) (k : Kernel) :
    ¬ op.Tells H k := by
  intro htells
  cases op with
  | readdir info ctx => exact htells
  | resolve info name => exact htells
  | _ => cases hdir

end Op

namespace Kernel

variable {k : Kernel} {info : ProcFsInfo} {n : Nat} {t : Task}

/-- A task that is not hidden is found under its number. -/
theorem resolve_found (hn : k.findTask n = some t) (hshown : k.hidesTask t = false)
    (hoff : info.hidePid = .off) : (k.resolve info (some n)).1 = true := by
  have hlookup : ∀ p, ((k.keepDentries p).procPidLookup info (some n)).1 = true := by
    intro p
    have hn' : (k.keepDentries p).findTask n = some t := hn
    have hshown' : ((k.keepDentries p).getTaskStruct t).hidesTask t = false := hshown
    unfold procPidLookup
    dsimp only
    rw [hn']
    dsimp only
    rw [hshown', hoff]
    rfl
  have hall : k.keepDentries (fun _ => true) = k := by
    have hdcache : k.dcache.filter (fun _ => true) = k.dcache := List.filter_true _
    unfold keepDentries
    congr 1
  unfold resolve
  split
  · rw [← hall]
    exact hlookup _
  · split
    · rfl
    · exact hlookup _

/-- A number that no task has is not found. -/
theorem resolve_not_found (hn : k.findTask n = none) : (k.resolve info (some n)).1 = false := by
  have hlookup : ∀ k' : Kernel, k'.findTask n = none →
      (k'.procPidLookup info (some n)).1 = false := by
    intro k' hn'
    unfold procPidLookup
    dsimp only
    rw [hn']
  unfold resolve
  split
  · exact hlookup k hn
  · rename_i d hd
    have hd : k.cached n = some d := hd
    have hname : d.name = n := by
      have hp := List.find?_some hd
      exact beq_iff_eq.mp hp
    have hstale : pidRevalidate d k = false := by
      refine List.any_eq_false.mpr fun t ht htrue => ?_
      have hpid := k.named d (List.mem_of_find?_eq_some hd) t ht (beq_iff_eq.mp htrue)
      exact findTask_eq_none_iff.mp hn t ht (hpid.trans hname)
    rw [hstale]
    exact hlookup _ hn

end Kernel

/-- A reader that may see everything. -/
def openProc : ProcFsInfo := ⟨.off, false, fun _ => true⟩

namespace Absent

variable {H : Nat → Bool} {k k' : Kernel} {op : Op} {t : Task}

/-- A hidden task that has come into sight is found in the one and not in the other. -/
theorem sighted (h : Absent H k k') (ht : k.Lives H t) {k₁ k₁' : Kernel}
    (hk₁ : ∃ u, k₁.findTask t.pid = some u ∧ k₁.hidesTask u = false)
    (hk₁' : k₁'.tasks.list.map Task.pid = k'.tasks.list.map Task.pid) :
    (Op.resolve openProc (some t.pid)).answer k₁' ≠
      (Op.resolve openProc (some t.pid)).answer k₁ := by
  obtain ⟨u, hu, hshown⟩ := hk₁
  have hsome := Kernel.findTask_eq_some_iff.mpr ⟨ht.1, rfl⟩
  have hnone : k₁'.findTask t.pid = none := by
    refine Kernel.findTask_eq_none_iff.mpr fun v hv hpid => ?_
    have hmem : v.pid ∈ k'.tasks.list.map Task.pid := hk₁' ▸ List.mem_map_of_mem hv
    obtain ⟨x, hx, hxpid⟩ := List.mem_map.mp hmem
    exact Kernel.findTask_eq_none_iff.mp (h.findTask_hidden hsome ht.2) x hx (hxpid.trans hpid)
  rw [Op.answer, Op.answer, Kernel.resolve_not_found hnone, Kernel.resolve_found hu hshown rfl]
  intro heq
  cases heq

/-- **An operation that tells is found out**, by its answer or by the next lookup.  That is why the
list of the operations that tell cannot be shorter. -/
theorem told (h : Absent H k k') (hop : op.Tells H k) :
    ∃ more : List Op, (∀ o ∈ more, o.onDirectory = true) ∧
      Op.answers k' (op :: more) ≠ Op.answers k (op :: more) := by
  have hhead : op.answer k' ≠ op.answer k → ∃ more : List Op,
      (∀ o ∈ more, o.onDirectory = true) ∧
        Op.answers k' (op :: more) ≠ Op.answers k (op :: more) :=
    fun hne => ⟨[], by simp, fun heq => hne (List.cons.inj heq).1⟩
  have hnext : ∀ o : Op, o.onDirectory = true → o.answer (op.after k') ≠ o.answer (op.after k) →
      ∃ more : List Op, (∀ o ∈ more, o.onDirectory = true) ∧
        Op.answers k' (op :: more) ≠ Op.answers k (op :: more) := by
    intro o ho hne
    refine ⟨[o], by simpa using ho, fun heq => ?_⟩
    exact hne (List.cons.inj (List.cons.inj heq).2).1
  cases op with
  | hide caller pid on =>
    obtain ⟨hroot, hpos, t, ht, hpid⟩ := hop
    have hnum : pid.toNat = t.pid := by omega
    have hsome := Kernel.findTask_eq_some_iff.mpr ⟨ht.1, rfl⟩
    refine hhead ?_
    rw [Op.answer, Op.answer, Kernel.hide, Kernel.hide, if_pos ⟨hpos, hroot⟩, if_pos ⟨hpos, hroot⟩,
      hnum, hsome, h.findTask_hidden hsome ht.2]
    intro heq
    cases heq
  | hideUserProcesses caller uid binname recover =>
    obtain ⟨hroot, hrec, t, ht⟩ := hop
    -- the leader of a hidden group comes into sight
    obtain ⟨l, hl, hlead, hpid⟩ := k.tasks.grouped t ht.1
    have hgroup : l.tgid = t.tgid := (Task.isLeader_iff.mp hlead).symm.trans hpid
    have hlives : k.Lives H l := ⟨hl, (h.hides.groups l hl t ht.1 hgroup).trans ht.2⟩
    have hafter : ∀ k₀ : Kernel, (Op.hideUserProcesses caller uid binname recover).after k₀ =
        k₀.setCloak Task.isLeader 0 := by
      intro k₀
      simp only [Op.after, Kernel.hideUserProcesses]
      rw [if_neg (not_not.mpr hroot), if_neg hrec]
    refine hnext (.resolve openProc (some l.pid)) rfl (h.sighted hlives ?_ ?_)
    · have hmark : l.mark Task.isLeader 0 = { l with cloak := 0 } := if_pos hlead
      refine ⟨{ l with cloak := 0 }, Kernel.findTask_eq_some_iff.mpr ⟨?_, rfl⟩, ?_⟩
      · rw [hafter, ← hmark]
        exact List.mem_map_of_mem hl
      · rw [Kernel.hidesTask]
        exact Bool.and_false _
    · rw [hafter, Kernel.setCloak, Kernel.updateTasks_list, List.map_map]
      exact List.map_congr_left fun u _ => Task.mark_pid _ _ u
  | writeHidden parsed =>
    obtain ⟨v, rfl, hv, t, ht⟩ := hop
    refine hnext (.resolve openProc (some t.pid)) rfl (h.sighted ht ⟨t, ?_, ?_⟩ rfl)
    · exact Kernel.findTask_eq_some_iff.mpr ⟨ht.1, rfl⟩
    · have hflag : (v == 1) = false := beq_false_of_ne hv
      change (v == 1 && t.cloak == 1) = false
      rw [hflag, Bool.false_and]
  | copyProcess parent thread pid =>
    obtain ⟨p, hmem, rfl, ⟨hH, hfree⟩ | ⟨hH, hpos, t, ht, rfl⟩⟩ := hop
    · have hsome := Kernel.findTask_eq_some_iff.mpr ⟨hmem, rfl⟩
      refine hhead ?_
      rw [Op.answer, Op.answer, Op.isSome_copyProcess, Op.isSome_copyProcess]
      simp only [Op.born, hsome, h.findTask_hidden hsome hH, if_pos hfree]
      intro heq
      cases heq
    · have hsome := Kernel.findTask_eq_some_iff.mpr ⟨hmem, rfl⟩
      have hbusy : ¬ k.FreeNumber t.pid := fun hfree => hfree.2 t ht.1 rfl
      have hfree : k'.FreeNumber t.pid := by
        refine ⟨⟨hpos, k.tasks.small t ht.1⟩, fun u hu hpid => ?_⟩
        obtain ⟨hu, hHu⟩ := h.mem_iff.mp hu
        rw [k.tasks.eq_of_pid hu ht.1 hpid, ht.2] at hHu
        cases hHu
      refine hhead ?_
      rw [Op.answer, Op.answer, Op.isSome_copyProcess, Op.isSome_copyProcess]
      simp only [Op.born, hsome, h.findTask_shown hsome hH, if_pos hfree, if_neg hbusy]
      intro heq
      cases heq
  | _ => exact absurd hop not_false

/-- **Kernels that answer the same have made no operation that tells**, by induction on it. -/
theorem stepsOk_of_answers (ops : List Op) : ∀ {k k' : Kernel}, Absent H k k' →
    (∀ (n : Nat) (more : List Op), (∀ o ∈ more, o.onDirectory = true) →
      Op.answers k' (ops.take n ++ more) = Op.answers k (ops.take n ++ more)) →
    Lts.StepsOk (fun k op => ¬ op.Tells H k) k (Op.trail k ops) := by
  induction ops with
  | nil => exact fun _ _ => trivial
  | cons op ops ih =>
    intro k k' h hsame
    have hop : ¬ op.Tells H k := by
      intro htells
      obtain ⟨more, hmore, hne⟩ := h.told htells
      exact hne (hsame 1 more hmore)
    refine ⟨hop, ih (h.step hop).2 fun n more hmore => ?_⟩
    have heq := hsame (n + 1) more hmore
    rw [List.take_succ_cons] at heq
    exact (List.cons.inj heq).2

end Absent

/-- **A hidden process is as good as absent exactly as long as nothing tells.**  Whatever is listed
or looked up after any part of a run, all answers are those of the kernel without the hidden tasks
if and only if no operation of the run tells. -/
theorem hidden_as_absent_iff {H : Nat → Bool} {k : Kernel} (h : Hides H k) (ops : List Op) :
    (∀ (n : Nat) (more : List Op), (∀ op ∈ more, op.onDirectory = true) →
      Op.answers (k.without H h) (ops.take n ++ more) = Op.answers k (ops.take n ++ more)) ↔
    Lts.StepsOk (fun k op => ¬ op.Tells H k) k (Op.trail k ops) := by
  have habsent := Kernel.without_absent h
  constructor
  · exact habsent.stepsOk_of_answers ops
  · intro hok n more hmore
    have hall := Op.stepsOk_trail_take hok
      (fun k op hop => Op.not_tells_of_onDirectory (hmore op hop) k) n
    obtain ⟨w, hrun, hside, _⟩ := (absent_simulates H).run (Op.run_trail k _) habsent hall
    exact Op.answers_of_sideBySide hside hrun

/-! ## 2. A process that root hides -/

/-- Root hides a process of one thread: that is such a set. -/
theorem hides_after_hide {k : Kernel} {t : Task} (ht : t ∈ k.tasks.list) (hpos : 0 < t.pid)
    (hflag : k.hiddenFlag = 1) (halone : ∀ u ∈ k.tasks.list, u.tgid = t.tgid → u = t) :
    Hides (· == t.threadPid) ((Op.hide 0 t.pid 1).after k) where
  hidden := by
    intro v hv hid
    have hwritten : (Op.hide 0 t.pid 1).written = none := rfl
    rw [Kernel.hidesTask, Op.after_flag, hwritten, Option.getD_none, hflag]
    rcases Op.mem_after.mp hv with ⟨u, hu, _, rfl⟩ | hborn
    · rw [Op.effect_threadPid, beq_iff_eq] at hid
      rw [k.tasks.eq_of_threadPid hu ht hid, Op.effect_cloak, Op.asks,
        if_pos ⟨rfl, by omega, rfl⟩]
      rfl
    · cases hborn
  groups := by
    intro v hv x hx hgroup
    rcases Op.mem_after.mp hv with ⟨u, hu, _, rfl⟩ | hborn
    · rcases Op.mem_after.mp hx with ⟨y, hy, _, rfl⟩ | hborn
      · rw [Op.effect_tgid, Op.effect_tgid] at hgroup
        rw [Op.effect_threadPid, Op.effect_threadPid, Bool.eq_iff_iff, beq_iff_eq, beq_iff_eq]
        -- whoever is in the group of `t` is `t`
        constructor
        · intro hid
          rw [k.tasks.eq_of_threadPid hu ht hid] at hgroup
          rw [halone y hy hgroup.symm]
        · intro hid
          rw [k.tasks.eq_of_threadPid hy ht hid] at hgroup
          rw [halone u hu hgroup]
      · cases hborn
    · cases hborn
  uncached := by
    intro d hd
    rw [← Bool.not_eq_true, beq_iff_eq]
    intro hpid
    refine (Op.after_dcache rfl hd).2 t ht hpid ?_
    rw [Op.asks, if_pos ⟨rfl, by omega, rfl⟩]
  given := by
    intro n hn
    rw [beq_iff_eq.mp hn]
    exact Nat.lt_of_lt_of_le (k.fresh_tasks t ht) (Op.fresh_le_after _ k)

/-- Process 7 of `init`. -/
def seven : Task := (Kernel.initial.tasks.list.head (List.cons_ne_nil _ _)).copy false 7 1

/-- `init` has started it, and root has hidden it. -/
def sevenHidden : Kernel :=
  (Op.hide 0 seven.pid 1).after ((Op.copyProcess 1 false 7).after Kernel.initial)

theorem sevenHidden_hides : Hides (· == seven.threadPid) sevenHidden :=
  hides_after_hide (by decide) (by decide) rfl (by decide)

/-- It changes its name while `/proc` is listed, and then it is looked up. -/
theorem hidden_as_absent_iff_seven :
    Op.answers (sevenHidden.without (· == seven.threadPid) sevenHidden_hides)
        [.setTaskComm 7 "x".toList, .readdir openProc ⟨TGID_OFFSET, 9, []⟩,
          .resolve openProc (some 7)] =
      Op.answers sevenHidden
        [.setTaskComm 7 "x".toList, .readdir openProc ⟨TGID_OFFSET, 9, []⟩,
          .resolve openProc (some 7)] :=
  (hidden_as_absent_iff sevenHidden_hides
    [.setTaskComm 7 "x".toList, .readdir openProc ⟨TGID_OFFSET, 9, []⟩]).mpr
    ⟨not_false, not_false, trivial⟩ 2 [.resolve openProc (some 7)] (by decide)

end Osexp.Hide
