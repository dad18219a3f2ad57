/-
# Requests in any order

The requests are the two system calls and the writes to `/proc/hide`.  Each one is taken as a whole
here, so requests that are made at the same time take effect in some order.  Which one it is
matters exactly when two of them ask different values for one live task, or write different values
to the flag (`requests_order_iff`); the answers are the same in any order.

`request_after` says for a request at once what it does to every part of the kernel, and that what
it does depends on the table only through what no request changes.

`hide_user_processes_as_hides`: the loop of `hide_user_processes` is one `hide` for each process
that it is asked for, in any order.

Two requests may do different things to one task, and yet be in no conflict: one marks it and the
other drops its entries, or both mark it with one value.  `Compatible` is the relation that is left
when everything harmless is taken out, and `commute_iff` that it is the right one.
-/
import Osexp.Hide.Absence
import Osexp.Hide.References
import Osexp.Hide.ThreadListing
import Mathlib.Data.List.Pairwise

namespace Osexp.Hide

/-! ## 1. Requests -/

namespace Op

/-- One of the two system calls, or a write to `/proc/hide`. -/
def isRequest : Op → Bool
  | hide _ _ _ => true
  | hideUserProcesses _ _ _ _ => true
  | writeHidden _ => true
  | _ => false

/-- The state after several operations. -/
def afterAll (k : Kernel) (ops : List Op) : Kernel := ops.foldl (fun k op => op.after k) k

/-- The two operations ask no live task for different values, and write no different values to the
flag. -/
structure Compatible (k : Kernel) (a b : Op) : Prop where
  cloak : ∀ t ∈ k.tasks.list, ∀ v ∈ a.asks t, ∀ v' ∈ b.asks t, v = v'
  flag : ∀ v ∈ a.written, ∀ v' ∈ b.written, v = v'

theorem same_values_iff {α : Type} {o o' : Option α} :
    (o = none ∨ o' = none ∨ o = o') ↔ ∀ v ∈ o, ∀ v' ∈ o', v = v' := by
  cases o <;> cases o' <;> simp

instance (k : Kernel) (a b : Op) : Decidable (Compatible k a b) :=
  decidable_of_iff
    ((∀ t ∈ k.tasks.list, a.asks t = none ∨ b.asks t = none ∨ a.asks t = b.asks t) ∧
      (a.written = none ∨ b.written = none ∨ a.written = b.written))
    ⟨fun h => ⟨fun t ht => same_values_iff.mp (h.1 t ht), same_values_iff.mp h.2⟩,
      fun h => ⟨fun t ht => same_values_iff.mpr (h.cloak t ht), same_values_iff.mpr h.flag⟩⟩

/-- The operation drops the cached entries of a `struct pid`. -/
def drops (k : Kernel) (op : Op) (id : Nat) : Bool :=
  k.tasks.list.any (fun t => op.pins t && id == t.threadPid)

variable {k : Kernel} {a b op : Op} {t : Task}

theorem Compatible.symm (h : Compatible k a b) : Compatible k b a :=
  ⟨fun t ht v hv v' hv' => (h.cloak t ht v' hv' v hv).symm,
    fun v hv v' hv' => (h.flag v' hv' v hv).symm⟩

theorem Compatible.refl (k : Kernel) (a : Op) : Compatible k a a :=
  ⟨fun _ _ _ hv _ hv' => Option.mem_unique hv hv', fun _ hv _ hv' => Option.mem_unique hv hv'⟩

/-! ## 2. What a request does -/

/-- A request changes the `cloak` of a task and nothing else, -/
theorem effect_request (ha : a.isRequest = true) (t : Task) :
    a.effect t = { t with cloak := (a.asks t).getD t.cloak } := by
  cases a with
  | setuid pid uid => cases ha
  | setTaskComm pid buf => cases ha
  | _ => rfl

/-- which no request looks at. -/
theorem asks_effect (ha : a.isRequest = true) (b : Op) (t : Task) :
    b.asks (a.effect t) = b.asks t := by
  rw [effect_request ha]
  cases b <;> rfl

theorem pins_effect (ha : a.isRequest = true) (b : Op) (t : Task) :
    b.pins (a.effect t) = b.pins t := by
  cases b with
  | hide caller pid on => exact congrArg Option.isSome (asks_effect ha _ t)
  | hideUserProcesses caller uid binname recover =>
    exact congrArg (fun v => recover == 0 && v.isSome) (asks_effect ha _ t)
  | _ => rfl

/-- The entries of a task that is pinned go. -/
theorem drops_iff {id : Nat} :
    op.drops k id = true ↔ ∃ t ∈ k.tasks.list, op.pins t = true ∧ id = t.threadPid := by
  simp only [drops, List.any_eq_true, Bool.and_eq_true, beq_iff_eq]

theorem dcache_of_pinsNothing (h : PinsNothing k op) :
    k.dcache.filter (fun d => !op.drops k d.pid) = k.dcache := by
  refine List.filter_eq_self.mpr fun d _ => ?_
  rw [Bool.not_eq_true', Bool.eq_false_iff, Ne, drops_iff]
  rintro ⟨t, ht, hpin, _⟩
  rw [h t ht] at hpin
  cases hpin

/-- `hide` drops the entries of the task that root names. -/
theorem hide_drops (caller : Nat) (pid : Int) (on : BitVec 32) (k : Kernel) :
    (k.hide caller pid on).2.dcache =
      k.dcache.filter (fun d => !(hide caller pid on).drops k d.pid) := by
  have hpins : ∀ t, (hide caller pid on).pins t = true ↔
      caller = 0 ∧ 0 < pid ∧ (t.pid : Int) = pid := by
    intro t
    rw [pins, asks]
    split <;> simp_all
  unfold Kernel.hide
  split
  · rename_i hroot
    split
    · rename_i hnone
      refine (dcache_of_pinsNothing fun t ht => ?_).symm
      have hne := Kernel.findTask_eq_none_iff.mp hnone t ht
      rw [Bool.eq_false_iff, Ne, hpins]
      omega
    · rename_i p hsome
      obtain ⟨hp, hpid⟩ := Kernel.findTask_eq_some_iff.mp hsome
      refine List.filter_congr fun d _ => ?_
      rw [Bool.eq_iff_iff, bne_iff_ne, Bool.not_eq_true', Bool.eq_false_iff, Ne, Ne, drops_iff,
        not_iff_not]
      constructor
      · intro hid
        exact ⟨p, hp, (hpins p).mpr (by omega), hid⟩
      · rintro ⟨t, ht, hpin, hid⟩
        have hnum := (hpins t).mp hpin
        rw [hid, k.tasks.eq_of_pid ht hp (by omega)]
  · rename_i hroot
    refine (dcache_of_pinsNothing fun t _ => ?_).symm
    rw [Bool.eq_false_iff, Ne, hpins]
    omega

/-- The loop of `hide_user_processes` drops those of the processes that it marks. -/
theorem hideMatching_drops {m : Task → Bool}
    (hm : ∀ t ∈ k.tasks.list, op.pins t = (t.isLeader && m t)) :
    (k.hideMatching m).dcache = k.dcache.filter (fun d => !op.drops k d.pid) := by
  rw [Kernel.hideMatching_dcache]
  refine List.filter_congr fun d _ => congrArg not ?_
  rw [Bool.eq_iff_iff, drops_iff, List.any_eq_true]
  constructor
  · rintro ⟨t, ht, hmt⟩
    obtain ⟨ht, hlead⟩ := Kernel.mem_processes.mp ht
    rw [Bool.and_eq_true, beq_iff_eq] at hmt
    exact ⟨t, ht, by rw [hm t ht, hlead, hmt.1]; rfl, hmt.2⟩
  · rintro ⟨t, ht, hpin, hid⟩
    rw [hm t ht, Bool.and_eq_true] at hpin
    exact ⟨t, Kernel.mem_processes.mpr ⟨ht, hpin.1⟩, by simp [hpin.2, hid]⟩

theorem hideMatching_taskRefs (m : Task → Bool) (k : Kernel) :
    (k.hideMatching m).taskRefs = k.taskRefs := by
  have hloop : ∀ (ps : List Task) (k : Kernel),
      (ps.foldl (Kernel.hideOne m) k).taskRefs = k.taskRefs := by
    intro ps
    induction ps with
    | nil => exact fun k => rfl
    | cons p ps ih =>
      intro k
      rw [List.foldl_cons, ih, Kernel.hideOne]
      split <;> rfl
  exact hloop k.processes k

/-- The processes that `hide_user_processes` marks for a name that it can read. -/
theorem hideUserProcesses_pins {caller uid : Nat} {binname : UserString} (hroot : caller = 0)
    (t : Task) : (hideUserProcesses caller uid binname 0).pins t =
      (t.isLeader && (t.uid == uid && binname.covers t.comm)) := by
  simp only [pins, asks, hroot]
  cases t.isLeader <;> cases hcov : binname.covers t.comm <;> by_cases huid : t.uid = uid <;>
    simp [huid]

/-- What `hide_user_processes` does: nothing, its loop, or the recovery. -/
theorem hideUserProcesses_eq (caller uid : Nat) (binname : UserString) (recover : BitVec 32)
    (k : Kernel) :
    (PinsNothing k (hideUserProcesses caller uid binname recover) ∧
      ((k.hideUserProcesses caller uid binname recover).2 = k ∨
        (k.hideUserProcesses caller uid binname recover).2 = k.setCloak Task.isLeader 0)) ∨
    ∃ m : Task → Bool, (∀ t ∈ k.tasks.list,
        (hideUserProcesses caller uid binname recover).pins t = (t.isLeader && m t)) ∧
      (k.hideUserProcesses caller uid binname recover).2 = k.hideMatching m := by
  unfold Kernel.hideUserProcesses
  split
  · rename_i hroot
    refine Or.inl ⟨fun t _ => ?_, Or.inl rfl⟩
    simp [pins, asks, hroot]
  · rename_i hroot
    split
    · rename_i hrec
      subst hrec
      cases binname with
      | null =>
        refine Or.inr ⟨_, fun t _ => ?_, rfl⟩
        rw [hideUserProcesses_pins (not_not.mp hroot)]
        simp [UserString.covers]
      | unreadable =>
        refine Or.inl ⟨fun t _ => ?_, Or.inl rfl⟩
        simp [pins, asks, UserString.covers]
      | string s =>
        refine Or.inr ⟨_, fun t _ => ?_, rfl⟩
        rw [hideUserProcesses_pins (not_not.mp hroot), Kernel.strncmpEq_kbinname t.comm_length]
        rfl
    · rename_i hrec
      refine Or.inl ⟨fun t _ => ?_, Or.inr rfl⟩
      rw [pins, beq_false_of_ne hrec, Bool.false_and]

/-- **What a request does** to each part of the kernel. -/
structure Requested (k : Kernel) (op : Op) (k' : Kernel) : Prop where
  list : k'.tasks.list = k.tasks.list.map op.effect
  dcache : k'.dcache = k.dcache.filter (fun d => !op.drops k d.pid)
  flag : k'.hiddenFlag = op.written.getD k.hiddenFlag
  fresh : k'.fresh = k.fresh
  taskRefs : k'.taskRefs = k.taskRefs
  pidRefs : ∀ id, k'.pidRefs id =
    k.pidRefs id + k.tasks.list.countP (fun t => op.pins t && t.threadPid == id)

theorem request_after (hop : op.isRequest = true) (k : Kernel) : Requested k op (op.after k) := by
  have hlist : (op.after k).tasks.list = k.tasks.list.map op.effect := by
    rw [after_list]
    cases op with
    | hide caller pid on => simp [keeps, born]
    | hideUserProcesses caller uid binname recover => simp [keeps, born]
    | writeHidden parsed => simp [keeps, born]
    | _ => cases hop
  have hflag := after_flag op k
  cases op with
  | hide caller pid on =>
    refine ⟨hlist, hide_drops caller pid on k, hflag, ?_, ?_, hide_pidRefs caller pid on k⟩
    all_goals
      unfold after Kernel.hide
      dsimp only
      split
      · split <;> rfl
      · rfl
  | hideUserProcesses caller uid binname recover =>
    have hrefs := hideUserProcesses_pidRefs caller uid binname recover k
    rcases hideUserProcesses_eq caller uid binname recover k with
      ⟨hnothing, heq | heq⟩ | ⟨m, hm, heq⟩
    · exact ⟨hlist, by rw [dcache_of_pinsNothing hnothing, after, heq], hflag, by rw [after, heq],
        by rw [after, heq], hrefs⟩
    · exact ⟨hlist, by rw [dcache_of_pinsNothing hnothing, after, heq]; rfl, hflag,
        by rw [after, heq]; rfl, by rw [after, heq]; rfl, hrefs⟩
    · exact ⟨hlist, by rw [after, heq, hideMatching_drops hm], hflag,
        by rw [after, heq, Kernel.hideMatching_fresh], by rw [after, heq, hideMatching_taskRefs],
        hrefs⟩
  | writeHidden parsed =>
    have hnothing : PinsNothing k (writeHidden parsed) := fun _ _ => rfl
    refine ⟨hlist, ?_, hflag, ?_, ?_, fun id => ?_⟩
    · rw [dcache_of_pinsNothing hnothing]
      cases parsed <;> rfl
    · cases parsed <;> rfl
    · cases parsed <;> rfl
    · rw [countP_pinsNothing hnothing]
      cases parsed <;> rfl
  | _ => cases hop

/-- Kernels with the same parts. -/
theorem kernel_eq {k k' : Kernel} (hlist : k.tasks.list = k'.tasks.list)
    (hdcache : k.dcache = k'.dcache) (hflag : k.hiddenFlag = k'.hiddenFlag)
    (hfresh : k.fresh = k'.fresh) (htask : k.taskRefs = k'.taskRefs)
    (hpid : k.pidRefs = k'.pidRefs) : k = k' := by
  obtain ⟨⟨list, _, _, _, _⟩, dcache, flag, fresh, taskRefs, pidRefs, _, _, _, _⟩ := k
  obtain ⟨⟨list', _, _, _, _⟩, dcache', flag', fresh', taskRefs', pidRefs', _, _, _, _⟩ := k'
  dsimp only at hlist hdcache hflag hfresh htask hpid
  subst hlist hdcache hflag hfresh htask hpid
  rfl

/-! ## 3. Two requests -/

/-- What a request drops and takes does not depend on the requests before it, -/
theorem drops_after (ha : a.isRequest = true) (b : Op) (k : Kernel) (id : Nat) :
    b.drops (a.after k) id = b.drops k id := by
  rw [drops, drops, (request_after ha k).list, List.any_map]
  refine congrArg k.tasks.list.any (funext fun t => ?_)
  rw [Function.comp, pins_effect ha, effect_threadPid]

theorem countP_pins_after (ha : a.isRequest = true) (b : Op) (k : Kernel) (id : Nat) :
    (a.after k).tasks.list.countP (fun t => b.pins t && t.threadPid == id) =
      k.tasks.list.countP (fun t => b.pins t && t.threadPid == id) := by
  rw [(request_after ha k).list, List.countP_map]
  refine List.countP_congr fun t _ => ?_
  rw [Function.comp, pins_effect ha, effect_threadPid]

/-- nor does whether two others are compatible, -/
theorem compatible_after {c : Op} (hc : c.isRequest = true) (a b : Op) (k : Kernel) :
    Compatible (c.after k) a b ↔ Compatible k a b := by
  have hasks : (∀ t ∈ (c.after k).tasks.list, ∀ v ∈ a.asks t, ∀ v' ∈ b.asks t, v = v') ↔
      ∀ t ∈ k.tasks.list, ∀ v ∈ a.asks t, ∀ v' ∈ b.asks t, v = v' := by
    simp only [(request_after hc k).list, List.forall_mem_map, asks_effect hc]
  exact ⟨fun h => ⟨hasks.mp h.cloak, h.flag⟩, fun h => ⟨hasks.mpr h.cloak, h.flag⟩⟩

/-- nor what a request answers. -/
theorem answer_after (ha : a.isRequest = true) (hb : b.isRequest = true) (k : Kernel) :
    b.answer (a.after k) = b.answer k := by
  cases b with
  | hide caller pid on =>
    have hnone : (a.after k).findTask pid.toNat = none ↔ k.findTask pid.toNat = none := by
      rw [Kernel.findTask_eq_none_iff, Kernel.findTask_eq_none_iff, (request_after ha k).list]
      simp only [List.forall_mem_map, effect_pid]
    rw [answer, answer, Kernel.hide, Kernel.hide]
    split
    · cases hf : k.findTask pid.toNat with
      | none => rw [hnone.mpr hf]
      | some p =>
        obtain ⟨q, hq⟩ := Option.ne_none_iff_exists'.mp
          (fun h => Option.some_ne_none p (hf.symm.trans (hnone.mp h)))
        rw [hq]
    · rfl
  | hideUserProcesses caller uid binname recover =>
    simp only [answer, Kernel.hideUserProcesses]
    split
    · rfl
    · split
      · cases binname <;> rfl
      · rfl
  | writeHidden parsed => rfl
  | _ => cases hb

/-- **Two requests commute exactly when they are compatible.**  So the condition on a list of
requests is one on its pairs. -/
theorem commute_iff (ha : a.isRequest = true) (hb : b.isRequest = true) (k : Kernel) :
    b.after (a.after k) = a.after (b.after k) ↔ Compatible k a b := by
  have hab := request_after hb (a.after k)
  have hba := request_after ha (b.after k)
  have hka := request_after ha k
  have hkb := request_after hb k
  constructor
  · intro heq
    constructor
    · intro t ht v hv v' hv'
      have hlist := hab.list.symm.trans ((congrArg (fun k => k.tasks.list) heq).trans hba.list)
      rw [hka.list, hkb.list, List.map_map, List.map_map] at hlist
      have hcloak := congrArg Task.cloak (List.map_inj_left.mp hlist t ht)
      simp only [Function.comp, effect_cloak, asks_effect ha, asks_effect hb] at hcloak
      rw [Option.mem_def.mp hv, Option.mem_def.mp hv'] at hcloak
      exact hcloak.symm
    · intro v hv v' hv'
      have hflag := hab.flag.symm.trans ((congrArg Kernel.hiddenFlag heq).trans hba.flag)
      rw [Option.mem_def.mp hv, Option.mem_def.mp hv'] at hflag
      exact hflag.symm
  · intro h
    refine kernel_eq ?_ ?_ ?_ ?_ ?_ ?_
    · rw [hab.list, hba.list, hka.list, hkb.list, List.map_map, List.map_map]
      refine List.map_congr_left fun t ht => ?_
      have hcloak := h.cloak t ht
      rw [Function.comp, Function.comp, effect_request hb, effect_request ha (b.effect t),
        asks_effect ha, asks_effect hb, effect_request ha, effect_request hb]
      cases hva : a.asks t <;> cases hvb : b.asks t
      · rfl
      · rfl
      · rfl
      · rw [hcloak _ hva _ hvb]
    · rw [hab.dcache, hba.dcache, hka.dcache, hkb.dcache, List.filter_filter, List.filter_filter]
      refine List.filter_congr fun d _ => ?_
      rw [drops_after ha, drops_after hb, Bool.and_comm]
    · rw [hab.flag, hba.flag, hka.flag, hkb.flag]
      have hflag := h.flag
      cases hva : a.written <;> cases hvb : b.written
      · rfl
      · rfl
      · rfl
      · exact (hflag _ hva _ hvb).symm
    · rw [hab.fresh, hba.fresh, hka.fresh, hkb.fresh]
    · rw [hab.taskRefs, hba.taskRefs, hka.taskRefs, hkb.taskRefs]
    · funext id
      rw [hab.pidRefs, hba.pidRefs, hka.pidRefs, hkb.pidRefs, countP_pins_after ha,
        countP_pins_after hb]
      omega

/-! ## 4. Any order -/

/-- Requests answer the same wherever they stand. -/
theorem answers_requests {ops : List Op} (hops : ∀ op ∈ ops, op.isRequest = true) :
    answers k ops = ops.map (fun op => op.answer k) := by
  have hanswers : ∀ (ops : List Op) (s : Kernel), (∀ op ∈ ops, op.isRequest = true) →
      (∀ op : Op, op.isRequest = true → op.answer s = op.answer k) →
      answers s ops = ops.map (fun op => op.answer k) := by
    intro ops
    induction ops with
    | nil => exact fun _ _ _ => rfl
    | cons op ops ih =>
      intro s hops hsame
      obtain ⟨hop, hops⟩ := List.forall_mem_cons.mp hops
      rw [answers, List.map_cons, hsame op hop]
      rw [ih (op.after s) hops fun b hb => (answer_after hop hb s).trans (hsame b hb)]
  exact hanswers ops k hops fun _ _ => rfl

/-- Compatible requests lead to the same state in any order. -/
theorem afterAll_perm {ops ops' : List Op} (hp : ops.Perm ops')
    (hops : ∀ op ∈ ops, op.isRequest = true) (hcompat : ops.Pairwise (Compatible k)) :
    afterAll k ops = afterAll k ops' := by
  have : Std.Symm (Compatible k) := ⟨fun _ _ h => h.symm⟩
  have hall := List.Pairwise.forall_of_forall (fun a _ => Compatible.refl k a) hcompat
  -- compatible requests are compatible after some of them
  refine @Lts.foldl_perm _ _ _ (fun s => ∀ a b, Compatible s a b ↔ Compatible k a b) _ _ hp ?_ ?_ k
    (fun _ _ => Iff.rfl)
  · exact fun s hs c hc a b => (compatible_after (hops c hc) a b s).trans (hs a b)
  · intro s hs a ha b hb
    exact (commute_iff (hops a ha) (hops b hb) s).mpr ((hs a b).mpr (hall ha hb))

/-- Others are compatible after some requests when they were before. -/
theorem compatible_afterAll {ops : List Op} (hops : ∀ op ∈ ops, op.isRequest = true) (a b : Op)
    (k : Kernel) : Compatible (afterAll k ops) a b ↔ Compatible k a b := by
  induction ops generalizing k with
  | nil => exact Iff.rfl
  | cons op ops ih =>
    obtain ⟨hop, hops⟩ := List.forall_mem_cons.mp hops
    exact (ih hops (op.after k)).trans (compatible_after hop a b k)

end Op

open Op

/-- **Requests in any order.** Each of several requests answers the same in every order, and all
orders lead to the same kernel exactly when no two of them ask different values for one live task,
or write different values to the flag.  Requests come from processes that do not know of each other
and nothing but the kernel orders them; this says which of them have to be ordered by those who make
them. -/
theorem requests_order_iff (k : Kernel) (ops : List Op)
    (hops : ∀ op ∈ ops, op.isRequest = true) :
    (∀ ops', ops.Perm ops' → answers k ops' = ops'.map (fun op => op.answer k)) ∧
      ((∀ ops', ops.Perm ops' → afterAll k ops' = afterAll k ops) ↔
        ops.Pairwise (Compatible k)) := by
  have hreq : ∀ ops', ops.Perm ops' → ∀ op ∈ ops', op.isRequest = true :=
    fun ops' hp op hop => hops op (hp.mem_iff.mpr hop)
  refine ⟨fun ops' hp => answers_requests (hreq ops' hp), ?_, ?_⟩
  · intro hsame
    refine List.pairwise_iff_forall_sublist.mpr fun {a b} hsub => ?_
    -- the two requests at the end, in both orders
    obtain ⟨rest, hp⟩ := hsub.exists_perm_append
    have hab : ops.Perm (rest ++ [a, b]) := hp.trans List.perm_append_comm
    have hba : ops.Perm (rest ++ [b, a]) := hab.trans ((List.Perm.swap b a []).append_left rest)
    have heq := (hsame _ hab).trans (hsame _ hba).symm
    rw [afterAll, List.foldl_append, afterAll, List.foldl_append] at heq
    have hrest : ∀ op ∈ rest, op.isRequest = true :=
      fun op hop => hreq _ hab op (List.mem_append_left _ hop)
    have ha := hreq _ hab a (List.mem_append_right _ List.mem_cons_self)
    have hb := hreq _ hba b (List.mem_append_right _ List.mem_cons_self)
    exact (compatible_afterAll hrest a b k).mp ((commute_iff ha hb (afterAll k rest)).mp heq)
  · exact fun hcompat ops' hp => (afterAll_perm hp hops hcompat).symm

/-- Two requests that hide `init` and one that clears the flag can come in any order; with one that
shows it among them they cannot. -/
theorem requests_order_iff_init :
    (∀ ops', [Op.hide 0 1 1, .hideUserProcesses 0 0 .null 0, .writeHidden (some 0)].Perm ops' →
      afterAll .initial ops' =
        afterAll .initial [.hide 0 1 1, .hideUserProcesses 0 0 .null 0, .writeHidden (some 0)]) ∧
    ¬ ∀ ops', [Op.hide 0 1 1, .hide 0 1 0, .writeHidden (some 0)].Perm ops' →
      afterAll .initial ops' =
        afterAll .initial [.hide 0 1 1, .hide 0 1 0, .writeHidden (some 0)] := by
  constructor
  · exact (requests_order_iff _ _ (by decide)).2.mpr (by decide +kernel)
  · exact fun h => absurd ((requests_order_iff _ _ (by decide)).2.mp h) (by decide +kernel)

/-! ## 5. `hide_user_processes` as `hide` -/

/-- A turn of its loop is a `hide` of the process. -/
theorem hideOne_eq {m : Task → Bool} {k : Kernel} {p t : Task} (hm : m p = true) (hpos : 0 < p.pid)
    (ht : t ∈ k.tasks.list) (hpid : t.pid = p.pid) (hthread : t.threadPid = p.threadPid) :
    Kernel.hideOne m k p = (Op.hide 0 p.pid 1).after k := by
  have hfind : k.findTask (p.pid : Int).toNat = some t :=
    Kernel.findTask_eq_some_iff.mpr ⟨ht, hpid.trans (Int.toNat_natCast _).symm⟩
  rw [Kernel.hideOne, if_pos hm, after, Kernel.hide, if_pos ⟨by omega, rfl⟩, hfind]
  dsimp only
  rw [hpid, hthread]

/-- Its loop is one `hide` for each process that it marks. -/
theorem foldl_hideOne (m : Task → Bool) : ∀ (ps : List Task) (k : Kernel),
    (∀ p ∈ ps, 0 < p.pid ∧ ∃ t ∈ k.tasks.list, t.pid = p.pid ∧ t.threadPid = p.threadPid) →
    ps.foldl (Kernel.hideOne m) k =
      afterAll k ((ps.filter m).map (fun p => Op.hide 0 p.pid 1))
  | [], _, _ => rfl
  | p :: ps, k, h => by
    obtain ⟨⟨hpos, t, ht, hpid, hthread⟩, hps⟩ := List.forall_mem_cons.mp h
    rw [List.foldl_cons]
    cases hm : m p with
    | false =>
      rw [List.filter_cons_of_neg (by simp [hm]), Kernel.hideOne, hm]
      exact foldl_hideOne m ps k hps
    | true =>
      rw [List.filter_cons_of_pos hm, List.map_cons, hideOne_eq hm hpos ht hpid hthread]
      refine foldl_hideOne m ps _ fun q hq => ?_
      obtain ⟨hqpos, u, hu, hupid, huthread⟩ := hps q hq
      refine ⟨hqpos, (Op.hide 0 p.pid 1).effect u, ?_, by rwa [effect_pid], by
        rwa [effect_threadPid]⟩
      rw [(request_after rfl k).list]
      exact List.mem_map_of_mem hu

/-- The processes that `hide_user_processes` is asked for. -/
def askedFor (k : Kernel) (uid : Nat) (binname : UserString) : List Task :=
  k.processes.filter (fun p => p.uid == uid && binname.covers p.comm)

theorem hideUserProcesses_hides {k : Kernel} (hnum : k.Numbered) (uid : Nat)
    (binname : UserString) :
    (Op.hideUserProcesses 0 uid binname 0).after k =
      afterAll k ((askedFor k uid binname).map (fun p => Op.hide 0 p.pid 1)) := by
  have hthere : ∀ p ∈ k.processes,
      0 < p.pid ∧ ∃ t ∈ k.tasks.list, t.pid = p.pid ∧ t.threadPid = p.threadPid := by
    intro p hp
    have hp := (Kernel.mem_processes.mp hp).1
    exact ⟨hnum p hp, p, hp, rfl, rfl⟩
  change (k.hideUserProcesses 0 uid binname 0).2 = _
  unfold Kernel.hideUserProcesses askedFor
  rw [if_neg (not_not.mpr rfl), if_pos rfl]
  cases binname with
  | null =>
    simp only [UserString.covers, Bool.and_true]
    exact foldl_hideOne _ k.processes k hthere
  | unreadable =>
    simp only [UserString.covers, Bool.and_false, List.filter_false]
    rfl
  | string s =>
    have hname : (fun p : Task => p.uid == uid &&
        Kernel.strncmpEq TASK_COMM_LEN p.comm (Kernel.kbinname s)) =
        fun p => p.uid == uid && (UserString.string s).covers p.comm := by
      funext p
      rw [Kernel.strncmpEq_kbinname p.comm_length]
      rfl
    dsimp only
    rw [hname]
    exact foldl_hideOne _ k.processes k hthere

/-- **`hide_user_processes` is one `hide` for each process that it is asked for**, in any order.
The two calls are written independently of each other and mark a process, drop its entries and take
the references each in their own words.  So what is proved of runs of `hide` holds of
`hide_user_processes`, and a user may replace one by the other. -/
theorem hide_user_processes_as_hides {k : Kernel} (hnum : k.Numbered) (uid : Nat)
    (binname : UserString) {pids : List Nat}
    (hpids : pids.Perm ((askedFor k uid binname).map Task.pid)) :
    (Op.hideUserProcesses 0 uid binname 0).after k =
      afterAll k (pids.map (fun pid : Nat => Op.hide 0 pid 1)) := by
  have hcalls : ((askedFor k uid binname).map (fun p => Op.hide 0 p.pid 1)).Perm
      (pids.map (fun pid : Nat => Op.hide 0 pid 1)) := by
    have hmap := (hpids.symm.map (fun pid : Nat => Op.hide 0 pid 1))
    rwa [List.map_map] at hmap
  rw [hideUserProcesses_hides hnum]
  refine afterAll_perm hcalls ?_ ?_
  · rw [List.forall_mem_map]
    exact fun _ _ => rfl
  · -- all of them ask for 1
    rw [List.pairwise_map]
    refine List.pairwise_of_forall fun p q => ⟨fun t _ v hv v' hv' => ?_, fun _ hv => nomatch hv⟩
    have hone : ∀ (r : Task) (v : BitVec 32), v ∈ (Op.hide 0 r.pid 1).asks t → v = 1 := by
      intro r v hv
      rw [Option.mem_def, asks] at hv
      split at hv
      · exact (Option.some.inj hv).symm
      · cases hv
    rw [hone p v hv, hone q v' hv']

/-- Both processes of root are hidden, the second one first. -/
theorem hide_user_processes_as_hides_two :
    (Op.hideUserProcesses 0 0 .null 0).after ((Op.copyProcess 1 false 2).after .initial) =
      afterAll ((Op.copyProcess 1 false 2).after .initial) [.hide 0 2 1, .hide 0 1 1] := by
  have hnum : ((Op.copyProcess 1 false 2).after .initial).Numbered := by
    unfold Kernel.Numbered
    decide
  have hpids : [2, 1].Perm ((askedFor ((Op.copyProcess 1 false 2).after .initial) 0 .null).map
      Task.pid) := by decide
  exact hide_user_processes_as_hides hnum 0 .null hpids

end Osexp.Hide
