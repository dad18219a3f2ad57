/-
# `/proc/hidden_process` and the listing of `/proc`

Two readers decide what is hidden: the listing tests `cloak` and the flag, the file tests `cloak`
alone.  They agree in a state exactly when the flag is 1 or no process is marked, as long as the
text of the file fits `kbuf` (`agree_iff`).

`agreement_iff` gives the steps that keep them in agreement: a request that hides a process comes
while the flag is 1 and leaves a text that fits, and a value other than 1 is written to the flag
while no process is marked.

The manual describes `/proc/hidden_process` as the place to look for what has been hidden, so one
would take the two for complements of each other.  They are not while the flag is 0, when nothing is
left out of the listing and the file names the marked processes all the same; nor when their numbers
do not fit, since the handler does not stop at the end of its array.

The invariant is `Agree` itself.  A step keeps it according to what it asks for `cloak` and what it
writes to the flag, and both are known from `Osexp.Hide.Machine`.
-/
import Osexp.Hide.Machine
import Mathlib.Data.List.Flatten

namespace Osexp.Hide

open Kernel Lts

/-! ## 1. The two readers -/

/-- The numbers in the text of `/proc/hidden_process`. -/
def Reported (k : Kernel) (n : Nat) : Prop :=
  ∃ text, k.kbuf = some text ∧ decimal n ∈ Text.tokens (· == ' ') text

/-- `n` is the number of a process that a listing of `/proc` from its first process entry on does
not emit. -/
def LeftOut (info : ProcFsInfo) (room : Nat) (k : Kernel) (n : Nat) : Prop :=
  (∃ t ∈ k.processes, t.pid = n) ∧
    .process n ∉ (k.procPidReaddir info ⟨FIRST_PROCESS_ENTRY, room, []⟩).1.emitted

/-- The text of the file is there, and has the processes that a listing with enough room leaves out,
for a reader that `hidepid` does not restrict. -/
def Agree (k : Kernel) : Prop :=
  k.kbuf ≠ none ∧ ∀ info room, info.hidePid = .off → k.tasks.list.length + 2 ≤ room →
    ∀ n, Reported k n ↔ LeftOut info room k n

/-! ## 2. The text -/

/-- The numbers of the processes that satisfy `q`, each with a blank. -/
def pidText (q : Task → Bool) (k : Kernel) : List Char :=
  (k.processes.filter q).flatMap fun t => decimal t.pid ++ [' ']

/-- The process is marked. -/
def Task.cloaked (t : Task) : Bool := t.cloak == 1

theorem Task.cloaked_iff {t : Task} : t.cloaked = true ↔ t.cloak = 1 := beq_iff_eq

section Texts

variable {k : Kernel} {n : Nat} {q q' : Task → Bool}

theorem hiddenText_eq (k : Kernel) : k.hiddenText = pidText Task.cloaked k := by
  have hfold : ∀ (ps : List Task) (kbuf : List Char),
      ps.foldl (fun kbuf p => if p.cloak = 1 then kbuf ++ (decimal p.pid ++ [' ']) else kbuf) kbuf =
        kbuf ++ (ps.filter Task.cloaked).flatMap fun t => decimal t.pid ++ [' '] := by
    intro ps
    induction ps with
    | nil => simp
    | cons p ps ih =>
      intro kbuf
      rw [List.foldl_cons, ih, List.filter_cons]
      by_cases hp : p.cloak = 1
      · rw [if_pos hp, if_pos (Task.cloaked_iff.mpr hp), List.flatMap_cons, List.append_assoc]
      · rw [if_neg hp, if_neg (fun h => hp (Task.cloaked_iff.mp h))]
  exact (hfold k.processes []).trans (List.nil_append _)

theorem decimal_injective : Function.Injective decimal := by
  intro m n h
  rw [← Nat.ofDigitChars_ten_toDigits (n := m), ← Nat.ofDigitChars_ten_toDigits (n := n)]
  exact congrArg (fun s => Nat.ofDigitChars 10 s 0) h

theorem decimal_word (n : Nat) : decimal n ≠ [] ∧ ∀ c ∈ decimal n, (c == ' ') = false := by
  constructor
  · exact Nat.toDigits_ne_nil
  · intro c hc
    have hdigit := Nat.isDigit_of_mem_toDigits (by decide) (by decide) hc
    rw [beq_eq_false_iff_ne]
    rintro rfl
    cases hdigit

theorem mem_tokens_pidText :
    decimal n ∈ Text.tokens (· == ' ') (pidText q k) ↔
      ∃ t ∈ k.processes, q t = true ∧ t.pid = n := by
  rw [pidText, Text.tokens_flatMap rfl fun t _ => decimal_word t.pid, List.mem_map]
  simp only [List.mem_filter, decimal_injective.eq_iff, and_assoc]

theorem pidText_length_le (h : ∀ t ∈ k.processes, q t = true → q' t = true) :
    (pidText q k).length ≤ (pidText q' k).length := by
  have hsub : k.processes.filter q = (k.processes.filter q').filter q := by
    rw [List.filter_filter]
    refine List.filter_congr fun t ht => ?_
    cases hq : q t with
    | false => rfl
    | true => rw [h t ht hq, Bool.and_self]
  rw [pidText, hsub]
  exact (List.filter_sublist.flatMap _).length_le

theorem pidText_congr (h : ∀ t ∈ k.processes, q t = q' t) : pidText q k = pidText q' k := by
  rw [pidText, List.filter_congr h, pidText]

end Texts

/-! ## 3. The listing -/

theorem mem_listing_iff {info : ProcFsInfo} {room n : Nat} {k : Kernel}
    (hroom : k.tasks.list.length + 2 ≤ room) :
    .process n ∈ (k.procPidReaddir info ⟨FIRST_PROCESS_ENTRY, room, []⟩).1.emitted ↔
      Shown info k n := by
  have hcall : k.procPidReaddir info ⟨FIRST_PROCESS_ENTRY, room, []⟩ =
      readdirLoop info 0 none ⟨TGID_OFFSET, room - 1 - 1, [.self, .threadSelf]⟩ k := by
    have hself : room ≠ 0 := by omega
    have hthread : room - 1 ≠ 0 := by omega
    simp [procPidReaddir, DirContext.dirEmit, hself, hthread, FIRST_PROCESS_ENTRY, TGID_OFFSET,
      PID_MAX_LIMIT]
  rw [hcall]
  obtain ⟨q, new, hlist⟩ := readdirLoop_lists info 0 none
    ⟨TGID_OFFSET, room - 1 - 1, [.self, .threadSelf]⟩ k (Nat.zero_le _)
  have hcount : k.tasks.pidsFrom 0 ≤ room - 1 - 1 := by
    have hle : k.tasks.pidsFrom 0 ≤ k.tasks.list.length := List.countP_le_length
    omega
  rw [hlist.emitted]
  have hmem : Entry.process n ∈ [Entry.self, .threadSelf] ++ new.map .process ↔ n ∈ new := by
    simp
  rw [hmem, hlist.emits.mem_iff, hlist.complete hcount]
  constructor
  · exact fun h => h.2.2
  · rintro ⟨t, ht, hlead, rfl, h⟩
    exact ⟨Nat.zero_le _, k.tasks.small t ht, t, ht, hlead, rfl, h⟩

theorem leftOut_iff {info : ProcFsInfo} {room n : Nat} {k : Kernel} (hoff : info.hidePid = .off)
    (hroom : k.tasks.list.length + 2 ≤ room) :
    LeftOut info room k n ↔
      ∃ t ∈ k.processes, (k.hiddenFlag = 1 ∧ t.cloaked = true) ∧ t.pid = n := by
  have hperm : ∀ t, hasPidPermissions info t .invisible = true := by
    intro t
    simp [hasPidPermissions, hoff, HidePid.value]
  have hshown : ∀ t ∈ k.processes,
      (Shown info k t.pid ↔ ¬ (k.hiddenFlag = 1 ∧ t.cloaked = true)) := by
    intro t ht
    obtain ⟨ht, hlead⟩ := mem_processes.mp ht
    rw [shown_iff_of_leader ht hlead, hidesTask, Task.cloaked]
    simp [hperm]
  rw [LeftOut, mem_listing_iff hroom]
  constructor
  · rintro ⟨⟨t, ht, rfl⟩, hno⟩
    exact ⟨t, ht, not_not.mp fun h => hno ((hshown t ht).mpr h), rfl⟩
  · rintro ⟨t, ht, hhid, rfl⟩
    exact ⟨⟨t, ht, rfl⟩, fun h => (hshown t ht).mp h hhid⟩

/-! ## 4. One state -/

/-- No process is marked. -/
def NoneMarked (k : Kernel) : Prop := ∀ t ∈ k.processes, t.cloaked = false

theorem reported_iff {k : Kernel} (hfits : (pidText Task.cloaked k).length < KBUF_SIZE) (n : Nat) :
    Reported k n ↔ ∃ t ∈ k.processes, t.cloaked = true ∧ t.pid = n := by
  have hbuf : k.kbuf = some (pidText Task.cloaked k) := by
    rw [kbuf, hiddenText_eq, if_pos hfits]
  rw [Reported, hbuf, ← mem_tokens_pidText]
  simp

/-- **When the two readers agree.**  The flag and the room in `kbuf` are all in which they differ.
-/
theorem agree_iff (k : Kernel) :
    Agree k ↔ (pidText Task.cloaked k).length < KBUF_SIZE ∧ (k.hiddenFlag = 1 ∨ NoneMarked k) := by
  have hbuf : k.kbuf ≠ none ↔ (pidText Task.cloaked k).length < KBUF_SIZE := by
    rw [kbuf, hiddenText_eq]
    simp
  rw [Agree, hbuf]
  refine and_congr_right fun hfits => ?_
  simp only [reported_iff hfits]
  constructor
  · intro h
    refine or_iff_not_imp_left.mpr fun hflag t ht => ?_
    -- a reader that sees everything
    have hall := h ⟨.off, false, fun _ => true⟩ _ rfl (Nat.le_refl _) t.pid
    rw [leftOut_iff rfl (Nat.le_refl _)] at hall
    by_contra hmark
    obtain ⟨_, _, ⟨hone, _⟩, _⟩ := hall.mp ⟨t, ht, by simpa using hmark, rfl⟩
    exact hflag hone
  · intro h info room hoff hroom n
    rw [leftOut_iff hoff hroom]
    rcases h with hflag | hnone
    · simp [hflag]
    · constructor
      · rintro ⟨t, ht, hmark, _⟩
        rw [hnone t ht] at hmark
        cases hmark
      · rintro ⟨t, ht, ⟨_, hmark⟩, _⟩
        rw [hnone t ht] at hmark
        cases hmark

/-! ## 5. A run -/

/-- The step keeps the readers in agreement: nothing but 1 is written to the flag while a process is
marked, and a request that hides a process comes while the flag is 1 and leaves a text that
fits `kbuf`. -/
def KeepsAgreement (k : Kernel) (op : Op) : Prop :=
  (∀ v, op.written = some v → v = 1 ∨ NoneMarked k) ∧
    ∀ t ∈ k.processes, op.asks t = some 1 → k.hiddenFlag = 1 ∧
      (pidText (fun u => u.cloaked || op.asks u == some 1) k).length < KBUF_SIZE

section Steps

variable {k : Kernel} {op : Op} {t u : Task}

/-- A call asks the same of all the tasks that it is about. -/
theorem asks_uniform {v v' : BitVec 32} (ht : op.asks t = some v) (hu : op.asks u = some v') :
    v = v' := by
  cases op with
  | hide caller pid on =>
    simp only [Op.asks, Option.ite_none_right_eq_some, Option.some.injEq] at ht hu
    exact ht.2.symm.trans hu.2
  | hideUserProcesses caller uid binname recover =>
    simp only [Op.asks] at ht hu
    grind
  | _ => cases ht

/-- A call that asks for something is no write to the flag, and every task stays. -/
theorem written_of_asks {v : BitVec 32} (h : op.asks t = some v) :
    op.written = none ∧ ∀ u, op.keeps k u = true := by
  cases op with
  | hide caller pid on => exact ⟨rfl, fun _ => rfl⟩
  | hideUserProcesses caller uid binname recover => exact ⟨rfl, fun _ => rfl⟩
  | _ => cases h

/-- The task is there after the step, and marked. -/
def markedAfter (k : Kernel) (op : Op) (t : Task) : Bool :=
  op.keeps k t && (op.effect t).cloaked

theorem processes_after (op : Op) (k : Kernel) :
    (op.after k).processes =
      (k.processes.filter (fun t => op.keeps k t)).map op.effect ++
        (op.born k).filter Task.isLeader := by
  have hcomm : (k.tasks.list.filter (fun t => op.keeps k t)).filter Task.isLeader =
      k.processes.filter (fun t => op.keeps k t) := by
    rw [processes, List.filter_filter, List.filter_filter]
    exact List.filter_congr fun t _ => Bool.and_comm _ _
  have hlead : Task.isLeader ∘ (fun t => op.effect t) = Task.isLeader :=
    funext fun t => Op.effect_isLeader
  rw [processes, Op.after_list, List.filter_append, List.filter_map, hlead, hcomm]

/-- The text after the step, from the tasks before it. -/
theorem pidText_after (op : Op) (k : Kernel) :
    pidText Task.cloaked (op.after k) = pidText (markedAfter k op) k := by
  have hborn : ((op.born k).filter Task.isLeader).filter Task.cloaked = [] := by
    refine List.filter_eq_nil_iff.mpr fun t ht => ?_
    rw [Task.cloaked_iff, (Op.born_cloak (List.mem_of_mem_filter ht)).1]
    decide
  have hfilter : (k.processes.filter (fun t => op.keeps k t)).filter
      (Task.cloaked ∘ fun t => op.effect t) = k.processes.filter (markedAfter k op) := by
    rw [List.filter_filter]
    exact List.filter_congr fun t _ => Bool.and_comm _ _
  rw [pidText, processes_after, List.filter_append, hborn, List.append_nil, List.filter_map,
    hfilter, List.flatMap_map, pidText]
  simp only [Op.effect_pid]

theorem noneMarked_after :
    NoneMarked (op.after k) ↔ ∀ t ∈ k.processes, markedAfter k op t = false := by
  unfold NoneMarked
  rw [processes_after]
  constructor
  · intro h t ht
    cases hkeeps : op.keeps k t with
    | false => simp [markedAfter, hkeeps]
    | true =>
      have hmem : op.effect t ∈ (k.processes.filter (fun t => op.keeps k t)).map op.effect :=
        List.mem_map_of_mem (List.mem_filter.mpr ⟨ht, hkeeps⟩)
      simp [markedAfter, h _ (List.mem_append_left _ hmem)]
  · intro h t ht
    rcases List.mem_append.mp ht with hold | hborn
    · obtain ⟨u, hu, rfl⟩ := List.mem_map.mp hold
      obtain ⟨hu, hkeeps⟩ := List.mem_filter.mp hu
      have hmark := h u hu
      rw [markedAfter, hkeeps, Bool.true_and] at hmark
      exact hmark
    · have hcloak := (Op.born_cloak (List.mem_of_mem_filter hborn)).1
      rw [Task.cloaked, hcloak]
      decide

/-- What a step that marks no process leaves marked was marked. -/
theorem cloaked_of_markedAfter (h : op.asks t ≠ some 1) (hmark : markedAfter k op t = true) :
    t.cloaked = true := by
  rw [markedAfter, Bool.and_eq_true, Task.cloaked_iff, Op.effect_cloak] at hmark
  rw [Task.cloaked_iff]
  cases hask : op.asks t with
  | none => simpa [hask] using hmark.2
  | some v =>
    rw [hask] at hmark h
    exact absurd (congrArg some hmark.2) h

/-- **One step**, from a state in which the readers agree.  What it has to satisfy is read off what
it asks for `cloak` and what it writes to the flag. -/
theorem agree_after (hk : Agree k) : Agree (op.after k) ↔ KeepsAgreement k op := by
  obtain ⟨hfits, hagree⟩ := (agree_iff k).mp hk
  rw [agree_iff, pidText_after, noneMarked_after, Op.after_flag]
  by_cases hhides : ∃ t ∈ k.processes, op.asks t = some 1
  · obtain ⟨t, ht, hask⟩ := hhides
    obtain ⟨hwritten, hkeeps⟩ := written_of_asks (k := k) hask
    -- such a call marks what it is about and leaves the marks there are
    have hmark : ∀ u ∈ k.processes, markedAfter k op u = (u.cloaked || op.asks u == some 1) := by
      intro u _
      rw [markedAfter, hkeeps, Bool.true_and, Task.cloaked, Op.effect_cloak]
      cases hu : op.asks u with
      | none => simp [Task.cloaked]
      | some v =>
        rw [asks_uniform hu hask]
        simp
    have hmarked : ¬ ∀ u ∈ k.processes, markedAfter k op u = false := by
      intro h
      have hno := h t ht
      rw [hmark t ht, hask] at hno
      simp at hno
    rw [hwritten, Option.getD_none, pidText_congr hmark, or_iff_left hmarked, KeepsAgreement,
      hwritten]
    constructor
    · rintro ⟨hsize, hflag⟩
      refine ⟨?_, fun _ _ _ => ⟨hflag, hsize⟩⟩
      rintro v ⟨⟩
    · rintro ⟨_, h⟩
      exact ⟨(h t ht hask).2, (h t ht hask).1⟩
  · have hno : ∀ t ∈ k.processes, op.asks t ≠ some 1 := fun t ht h => hhides ⟨t, ht, h⟩
    have hold : ∀ t ∈ k.processes, markedAfter k op t = true → t.cloaked = true :=
      fun t ht => cloaked_of_markedAfter (hno t ht)
    have hsize := Nat.lt_of_le_of_lt (pidText_length_le hold) hfits
    cases hwritten : op.written with
    | none =>
      refine iff_of_true ⟨hsize, ?_⟩ ⟨?_, fun t ht h => absurd h (hno t ht)⟩
      · rcases hagree with hflag | hnone
        · exact Or.inl hflag
        · refine Or.inr fun t ht => ?_
          by_contra hmark
          have hcloaked := hold t ht (by simpa using hmark)
          rw [hnone t ht] at hcloaked
          cases hcloaked
      · intro v hv
        rw [hwritten] at hv
        cases hv
    | some v =>
      have hsame : (∀ t ∈ k.processes, markedAfter k op t = false) ↔ NoneMarked k := by
        cases op with
        | writeHidden parsed => exact Iff.rfl
        | _ => cases hwritten
      rw [Option.getD_some, hsame, KeepsAgreement, hwritten]
      constructor
      · rintro ⟨_, h⟩
        refine ⟨?_, fun t ht hask => absurd hask (hno t ht)⟩
        rintro _ ⟨⟩
        exact h
      · rintro ⟨h, _⟩
        exact ⟨hsize, h v rfl⟩

end Steps

/-- **The exact condition for the agreement of the two readers.** Along a run from boot the listing
of `/proc` and `/proc/hidden_process` speak of the same processes after every step exactly when
every step satisfies `KeepsAgreement`.  The manual presents the file as the list of what the listing
leaves out, so whoever reads it to find out what is hidden relies on this; the flag, which only one
of the two looks at, is where they part. -/
theorem agreement_iff {k : Kernel} {w : Trail Kernel Op} (hboot : k.Booted)
    (hrun : Run Op.Step k w) : Always Agree w ↔ StepsOk KeepsAgreement k w := by
  have hinv : ∀ (s : Kernel) (op : Op) (t : Kernel), True → Op.Step s op t → True :=
    fun _ _ _ _ _ => trivial
  have hstart : Agree k := by
    rw [agree_iff]
    have hnone : NoneMarked k := by
      intro t ht
      rw [Task.cloaked, hboot.visible t (mem_processes.mp ht).1]
      decide
    have hempty : k.processes.filter Task.cloaked = [] := by
      refine List.filter_eq_nil_iff.mpr fun t ht => ?_
      rw [hnone t ht]
      decide
    rw [pidText, hempty]
    exact ⟨by decide, Or.inl hboot.flag⟩
  refine hrun.always_iff hinv ?_ trivial hstart
  rintro s op t _ hs rfl
  exact agree_after hs

/-- Hide `init`, show it, and only then write 0 to the flag. -/
theorem agreement_hide_show :
    Always Agree (Op.trail initial [.hide 0 1 1, .hide 0 1 0, .writeHidden (some 0)]) := by
  refine (agreement_iff booted_initial (Op.run_trail _ _)).mpr ⟨?_, ?_, ?_, trivial⟩
  · exact ⟨by rintro v ⟨⟩, by decide +kernel⟩
  · exact ⟨by rintro v ⟨⟩, by decide +kernel⟩
  · refine ⟨?_, by decide +kernel⟩
    rintro v ⟨⟩
    have hnone : ∀ t ∈ (final initial (Op.trail initial [.hide 0 1 1, .hide 0 1 0])).processes,
        t.cloaked = false := by decide +kernel
    exact Or.inr hnone

/-- With flag 0 the file still names the process that the listing shows. -/
theorem flag_zero_disagrees :
    Run Op.Step initial (Op.trail initial [.hide 0 1 1, .writeHidden (some 0)]) ∧
      ¬ Agree (final initial (Op.trail initial [.hide 0 1 1, .writeHidden (some 0)])) := by
  refine ⟨Op.run_trail _ _, ?_⟩
  rw [agree_iff]
  rintro ⟨_, hflag | hnone⟩
  · revert hflag
    decide +kernel
  · have hall : ∀ t ∈ (final initial
      (Op.trail initial [.hide 0 1 1, .writeHidden (some 0)])).processes, t.cloaked = false := hnone
    revert hall
    decide +kernel

end Osexp.Hide
