/-
# Reading `/proc/hidden_process` while the processes change

`proc_read_hidden_process` goes through the processes without a lock and appends the number of each
one that is marked when the loop is at it.  `Reader` is the kernel with one such loop: between two
turns any operation can come.

What is read need not be the list of any moment.  `hidden_read` says what it is: as long as no
process ends while the loop stands at it, a process that is there and hidden at every turn is read
exactly once, and a number that no hidden process has at any turn is not read at all.  Alone, the
loop reads what it reads in one step (`reads_alone`).

So a process that is hidden or shown while the file is read may be in the text or not, and that is
all that is left open.  A turn whose number would not fit `kbuf` is no step of such a run.
-/
import Osexp.Hide.HiddenList
import Osexp.Hide.ProcessWalk
import Mathlib.Data.List.Count

namespace Osexp.Hide

open Kernel Lts Walk

/-! ## 1. The loop, turn by turn -/

/-- The kernel, and a call of `read` in its loop or at its end. -/
structure Reader where
  kernel : Kernel
  kbuf : List Char
  stand : Option Nat
  finished : Bool

inductive ReadAct
  | op (op : Op)
  | next

def ReadAct.isNext : ReadAct → Bool
  | op _ => false
  | next => true

namespace Reader

/-- The call has come to its loop. -/
def start (k : Kernel) : Reader := ⟨k, [], none, false⟩

/-- The next turn: to the next process, or out of the loop.  It is none when the process at which
the loop stands has gone, or when an array is too small. -/
def turn (s : Reader) : Option Reader :=
  if Stands s.kernel.processIds s.stand then
    match s.kernel.nextProcess s.stand with
    | some t =>
      (if t.cloak = 1 then appendPid s.kbuf t else .ok s.kbuf).toOption.map fun kbuf =>
        { s with kbuf := kbuf, stand := some t.threadPid }
    | none => some { s with finished := true }
  else none

/-- What an action leads to, if it is possible. -/
def after (s : Reader) (a : ReadAct) : Option Reader :=
  if s.finished = true then none
  else
    match a with
    | .op o => some { s with kernel := o.after s.kernel }
    | .next => s.turn

def Step (s : Reader) (a : ReadAct) (s' : Reader) : Prop := s.after a = some s'

/-- No process ends while the loop stands at it. -/
def Stays (s : Reader) : ReadAct → Prop
  | .op o => o.LeavesStand s.kernel s.stand
  | .next => True

instance (s : Reader) : ∀ a : ReadAct, Decidable (s.Stays a)
  | .op o => inferInstanceAs (Decidable (o.LeavesStand s.kernel s.stand))
  | .next => isTrue trivial

/-- How often the number has been read. -/
def times (s : Reader) (n : Nat) : Nat :=
  (Text.tokens (· == ' ') s.kbuf).count (decimal n)

/-- At every turn of the loop the kernel satisfies `P`. -/
def AtTurns (P : Kernel → Prop) (s : Reader) (r : Trail Reader ReadAct) : Prop :=
  StepsOk (fun s a => a.isNext = true → P s.kernel) s r

/-- The process is there and hidden. -/
def HasHidden (t : Task) (k : Kernel) : Prop :=
  ∃ u ∈ k.processes, u.pid = t.pid ∧ u.threadPid = t.threadPid ∧ u.cloak = 1

/-- No hidden process has the number. -/
def NoneHidden (n : Nat) (k : Kernel) : Prop := ∀ u ∈ k.processes, u.cloak = 1 → u.pid ≠ n

instance (t : Task) (k : Kernel) : Decidable (HasHidden t k) :=
  inferInstanceAs (Decidable (∃ u ∈ k.processes, _))

instance (n : Nat) (k : Kernel) : Decidable (NoneHidden n k) :=
  inferInstanceAs (Decidable (∀ u ∈ k.processes, _))

instance (P : Kernel → Prop) [DecidablePred P] (s : Reader) (r : Trail Reader ReadAct) :
    Decidable (AtTurns P s r) :=
  inferInstanceAs (Decidable (StepsOk _ s r))

end Reader

/-! ## 2. What a turn appends -/

/-- Numbers, each with a blank. -/
def numbersText (ns : List Nat) : List Char := ns.flatMap fun n => decimal n ++ [' ']

theorem count_numbersText (ns : List Nat) (n : Nat) :
    (Text.tokens (· == ' ') (numbersText ns)).count (decimal n) = ns.count n := by
  rw [numbersText, Text.tokens_flatMap rfl fun n _ => decimal_word n]
  exact List.count_map_of_injective ns decimal decimal_injective n

theorem appendPid_ok {kbuf text : List Char} {t : Task} (h : appendPid kbuf t = .ok text) :
    text = kbuf ++ (decimal t.pid ++ [' ']) := by
  unfold appendPid at h
  dsimp only at h
  split at h
  · cases h
  · split at h
    · cases h
    · cases h
      rfl

namespace Reader

variable {s s' : Reader} {a : ReadAct} {o : Op} {t u : Task} {n : Nat} {k : Kernel}

/-- **What a turn does**: nothing but to leave the loop at the end of the list, or to go on to a
process, whose number is appended if it is marked. -/
theorem turn_cases (h : s.turn = some s') :
    (s.kernel.nextProcess s.stand = none ∧ s' = { s with finished := true }) ∨
      ∃ u, s.kernel.nextProcess s.stand = some u ∧
        s' = { s with
          kbuf := s.kbuf ++ (if u.cloak = 1 then numbersText [u.pid] else [])
          stand := some u.threadPid } := by
  unfold turn at h
  split at h
  · split at h
    · rename_i u hu
      refine Or.inr ⟨u, hu, ?_⟩
      obtain ⟨kbuf, hkbuf, rfl⟩ := Option.map_eq_some_iff.mp h
      split at hkbuf
      · rename_i hcloak
        cases happ : appendPid s.kbuf u with
        | error b =>
          rw [happ] at hkbuf
          cases hkbuf
        | ok text =>
          rw [happ] at hkbuf
          cases hkbuf
          rw [appendPid_ok happ, if_pos hcloak]
          simp [numbersText]
      · rename_i hcloak
        cases hkbuf
        rw [if_neg hcloak, List.append_nil]
    · rename_i hnone
      cases h
      exact Or.inl ⟨hnone, rfl⟩
  · cases h

/-- The text is made of numbers, and this one has been read so often. -/
def Read (n c : Nat) (kbuf : List Char) : Prop :=
  ∃ ns : List Nat, kbuf = numbersText ns ∧ ns.count n = c

theorem Read.times {c : Nat} (h : Read n c s.kbuf) : s.times n = c := by
  obtain ⟨ns, htext, hcount⟩ := h
  rw [Reader.times, htext, count_numbersText, hcount]

/-- The number that a turn appends. -/
theorem Read.turn {c : Nat} {kbuf : List Char} (h : Read n c kbuf) (u : Task) :
    Read n (c + if u.cloak = 1 ∧ u.pid = n then 1 else 0)
      (kbuf ++ if u.cloak = 1 then numbersText [u.pid] else []) := by
  obtain ⟨ns, rfl, rfl⟩ := h
  by_cases hcloak : u.cloak = 1
  · rw [if_pos hcloak]
    refine ⟨ns ++ [u.pid], by simp [numbersText], ?_⟩
    rw [List.count_append, List.count_singleton]
    simp [hcloak]
  · rw [if_neg hcloak, if_neg (fun hno => hcloak hno.1), List.append_nil]
    exact ⟨ns, rfl, rfl⟩

/-! ## 3. A process that is hidden all along -/

/-- Before the loop gets to the process its number has not been read, and behind it once. -/
structure InPlace (t : Task) (s : Reader) : Prop where
  known : t.threadPid < s.kernel.fresh
  stands : s.finished = false → Stands s.kernel.processIds s.stand
  count : s.finished = false → t.threadPid ∈ s.kernel.processIds →
    Read t.pid (if Passed s.kernel.processIds s.stand t.threadPid then 1 else 0) s.kbuf
  ended : s.finished = true → Read t.pid 1 s.kbuf

/-- An operation between two turns. -/
theorem InPlace.op (h : InPlace t s) (hover : s.finished = false)
    (hstay : o.LeavesStand s.kernel s.stand) : InPlace t { s with kernel := o.after s.kernel } := by
  have hstand := h.stands hover
  refine ⟨Nat.lt_of_lt_of_le h.known (Op.fresh_le_after _ _),
    fun _ => stands_after hstand hstay, fun _ hmem => ?_, fun hno => ?_⟩
  · -- the process has been there before
    rw [processIds_after, List.mem_append] at hmem
    rcases hmem with hmem | hmem
    · obtain ⟨hmem, hkeep⟩ := List.mem_filter.mp hmem
      obtain ⟨u, hu, hid⟩ := List.mem_map.mp hmem
      rw [← hid, keepsId_of_mem (mem_processes.mp hu).1] at hkeep
      have hpassed := passed_after hstand hstay (mem_processes.mp hu).1 hkeep
      rw [hid] at hpassed
      simp only [hpassed]
      exact h.count hover hmem
    · obtain ⟨u, hu, hid⟩ := List.mem_map.mp hmem
      have hlt := h.known
      rw [← hid, (Op.born_cloak (List.mem_of_mem_filter hu)).2] at hlt
      exact absurd hlt (Nat.lt_irrefl _)
  · rw [hover] at hno
    cases hno

/-- A turn, at which the process is there and hidden. -/
theorem InPlace.turn (h : InPlace t s) (hover : s.finished = false) (hin : HasHidden t s.kernel)
    (hturn : s.turn = some s') : InPlace t s' := by
  obtain ⟨w, hw, hpid, hid, hcloak⟩ := hin
  have hwmem := (mem_processes.mp hw).1
  have hmem : t.threadPid ∈ s.kernel.processIds := hid ▸ List.mem_map_of_mem hw
  have hcount := h.count hover hmem
  rcases turn_cases hturn with ⟨hnone, rfl⟩ | ⟨u, hu, rfl⟩
  · -- every process is behind the loop
    rw [if_pos ((passed_all hnone).mpr hmem)] at hcount
    exact ⟨h.known, nofun, nofun, fun _ => hcount⟩
  · obtain ⟨huproc, rest, hahead⟩ := nextProcess_eq_some hu
    have humem := (mem_processes.mp huproc).1
    refine ⟨h.known, fun _ => stands_some (List.mem_map_of_mem huproc), fun _ _ => ?_,
      fun hno => by rw [hover] at hno; cases hno⟩
    have hread := hcount.turn u
    have hpassed : Passed s.kernel.processIds (some u.threadPid) t.threadPid ↔
        Passed s.kernel.processIds s.stand t.threadPid ∨ t.threadPid = u.threadPid :=
      passed_turn hu
    by_cases heq : t.threadPid = u.threadPid
    · -- the loop gets to the process
      have hsame : w = u := s.kernel.tasks.eq_of_threadPid hwmem humem (hid.trans heq)
      have hbefore : ¬ Passed s.kernel.processIds s.stand t.threadPid := by
        intro hno
        rw [Passed, hahead, heq] at hno
        exact hno.2 List.mem_cons_self
      rw [if_neg hbefore, if_pos ⟨hsame ▸ hcloak, hsame ▸ hpid⟩] at hread
      rw [if_pos (hpassed.mpr (Or.inr heq))]
      exact hread
    · have hne : ¬ (u.cloak = 1 ∧ u.pid = t.pid) := by
        rintro ⟨_, hno⟩
        have hsame : w = u := s.kernel.tasks.eq_of_pid hwmem humem (hpid.trans hno.symm)
        exact heq (hsame ▸ hid.symm)
      rw [if_neg hne, Nat.add_zero] at hread
      simp only [hpassed, heq, or_false]
      exact hread

/-- **One step.** -/
theorem InPlace.step (h : InPlace t s) (hok : s.Stays a)
    (hin : a.isNext = true → HasHidden t s.kernel) (hstep : Step s a s') : InPlace t s' := by
  unfold Step after at hstep
  split at hstep
  · cases hstep
  · rename_i hover
    rw [Bool.not_eq_true] at hover
    cases a with
    | op o =>
      cases hstep
      exact h.op hover hok
    | next => exact h.turn hover (hin rfl) hstep

/-! ## 4. A number that no hidden process has -/

theorem read_none_step (h : Read n 0 s.kbuf) (hnone : a.isNext = true → NoneHidden n s.kernel)
    (hstep : Step s a s') : Read n 0 s'.kbuf := by
  unfold Step after at hstep
  split at hstep
  · cases hstep
  · cases a with
    | op o =>
      cases hstep
      exact h
    | next =>
      rcases turn_cases hstep with ⟨_, rfl⟩ | ⟨u, hu, rfl⟩
      · exact h
      · have hread := h.turn u
        have hne : ¬ (u.cloak = 1 ∧ u.pid = n) := fun hno =>
          hnone rfl u (nextProcess_eq_some hu).1 hno.1 hno.2
        rw [if_neg hne] at hread
        exact hread

/-! ## 5. Runs -/

/-- **What a read of `/proc/hidden_process` gives** when anything may happen between two turns of
its loop: every process that is hidden all along once, and no number of a process that is not hidden
at any of them.  The text need not be the list of any one moment, so this is the most that a reader
may conclude from it.  A turn that would write behind `kbuf` is no step; what fits is the subject of
`lists_hidden_iff`. -/
theorem hidden_read {r : Trail Reader ReadAct} (hr : Run Step (start k) r)
    (hstay : StepsOk Stays (start k) r) (hover : (final (start k) r).finished = true) :
    (∀ t ∈ k.processes, AtTurns (HasHidden t) (start k) r →
        (final (start k) r).times t.pid = 1) ∧
      ∀ n, AtTurns (NoneHidden n) (start k) r → (final (start k) r).times n = 0 := by
  constructor
  · intro t ht hin
    have hstart : InPlace t (start k) := by
      refine ⟨k.fresh_tasks t (mem_processes.mp ht).1, fun _ => stands_none, fun _ _ => ?_, nofun⟩
      have hno : ¬ Passed (start k).kernel.processIds (start k).stand t.threadPid :=
        not_passed_none
      rw [if_neg hno]
      exact ⟨[], rfl, rfl⟩
    have hall := hr.always_of_stepsOk
      (fun _ _ _ h hok hstep => InPlace.step h hok.1 hok.2 hstep) hstart (hstay.and hin)
    exact ((final_of_always hstart hall).ended hover).times
  · intro n hnone
    have hstart : Read n 0 (start k).kbuf := ⟨[], rfl, rfl⟩
    have hall : Always (fun s : Reader => Read n 0 s.kbuf) r :=
      hr.always_of_stepsOk (fun _ _ _ h hok hstep => read_none_step h hok hstep) hstart hnone
    exact (final_of_always (P := fun s : Reader => Read n 0 s.kbuf) hstart hall).times

/-- The run of these actions, as far as they are possible. -/
def trail (s : Reader) : List ReadAct → Trail Reader ReadAct
  | [] => []
  | a :: as =>
    match s.after a with
    | some s' => (a, s') :: trail s' as
    | none => []

theorem run_trail (s : Reader) (as : List ReadAct) : Run Step s (trail s as) := by
  induction as generalizing s with
  | nil => exact .nil s
  | cons a as ih =>
    rw [trail]
    split
    · rename_i s' hs
      exact .cons hs (ih s')
    · exact .nil s

/-- `init` with 2 and 3, of which 2 is hidden. -/
def oneHidden : Kernel :=
  (Op.hide 0 2 1).after
    ((Op.copyProcess 1 false 3).after ((Op.copyProcess 1 false 2).after initial))

/-- While the loop stands at 2, 3 is hidden, 4 is forked, and 1 is hidden, which the loop has
passed. -/
def readBetween : List ReadAct :=
  [.next, .next, .op (.hide 0 3 1), .op (.copyProcess 1 false 4), .op (.hide 0 1 1), .next, .next,
    .next]

theorem hidden_read_between :
    (final (start oneHidden) (trail (start oneHidden) readBetween)).kbuf = "2 3 ".toList ∧
      (final (start oneHidden) (trail (start oneHidden) readBetween)).times 2 = 1 ∧
      (final (start oneHidden) (trail (start oneHidden) readBetween)).times 4 = 0 := by
  obtain ⟨hhidden, hnone⟩ := hidden_read (run_trail (start oneHidden) readBetween)
    (by decide +kernel) (by decide +kernel)
  exact ⟨by decide +kernel,
    hhidden ⟨2, 2, 0, ['i', 'n', 'i', 't'], by decide, 1, 1⟩ (by decide +kernel)
      (by decide +kernel),
    hnone 4 (by decide +kernel)⟩

/-! ## 6. The loop alone -/

/-- The rest of the loop with nothing between its turns, by induction on the processes before it. -/
theorem reads_rest {text : List Char} : ∀ {ps : List Task} {s : Reader}, s.finished = false →
    Stands s.kernel.processIds s.stand → ahead s.kernel.processIds s.stand = ps.map Task.threadPid →
    (∀ p ∈ ps, p ∈ s.kernel.processes) → hiddenLoop ps s.kbuf = .ok text →
    ∃ r, Run Step s r ∧ (∀ p ∈ r, p.1.isNext = true) ∧ (final s r).kernel = s.kernel ∧
      (final s r).kbuf = text ∧ (final s r).finished = true
  | [], s, hover, hstand, hahead, _, h => by
    cases h
    have hnext : s.kernel.nextProcess s.stand = none := by
      rw [nextProcess, hahead]
      rfl
    have hstep : Step s .next { s with finished := true } := by
      rw [Step, after, if_neg (by rw [hover]; exact Bool.false_ne_true)]
      rw [turn, if_pos hstand, hnext]
    exact ⟨_, .cons hstep (.nil _), by simp [ReadAct.isNext], rfl, rfl, rfl⟩
  | p :: ps, s, hover, hstand, hahead, hmem, h => by
    have hp := hmem p List.mem_cons_self
    have hfound : s.kernel.pidTask p.threadPid = some p :=
      pidTask_eq_some_iff.mpr ⟨(mem_processes.mp hp).1, rfl⟩
    have hnext : s.kernel.nextProcess s.stand = some p := by
      rw [nextProcess, hahead, List.map_cons, List.head?_cons, Option.bind_some, hfound]
    obtain ⟨kbuf, hkbuf, hrest⟩ : ∃ kbuf,
        (if p.cloak = 1 then appendPid s.kbuf p else .ok s.kbuf) = .ok kbuf ∧
          hiddenLoop ps kbuf = .ok text := by
      rw [hiddenLoop] at h
      split at h
      · rename_i hcloak
        rw [if_pos hcloak]
        cases happ : appendPid s.kbuf p with
        | error b =>
          rw [happ] at h
          cases h
        | ok kbuf =>
          rw [happ] at h
          exact ⟨kbuf, rfl, h⟩
      · rename_i hcloak
        rw [if_neg hcloak]
        exact ⟨s.kbuf, rfl, h⟩
    set s₁ : Reader := { s with kbuf := kbuf, stand := some p.threadPid }
    have hstep : Step s .next s₁ := by
      rw [Step, after, if_neg (by rw [hover]; exact Bool.false_ne_true)]
      rw [turn, if_pos hstand, hnext]
      dsimp only
      rw [hkbuf]
      rfl
    have hahead₁ : ahead s₁.kernel.processIds s₁.stand = ps.map Task.threadPid :=
      ahead_next (processIds_nodup _) hahead
    obtain ⟨r, hr, hnexts, hkernel, htext, hend⟩ := reads_rest (s := s₁) hover
      (stands_some (List.mem_map_of_mem hp)) hahead₁
      (fun q hq => hmem q (List.mem_cons_of_mem _ hq)) hrest
    exact ⟨(.next, s₁) :: r, .cons hstep hr, List.forall_mem_cons.mpr ⟨rfl, hnexts⟩, hkernel,
      htext, hend⟩

/-- **With nothing between its turns** the loop leaves the text of the read in one step. -/
theorem reads_alone {text : List Char} (h : k.kbuf = some text) :
    ∃ r, Run Step (start k) r ∧ (∀ p ∈ r, p.1.isNext = true) ∧ (final (start k) r).kernel = k ∧
      (final (start k) r).kbuf = text ∧ (final (start k) r).finished = true := by
  rw [kbuf_eq_hiddenLoop] at h
  cases hloop : hiddenLoop k.processes [] with
  | error b =>
    rw [hloop] at h
    cases h
  | ok text' =>
    rw [hloop] at h
    cases h
    exact reads_rest rfl stands_none rfl (fun _ hp => hp) hloop

end Reader

end Osexp.Hide
