/-
# A listing of `/proc` in several calls

A reader calls `proc_pid_readdir` again and again, each time with some room, and between the calls
the kernel does anything.  The only memory from call to call is the position.

`listing_complete` is about any such session from the first process position to the end: the
numbers emitted are strictly increasing, a process shown at every call is emitted once, and one
hidden at every call is not emitted.  What carries it is that each call emits the numbers shown from
its position up to the next one (`Emits`), so that nothing between two positions is passed over.

A process may end and its number be given to another one between two calls, a process may be hidden
after its entry has been emitted, and one that is shown again may be behind the position already.
So nothing can be promised of all processes.  What is promised is the two things that matter:
nothing that stays visible is missed, and nothing that stays hidden is shown.
-/
import Osexp.Hide.Machine

namespace Osexp.Hide

open Kernel Lts

/-! ## 1. Sessions -/

/-- The kernel, and the directory context that the reader keeps. -/
structure Session where
  kernel : Kernel
  ctx : DirContext

/-- An operation on the kernel, or a call of `proc_pid_readdir` with some room. -/
inductive Session.Act
  | op (o : Op)
  | call (info : ProcFsInfo) (room : Nat)

namespace Session

/-- The session after the act. -/
def after (s : Session) : Act → Session
  | .op o => { s with kernel := o.after s.kernel }
  | .call info room =>
    let (ctx, kernel) := s.kernel.procPidReaddir info { s.ctx with room := room }
    ⟨kernel, ctx⟩

def Step (s : Session) (a : Act) (s' : Session) : Prop := s' = s.after a

/-- The run of these acts. -/
def trail : Session → List Act → Trail Session Act
  | _, [] => []
  | s, a :: as => (a, s.after a) :: trail (s.after a) as

theorem run_trail (s : Session) (as : List Act) : Run Step s (trail s as) := by
  induction as generalizing s with
  | nil => exact .nil s
  | cons a as ih => exact .cons rfl (ih _)

/-- `P` holds at every call of the run. -/
def DuringCalls (P : ProcFsInfo → Kernel → Prop) : Session → Trail Session Act → Prop :=
  StepsOk fun s a => ∀ info room, a = .call info room → P info s.kernel

/-! ## 2. One act -/

/-- The reader is at the number `q`, and `ns` are the numbers it was given. -/
structure Reached (s : Session) (q : Nat) (ns : List Nat) : Prop where
  pos : s.ctx.pos = q + TGID_OFFSET
  le_limit : q ≤ PID_MAX_LIMIT
  emitted : s.ctx.emitted = ns.map Entry.process
  sorted : ns.Pairwise (· < ·)
  below : ∀ n ∈ ns, n < q

variable {s s' : Session} {a : Act} {q n : Nat} {ns : List Nat}

/-- An operation leaves the reader alone. -/
theorem Reached.op (h : Reached s q ns) (o : Op) : Reached (s.after (.op o)) q ns :=
  ⟨h.pos, h.le_limit, h.emitted, h.sorted, h.below⟩

/-- **A call** goes on to some `q'` and gives the numbers shown on the way. -/
theorem Reached.call (h : Reached s q ns) (info : ProcFsInfo) (room : Nat) :
    ∃ q' new, q ≤ q' ∧ Emits info s.kernel q q' new ∧
      Reached (s.after (.call info room)) q' (ns ++ new) := by
  have hpos : ({ s.ctx with room := room } : DirContext).pos = q + TGID_OFFSET := h.pos
  obtain ⟨q', new, hlist⟩ := procPidReaddir_lists info s.kernel hpos h.le_limit
  refine ⟨q', new, hlist.from_le, hlist.emits, hlist.pos, hlist.le_limit, ?_, ?_, ?_⟩
  · rw [List.map_append, ← h.emitted]
    exact hlist.emitted
  · refine List.pairwise_append.mpr ⟨h.sorted, hlist.emits.sorted, ?_⟩
    intro m hm n hn
    exact Nat.lt_of_lt_of_le (h.below m hm) ((hlist.emits.mem_iff n).mp hn).1
  · intro n hn
    rcases List.mem_append.mp hn with hn | hn
    · exact Nat.lt_of_lt_of_le (h.below n hn) hlist.from_le
    · exact ((hlist.emits.mem_iff n).mp hn).2.1

/-! ## 3. Whole sessions -/

/-- The session has reached some position. -/
def Open (s : Session) : Prop := ∃ q ns, Reached s q ns

/-- The number has been given if the position is beyond it. -/
def Given (n : Nat) (s : Session) : Prop :=
  ∃ q ns, Reached s q ns ∧ (n < q → n ∈ ns) ∧ (0 < q → n < PID_MAX_LIMIT)

/-- The number has not been given. -/
def NotGiven (n : Nat) (s : Session) : Prop := ∃ q ns, Reached s q ns ∧ n ∉ ns

theorem open_step (h : Open s) (hstep : Step s a s') : Open s' := by
  obtain ⟨q, ns, h⟩ := h
  obtain rfl : s' = s.after a := hstep
  cases a with
  | op o => exact ⟨q, ns, h.op o⟩
  | call info room =>
    obtain ⟨q', new, _, _, h'⟩ := h.call info room
    exact ⟨q', ns ++ new, h'⟩

theorem given_step (h : Given n s)
    (hshown : ∀ info room, a = .call info room → Shown info s.kernel n)
    (hstep : Step s a s') : Given n s' := by
  obtain ⟨q, ns, h, hgiven, hlimit⟩ := h
  obtain rfl : s' = s.after a := hstep
  cases a with
  | op o => exact ⟨q, ns, h.op o, hgiven, hlimit⟩
  | call info room =>
    obtain ⟨q', new, _, hemits, h'⟩ := h.call info room
    have hn := hshown info room rfl
    refine ⟨q', ns ++ new, h', ?_, ?_⟩
    · -- below the old position it was given before, and from there on by this call
      intro hq'
      rcases Nat.lt_or_ge n q with hq | hq
      · exact List.mem_append_left _ (hgiven hq)
      · exact List.mem_append_right _ ((hemits.mem_iff n).mpr ⟨hq, hq', hn⟩)
    · intro _
      obtain ⟨t, ht, _, rfl, _⟩ := hn
      exact s.kernel.tasks.small t ht

theorem notGiven_step (h : NotGiven n s)
    (hhidden : ∀ info room, a = .call info room →
      ∃ t ∈ s.kernel.processes, t.pid = n ∧ s.kernel.hidesTask t = true)
    (hstep : Step s a s') : NotGiven n s' := by
  obtain ⟨q, ns, h, hnot⟩ := h
  obtain rfl : s' = s.after a := hstep
  cases a with
  | op o => exact ⟨q, ns, h.op o, hnot⟩
  | call info room =>
    obtain ⟨q', new, _, hemits, h'⟩ := h.call info room
    obtain ⟨t, ht, rfl, hhid⟩ := hhidden info room rfl
    obtain ⟨ht, hlead⟩ := mem_processes.mp ht
    refine ⟨q', ns ++ new, h', fun hmem => ?_⟩
    rcases List.mem_append.mp hmem with hmem | hmem
    · exact hnot hmem
    · have hshow := ((shown_iff_of_leader ht hlead).mp ((hemits.mem_iff _).mp hmem).2.2).2
      rw [hhid] at hshow
      cases hshow

theorem Reached.unique {q' : Nat} {ns' : List Nat} (h : Reached s q ns) (h' : Reached s q' ns') :
    q = q' ∧ ns = ns' := by
  have hpos := h.pos.symm.trans h'.pos
  have hmap := h.emitted.symm.trans h'.emitted
  have hinj : Function.Injective Entry.process := fun _ _ heq => Entry.process.inj heq
  exact ⟨by omega, List.map_injective_iff.mpr hinj hmap⟩

/-- **A listing in several calls loses and repeats nothing.** What `ls /proc` shows is put together
from calls with room for a few entries each, while processes come, go, are hidden and shown.  A
process that is shown throughout must be in it once, and a hidden one not at all, wherever the calls
are cut; nothing is promised of a process that changes sides meanwhile. -/
theorem listing_complete {s : Session} {w : Trail Session Act} (hpos : s.ctx.pos = TGID_OFFSET)
    (hnew : s.ctx.emitted = []) (hrun : Run Step s w)
    (hend : (final s w).ctx.pos = PID_MAX_LIMIT + TGID_OFFSET) :
    ∃ ns : List Nat, (final s w).ctx.emitted = ns.map Entry.process ∧ ns.Pairwise (· < ·) ∧
      (∀ n, DuringCalls (fun info k => Shown info k n) s w → ns.count n = 1) ∧
      (∀ n, DuringCalls (fun _ k => ∃ t ∈ k.processes, t.pid = n ∧ k.hidesTask t = true) s w →
        n ∉ ns) := by
  have hstart : Reached s 0 [] :=
    ⟨hpos.trans (Nat.zero_add _).symm, Nat.zero_le _, hnew, List.Pairwise.nil, by simp⟩
  obtain ⟨q, ns, hreached⟩ := final_of_always (P := Open) ⟨0, [], hstart⟩
    (hrun.invariant (fun _ _ _ h hstep => open_step h hstep) ⟨0, [], hstart⟩)
  have hq : q = PID_MAX_LIMIT := by
    have hpos := hreached.pos
    omega
  refine ⟨ns, hreached.emitted, hreached.sorted, fun n hshown => ?_, fun n hhidden => ?_⟩
  · have hbegin : Given n s := ⟨0, [], hstart, by simp, by simp⟩
    obtain ⟨q', ns', h', hgiven, hlimit⟩ := final_of_always hbegin
      (hrun.always_of_stepsOk (fun _ _ _ h hok hstep => given_step h hok hstep) hbegin hshown)
    obtain ⟨rfl, rfl⟩ := hreached.unique h'
    have hn : n < PID_MAX_LIMIT := hlimit (by rw [hq]; decide)
    have hnodup : ns.Nodup := hreached.sorted.imp Nat.ne_of_lt
    exact List.count_eq_one_of_mem hnodup (hgiven (hq.symm ▸ hn))
  · have hbegin : NotGiven n s := ⟨0, [], hstart, by simp⟩
    obtain ⟨q', ns', h', hnot⟩ := final_of_always hbegin
      (hrun.always_of_stepsOk (fun _ _ _ h hok hstep => notGiven_step h hok hstep) hbegin hhidden)
    obtain ⟨rfl, rfl⟩ := hreached.unique h'
    exact hnot

/-- Processes 1 and 2, and room for one entry in the first call; then 1 is hidden. -/
theorem listing_complete_two_calls :
    ∃ ns : List Nat,
      (final ⟨(Op.copyProcess 1 false 2).after initial, TGID_OFFSET, 0, []⟩
        (trail ⟨(Op.copyProcess 1 false 2).after initial, TGID_OFFSET, 0, []⟩
          [.call ⟨.off, false, fun _ => true⟩ 1, .op (.hide 0 1 1),
            .call ⟨.off, false, fun _ => true⟩ 3])).ctx.emitted = ns.map Entry.process ∧
        ns.Pairwise (· < ·) ∧ ns.count 2 = 1 := by
  obtain ⟨ns, hemitted, hsorted, hshown, _⟩ := @listing_complete
    ⟨(Op.copyProcess 1 false 2).after initial, TGID_OFFSET, 0, []⟩ _ rfl rfl
    (run_trail _ [.call ⟨.off, false, fun _ => true⟩ 1, .op (.hide 0 1 1),
      .call ⟨.off, false, fun _ => true⟩ 3]) (by decide +kernel)
  refine ⟨ns, hemitted, hsorted, hshown 2 ⟨?_, ?_, ?_, trivial⟩⟩
  · rintro info room ⟨⟩
    unfold Shown
    decide +kernel
  · rintro info room ⟨⟩
  · rintro info room ⟨⟩
    unfold Shown
    decide +kernel

end Session

end Osexp.Hide
