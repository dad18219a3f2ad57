/-
# Which child a wait collects

Both waits of the shell accept any child: `waitpid(-1)` in `handle_pipe` and the loop of `wait` in
`run_processes`.  `Reap` is what the events of the shell do to its children that are not yet
reaped: a fork adds one, `waitpid(-1)` takes any of them (they end in any order), the loop of
`wait` takes all.

`every_child_reaped`: along the events of a line, however its children end, each `waitpid(-1)` finds
exactly one child, the one forked just before, and at the end no child is left.  A line forks its
pipelines stage by stage and its other commands together at the very end (`LineEvents`).

A shell that waits for the wrong child hands back the prompt while a command is still running, or
starts a stage whose input is not there yet.  Here nothing in the code says which child is meant, so
the result is about the number of children at each moment; that `fork` or `pipe` may fail makes no
difference to it.
-/
import Osexp.Lib.Runs
import Osexp.Seush.Loop
import Osexp.Seush.Rules

namespace Osexp.Seush

open Lts

variable {w : World}

/-! ## 1. Reaping -/

/-- The children that are not reaped, by the number of their fork, and the number of forks. -/
structure Family where
  unreaped : List Nat
  forked : Nat

/-- `while ((wpid = wait(&wait_status)) > 0);`: each turn takes the child that ended, and the loop
is left when `wait` finds none. -/
inductive WaitLoop : List Nat → List Nat → Prop
  | none : WaitLoop [] []
  | wait {unreaped rest : List Nat} (child : Nat) :
      child ∈ unreaped → WaitLoop (unreaped.erase child) rest → WaitLoop unreaped rest

/-- What an event does to the family. -/
inductive Reap : Family → Event w → Family → Prop
  | fork (f : Family) (c : Child w) : Reap f (.fork c) ⟨f.unreaped ++ [f.forked], f.forked + 1⟩
  | waitpid (f : Family) (fds : FdTable OpenFile) (child : Nat) (h : child ∈ f.unreaped) :
      Reap f (.waitpid fds) ⟨f.unreaped.erase child, f.forked⟩
  | noChild (f : Family) (fds : FdTable OpenFile) (h : f.unreaped = []) : Reap f (.waitpid fds) f
  | waitAll (f : Family) {rest : List Nat} (h : WaitLoop f.unreaped rest) :
      Reap f .waitAll ⟨rest, f.forked⟩
  | openCall (f : Family) (name : CString) (write : Bool) : Reap f (.openCall name write) f

/-- If the event is a `waitpid(-1)`, there is exactly one child to collect, and it was forked
last. -/
def MeantFor (f : Family) (e : Event w) : Prop :=
  ∀ fds, e = .waitpid fds → ∃ child, f.unreaped = [child] ∧ child + 1 = f.forked

/-- Between the two states every wait collects the child that it is meant for, and no child is
left at the end, in whatever order the children end; and they can end in some order. -/
def EachReaped (s t : Shell w) : Prop :=
  ∃ events, t.trace = s.trace ++ events ∧ ∀ n : Nat,
    (∃ r : Trail Family (Event w), Run Reap ⟨[], n⟩ r ∧ r.map Prod.fst = events) ∧
      ∀ r : Trail Family (Event w), Run Reap ⟨[], n⟩ r → r.map Prod.fst = events →
        StepsOk MeantFor ⟨[], n⟩ r ∧ (final ⟨[], n⟩ r).unreaped = []

/-- The loop of `wait` ends, with no child left. -/
theorem WaitLoop.rest_eq_nil {unreaped rest : List Nat} (h : WaitLoop unreaped rest) :
    rest = [] := by
  induction h with
  | none => rfl
  | wait _ _ _ ih => exact ih

theorem waitLoop_nil : ∀ unreaped : List Nat, WaitLoop unreaped []
  | [] => .none
  | child :: unreaped => by
    refine .wait child List.mem_cons_self ?_
    rw [List.erase_cons_head]
    exact waitLoop_nil unreaped

/-- A wait always has a child to take, or finds none. -/
theorem exists_reap (f : Family) (e : Event w) : ∃ g, Reap f e g := by
  cases e with
  | fork c => exact ⟨_, .fork f c⟩
  | waitpid fds =>
    cases h : f.unreaped with
    | nil => exact ⟨f, .noChild f fds h⟩
    | cons child rest => exact ⟨_, .waitpid f fds child (by rw [h]; exact List.mem_cons_self)⟩
  | waitAll => exact ⟨_, .waitAll f (waitLoop_nil f.unreaped)⟩
  | openCall name write => exact ⟨f, .openCall f name write⟩

theorem exists_reaping (events : List (Event w)) :
    ∀ f : Family, ∃ r : Trail Family (Event w), Run Reap f r ∧ r.map Prod.fst = events := by
  induction events with
  | nil => exact fun f => ⟨[], .nil f, rfl⟩
  | cons e events ih =>
    intro f
    obtain ⟨g, hg⟩ := exists_reap f e
    obtain ⟨r, hr, hmap⟩ := ih g
    exact ⟨(e, g) :: r, .cons hg hr, by rw [List.map_cons, hmap]⟩

/-! ## 2. The events of a line -/

/-- Stages that are waited for one by one, and files opened between them; then, if there are any,
the other commands, forked one after the other and waited for together. -/
inductive LineEvents : List (Event w) → Prop
  | done : LineEvents []
  | stage (c : Child w) (fds : FdTable OpenFile) {es : List (Event w)} :
      LineEvents es → LineEvents (.fork c :: .waitpid fds :: es)
  | opened (name : CString) (write : Bool) {es : List (Event w)} :
      LineEvents es → LineEvents (.openCall name write :: es)
  | together {cs : List (Child w)} : cs ≠ [] → LineEvents (cs.map .fork ++ [.waitAll])

/-- The events can come before any end of a line. -/
def Leading (es : List (Event w)) : Prop := ∀ rest, LineEvents rest → LineEvents (es ++ rest)

theorem Leading.nil : Leading ([] : List (Event w)) := fun _ h => h

theorem Leading.append {es es' : List (Event w)} (h : Leading es) (h' : Leading es') :
    Leading (es ++ es') := by
  intro rest hrest
  rw [List.append_assoc]
  exact h _ (h' _ hrest)

theorem Leading.stage (c : Child w) (fds : FdTable OpenFile) :
    Leading [.fork c, .waitpid fds] := fun _ h => .stage c fds h

theorem Leading.opened (name : CString) (write : Bool) :
    Leading [(.openCall name write : Event w)] := fun _ h => .opened name write h

theorem Leading.lineEvents {es : List (Event w)} (h : Leading es) : LineEvents es := by
  have hall := h [] .done
  rwa [List.append_nil] at hall

/-- From one state to the other the trace grows by events that lead a line. -/
def Leads (s t : Shell w) : Prop := ∃ es, t.trace = s.trace ++ es ∧ Leading es

theorem Leads.of_trace_eq {s t : Shell w} (h : t.trace = s.trace) : Leads s t :=
  ⟨[], h.trans (List.append_nil _).symm, .nil⟩

theorem Leads.trans {s t u : Shell w} (h : Leads s t) (h' : Leads t u) : Leads s u := by
  obtain ⟨es, hes, hlead⟩ := h
  obtain ⟨es', hes', hlead'⟩ := h'
  exact ⟨es ++ es', by rw [hes', hes, List.append_assoc], hlead.append hlead'⟩

section Events

variable {env : Environment}

theorem lastStage_leads (o : StageOutcome) (firstCommand : CString) (s : Shell w) :
    Leads s (lastStage o firstCommand env s) := by
  unfold lastStage
  split
  · exact .of_trace_eq rfl
  · rename_i t ht
    have htrace : t.trace = s.trace := (Shell.pipe_eq_some ht).2.2.2.2.1
    split
    · refine ⟨_, ?_, .stage (handleRedirectionExec o firstCommand env t) t.fds⟩
      rw [(lastParent_log _ _).2, Shell.log_trace, htrace, List.append_assoc]
      rfl
    · exact .of_trace_eq htrace

/-- A pipeline waits for each stage before the next: by induction along the pipeline. -/
theorem handlePipe_leads (o : Nat → StageOutcome) (line : CString) :
    ∀ (n : Nat) (leader : Bool) (s : Shell w), Leads s (handlePipe env o n line leader s).2 := by
  induction line using pipeline_induction with
  | null line h =>
    intro n leader s
    rw [handlePipe_null h]
    exact .of_trace_eq rfl
  | single line token h =>
    intro n leader s
    rw [handlePipe_single h]
    cases leader
    · exact lastStage_leads _ _ _
    · exact .of_trace_eq rfl
  | piped line token rest h hr ih =>
    intro n leader s
    rw [handlePipe_piped h hr]
    split
    · exact .of_trace_eq rfl
    · rename_i t ht
      have htrace : t.trace = s.trace := (Shell.pipe_eq_some ht).2.2.2.2.1
      split
      · have hstage : ∀ c : Child w, Leads s (pipedParent (o n) (t.log (.fork c))) := by
          intro c
          refine ⟨_, ?_, .stage c (pipedParent (o n) (t.log (.fork c))).fds⟩
          rw [(pipedParent_frame _ _).2, Shell.log_trace, htrace, List.append_assoc]
          rfl
        exact (hstage _).trans (ih _ _ _)
      · exact .of_trace_eq htrace

theorem openRedirections_leads (type : RedirectionType) (b : Scratch) (p : Process)
    (s : Shell w) : Leads s (openRedirections type b p s).2 := by
  refine openRedirections_keeps (I := Leads s) ?_ (.of_trace_eq rfl) type b p
  intro name write t ht
  exact ht.trans ⟨_, (openFile_frame name write t).2.1, .opened name write⟩

theorem runSegment_leads {o : SegOutcome} {command : CString}
    {process process' : List (Process × w.Dir)} {s t : Shell w}
    (h : runSegment env o command process s = .ok (process', t)) : Leads s t := by
  have hsave : Leads s (saveStreams o s) := .of_trace_eq (saveStreams_frame o s).2.1
  have hpipe := hsave.trans (@handlePipe_leads w env o.stage command 0 true _)
  unfold runSegment at h
  split at h
  · rename_i u hu
    cases h
    rwa [hu] at hpipe
  · rename_i res u hu
    rw [hu] at hpipe
    obtain ⟨⟨q, v⟩, hv, h⟩ := map_eq_ok h
    cases h
    obtain ⟨type, c, _, rfl⟩ := handleRedirection_shell hv
    exact hpipe.trans (openRedirections_leads _ _ _ _)
  · cases h

theorem runSegments_leads {o : LineOutcome} :
    ∀ {i : Nat} {commands : List CString} {process process' : List (Process × w.Dir)}
      {s t : Shell w}, runSegments env o i commands process s = .ok (process', t) → Leads s t
  | _, [], _, _, _, _, h => by
    cases h
    exact .of_trace_eq rfl
  | i, command :: commands, process, _, s, _, h => by
    rw [runSegments] at h
    split at h
    · exact runSegments_leads h
    · obtain ⟨⟨p₁, s₁⟩, h₁, h₂⟩ := bind_eq_ok h
      exact (runSegment_leads h₁).trans (runSegments_leads h₂)

/-- The forks of `run_processes`, one for each entry and in their order. -/
theorem forkProcesses_trace {o : LineOutcome} :
    ∀ {number : Nat} {process : List (Process × w.Dir)} {s t : Shell w},
      forkProcesses o number process s = .ok t →
      ∃ cs : List (Child w), cs.length = process.length ∧ t.trace = s.trace ++ cs.map .fork
  | _, [], _, _, h => by
    cases h
    exact ⟨[], rfl, (List.append_nil _).symm⟩
  | number, (p, dir) :: ps, s, _, h => by
    rw [forkProcesses] at h
    split at h
    · obtain ⟨cs, hlen, htrace⟩ := forkProcesses_trace h
      refine ⟨runProcess (o.run number) dir p s :: cs, by simp [hlen], ?_⟩
      rw [htrace, Shell.log_trace, List.map_cons, List.append_assoc, List.singleton_append]
    · cases h

/-- **The events of a line.** -/
theorem parseCommand_events {o : LineOutcome} {line : CString} {s t : Shell w}
    (h : parseCommand o line env s = .ok t) :
    ∃ es, t.trace = s.trace ++ es ∧ LineEvents es := by
  unfold parseCommand at h
  split at h
  · cases h
  · obtain ⟨⟨process, u⟩, hu, h⟩ := bind_eq_ok h
    obtain ⟨es, hes, hlead⟩ := runSegments_leads hu
    obtain ⟨v, hv, rfl⟩ := map_eq_ok h
    obtain ⟨cs, hlen, htrace⟩ := forkProcesses_trace hv
    rw [Shell.chdir_trace, hes] at htrace
    split
    · rename_i hnone
      have hcs : cs = [] := by simpa [hnone] using hlen
      rw [htrace, hcs]
      exact ⟨es, List.append_nil _, hlead.lineEvents⟩
    · rename_i hsome
      have hcs : cs ≠ [] := fun hnil => hsome (by simpa [hnil] using hlen.symm)
      refine ⟨es ++ (cs.map .fork ++ [.waitAll]), ?_, hlead _ (.together hcs)⟩
      rw [Shell.log_trace, htrace, List.append_assoc, List.append_assoc]

end Events

/-! ## 3. Reaping along them -/

/-- Forks and then the loop of `wait`: no `waitpid` among them, and no child left. -/
theorem together_reaped (cs : List (Child w)) :
    ∀ (f : Family) (r : Trail Family (Event w)), Run Reap f r →
      r.map Prod.fst = cs.map .fork ++ [.waitAll] →
      StepsOk MeantFor f r ∧ (final f r).unreaped = [] := by
  induction cs with
  | nil =>
    intro f r hr hmap
    obtain ⟨p, rfl, hp⟩ := List.map_eq_singleton_iff.mp hmap
    obtain ⟨e, t⟩ := p
    obtain rfl : e = .waitAll := hp
    cases hr with
    | cons hstep _ =>
      cases hstep with
      | waitAll hloop => exact ⟨⟨by rintro fds ⟨⟩, trivial⟩, hloop.rest_eq_nil⟩
  | cons c cs ih =>
    intro f r hr hmap
    obtain ⟨p, r, rfl, hp, hrest⟩ := List.map_eq_cons_iff.mp hmap
    obtain ⟨e, t⟩ := p
    obtain rfl : e = .fork c := hp
    cases hr with
    | cons hstep hr =>
      obtain ⟨hok, hend⟩ := ih t r hr hrest
      exact ⟨⟨by rintro fds ⟨⟩, hok⟩, hend⟩

/-- **Along the events of a line every wait finds its child**, by induction on them. -/
theorem lineEvents_reaped {es : List (Event w)} (h : LineEvents es) :
    ∀ (n : Nat) (r : Trail Family (Event w)), Run Reap ⟨[], n⟩ r → r.map Prod.fst = es →
      StepsOk MeantFor ⟨[], n⟩ r ∧ (final ⟨[], n⟩ r).unreaped = [] := by
  induction h with
  | done =>
    intro n r _ hmap
    obtain rfl := List.map_eq_nil_iff.mp hmap
    exact ⟨trivial, rfl⟩
  | stage c fds _ ih =>
    intro n r hr hmap
    obtain ⟨p, r, rfl, hp, htail⟩ := List.map_eq_cons_iff.mp hmap
    obtain ⟨q, r, rfl, hq, hrest⟩ := List.map_eq_cons_iff.mp htail
    obtain ⟨e, t⟩ := p
    obtain ⟨e', u⟩ := q
    obtain rfl : e = .fork c := hp
    obtain rfl : e' = .waitpid fds := hq
    cases hr with
    | cons hfork hr =>
      cases hfork
      cases hr with
      | cons hwait hr =>
        -- the only child there is to collect
        have hu : u = ⟨[], n + 1⟩ := by
          cases hwait with
          | waitpid _ child hchild =>
            obtain rfl : child = n := by simpa using hchild
            simp
          | noChild _ hnone => simp at hnone
        subst hu
        obtain ⟨hok, hend⟩ := ih (n + 1) r hr hrest
        refine ⟨⟨by rintro _ ⟨⟩, ?_, hok⟩, hend⟩
        exact fun _ _ => ⟨n, rfl, rfl⟩
  | opened name write _ ih =>
    intro n r hr hmap
    obtain ⟨p, r, rfl, hp, hrest⟩ := List.map_eq_cons_iff.mp hmap
    obtain ⟨e, t⟩ := p
    obtain rfl : e = .openCall name write := hp
    cases hr with
    | cons hopen hr =>
      cases hopen
      obtain ⟨hok, hend⟩ := ih n r hr hrest
      exact ⟨⟨by rintro _ ⟨⟩, hok⟩, hend⟩
  | together _ => exact fun n r => together_reaped _ ⟨[], n⟩ r

theorem eachReaped {s t : Shell w} {es : List (Event w)} (htrace : t.trace = s.trace ++ es)
    (h : LineEvents es) : EachReaped s t :=
  ⟨es, htrace, fun n => ⟨exists_reaping es _, lineEvents_reaped h n⟩⟩

/-- **Every child is reaped, and by the wait meant for it**: when `parse_command` returns, and at
every point that the segment loop gets to, whatever becomes of the line afterwards.  Both waits take
any child, so it is not the calls that see to this but the order in which the shell forks: a stage
is waited for before the next child is there.  So no zombie is left, and no stage begins before the
one in front of it has ended. -/
theorem every_child_reaped (o : LineOutcome) (line : CString) (env : Environment) (s : Shell w) :
    (∀ t, parseCommand o line env s = .ok t → EachReaped s t) ∧
      ∀ commands process t, commands <+: singleCommands line →
        runSegments env o 0 commands [] s = .ok (process, t) → EachReaped s t := by
  constructor
  · intro t h
    obtain ⟨es, htrace, hevents⟩ := parseCommand_events h
    exact eachReaped htrace hevents
  · intro commands process t _ h
    obtain ⟨es, htrace, hlead⟩ := runSegments_leads h
    exact eachReaped htrace hlead.lineEvents

/-- A pipeline and two commands. -/
theorem every_child_reaped_ls : ∃ t, parseCommand .ok "ls | ls & ls & ls".toList rootSession.env
    rootSession.shell = .ok t ∧ EachReaped rootSession.shell t := by
  have hrun : (parseCommand .ok "ls | ls & ls & ls".toList rootSession.env
      rootSession.shell).map (fun _ => ()) = .ok () := by
    decide +kernel
  obtain ⟨t, h, _⟩ := map_eq_ok hrun
  exact ⟨t, h, (every_child_reaped _ _ _ _).1 t h⟩

end Osexp.Seush
