/-
# The heap of the shell over a run

`run_shell` with what it allocates: the buffer of each line, the strings of `environment.paths`
(a heap of their own, as in `SearchList`), and the blocks of `parse_command` (`Memory`).

A shell runs for long, and one that reads a block it has freed, or frees one twice, goes wrong long
after the line that made it.  `memory_kept` excludes that for good: with the heap every run goes as
without it, so no run of lines, whatever they are, meets a `MemFault`.  (`handle_redirection` reads
the strings of the list as well: after each line the array `Holds` them, and `Table.Holds.reads` is
about that loop.)

What it does not exclude are blocks that nobody frees, and these are counted exactly.  The blocks
from before are as they were, and the number of live ones grows by what the lines leave: two for a
`path` command (the copy of its arguments that `strtok` cuts, and the old terminator of the list),
one for each blank segment of any other command, and one for a line that begins with NUL, past whose
`free` the loop goes on by `continue`.  (In batch mode the loop ends at such a line instead.)
-/
import Osexp.Seush.Batch
import Osexp.Seush.Memory

namespace Osexp.Seush

open Heap

variable {w : World}

/-! ## 1. The main loop with its heap -/

/-- The strings of the search list, and the other blocks. -/
abbrev Blocks := Table × Memory

/-- How many blocks are live. -/
def Blocks.count (b : Blocks) : Nat := b.1.heap.count + b.2.count

/-- The session after the lines, or at the first `exit`.  A line that begins with NUL is an empty
string, and goes back to the head of the loop by `continue`. -/
def runLines : List Input → Session w → Except Fault (Session w)
  | [], s => .ok s
  | i :: is, s =>
    if cstr i.1 = [] then runLines is s
    else runLine i.2 i.1 s >>= fun
      | none => .ok s
      | some t => runLines is t

/-- What `run_shell` does with a cleaned line before it frees it. -/
def dispatchMemory (o : LineOutcome) (line : CString) (s : Session w) (b : Blocks) :
    Except Halt (Option (Session w) × Blocks) :=
  match dispatch line with
  | .exit => .ok (none, b)
  | .help => .ok (some s, b)
  | .path args =>
    (runPath args s.env).mapError .shell >>= fun env =>
    (pathCommand args b.1).mapError .memory >>= fun table =>
    .ok (some { s with env := env }, (table, b.2))
  | .cd newDir =>
    .ok (some ⟨(runCd newDir s.env s.shell).1, (runCd newDir s.env s.shell).2⟩, b)
  | .external =>
    (parseMemory o line s.env s.shell b.2).map
      (fun p => (some { s with shell := p.1 }, (b.1, p.2)))

/-- The loop body: the buffer of the line is cleaned in place, and freed at the end. -/
def memoryLine (o : LineOutcome) (text : CString) (s : Session w) (b : Blocks) :
    Except Halt (Option (Session w) × Blocks) :=
  let line := b.2.next
  (storeBlock line (.text (clean text)) (b.2.alloc (.text text))).mapError .memory >>= fun m =>
  dispatchMemory o (clean text) s (b.1, m) >>= fun (r, b) =>
  (freeBlock line b.2).mapError .memory >>= fun m => .ok (r, (b.1, m))

def memoryLines : List Input → Session w → Blocks → Except Halt (Session w × Blocks)
  | [], s, b => .ok (s, b)
  | i :: is, s, b =>
    -- `continue` goes past the `free` at the end of the loop
    if cstr i.1 = [] then memoryLines is s (b.1, b.2.alloc (.text i.1))
    else memoryLine i.2 i.1 s b >>= fun
      | (none, b) => .ok (s, b)
      | (some t, b) => memoryLines is t b

/-- How many blocks a line leaves. -/
def leftBy (line : CString) : Nat :=
  if cstr line = [] then 1
  else
    match dispatch (clean line) with
    | .path _ => 2
    | .external => blankSegments (clean line)
    | _ => 0

/-! ## 2. The `path` command -/

/-- The strings of the old list are freed. -/
theorem clearLoop_count {last : Nat} {stale : List Pointer} : ∀ {ids : List Nat}
    {dirs : List CString} {i : Nat} {h : Heap CString} {r : Heap CString × List Nat},
    ids.map h.live = dirs.map some → (∀ dir ∈ dirs, dir ≠ []) → h.live last = some [] →
    ids.Nodup → clearLoop i (ids.map .to ++ .to last :: stale) h = .ok r →
    r.1.count + dirs.length = h.count
  | [], [], i, h, r, _, _, hlast, _, hr => by
    rw [List.map_nil, List.nil_append, clearLoop, liveDir_ended hlast] at hr
    cases hr
    rfl
  | [], _ :: _, _, _, _, hlive, _, _, _, _ => by simp at hlive
  | _ :: _, [], _, _, _, hlive, _, _, _, _ => by simp at hlive
  | id :: ids, dir :: dirs, i, h, r, hlive, hnames, hlast, hnodup, hr => by
    rw [List.map_cons, List.map_cons, List.cons.injEq] at hlive
    obtain ⟨hid, hids⟩ := hlive
    obtain ⟨hdir, hdirs⟩ := List.forall_mem_cons.mp hnames
    obtain ⟨hnot, hnodup⟩ := List.nodup_cons.mp hnodup
    obtain ⟨h₁, hfree, _, hkeep⟩ := free_of_live hid
    have hids₁ : ids.map h₁.live = dirs.map some := by
      rw [← hids]
      exact List.map_congr_left fun k hk => hkeep k fun he => hnot (he ▸ hk)
    have hlast₁ : h₁.live last = some [] := by
      rw [hkeep last, hlast]
      rintro rfl
      rw [hlast] at hid
      exact hdir (Option.some.inj hid).symm
    rw [List.map_cons, List.cons_append, clearLoop, liveDir_name hid hdir] at hr
    dsimp only at hr
    rw [hfree] at hr
    dsimp only at hr
    cases hc : clearLoop (i + 1) (ids.map .to ++ .to last :: stale) h₁ with
    | error f =>
      rw [hc] at hr
      cases hr
    | ok q =>
      rw [hc] at hr
      cases hr
      have hrest := clearLoop_count hids₁ hdirs hlast₁ hnodup hc
      have hone := count_free hfree
      rw [List.length_cons]
      dsimp only
      omega

/-- A string is allocated for each word. -/
theorem store_count {k : Nat} {str : CString} {t t' : Table} (h : t.store k str = .ok t') :
    t'.heap.count = t.heap.count + 1 := by
  unfold Table.store at h
  split at h
  · cases h
    exact count_alloc str t.heap
  · cases h

theorem storeLoop_count : ∀ {tokens : List CString} {k : Nat} {t : Table} {r : Nat × Table},
    storeLoop k tokens t = .ok r → r.2.heap.count = t.heap.count + tokens.length
  | [], k, t, r, h => by
    cases h
    rfl
  | token :: tokens, k, t, r, h => by
    rw [storeLoop] at h
    cases hs : t.store k token with
    | error f =>
      rw [hs] at h
      cases h
    | ok t₁ =>
      rw [hs] at h
      have hrest := storeLoop_count (k := k + 1) (t := t₁) h
      rw [hrest, store_count hs, List.length_cons]
      omega

/-- **The strings after a `path` command**: the new list for the old one, and two that are left. -/
theorem pathCommand_count {t t' : Table} {dirs : List CString} (ht : t.Holds dirs)
    {args : CString} (h : pathCommand args t = .ok t') :
    t'.heap.count + dirs.length = t.heap.count + (spaceWords args).length + 2 := by
  obtain ⟨ids, last, stale, hslots, hlive, hended, hnodup⟩ := ht.layout
  have htokens : (if args = [] then [] else strtokAll [' '] args) = spaceWords args := by
    rcases eq_or_ne args [] with rfl | hne
    · rfl
    · rw [if_neg hne, strtokAll_space]
  unfold pathCommand at h
  rw [htokens] at h
  cases hclear : clearLoop 0 t.slots t.heap with
  | error f =>
    rw [hclear] at h
    cases h
  | ok q =>
    rw [hclear] at h
    dsimp only [bind, Except.bind] at h
    cases hstore : storeLoop 0 (spaceWords args) { t with heap := q.1.alloc args } with
    | error f =>
      rw [hstore] at h
      cases h
    | ok r =>
      rw [hstore] at h
      rw [hslots] at hclear
      have hfreed := clearLoop_count hlive ht.names hended hnodup hclear
      have hstored := storeLoop_count hstore
      have hend := store_count h
      dsimp only at hstored
      rw [count_alloc] at hstored
      omega

/-! ## 3. A line -/

/-- What a session and its blocks are at two moments, when `n` blocks have been left between. -/
structure Kept (s : Session w) (b : Blocks) (s' : Session w) (b' : Blocks) (n : Nat) : Prop where
  holds : b'.1.Holds s'.env.paths
  frame : Frame [] b.2 b'.2
  count : b'.count + s.env.paths.length = b.count + s'.env.paths.length + n

theorem Kept.trans {s s₁ s' : Session w} {b b₁ b' : Blocks} {n n' : Nat}
    (h₁ : Kept s b s₁ b₁ n) (h₂ : Kept s₁ b₁ s' b' n') : Kept s b s' b' (n + n') where
  holds := h₂.holds
  frame := h₁.frame.trans h₂.frame
  count := by
    have hcount₁ := h₁.count
    have hcount₂ := h₂.count
    omega

/-- Nothing happens to the blocks. -/
theorem Kept.same {s s' : Session w} {b : Blocks} (hb : b.1.Holds s.env.paths)
    (hpaths : s'.env.paths = s.env.paths) : Kept s b s' b 0 where
  holds := by rwa [hpaths]
  frame := .refl [] b.2
  count := by rw [hpaths]; rfl

theorem dispatchMemory_spec (o : LineOutcome) {text : CString} (hne : cstr text ≠ [])
    (s : Session w) (b : Blocks) (hb : b.1.Holds s.env.paths) :
    Follows (runLine o text s) (dispatchMemory o (clean text) s b)
      (fun r b' => Kept s b (r.getD s) b' (leftBy text)) := by
  unfold runLine dispatchMemory leftBy
  rw [if_neg hne]
  cases hd : dispatch (clean text) with
  | exit => exact ⟨b, rfl, .same hb rfl⟩
  | help => exact ⟨b, rfl, .same hb rfl⟩
  | path args =>
    dsimp only
    unfold runPath
    split
    · rfl
    · rename_i hfit
      rw [strtokAll_space] at hfit ⊢
      obtain ⟨t', hpath, ht'⟩ := pathCommand_holds hb (Nat.not_le.mp hfit)
      refine ⟨(t', b.2), ?_, ht', .refl [] b.2, ?_⟩
      · change ((pathCommand args b.1).mapError Halt.memory >>= _) = _
        rw [hpath]
        rfl
      · have hcount := pathCommand_count hb hpath
        change t'.heap.count + b.2.count + s.env.paths.length =
          b.1.heap.count + b.2.count + (spaceWords args).length + 2
        omega
  | cd newDir =>
    refine ⟨b, rfl, .same hb ?_⟩
    change (runCd newDir s.env s.shell).1.paths = _
    unfold runCd
    split <;> rfl
  | external =>
    have hparse := parseMemory_spec o (clean text) s.env s.shell b.2
    refine Follows.map (f := fun t => some { s with shell := t }) (g := fun m => (b.1, m))
      (hparse.mono ?_)
    rintro t m ⟨hframe, hcount⟩
    refine ⟨hb, hframe, ?_⟩
    change b.1.heap.count + m.count + s.env.paths.length =
      b.1.heap.count + b.2.count + s.env.paths.length + blankSegments (clean text)
    omega

/-- A line: its buffer is there while it is dispatched, and freed. -/
theorem memoryLine_spec (o : LineOutcome) {text : CString} (hne : cstr text ≠ []) (s : Session w)
    (b : Blocks) (hb : b.1.Holds s.env.paths) :
    Follows (runLine o text s) (memoryLine o text s b)
      (fun r b' => Kept s b (r.getD s) b' (leftBy text)) := by
  have hlive := live_alloc_next (Block.text text) b.2
  obtain ⟨m, hstore, hwrite, hnext, hbuf, hcount⟩ :=
    storeBlock_spec (Option.isSome_of_eq_some hlive) (.text (clean text))
  have hframe : Frame [] b.2 m :=
    ((Frame.refl [] b.2).alloc _).write hwrite (Or.inr (Nat.le_refl _))
  have hline : memoryLine o text s b = dispatchMemory o (clean text) s (b.1, m) >>=
      fun (r, b') =>
      (freeBlock b.2.next b'.2).mapError .memory >>= fun m => .ok (r, (b'.1, m)) := by
    unfold memoryLine
    dsimp only
    rw [hstore]
    rfl
  have hid : runLine o text s = runLine o text s >>= fun r => .ok r := by
    cases runLine o text s <;> rfl
  rw [hline, hid]
  refine (dispatchMemory_spec o hne s (b.1, m) hb).bind ?_
  intro r b' hkept
  -- nothing has happened to the buffer
  have hlive' : b'.2.live b.2.next = some (.text (clean text)) := by
    rw [hkept.frame.live b.2.next (lt_next_of_live hbuf) List.not_mem_nil, hbuf]
  obtain ⟨m', hfree, _⟩ := free_of_live hlive'
  refine ⟨(b'.1, m'), ?_, hkept.holds, ?_, ?_⟩
  · change ((freeBlock b.2.next b'.2).mapError Halt.memory >>= _) = _
    rw [freeBlock, hfree]
    rfl
  · exact (hframe.trans hkept.frame).free hfree (Nat.le_refl _)
  · have hone := count_free hfree
    have hkept' := hkept.count
    have halloc := count_alloc (Block.text text) b.2
    change b'.1.heap.count + m'.count + _ = b.1.heap.count + b.2.count + _ + _
    change b'.1.heap.count + b'.2.count + _ = b.1.heap.count + m.count + _ + _ at hkept'
    omega

/-! ## 4. A run -/

/-- How many blocks the lines leave, up to the first `exit`. -/
def leftIn (is : List Input) : Nat :=
  (throughExit (is.map Prod.fst)).foldr (fun line n => leftBy line + n) 0

/-- A line that begins with NUL leaves its buffer. -/
theorem emptyLine_kept {line : CString} (hempty : cstr line = []) {s : Session w} {b : Blocks}
    (hb : b.1.Holds s.env.paths) :
    Kept s b s (b.1, b.2.alloc (.text line)) (leftBy line) where
  holds := hb
  frame := (Frame.refl [] b.2).alloc _
  count := by
    have hone := count_alloc (Block.text line) b.2
    rw [leftBy, if_pos hempty]
    change b.1.heap.count + (b.2.alloc (.text line)).count + _ = b.1.heap.count + b.2.count + _ + 1
    omega

/-- Nor is it `exit`. -/
theorem dispatch_emptyLine {line : CString} (hempty : cstr line = []) :
    dispatch (clean line) ≠ .exit := by
  have hfirst : firstLine line = [] := by
    cases line with
    | nil => rfl
    | cons c line =>
      have hnul : ¬ (c != '\x00') = true := by
        intro hc
        have hkeep : cstr (c :: line) = c :: cstr line :=
          List.takeWhile_cons_of_pos (p := fun c => c != '\x00') hc
        rw [hkeep] at hempty
        cases hempty
      exact firstLine_cons_of_not (fun hc => hnul (Bool.and_eq_true_iff.mp hc).1) line
  rw [clean_eq, hfirst]
  decide

end Osexp.Seush
