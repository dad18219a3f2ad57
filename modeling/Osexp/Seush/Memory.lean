/-
# What `parse_command` allocates and frees

`RunCommand` leaves out what is freed.  Here `parse_command` runs on a heap, in the order of the
source: `process[]`, `single_commands` with the copies of the segments, a copy of each segment to
see whether it is blank, and for each entry of `process[]` its `argv` with the words, the buffers of
the search, and `exec_path`.

A block holds a text (what is first stored there: that `strtok` cuts it makes no difference here),
pointers, or the entries of `process[]`.  Reading or writing a block that is not live, and freeing
one, are faults (`MemFault`).  What a child allocates is its own and is left out.

`parseMemory_spec`: the shell's functions of `RunCommand` decide what happens and no `MemFault` is
possible; the blocks from before are as they were, and one block is left for each blank segment:
its copy, which the `continue` passes over.
-/
import Osexp.Seush.Rules
import Osexp.Seush.SearchList

namespace Osexp.Seush

variable {w : World}

/-! ## 1. Blocks -/

/-- The pointers of an entry of `process[]`, and how many words `argv` has. -/
structure Entry where
  argc : Nat
  argv : Option Nat
  execPath : Option Nat

/-- What a block holds. -/
inductive Block
  | text (str : CString)
  | pointers (ps : List Nat)
  | processes (entries : List Entry)

abbrev Memory := Heap Block

/-- How the shell stops: as before, or by a fault of its memory. -/
inductive Halt
  | shell (f : Fault)
  | memory (f : MemFault)

/-- `free(p)`. -/
def freeBlock (id : Nat) (m : Memory) : Except MemFault Memory :=
  match m.free id with
  | none => .error .doubleFree
  | some m => .ok m

/-- `free(p)` for a pointer that may be NULL. -/
def freePointer (p : Option Nat) (m : Memory) : Except MemFault Memory :=
  match p with
  | none => .ok m
  | some id => freeBlock id m

/-- A loop that frees pointers one after the other. -/
def freeEach : List Nat → Memory → Except MemFault Memory
  | [], m => .ok m
  | id :: ids, m => freeBlock id m >>= freeEach ids

/-- Read the pointers in a block. -/
def pointersAt (id : Nat) (m : Memory) : Except MemFault (List Nat) :=
  match m.live id with
  | some (.pointers ps) => .ok ps
  | _ => .error .danglingRead

/-- Read `process[]`. -/
def processesAt (id : Nat) (m : Memory) : Except MemFault (List Entry) :=
  match m.live id with
  | some (.processes entries) => .ok entries
  | _ => .error .danglingRead

/-- Write a block. -/
def storeBlock (id : Nat) (x : Block) (m : Memory) : Except MemFault Memory :=
  match m.write id x with
  | none => .error .danglingRead
  | some m => .ok m

/-! ## 2. `handle_redirection` -/

/-- `arr[n++] = strdup(token)`, for each token. -/
def dupTokens (arr : Nat) : List CString → Memory → Except MemFault Memory
  | [], m => .ok m
  | token :: tokens, m =>
    pointersAt arr (m.alloc (.text token)) >>= fun ps =>
    storeBlock arr (.pointers (ps ++ [m.next])) (m.alloc (.text token)) >>= dupTokens arr tokens

/-- The search along `environment->paths`, with its `full_path`: `exec_path`. -/
def searchMemory (cwd : w.Dir) (name : CString) : List CString → Memory →
    Except MemFault (Option Nat × Memory)
  | [], m => .ok (none, m)
  | dir :: dirs, m =>
    let full_path := m.next
    let m := m.alloc (.text (fullPath dir name))
    if w.access cwd (fullPath dir name) then
      let exec_path := m.next
      let m := m.alloc (.text (fullPath dir name))
      (freeBlock full_path m).map (fun m => (some exec_path, m))
    else freeBlock full_path m >>= searchMemory cwd name dirs

/-- The lookup of the program: `exec_path`. -/
def findExecMemory (env : Environment) (cwd : w.Dir) (argv : List CString) (m : Memory) :
    Except MemFault (Option Nat × Memory) :=
  match argv with
  | [] => .ok (none, m)
  | name :: _ =>
    if w.access cwd name then .ok (some m.next, m.alloc (.text name))
    else searchMemory cwd name env.paths m

/-- What `handle_redirection` does for the next entry of `process[]`, with the words `argv`. -/
def redirectionMemory (env : Environment) (cwd : w.Dir) (argv : List CString) (process : Nat)
    (m : Memory) : Except MemFault Memory :=
  let arr := m.next
  dupTokens arr argv (m.alloc (.pointers [])) >>= fun m =>
  findExecMemory env cwd argv m >>= fun (execPath, m) =>
  processesAt process m >>= fun entries =>
  storeBlock process (.processes (entries ++ [⟨argv.length, some arr, execPath⟩])) m

/-! ## 3. `parse_command` -/

/-- The segment loop: the entries and the shell of `runSegments`, and the heap. -/
def segmentsMemory (env : Environment) (o : LineOutcome) (entries : Nat) : Nat → List CString →
    List (Process × w.Dir) → Shell w → Memory →
    Except Halt ((List (Process × w.Dir) × Shell w) × Memory)
  | _, [], process, s, m => .ok ((process, s), m)
  | i, command :: commands, process, s, m =>
    let curCommand := m.next
    let m := m.alloc (.text command)
    (storeBlock curCommand (.text (clean command)) m).mapError .memory >>= fun m =>
    if clean command = [] then segmentsMemory env o entries (i + 1) commands process s m
    else
      (freeBlock curCommand m).mapError .memory >>= fun m =>
      match handlePipe env (o.seg i).stage 0 command true (saveStreams (o.seg i) s) with
      | (none, s) => segmentsMemory env o entries (i + 1) commands process s m
      | (some (.ok pipeRes), s) =>
        (handleRedirection (o.seg i).scratch pipeRes {} env s).mapError .shell >>= fun (p, t) =>
        (redirectionMemory env s.cwd p.argv entries m).mapError .memory >>= fun m =>
        segmentsMemory env o entries (i + 1) commands (process ++ [(p, s.cwd)]) t m
      | (some (.error f), _) => .error (.shell f)

/-- `free(process[_i].argv[_j])` for the words of an entry. -/
def freeArgs (e : Entry) (m : Memory) : Except MemFault Memory :=
  match e.argv with
  | none => .ok m
  | some arr => pointersAt arr m >>= fun ps => freeEach (ps.take e.argc) m

/-- The loop that frees what the entries hold. -/
def freeEntries : List Entry → Memory → Except MemFault Memory
  | [], m => .ok m
  | e :: entries, m =>
    freeArgs e m >>= freePointer e.argv >>= freePointer e.execPath >>= freeEntries entries

/-- The end of `parse_command`. -/
def freeAll (single process : Nat) (m : Memory) : Except MemFault Memory :=
  pointersAt single m >>= fun ids =>
  freeEach ids m >>= freeBlock single >>= fun m =>
  processesAt process m >>= fun entries =>
  freeEntries entries m >>= freeBlock process

/-- `parse_command`, with the heap. -/
def parseMemory (o : LineOutcome) (line : CString) (env : Environment) (s : Shell w)
    (m : Memory) : Except Halt (Shell w × Memory) :=
  let process := m.next
  let m := m.alloc (.processes [])
  let single := m.next
  let m := m.alloc (.pointers [])
  if MAX_ARGUMENTS_NUM ≤ (singleCommands line).length then
    .error (.shell (.overflow .singleCommands))
  else
    (dupTokens single (singleCommands line) m).mapError .memory >>= fun m =>
    segmentsMemory env o process 0 (singleCommands line) [] s m >>= fun ((ps, s), m) =>
    (runProcesses o ps (s.chdir env.cwdString)).mapError .shell >>= fun s =>
    (freeAll single process m).mapError .memory >>= fun m => .ok (s, m)

/-! ## 4. The same run with a heap -/

/-- With the heap, the computation goes as without it: it stops with the same fault, or has the
same result and leaves a state with `P`. -/
def Follows {α σ : Type} (r : Except Fault α) (x : Except Halt (α × σ)) (P : α → σ → Prop) :
    Prop :=
  match r with
  | .error f => x = .error (.shell f)
  | .ok a => ∃ m, x = .ok (a, m) ∧ P a m

namespace Follows

variable {α β σ τ : Type} {r : Except Fault α} {P P' : α → σ → Prop} {Q : β → τ → Prop}

theorem mono {x : Except Halt (α × σ)} (h : Follows r x P) (hPP : ∀ a m, P a m → P' a m) :
    Follows r x P' := by
  cases r with
  | error f => exact h
  | ok a =>
    obtain ⟨m, hx, hm⟩ := h
    exact ⟨m, hx, hPP a m hm⟩

/-- One computation after the other. -/
theorem bind {x : Except Halt (α × σ)} {f : α → Except Fault β}
    {g : α × σ → Except Halt (β × τ)} (h : Follows r x P)
    (hf : ∀ a m, P a m → Follows (f a) (g (a, m)) Q) : Follows (r >>= f) (x >>= g) Q := by
  cases r with
  | error e =>
    obtain rfl : x = .error (.shell e) := h
    rfl
  | ok a =>
    obtain ⟨m, rfl, hm⟩ := h
    exact hf a m hm

theorem map {f : α → β} {g : σ → τ} {x : Except Halt (α × σ)}
    (h : Follows r x (fun a m => Q (f a) (g m))) :
    Follows (r.map f) (x.map (fun p => (f p.1, g p.2))) Q := by
  cases r with
  | error e =>
    obtain rfl : x = .error (.shell e) := h
    rfl
  | ok a =>
    obtain ⟨m, rfl, hm⟩ := h
    exact ⟨g m, rfl, hm⟩

end Follows

/-! ## 5. Reading, writing and freeing what is one's own -/

section Blocks

open Heap

variable {m : Memory} {id : Nat} {ps : List Nat}

theorem pointersAt_ok (h : m.live id = some (.pointers ps)) : pointersAt id m = .ok ps := by
  rw [pointersAt, h]

theorem processesAt_ok {es : List Entry} (h : m.live id = some (.processes es)) :
    processesAt id m = .ok es := by
  rw [processesAt, h]

theorem storeBlock_spec (hid : (m.live id).isSome) (x : Block) :
    ∃ m', storeBlock id x m = .ok m' ∧ m.write id x = some m' ∧ m'.next = m.next ∧
      m'.live id = some x ∧ m'.count = m.count := by
  obtain ⟨m', hwrite, hnext, hlive, _⟩ := write_of_live hid x
  exact ⟨m', by rw [storeBlock, hwrite], hwrite, hnext, hlive, count_write hwrite⟩

/-- **Blocks of one's own are freed**, and nothing else changes. -/
theorem freeEach_spec {rest : List Nat} : ∀ (ids : List Nat) {m : Memory}, m.Owns (ids ++ rest) →
    ∃ m', freeEach ids m = .ok m' ∧ m'.Owns rest ∧ m'.next = m.next ∧
      (∀ k, k ∉ ids → m'.live k = m.live k) ∧ m'.count + ids.length = m.count
  | [], m, ho => ⟨m, rfl, ho, rfl, fun _ _ => rfl, rfl⟩
  | id :: ids, m, ho => by
    obtain ⟨m₁, hfree, ho₁, hnext₁, hkeep₁, hcount₁⟩ := Owns.free ho
    obtain ⟨m', hloop, ho', hnext', hkeep', hcount'⟩ := freeEach_spec ids ho₁
    refine ⟨m', ?_, ho', hnext'.trans hnext₁, ?_, ?_⟩
    · rw [freeEach, freeBlock, hfree]
      exact hloop
    · intro k hk
      rw [List.mem_cons, not_or] at hk
      rw [hkeep' k hk.2, hkeep₁ k hk.1]
    · rw [List.length_cons]
      omega

end Blocks

/-! ## 6. What is allocated for an entry -/

section Entries

open Heap

/-- Copies of the words, each pointed to by the array. -/
theorem dupTokens_spec (arr : Nat) : ∀ (tokens : List CString) {m : Memory} {ps : List Nat},
    m.live arr = some (.pointers ps) →
    ∃ m' new, dupTokens arr tokens m = .ok m' ∧ Frame [arr] m m' ∧
      m'.live arr = some (.pointers (ps ++ new)) ∧ m'.Owns new ∧ (∀ id ∈ new, m.next ≤ id) ∧
      new.length = tokens.length ∧ m'.count = m.count + tokens.length
  | [], m, ps, harr =>
    ⟨m, [], rfl, .refl _ m, by rw [List.append_nil, harr], .nil m, List.forall_mem_nil _, rfl, rfl⟩
  | token :: tokens, m, ps, harr => by
    have harr₁ := live_alloc_of_live harr (.text token)
    obtain ⟨m₂, hstore, hwrite, hnext₂, harr₂, hcount₂⟩ :=
      storeBlock_spec (Option.isSome_of_eq_some harr₁) (.pointers (ps ++ [m.next]))
    have hframe : Frame [arr] m m₂ :=
      ((Frame.refl [arr] m).alloc (.text token)).write hwrite (Or.inl List.mem_cons_self)
    have hown : m₂.Owns [m.next] :=
      ((Owns.nil m).alloc (.text token)).frame
        ((Frame.refl [arr] _).write hwrite (Or.inl List.mem_cons_self))
    obtain ⟨m', new, hloop, hframe', harr', hown', hnew, hlen, hcount⟩ :=
      dupTokens_spec arr tokens harr₂
    refine ⟨m', m.next :: new, ?_, hframe.trans hframe', ?_, ?_, ?_, ?_, ?_⟩
    · rw [dupTokens, pointersAt_ok harr₁]
      change storeBlock arr _ _ >>= dupTokens arr tokens = _
      rw [hstore]
      exact hloop
    · rw [harr', List.append_assoc, List.singleton_append]
    · exact (hown.extend hframe' hown' hnew).perm (List.perm_append_singleton _ _)
    · intro id hid
      rcases List.mem_cons.mp hid with rfl | hid
      · exact Nat.le_refl _
      · exact Nat.le_trans hframe.next (hnew id hid)
    · rw [List.length_cons, hlen, List.length_cons]
    · rw [hcount, hcount₂, count_alloc, List.length_cons]
      omega

/-- What the lookup of a program leaves: its path, if there is one. -/
structure Found (m : Memory) (execPath : Option Nat) (m' : Memory) : Prop where
  frame : Frame [] m m'
  own : m'.Owns execPath.toList
  new : ∀ id ∈ execPath.toList, m.next ≤ id
  count : m'.count = m.count + execPath.toList.length

/-- A copy that is kept. -/
theorem Found.copy (m : Memory) (x : Block) : Found m (some m.next) (m.alloc x) where
  frame := (Frame.refl [] m).alloc x
  own := (Owns.nil m).alloc x
  new := by
    intro id hid
    rw [List.mem_singleton.mp hid]
  count := count_alloc x m

/-- **The search** gives back every buffer that it takes. -/
theorem searchMemory_spec (cwd : w.Dir) (name : CString) : ∀ (dirs : List CString) (m : Memory),
    ∃ m' execPath, searchMemory cwd name dirs m = .ok (execPath, m') ∧ Found m execPath m'
  | [], m => ⟨m, none, rfl, .refl _ m, .nil m, List.forall_mem_nil _, rfl⟩
  | dir :: dirs, m => by
    have hfull := (Owns.nil m).alloc (.text (fullPath dir name))
    have hframe := (Frame.refl [] m).alloc (.text (fullPath dir name))
    have hcount := count_alloc (.text (fullPath dir name)) m
    rw [searchMemory]
    dsimp only
    split
    · -- the path is copied before its buffer is freed
      have hboth := (hfull.alloc (.text (fullPath dir name))).perm (List.Perm.swap _ _ _)
      obtain ⟨m', hfree, hown, hnext, _, hfreed⟩ := Owns.free hboth
      have hcopied := count_alloc (.text (fullPath dir name))
        (m.alloc (.text (fullPath dir name)))
      refine ⟨m', some (m.next + 1), by rw [freeBlock, hfree]; rfl, ?_, hown, ?_, ?_⟩
      · exact (hframe.alloc _).free hfree (Nat.le_refl _)
      · intro id hid
        rw [List.mem_singleton.mp hid]
        exact Nat.le_succ _
      · rw [Option.toList_some, List.length_singleton]
        omega
    · obtain ⟨m₁, hfree, _, hnext, _, hfreed⟩ := Owns.free hfull
      obtain ⟨m', execPath, hloop, hfound⟩ := searchMemory_spec cwd name dirs m₁
      have hframe₁ := hframe.free hfree (Nat.le_refl _)
      refine ⟨m', execPath, by rw [freeBlock, hfree]; exact hloop, hframe₁.trans hfound.frame,
        hfound.own, fun id hid => Nat.le_trans hframe₁.next (hfound.new id hid), ?_⟩
      have htotal := hfound.count
      omega

theorem findExecMemory_spec (env : Environment) (cwd : w.Dir) (argv : List CString)
    (m : Memory) : ∃ m' execPath, findExecMemory env cwd argv m = .ok (execPath, m') ∧
      Found m execPath m' := by
  cases argv with
  | nil => exact ⟨m, none, rfl, .refl _ m, .nil m, List.forall_mem_nil _, rfl⟩
  | cons name args =>
    rw [findExecMemory]
    split
    · exact ⟨_, _, rfl, .copy m (.text name)⟩
    · exact searchMemory_spec cwd name env.paths m

/-- The blocks of an entry, in the order in which they are freed: the words, `argv`, and
`exec_path`. -/
def Recorded (m : Memory) (e : Entry) (blocks : List Nat) : Prop :=
  ∃ arr args, e.argv = some arr ∧ m.live arr = some (.pointers args) ∧ e.argc = args.length ∧
    blocks = args ++ arr :: e.execPath.toList

/-- An entry stays recorded while its blocks are left alone. -/
theorem Recorded.congr {m m' : Memory} {e : Entry} {blocks : List Nat} (h : Recorded m e blocks)
    (hlive : ∀ id ∈ blocks, m'.live id = m.live id) : Recorded m' e blocks := by
  obtain ⟨arr, args, hargv, harr, hargc, rfl⟩ := h
  refine ⟨arr, args, hargv, ?_, hargc, rfl⟩
  rw [hlive arr (List.mem_append_right _ List.mem_cons_self), harr]

/-- **An entry is recorded**, with blocks of its own. -/
theorem redirectionMemory_spec (env : Environment) (cwd : w.Dir) (argv : List CString)
    {process : Nat} {m : Memory} {es : List Entry}
    (hp : m.live process = some (.processes es)) :
    ∃ m' e blocks, redirectionMemory env cwd argv process m = .ok m' ∧ Frame [process] m m' ∧
      m'.live process = some (.processes (es ++ [e])) ∧ Recorded m' e blocks ∧
      m'.Owns blocks ∧ (∀ id ∈ blocks, m.next ≤ id) ∧ m'.count = m.count + blocks.length := by
  have hlt := lt_next_of_live hp
  have hframe₁ := (Frame.refl [process] m).alloc (.pointers [])
  have hown₁ := (Owns.nil m).alloc (.pointers [])
  obtain ⟨m₂, args, hdup, hframe₂, harr₂, hown₂, hnew₂, hlen, hcount₂⟩ :=
    dupTokens_spec m.next argv (live_alloc_next (Block.pointers []) m)
  obtain ⟨m₃, execPath, hfind, hfound⟩ := findExecMemory_spec env cwd argv m₂
  -- `argv` itself is a new block, so no other one has changed
  have hframe : Frame [process] m m₃ := by
    have htwo : Frame ([m.next] ++ [process]) (m.alloc (.pointers [])) m₃ :=
      (hframe₂.mono (List.subset_append_left _ _)).trans (hfound.frame.mono (List.nil_subset _))
    exact hframe₁.trans_new htwo (by simp)
  have hp₃ : m₃.live process = some (.processes es) := by
    rw [hfound.frame.live process (Nat.lt_of_lt_of_le (Nat.lt_succ_of_lt hlt) hframe₂.next)
      List.not_mem_nil, hframe₂.live process (Nat.lt_succ_of_lt hlt) (by simp; omega),
      live_alloc_of_live hp]
  have harr₃ : m₃.live m.next = some (.pointers args) := by
    have harr := lt_next_of_live harr₂
    rw [hfound.frame.live m.next harr List.not_mem_nil, harr₂, List.nil_append]
  obtain ⟨m₄, hstore, hwrite, _, hp₄, hcount₄⟩ := storeBlock_spec (Option.isSome_of_eq_some hp₃)
    (.processes (es ++ [⟨argv.length, some m.next, execPath⟩]))
  have hlast : Frame [process] m₃ m₄ :=
    (Frame.refl [process] m₃).write hwrite (Or.inl List.mem_cons_self)
  have hnew : ∀ id ∈ args ++ m.next :: execPath.toList, m.next ≤ id := by
    intro id hid
    rcases List.mem_append.mp hid with hid | hid
    · exact Nat.le_of_succ_le (hnew₂ id hid)
    · rcases List.mem_cons.mp hid with rfl | hid
      · exact Nat.le_refl _
      · exact Nat.le_trans (Nat.le_of_succ_le hframe₂.next) (hfound.new id hid)
  refine ⟨m₄, _, args ++ m.next :: execPath.toList, ?_, hframe.trans hlast, hp₄,
    ⟨m.next, args, rfl, ?_, hlen.symm, rfl⟩, ?_, hnew, ?_⟩
  · unfold redirectionMemory
    dsimp only
    rw [hdup]
    change findExecMemory env cwd argv m₂ >>= _ = _
    rw [hfind]
    change processesAt process m₃ >>= _ = _
    rw [processesAt_ok hp₃]
    exact hstore
  · rw [hlast.live m.next (lt_next_of_live harr₃) (by simp; omega), harr₃]
  · have hown₃ := (hown₁.extend hframe₂ hown₂ hnew₂).extend hfound.frame hfound.own hfound.new
    refine (hown₃.frame hlast).perm ?_
    rw [List.append_cons args m.next execPath.toList]
    exact List.perm_append_comm
  · have halloc := count_alloc (Block.pointers []) m
    have hfind' := hfound.count
    rw [List.length_append, List.length_cons]
    omega

end Entries

/-! ## 7. The segment loop -/

section Segments

open Heap

variable {m m₁ m' : Memory} {process : Nat} {es : List Entry} {blocks : List (List Nat)}

/-- Entries stay recorded while their blocks are left alone. -/
theorem recorded_congr (h : List.Forall₂ (Recorded m) es blocks)
    (hlive : ∀ id ∈ blocks.flatten, m'.live id = m.live id) :
    List.Forall₂ (Recorded m') es blocks := by
  induction h with
  | nil => exact .nil
  | cons he _ ih =>
    rw [List.flatten_cons, List.forall_mem_append] at hlive
    exact .cons (he.congr hlive.1) (ih hlive.2)

/-- What some turns of the loop do to the heap, which had the entries `es`: the `new` entries with
their blocks, and `kept` more blocks. -/
structure Collected (process : Nat) (m m' : Memory) (es new : List Entry)
    (blocks : List (List Nat)) (kept : Nat) : Prop where
  frame : Frame [process] m m'
  entries : m'.live process = some (.processes (es ++ new))
  recorded : List.Forall₂ (Recorded m') new blocks
  own : m'.Owns blocks.flatten
  new : ∀ id ∈ blocks.flatten, m.next ≤ id
  count : m'.count = m.count + blocks.flatten.length + kept

/-- Turns of the loop one after the other. -/
theorem Collected.trans {new new' : List Entry} {blocks' : List (List Nat)} {kept kept' : Nat}
    (hp : process < m.next) (h₁ : Collected process m m₁ es new blocks kept)
    (h₂ : Collected process m₁ m' (es ++ new) new' blocks' kept') :
    Collected process m m' es (new ++ new') (blocks ++ blocks') (kept + kept') where
  frame := h₁.frame.trans h₂.frame
  entries := by
    rw [h₂.entries, List.append_assoc]
  recorded := by
    refine List.rel_append (recorded_congr h₁.recorded ?_) h₂.recorded
    -- the array of the entries is not one of their blocks
    intro id hid
    refine h₂.frame.live id (h₁.own.lt_next hid) ?_
    rw [List.mem_singleton]
    rintro rfl
    exact absurd (h₁.new id hid) (Nat.not_le.mpr hp)
  own := by
    rw [List.flatten_append]
    exact (h₁.own.extend h₂.frame h₂.own h₂.new).perm List.perm_append_comm
  new := by
    rw [List.flatten_append, List.forall_mem_append]
    exact ⟨h₁.new, fun id hid => Nat.le_trans h₁.frame.next (h₂.new id hid)⟩
  count := by
    rw [h₂.count, h₁.count, List.flatten_append, List.length_append]
    omega

theorem Collected.refl (hp : m.live process = some (.processes es)) :
    Collected process m m es [] [] 0 where
  frame := .refl _ m
  entries := by
    rw [hp, List.append_nil]
  recorded := .nil
  own := .nil m
  new := List.forall_mem_nil _
  count := rfl

/-- The copy of a segment that shows whether it is blank. -/
theorem copy_collected (command : CString) (hp : m.live process = some (.processes es)) :
    ∃ m₁, storeBlock m.next (.text (clean command)) (m.alloc (.text command)) = .ok m₁ ∧
      Collected process m m₁ es [] [] 1 ∧
      ∃ m₂, freeBlock m.next m₁ = .ok m₂ ∧ Collected process m m₂ es [] [] 0 := by
  have hlt := lt_next_of_live hp
  have hframe := (Frame.refl [process] m).alloc (.text command)
  obtain ⟨m₁, hstore, hwrite, _, hlive, hcount⟩ := storeBlock_spec
    (Option.isSome_of_eq_some (live_alloc_next (.text command) m)) (.text (clean command))
  have hframe₁ := hframe.write hwrite (Or.inr (Nat.le_refl _))
  have hcount₁ : m₁.count = m.count + 1 := by rw [hcount, count_alloc]
  have hp₁ : m₁.live process = some (.processes es) := by
    have hother : Frame [m.next] (m.alloc (.text command)) m₁ :=
      (Frame.refl _ _).write hwrite (Or.inl List.mem_cons_self)
    rw [hother.live process (Nat.lt_succ_of_lt hlt) (by simp; omega), live_alloc_of_live hp]
  obtain ⟨m₂, hfree, hnext, hkeep⟩ := free_of_live hlive
  have hcount₂ := count_free hfree
  refine ⟨m₁, hstore, ⟨hframe₁, ?_, .nil, .nil m₁, List.forall_mem_nil _, ?_⟩, m₂, ?_,
    ⟨hframe₁.free hfree (Nat.le_refl _), ?_, .nil, .nil m₂, List.forall_mem_nil _, ?_⟩⟩
  · rw [hp₁, List.append_nil]
  · rw [hcount₁]
    rfl
  · rw [freeBlock, hfree]
  · rw [hkeep process (Nat.ne_of_lt hlt), hp₁, List.append_nil]
  · rw [List.flatten_nil, List.length_nil]
    omega

/-- A turn of the loop, and the turns after it. -/
theorem Collected.follows {α : Type} {new : List Entry} {kept n : Nat} {r : Except Fault α}
    {x : Except Halt (α × Memory)} (hp : process < m.next)
    (h : Collected process m m₁ es new blocks kept)
    (hrest : Follows r x (fun _ m' =>
      ∃ new' blocks', Collected process m₁ m' (es ++ new) new' blocks' n)) :
    Follows r x (fun _ m' => ∃ new' blocks', Collected process m m' es new' blocks' (kept + n)) :=
  hrest.mono fun _ _ ⟨_, _, hcol⟩ => ⟨_, _, h.trans hp hcol⟩

/-- **The segment loop** goes as `runSegments`, and keeps the copies of the blank segments. -/
theorem segmentsMemory_spec (env : Environment) (o : LineOutcome) :
    ∀ (commands : List CString) (i : Nat) (ps : List (Process × w.Dir)) (s : Shell w)
      {m : Memory} {es : List Entry}, m.live process = some (.processes es) →
      Follows (runSegments env o i commands ps s)
        (segmentsMemory env o process i commands ps s m) (fun _ m' => ∃ new blocks,
          Collected process m m' es new blocks (commands.countP (fun c => clean c = [])))
  | [], i, ps, s, m, es, hp => ⟨m, rfl, [], [], .refl hp⟩
  | command :: commands, i, ps, s, m, es, hp => by
    have hlt := lt_next_of_live hp
    obtain ⟨m₁, hstore, hkept, m₂, hfree, hgone⟩ := copy_collected command hp
    rw [segmentsMemory, runSegments]
    dsimp only
    rw [hstore]
    by_cases hblank : clean command = []
    · -- `continue`, with the copy still allocated
      rw [if_pos hblank, List.countP_cons_of_pos (by simpa using hblank),
        Nat.add_comm (List.countP _ _) 1]
      change Follows _ (if clean command = [] then _ else _) _
      rw [if_pos hblank]
      exact hkept.follows hlt (segmentsMemory_spec env o commands (i + 1) ps s hkept.entries)
    · rw [if_neg hblank, List.countP_cons_of_neg (by simpa using hblank), ← Nat.zero_add
        (List.countP _ _), runSegment]
      change Follows _ (if clean command = [] then _ else _) _
      rw [if_neg hblank, hfree]
      refine hgone.follows hlt ?_
      change Follows _ (match handlePipe env (o.seg i).stage 0 command true
        (saveStreams (o.seg i) s) with
        | (none, s) => segmentsMemory env o process (i + 1) commands ps s m₂
        | (some (.ok pipeRes), s) =>
          (handleRedirection (o.seg i).scratch pipeRes {} env s).mapError .shell >>=
            fun (p, t) => (redirectionMemory env s.cwd p.argv process m₂).mapError .memory >>=
              segmentsMemory env o process (i + 1) commands (ps ++ [(p, s.cwd)]) t
        | (some (.error f), _) => .error (.shell f)) _
      rcases handlePipe env (o.seg i).stage 0 command true (saveStreams (o.seg i) s) with
        ⟨_ | (f | pipeRes), s₁⟩
      · exact segmentsMemory_spec env o commands (i + 1) ps s₁ hgone.entries
      · exact rfl
      · dsimp only
        rcases handleRedirection (o.seg i).scratch pipeRes {} env s₁ with f | ⟨p, t⟩
        · exact rfl
        · -- a new entry of `process[]`
          obtain ⟨m₃, e, blocks, hredi, hframe, hentries, hrec, hown, hnew, hcount⟩ :=
            redirectionMemory_spec env s₁.cwd p.argv hgone.entries
          rw [← Nat.zero_add (List.countP _ _)]
          change Follows (runSegments env o (i + 1) commands (ps ++ [(p, s₁.cwd)]) t)
            ((redirectionMemory env s₁.cwd p.argv process m₂).mapError .memory >>=
              segmentsMemory env o process (i + 1) commands (ps ++ [(p, s₁.cwd)]) t) _
          rw [hredi]
          have hentry : Collected process m₂ m₃ (es ++ []) [e] [blocks] 0 := by
            refine ⟨hframe, hentries, .cons hrec .nil, ?_, ?_, ?_⟩
            · rwa [List.flatten_singleton]
            · rwa [List.flatten_singleton]
            · rw [hcount, List.flatten_singleton]
              rfl
          exact hentry.follows (lt_next_of_live hgone.entries)
            (segmentsMemory_spec env o commands (i + 1) _ t hentries)

end Segments

/-! ## 8. The end of `parse_command` -/

section Freeing

open Heap

variable {m : Memory} {e : Entry} {es : List Entry} {blocks : List (List Nat)}

theorem freeEach_append (ids ids' : List Nat) (m : Memory) :
    freeEach (ids ++ ids') m = freeEach ids m >>= freeEach ids' := by
  induction ids generalizing m with
  | nil => rfl
  | cons id ids ih =>
    rw [List.cons_append, freeEach, freeEach]
    cases freeBlock id m with
    | error f => rfl
    | ok m => exact ih m

theorem freeEach_concat (ids : List Nat) (id : Nat) (m : Memory) :
    freeEach (ids ++ [id]) m = freeEach ids m >>= freeBlock id := by
  have hone : freeEach [id] = freeBlock id := by
    funext m
    rw [freeEach]
    cases freeBlock id m <;> rfl
  rw [freeEach_append, hone]

theorem freePointer_eq (p : Option Nat) (m : Memory) : freePointer p m = freeEach p.toList m := by
  cases p with
  | none => rfl
  | some id => exact (freeEach_concat [] id m).symm

/-- For an entry its words are freed, its `argv` and its `exec_path`. -/
theorem freeEntry_eq {ids : List Nat} (h : Recorded m e ids) :
    (freeArgs e m >>= freePointer e.argv >>= freePointer e.execPath) = freeEach ids m := by
  obtain ⟨arr, args, hargv, harr, hargc, rfl⟩ := h
  have hargs : freeArgs e m = freeEach args m := by
    rw [freeArgs, hargv]
    dsimp only
    rw [pointersAt_ok harr, hargc]
    change freeEach (args.take args.length) m = _
    rw [List.take_length]
  have hrest : ∀ m₁ : Memory, (freePointer e.argv m₁ >>= freePointer e.execPath) =
      freeEach (arr :: e.execPath.toList) m₁ := by
    intro m₁
    rw [hargv, freeEach, funext (freePointer_eq e.execPath)]
    rfl
  rw [hargs, freeEach_append, bind_assoc]
  exact congrArg (freeEach args m >>= ·) (funext hrest)

/-- The loop over the entries frees their blocks in order: a block that is freed belongs to no
later entry. -/
theorem freeEntries_eq {rest : List Nat} : ∀ {es : List Entry} {blocks : List (List Nat)}
    {m : Memory}, List.Forall₂ (Recorded m) es blocks → m.Owns (blocks.flatten ++ rest) →
    freeEntries es m = freeEach blocks.flatten m
  | [], [], _, .nil, _ => rfl
  | e :: es, ids :: blocks, m, .cons he hes, ho => by
    rw [List.flatten_cons, List.append_assoc] at ho
    obtain ⟨m₁, hfree, ho₁, _, hkeep, _⟩ := freeEach_spec ids ho
    have hlater : List.Forall₂ (Recorded m₁) es blocks := by
      refine recorded_congr hes fun id hid => hkeep id fun hin => ?_
      exact (List.nodup_append.mp ho.nodup).2.2 id hin id (List.mem_append_left _ hid) rfl
    rw [List.flatten_cons, freeEach_append, freeEntries, freeEntry_eq he, hfree]
    exact freeEntries_eq hlater ho₁

/-- What the end of `parse_command` frees: the copies of the segments, their array, the blocks of
the entries, and `process[]`. -/
theorem freeAll_eq {single process : Nat} {ids : List Nat}
    (hsingle : m.live single = some (.pointers ids)) (hp : m.live process = some (.processes es))
    (hes : List.Forall₂ (Recorded m) es blocks)
    (ho : m.Owns ((ids ++ [single]) ++ (blocks.flatten ++ [process]))) :
    freeAll single process m =
      freeEach ((ids ++ [single]) ++ (blocks.flatten ++ [process])) m := by
  obtain ⟨m₁, hfree, ho₁, _, hkeep, _⟩ := freeEach_spec (ids ++ [single]) ho
  have hdisj : ∀ id ∈ blocks.flatten ++ [process], m₁.live id = m.live id := by
    intro id hid
    exact hkeep id fun hin => (List.nodup_append.mp ho.nodup).2.2 id hin id hid rfl
  rw [List.forall_mem_append, List.forall_mem_singleton] at hdisj
  rw [freeEach_append, hfree, freeAll, pointersAt_ok hsingle]
  change (freeEach ids m >>= freeBlock single >>= _) = freeEach (blocks.flatten ++ [process]) m₁
  rw [← freeEach_concat, hfree]
  change (processesAt process m₁ >>= _) = _
  rw [processesAt_ok (hdisj.2.trans hp), freeEach_concat,
    ← freeEntries_eq (recorded_congr hes hdisj.1) ho₁]
  rfl

end Freeing

/-! ## 9. `parse_command` -/

section Parse

open Heap

/-- How many segments of a line are blank. -/
def blankSegments (line : CString) : Nat := (singleCommands line).countP (fun c => clean c = [])

/-- **`parse_command` with the heap** goes as without it: no read and no `free` of a block that is
not live.  The blocks from before are as they were, and the copies of the blank segments are
left. -/
theorem parseMemory_spec (o : LineOutcome) (line : CString) (env : Environment) (s : Shell w)
    (m : Memory) :
    Follows (parseCommand o line env s) (parseMemory o line env s m) (fun _ m' =>
      Frame [] m m' ∧ m'.count = m.count + blankSegments line) := by
  rw [parseMemory, parseCommand]
  dsimp only
  split
  · rfl
  have hown := ((Owns.nil m).alloc (.processes [])).alloc (.pointers [])
  have hframe := ((Frame.refl [] m).alloc (.processes [])).alloc (.pointers [])
  obtain ⟨m₃, ids, hdup, hframe₃, hsingle₃, hown₃, hnew₃, hlen₃, hcount₃⟩ :=
    dupTokens_spec _ (singleCommands line)
      (live_alloc_next (Block.pointers []) (m.alloc (.processes [])))
  have hp₃ : m₃.live m.next = some (.processes []) := by
    rw [hframe₃.live m.next (by rw [next_alloc, next_alloc]; omega) (by simp)]
    exact live_alloc_of_live (live_alloc_next _ m) _
  rw [hdup]
  refine (segmentsMemory_spec env o (singleCommands line) 0 [] s hp₃).bind ?_
  rintro ⟨ps, t⟩ m₄ ⟨new, blocks, hcol⟩
  dsimp only
  rcases runProcesses o ps (t.chdir env.cwdString) with f | u
  · rfl
  -- the blocks of the line, in the order in which they are freed
  have hnew : ∀ id ∈ (ids ++ [m.next + 1]) ++ (blocks.flatten ++ [m.next]), m.next ≤ id := by
    have hnext₃ := hframe₃.next
    rw [next_alloc, next_alloc] at hnew₃ hnext₃
    intro id hid
    simp only [List.mem_append, List.mem_singleton] at hid
    rcases hid with (hid | rfl) | hid | rfl
    · have hle := hnew₃ id hid
      omega
    · omega
    · have hle := hcol.new id hid
      omega
    · exact Nat.le_refl _
  have hown₄ : m₄.Owns ((ids ++ [m.next + 1]) ++ (blocks.flatten ++ [m.next])) := by
    refine ((hown.extend hframe₃ hown₃ hnew₃).extend hcol.frame hcol.own hcol.new).perm ?_
    change (blocks.flatten ++ (ids ++ ([m.next + 1] ++ [m.next]))).Perm _
    rw [← List.append_assoc ids]
    exact List.perm_append_comm_assoc _ _ _
  have hsingle₄ : m₄.live (m.next + 1) = some (.pointers ids) := by
    rw [hcol.frame.live (m.next + 1) (lt_next_of_live hsingle₃) (by simp)]
    exact hsingle₃
  have hframe₄ : Frame [] m m₄ := by
    have htwo : Frame ([m.next + 1, m.next] ++ []) _ m₄ :=
      (hframe₃.mono (by simp)).trans (hcol.frame.mono (by simp))
    exact hframe.trans_new htwo (by simp)
  rw [← List.append_nil (_ ++ _)] at hown₄
  obtain ⟨m', hfree, _, hnext', hkeep, hcount'⟩ := freeEach_spec _ hown₄
  rw [List.append_nil] at hown₄
  refine ⟨m', ?_, hframe₄.after hnext'.ge fun id hid => hkeep id fun hin => ?_, ?_⟩
  · change ((freeAll (m.next + 1) m.next m₄).mapError Halt.memory >>= _) = _
    rw [freeAll_eq hsingle₄ hcol.entries hcol.recorded hown₄, hfree]
    rfl
  · exact absurd (hnew id hin) (Nat.not_le.mpr hid)
  · have halloc := count_alloc (Block.processes []) m
    have halloc' := count_alloc (Block.pointers []) (m.alloc (.processes []))
    have hcol' := hcol.count
    simp only [List.length_append, List.length_singleton] at hcount'
    rw [blankSegments]
    omega

end Parse

end Osexp.Seush
