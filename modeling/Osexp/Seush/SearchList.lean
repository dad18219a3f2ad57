/-
# `environment.paths` as an array of pointers

The `path` command frees the strings of the old list up to its empty terminator, and stores the
new words in the same array from the start, with a new terminator after them.  The old terminator
is not freed, and what stands beyond the new one are pointers to freed strings, to an old
terminator, or whatever the stack held.

The model keeps the array with its pointers and the heap of strings.  Its loops fail on a pointer
to a string that is not live, on a second `free` and outside the array, and they return the
indices of the slots that they read.

`search_list_kept`: along every run of `path` commands that fit, none of this happens, and the
array `Holds` the words of the latest one: live strings, then a live empty string, then stale
pointers that neither loop reaches.
-/
import Osexp.Lib.Heap
import Osexp.Seush.Loop
import Osexp.Seush.Rules
import Mathlib.Data.List.Nodup

namespace Osexp.Seush

variable {w : World}

/-! ## 1. The array -/

/-- A `char *`. -/
inductive Pointer
  | null
  | to (id : Nat)

/-- What a loop over the array must not do. -/
inductive MemFault
  | danglingRead | doubleFree | outOfArray
  deriving DecidableEq, Repr

/-- `environment.paths`, and the strings that are allocated. -/
structure Table where
  slots : List Pointer
  heap : Heap CString
  slots_length : slots.length = MAX_PATH_NUM

/-- `paths[i] && paths[i][0] != '\0'`: the string in the slot, `none` when the test fails. -/
def liveDir (h : Heap CString) : Pointer → Except MemFault (Option (Nat × CString))
  | .null => .ok none
  | .to id =>
    match h.live id with
    | none => .error .danglingRead
    | some [] => .ok none
    | some (c :: dir) => .ok (some (id, c :: dir))

/-- `while (environment.paths[_i] && environment.paths[_i][0] != '\0')` in the `path` command, on
the slots from number `_i` on: the heap after it, and the slots that it has read. -/
def clearLoop : Nat → List Pointer → Heap CString → Except MemFault (Heap CString × List Nat)
  | _, [], _ => .error .outOfArray
  | _i, p :: slots, h =>
    match liveDir h p with
    | .error f => .error f
    | .ok none => .ok (h, [_i])
    | .ok (some (id, _)) =>
      match h.free id with
      | none => .error .doubleFree
      | some h => (clearLoop (_i + 1) slots h).map (fun r => (r.1, _i :: r.2))

/-- The loop over `environment->paths` in `handle_redirection`: the path that is found. -/
def searchLoop (cwd : w.Dir) (name : CString) : Nat → List Pointer → Heap CString →
    Except MemFault (Option CString × List Nat)
  | _, [], _ => .error .outOfArray
  | path_i, p :: slots, h =>
    match liveDir h p with
    | .error f => .error f
    | .ok none => .ok (none, [path_i])
    | .ok (some (_, dir)) =>
      if w.access cwd (fullPath dir name) then .ok (some (fullPath dir name), [path_i])
      else (searchLoop cwd name (path_i + 1) slots h).map (fun r => (r.1, path_i :: r.2))

/-- `environment.paths[k] = strdup(str)`. -/
def Table.store (k : Nat) (str : CString) (t : Table) : Except MemFault Table :=
  if k < MAX_PATH_NUM then
    .ok {
      slots := t.slots.set k (.to t.heap.next)
      heap := t.heap.alloc str
      slots_length := by rw [List.length_set, t.slots_length] }
  else .error .outOfArray

/-- `environment.paths[path_sep_num++] = strdup(token)`, for each token. -/
def storeLoop : Nat → List CString → Table → Except MemFault (Nat × Table)
  | path_sep_num, [], t => .ok (path_sep_num, t)
  | path_sep_num, token :: tokens, t =>
    t.store path_sep_num token >>= storeLoop (path_sep_num + 1) tokens

/-- The `path` command.  The copy of its arguments that `strtok` cuts is never freed. -/
def pathCommand (args : CString) (t : Table) : Except MemFault Table :=
  clearLoop 0 t.slots t.heap >>= fun (h, _) =>
  storeLoop 0 (if args = [] then [] else strtokAll [' '] args)
    { t with heap := h.alloc args } >>= fun (path_sep_num, t) =>
  t.store path_sep_num []

/-- What a line of the main loop does to the array. -/
def tableLine (line : CString) (t : Table) : Except MemFault Table :=
  match dispatch (clean line) with
  | .path args => pathCommand args t
  | _ => .ok t

def tableRun : List CString → Table → Except MemFault Table
  | [], t => .ok t
  | line :: lines, t => tableLine line t >>= tableRun lines

/-- `paths[0] = strdup(DEFAULT_PATHS); paths[1] = strdup("\0");` in an array that holds whatever
the stack held. -/
def initTable (stack : List Pointer) (h : stack.length = MAX_PATH_NUM) : Table where
  slots := (stack.set 0 (.to 0)).set 1 (.to 1)
  heap := (Heap.empty.alloc DEFAULT_PATHS).alloc []
  slots_length := by rw [List.length_set, List.length_set, h]

/-! ## 2. What the array holds -/

/-- The directories to search after a line. -/
def nextDirs (dirs : List CString) (line : CString) : List CString :=
  match dispatch (clean line) with
  | .path args => spaceWords args
  | _ => dirs

/-- The words of the latest `path` command. -/
def latestDirs (lines : List CString) : List CString := lines.foldl nextDirs [DEFAULT_PATHS]

/-- The line is no `path` command, or one that names fewer directories than the array has slots. -/
def PathFits (line : CString) : Prop :=
  ∀ args, dispatch (clean line) = .path args → (spaceWords args).length < MAX_PATH_NUM

/-- Slots that point to live strings, one object each, and then to a live empty string; stale
pointers after it. -/
structure Layout (slots : List Pointer) (h : Heap CString) (dirs : List CString)
    (ids : List Nat) (last : Nat) (stale : List Pointer) : Prop where
  slots : slots = ids.map .to ++ .to last :: stale
  live : ids.map h.live = dirs.map some
  ended : h.live last = some []
  nodup : ids.Nodup

/-- **The invariant of the search list.** -/
structure Table.Holds (t : Table) (dirs : List CString) : Prop where
  few : dirs.length < MAX_PATH_NUM
  names : ∀ dir ∈ dirs, dir ≠ []
  layout : ∃ ids last stale, Layout t.slots t.heap dirs ids last stale

/-- Neither loop over the array reads a slot beyond the terminator, and the search finds what it
finds along `dirs`. -/
structure Table.Reads (t : Table) (dirs : List CString) : Prop where
  clear : ∃ h reads, clearLoop 0 t.slots t.heap = .ok (h, reads) ∧ ∀ k ∈ reads, k ≤ dirs.length
  search : ∀ {w : World} (cwd : w.Dir) (name : CString), ∃ reads,
    searchLoop cwd name 0 t.slots t.heap = .ok (searchPaths cwd name dirs, reads) ∧
      ∀ k ∈ reads, k ≤ dirs.length

/-! ## 3. The loops -/

theorem liveDir_name {h : Heap CString} {id : Nat} {dir : CString} (hid : h.live id = some dir)
    (hne : dir ≠ []) : liveDir h (.to id) = .ok (some (id, dir)) := by
  obtain ⟨c, dir, rfl⟩ := List.exists_cons_of_ne_nil hne
  simp only [liveDir, hid]

theorem liveDir_ended {h : Heap CString} {id : Nat} (hid : h.live id = some []) :
    liveDir h (.to id) = .ok none := by
  simp only [liveDir, hid]

/-- The `path` command frees the live strings and stops at the terminator. -/
theorem clearLoop_layout {last : Nat} {stale : List Pointer} :
    ∀ (ids : List Nat) (dirs : List CString) (i : Nat) (h : Heap CString),
      ids.map h.live = dirs.map some → (∀ dir ∈ dirs, dir ≠ []) → h.live last = some [] →
      ids.Nodup → ∃ h' reads,
        clearLoop i (ids.map .to ++ .to last :: stale) h = .ok (h', reads) ∧
        ∀ k ∈ reads, k ≤ i + dirs.length
  | [], [], i, h, _, _, hlast, _ => by
    refine ⟨h, [i], ?_, by simp⟩
    rw [List.map_nil, List.nil_append, clearLoop, liveDir_ended hlast]
  | [], _ :: _, _, _, hlive, _, _, _ => by simp at hlive
  | _ :: _, [], _, _, hlive, _, _, _ => by simp at hlive
  | id :: ids, dir :: dirs, i, h, hlive, hnames, hlast, hnodup => by
    rw [List.map_cons, List.map_cons, List.cons.injEq] at hlive
    obtain ⟨hid, hids⟩ := hlive
    obtain ⟨hdir, hdirs⟩ := List.forall_mem_cons.mp hnames
    obtain ⟨hnot, hnodup⟩ := List.nodup_cons.mp hnodup
    obtain ⟨h₁, hfree, _, hkeep⟩ := Heap.free_of_live hid
    -- neither the other names nor the terminator are the string that is freed
    have hids₁ : ids.map h₁.live = dirs.map some := by
      rw [← hids]
      refine List.map_congr_left ?_
      intro k hk
      exact hkeep k (fun he => hnot (he ▸ hk))
    have hlast₁ : h₁.live last = some [] := by
      rw [hkeep last, hlast]
      rintro rfl
      rw [hlast] at hid
      exact hdir (Option.some.inj hid).symm
    obtain ⟨h', reads, hloop, hreads⟩ :=
      @clearLoop_layout last stale ids dirs (i + 1) h₁ hids₁ hdirs hlast₁ hnodup
    refine ⟨h', i :: reads, ?_, ?_⟩
    · rw [List.map_cons, List.cons_append, clearLoop, liveDir_name hid hdir]
      dsimp only
      rw [hfree]
      dsimp only
      rw [hloop]
      rfl
    · intro k hk
      rw [List.length_cons]
      rcases List.mem_cons.mp hk with rfl | hk
      · omega
      · have hle := hreads k hk
        omega

/-- The search goes along the live strings and stops at the terminator. -/
theorem searchLoop_layout {last : Nat} {stale : List Pointer} (cwd : w.Dir) (name : CString)
    (h : Heap CString) (hlast : h.live last = some []) :
    ∀ (ids : List Nat) (dirs : List CString) (i : Nat), ids.map h.live = dirs.map some →
      (∀ dir ∈ dirs, dir ≠ []) →
      ∃ reads, searchLoop cwd name i (ids.map .to ++ .to last :: stale) h =
          .ok (searchPaths cwd name dirs, reads) ∧ ∀ k ∈ reads, k ≤ i + dirs.length
  | [], [], i, _, _ => by
    refine ⟨[i], ?_, by simp⟩
    rw [List.map_nil, List.nil_append, searchLoop, liveDir_ended hlast]
    rfl
  | [], _ :: _, _, hlive, _ => by simp at hlive
  | _ :: _, [], _, hlive, _ => by simp at hlive
  | id :: ids, dir :: dirs, i, hlive, hnames => by
    rw [List.map_cons, List.map_cons, List.cons.injEq] at hlive
    obtain ⟨hid, hids⟩ := hlive
    obtain ⟨hdir, hdirs⟩ := List.forall_mem_cons.mp hnames
    rw [List.map_cons, List.cons_append, searchLoop, liveDir_name hid hdir, searchPaths]
    dsimp only
    split
    · refine ⟨[i], rfl, ?_⟩
      intro k hk
      rw [List.mem_singleton.mp hk]
      omega
    · obtain ⟨reads, hloop, hreads⟩ := searchLoop_layout cwd name h hlast ids dirs (i + 1) hids
        hdirs
      refine ⟨i :: reads, by rw [hloop]; rfl, ?_⟩
      intro k hk
      rw [List.length_cons]
      rcases List.mem_cons.mp hk with rfl | hk
      · omega
      · have hle := hreads k hk
        omega

theorem Table.Holds.reads {t : Table} {dirs : List CString} (ht : t.Holds dirs) :
    t.Reads dirs := by
  obtain ⟨ids, last, stale, hslots, hlive, hended, hnodup⟩ := ht.layout
  constructor
  · obtain ⟨h, reads, hloop, hreads⟩ :=
      @clearLoop_layout last stale ids dirs 0 t.heap hlive ht.names hended hnodup
    rw [← hslots] at hloop
    exact ⟨h, reads, hloop, fun k hk => (Nat.zero_add dirs.length) ▸ hreads k hk⟩
  · intro w cwd name
    obtain ⟨reads, hloop, hreads⟩ :=
      @searchLoop_layout w last stale cwd name t.heap hended ids dirs 0 hlive ht.names
    rw [← hslots] at hloop
    exact ⟨reads, hloop, fun k hk => (Nat.zero_add dirs.length) ▸ hreads k hk⟩

/-! ## 4. Storing a list -/

/-- The array while a list is stored: the words so far, as live strings, and then stale
pointers. -/
structure Stored (t : Table) (ids : List Nat) (words : List CString) (stale : List Pointer) :
    Prop where
  slots : t.slots = ids.map .to ++ stale
  live : ids.map t.heap.live = words.map some
  nodup : ids.Nodup

/-- One more string is stored behind the others, as a new object. -/
theorem Stored.store {t : Table} {ids : List Nat} {words : List CString} {stale : List Pointer}
    (ht : Stored t ids words stale) (hlen : ids.length < MAX_PATH_NUM) (str : CString) :
    ∃ t' stale', t.store ids.length str = .ok t' ∧
      Stored t' (ids ++ [t.heap.next]) (words ++ [str]) stale' := by
  obtain ⟨hslots, hlive, hnodup⟩ := ht
  have hstale : stale ≠ [] := by
    rintro rfl
    have hcount := t.slots_length
    rw [hslots, List.append_nil, List.length_map] at hcount
    omega
  obtain ⟨p, stale', rfl⟩ := List.exists_cons_of_ne_nil hstale
  refine ⟨_, stale', if_pos hlen, ?_, ?_, ?_⟩
  · dsimp only
    rw [hslots, List.set_append_right _ _ (by rw [List.length_map]), List.length_map,
      Nat.sub_self]
    simp
  · rw [List.map_append, List.map_append, Heap.map_live_alloc hlive, List.map_singleton,
      List.map_singleton, Heap.live_alloc_next]
  · -- the numbers given out before are not the new one
    rw [List.nodup_append]
    refine ⟨hnodup, List.nodup_singleton _, ?_⟩
    rintro k hk _ hnext rfl
    rw [List.mem_singleton] at hnext
    obtain ⟨dir, _, hdir⟩ := List.mem_map.mp (hlive ▸ List.mem_map_of_mem hk)
    exact absurd (Heap.lt_next_of_live hdir.symm) (by omega)

/-- The words of a list that fits, one after the other. -/
theorem Stored.storeLoop : ∀ (tokens : List CString) {t : Table} {ids : List Nat}
    {words : List CString} {stale : List Pointer}, Stored t ids words stale →
    ids.length + tokens.length ≤ MAX_PATH_NUM →
    ∃ t' ids' stale', storeLoop ids.length tokens t = .ok (ids'.length, t') ∧
      Stored t' ids' (words ++ tokens) stale'
  | [], t, ids, words, stale, ht, _ => by
    refine ⟨t, ids, stale, rfl, ?_⟩
    rwa [List.append_nil]
  | token :: tokens, t, ids, words, stale, ht, hlen => by
    rw [List.length_cons] at hlen
    obtain ⟨t₁, stale₁, hstore, ht₁⟩ := ht.store (by omega) token
    obtain ⟨t', ids', stale', hloop, ht'⟩ := ht₁.storeLoop tokens
      (by rw [List.length_append, List.length_singleton]; omega)
    refine ⟨t', ids', stale', ?_, ?_⟩
    · rw [Osexp.Seush.storeLoop, hstore]
      rw [List.length_append, List.length_singleton] at hloop
      exact hloop
    · rwa [List.append_assoc, List.singleton_append] at ht'

theorem Stored.length {t : Table} {ids : List Nat} {words : List CString}
    {stale : List Pointer} (ht : Stored t ids words stale) : ids.length = words.length := by
  have hlen := congrArg List.length ht.live
  rwa [List.length_map, List.length_map] at hlen

/-- Words behind which an empty string is stored are a search list. -/
theorem Stored.holds {t : Table} {ids : List Nat} {dirs : List CString} {stale : List Pointer}
    (ht : Stored t ids dirs stale) (hnames : ∀ dir ∈ dirs, dir ≠ [])
    (hlen : dirs.length < MAX_PATH_NUM) :
    ∃ t', t.store ids.length [] = .ok t' ∧ t'.Holds dirs := by
  obtain ⟨t', stale', hstore, hslots, hlive, hnodup⟩ := ht.store (by rw [ht.length]; exact hlen) []
  rw [List.map_append, List.map_append, List.map_singleton, List.map_singleton] at hlive
  obtain ⟨hids, hlast⟩ := List.append_inj hlive (by
    rw [List.length_map, List.length_map, ht.length])
  refine ⟨t', hstore, hlen, hnames, ids, t.heap.next, stale', ?_, hids, ?_, ?_⟩
  · rw [hslots, List.map_append, List.append_assoc]
    rfl
  · exact List.head_eq_of_cons_eq hlast
  · exact (List.nodup_append.mp hnodup).1

/-! ## 5. The main loop -/

/-- **A `path` command that fits replaces the search list.**  The strings of the old list are freed
up to its terminator and not behind it, and the new list ends with a terminator of its own. -/
theorem pathCommand_holds {t : Table} {dirs : List CString} (ht : t.Holds dirs) {args : CString}
    (hfit : (spaceWords args).length < MAX_PATH_NUM) :
    ∃ t', pathCommand args t = .ok t' ∧ t'.Holds (spaceWords args) := by
  obtain ⟨h, reads, hclear, _⟩ := ht.reads.clear
  have htokens : (if args = [] then [] else strtokAll [' '] args) = spaceWords args := by
    rcases eq_or_ne args [] with rfl | hne
    · rfl
    · rw [if_neg hne, strtokAll_space]
  have hempty : Stored { t with heap := h.alloc args } [] [] t.slots := ⟨rfl, rfl, List.nodup_nil⟩
  obtain ⟨t₁, ids, stale, hstore, ht₁⟩ :=
    hempty.storeLoop (spaceWords args) (by rw [List.length_nil]; omega)
  rw [List.nil_append] at ht₁
  obtain ⟨t', hend, ht'⟩ := ht₁.holds (fun dir hdir => (Text.mem_tokens hdir).1) hfit
  refine ⟨t', ?_, ht'⟩
  unfold pathCommand
  rw [hclear, htokens]
  dsimp only [bind, Except.bind]
  rw [List.length_nil] at hstore
  rw [hstore]
  exact hend

theorem initTable_holds (stack : List Pointer) (h : stack.length = MAX_PATH_NUM) :
    (initTable stack h).Holds [DEFAULT_PATHS] := by
  refine ⟨by decide, by decide, [0], 1, stack.drop 2, ?_, ?_, ?_, ?_⟩
  · match stack, h with
    | p :: q :: stack, _ => rfl
  · rfl
  · rfl
  · exact List.nodup_singleton _

theorem tableLine_holds {t : Table} {dirs : List CString} (ht : t.Holds dirs) {line : CString}
    (hfit : PathFits line) :
    ∃ t', tableLine line t = .ok t' ∧ t'.Holds (nextDirs dirs line) := by
  unfold tableLine nextDirs
  cases hd : dispatch (clean line) with
  | path args => exact pathCommand_holds ht (hfit args hd)
  | _ => exact ⟨t, rfl, ht⟩

theorem tableRun_holds (lines : List CString) : ∀ (dirs : List CString) (t : Table),
    t.Holds dirs → (∀ line ∈ lines, PathFits line) →
    ∃ t', tableRun lines t = .ok t' ∧ t'.Holds (lines.foldl nextDirs dirs) := by
  induction lines with
  | nil => exact fun dirs t ht _ => ⟨t, rfl, ht⟩
  | cons line lines ih =>
    intro dirs t ht hfit
    obtain ⟨hline, hlines⟩ := List.forall_mem_cons.mp hfit
    obtain ⟨t₁, hstep, ht₁⟩ := tableLine_holds ht hline
    obtain ⟨t', hrun, ht'⟩ := ih _ t₁ ht₁ hlines
    refine ⟨t', ?_, ht'⟩
    rw [tableRun, hstep]
    exact hrun

/-- **The search list over a run.** After any lines whose `path` commands fit, no string has been
freed twice or read after its end, the array holds the words of the latest `path` command, and
neither loop will read beyond their terminator.  The array is full of pointers to freed strings
behind that terminator, and what keeps the loops from them is one empty string; the theorem is that
it is always there. -/
theorem search_list_kept (stack : List Pointer) (h : stack.length = MAX_PATH_NUM)
    (lines : List CString) (hfit : ∀ line ∈ lines, PathFits line) :
    ∃ t, tableRun lines (initTable stack h) = .ok t ∧ t.Holds (latestDirs lines) ∧
      t.Reads (latestDirs lines) := by
  obtain ⟨t, hrun, ht⟩ :=
    tableRun_holds lines [DEFAULT_PATHS] (initTable stack h) (initTable_holds stack h) hfit
  exact ⟨t, hrun, ht, ht.reads⟩

/-- Two `path` commands, a long one and a short one. -/
theorem search_list_kept_shorter :
    ∃ t, tableRun ["path /a /b /c\n".toList, "path /d\n".toList]
        (initTable (List.replicate MAX_PATH_NUM .null) rfl) = .ok t ∧
      t.Holds ["/d".toList] := by
  have hfit : ∀ line ∈ ["path /a /b /c\n".toList, "path /d\n".toList], PathFits line := by
    intro line hline args hargs
    rcases List.mem_cons.mp hline with rfl | hline
    · obtain rfl : args = " /a /b /c".toList := by
        have hd : dispatch (clean "path /a /b /c\n".toList) = .path " /a /b /c".toList := by
          decide +kernel
        exact (Dispatch.path.inj (hd.symm.trans hargs)).symm
      decide +kernel
    · obtain rfl := List.mem_singleton.mp hline
      obtain rfl : args = " /d".toList := by
        have hd : dispatch (clean "path /d\n".toList) = .path " /d".toList := by decide +kernel
        exact (Dispatch.path.inj (hd.symm.trans hargs)).symm
      decide +kernel
  obtain ⟨t, hrun, ht, _⟩ := search_list_kept (List.replicate MAX_PATH_NUM .null) rfl
    ["path /a /b /c\n".toList, "path /d\n".toList] hfit
  have hdirs : latestDirs ["path /a /b /c\n".toList, "path /d\n".toList] = ["/d".toList] := by
    decide +kernel
  exact ⟨t, hrun, hdirs ▸ ht⟩

/-! ## 6. The list of strings that the rest of the model keeps -/

theorem pathFits_of_ne {line : CString} (h : ∀ args, dispatch (clean line) ≠ .path args) :
    PathFits line :=
  fun args hargs => absurd hargs (h args)

/-- A line of a run makes `env.paths` what the array holds after it. -/
theorem step_paths {s t : Session w} {i : Input} (h : Step s i t) :
    PathFits i.1 ∧ t.env.paths = nextDirs s.env.paths i.1 := by
  unfold Step runLine at h
  unfold nextDirs
  cases hd : dispatch (clean i.1) with
  | exit =>
    rw [hd] at h
    cases h
  | help =>
    rw [hd] at h
    cases h
    exact ⟨pathFits_of_ne (by simp [hd]), rfl⟩
  | path args =>
    rw [hd] at h
    obtain ⟨env, henv, ht⟩ := map_eq_ok h
    cases ht
    unfold runPath at henv
    split at henv
    · cases henv
    · rename_i hlen
      cases henv
      rw [strtokAll_space] at hlen
      refine ⟨?_, strtokAll_space args⟩
      intro args' hargs
      rw [hd] at hargs
      cases hargs
      exact Nat.lt_of_not_le hlen
  | cd newDir =>
    rw [hd] at h
    cases h
    refine ⟨pathFits_of_ne (by simp [hd]), ?_⟩
    unfold runCd
    split <;> rfl
  | external =>
    rw [hd] at h
    obtain ⟨u, _, ht⟩ := map_eq_ok h
    cases ht
    exact ⟨pathFits_of_ne (by simp [hd]), rfl⟩

/-- **The array refines the list**: along a run of the main loop it holds `env.paths`, so that
`handle_redirection` finds in it what `searchPaths` finds. -/
theorem table_refines {r : Lts.Trail (Session w) Input} :
    ∀ {s : Session w} {t : Table}, Lts.Run Step s r → t.Holds s.env.paths →
      ∃ t', tableRun (r.map (fun p => p.1.1)) t = .ok t' ∧
        t'.Holds (Lts.final s r).env.paths := by
  induction r with
  | nil => exact fun _ ht => ⟨_, rfl, ht⟩
  | cons p r ih =>
    intro s t hr ht
    obtain ⟨i, u⟩ := p
    cases hr with
    | cons hstep hr =>
      obtain ⟨hfit, hpaths⟩ := step_paths hstep
      obtain ⟨t₁, hline, ht₁⟩ := tableLine_holds ht hfit
      rw [← hpaths] at ht₁
      obtain ⟨t', hrun, ht'⟩ := ih hr ht₁
      refine ⟨t', ?_, ht'⟩
      rw [List.map_cons, tableRun, hline]
      exact hrun

end Osexp.Seush
