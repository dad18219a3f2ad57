/-
# The program that a command names

`handle_redirection` tries `access` on the word itself before it looks at the search list ("absolute
path given", says the source), whether there is a slash in the word or not.  So a word finds a file
of the working directory, and a word with a slash that names no program is looked for in every
directory of the list.

`lookup_follows_iff`: the search list decides exactly when the word is a bare name that the working
directory does not have, or has a slash and is executable itself or in no directory of the list.

What one expects of a search list is a rule with two cases (`FollowsList`), and the code has three
attempts in a row.  So there are words for which the rule and the code find the same file, and it
depends on the file system which words these are; the result names them for every directory and
every list.  `handleRedirection_follows_iff` says it of the entry that `handle_redirection` makes,
for whatever stands in front of the lookup.
-/
import Osexp.Seush.Reading

namespace Osexp.Seush

variable {w : World}

/-! ## 1. The rule -/

/-- `dir/word`, with one slash between the two: where `dir` ends in a slash, it is that one. -/
def inDirectory (dir word : CString) : CString :=
  (if dir.getLast? = some '/' then dir.dropLast else dir) ++ '/' :: word

/-- The path of the word in the first of the directories in which it is executable, NULL where
there is none. -/
inductive FirstIn (cwd : w.Dir) (word : CString) (dirs : List CString) : Option CString → Prop
  | found {before behind : List CString} {dir : CString} : dirs = before ++ dir :: behind →
      (∀ d ∈ before, w.access cwd (inDirectory d word) = false) →
      w.access cwd (inDirectory dir word) = true →
      FirstIn cwd word dirs (some (inDirectory dir word))
  | missing : (∀ d ∈ dirs, w.access cwd (inDirectory d word) = false) →
      FirstIn cwd word dirs none

/-- The rule of every other shell: a bare word is looked up in the search list, and only there; a
word with a slash is taken as it is, and never looked up.  "Never looked up" is said of what comes
of it, the value of `exec_path`: a word with a slash that cannot be accessed has none, whatever the
list holds.  The `access` calls that lead there change nothing and are not recorded. -/
structure FollowsList (env : Environment) (cwd : w.Dir) (word : CString)
    (execPath : Option CString) : Prop where
  bare : '/' ∉ word → FirstIn cwd word env.paths execPath
  slashed : '/' ∈ word → execPath = if w.access cwd word then some word else none

/-- The word names nothing in the working directory, or it has a slash and is not found through the
list. -/
def ListDecides (env : Environment) (cwd : w.Dir) (word : CString) : Prop :=
  '/' ∉ word ∧ w.access cwd word = false ∨
    '/' ∈ word ∧ (w.access cwd word = true ∨
      ∀ dir ∈ env.paths, w.access cwd (inDirectory dir word) = false)

/-! ## 2. The search loop -/

section Search

variable {cwd : w.Dir} {word : CString} {dirs : List CString}

theorem fullPath_eq (dir word : CString) : fullPath dir word = inDirectory dir word := by
  unfold fullPath inDirectory
  split
  · rename_i hslash
    have hsplit := List.dropLast_append_getLast? '/' hslash
    rw [← List.singleton_append, ← List.append_assoc, hsplit]
  · rfl

theorem slash_mem_inDirectory (dir word : CString) : '/' ∈ inDirectory dir word :=
  List.mem_append_right _ List.mem_cons_self

/-- What `malloc` gives is enough for every word of `command_noredi`. -/
theorem length_fullPath_lt {dir : CString} (h : word.length < MAX_COMMAND_NOREDI) :
    (fullPath dir word).length < dir.length + MAX_EXEC_FILENAME := by
  unfold MAX_COMMAND_NOREDI at h
  unfold fullPath MAX_EXEC_FILENAME
  split
  · rw [List.length_append]
    omega
  · rw [List.length_append, List.length_cons]
    omega

/-- **The loop finds the first directory.** -/
theorem firstIn_searchPaths (cwd : w.Dir) (word : CString) (dirs : List CString) :
    FirstIn cwd word dirs (searchPaths cwd word dirs) := by
  induction dirs with
  | nil => exact .missing (List.forall_mem_nil _)
  | cons dir dirs ih =>
    rw [searchPaths, fullPath_eq]
    cases hacc : w.access cwd (inDirectory dir word) with
    | true =>
      rw [if_pos rfl]
      exact .found (List.nil_append _).symm (List.forall_mem_nil _) hacc
    | false =>
      rw [if_neg Bool.false_ne_true]
      generalize searchPaths cwd word dirs = path at ih
      cases ih with
      | @found before behind first hdirs hbefore hfound =>
        have hsplit : dir :: dirs = dir :: before ++ first :: behind := by
          rw [hdirs, List.cons_append]
        exact .found hsplit (List.forall_mem_cons.mpr ⟨hacc, hbefore⟩) hfound
      | missing hnone => exact .missing (List.forall_mem_cons.mpr ⟨hacc, hnone⟩)

/-- What is found has a slash. -/
theorem FirstIn.slash_mem {path : CString} (h : FirstIn cwd word dirs (some path)) :
    '/' ∈ path := by
  cases h with
  | found => exact slash_mem_inDirectory _ _

theorem searchPaths_eq_none_iff :
    searchPaths cwd word dirs = none ↔
      ∀ dir ∈ dirs, w.access cwd (inDirectory dir word) = false := by
  have h := firstIn_searchPaths cwd word dirs
  constructor
  · intro hnone
    rw [hnone] at h
    cases h with
    | missing hall => exact hall
  · intro hall
    generalize searchPaths cwd word dirs = path at h
    cases h with
    | found hdirs _ hfound =>
      rw [hall _ (hdirs ▸ List.mem_append_right _ List.mem_cons_self)] at hfound
      cases hfound
    | missing => rfl

end Search

/-! ## 3. The lookup -/

/-- The word itself, or what the loop finds. -/
theorem findExec_cons {env : Environment} {cwd : w.Dir} {p : Process} {word : CString}
    {args : List CString} (h : p.argv = word :: args) :
    findExec env cwd p = .ok { p with
      execPath := if w.access cwd word then some word else searchPaths cwd word env.paths } := by
  unfold findExec
  rw [h]
  dsimp only
  split <;> rfl

theorem followsList_iff (env : Environment) (cwd : w.Dir) (word : CString) :
    FollowsList env cwd word
        (if w.access cwd word then some word else searchPaths cwd word env.paths) ↔
      ListDecides env cwd word := by
  by_cases hslash : '/' ∈ word
  · have hrule : FollowsList env cwd word
          (if w.access cwd word then some word else searchPaths cwd word env.paths) ↔
        (if w.access cwd word then some word else searchPaths cwd word env.paths) =
          if w.access cwd word then some word else none :=
      ⟨fun h => h.slashed hslash, fun h => ⟨fun hbare => absurd hslash hbare, fun _ => h⟩⟩
    rw [hrule, ListDecides, or_iff_right (fun h => h.1 hslash), and_iff_right hslash]
    cases w.access cwd word with
    | true => exact iff_of_true rfl (Or.inl rfl)
    | false => exact searchPaths_eq_none_iff.trans (or_iff_right Bool.false_ne_true).symm
  · have hrule : FollowsList env cwd word
          (if w.access cwd word then some word else searchPaths cwd word env.paths) ↔
        FirstIn cwd word env.paths
          (if w.access cwd word then some word else searchPaths cwd word env.paths) :=
      ⟨fun h => h.bare hslash, fun h => ⟨fun _ => h, fun h' => absurd h' hslash⟩⟩
    rw [hrule, ListDecides, or_iff_left (fun h => hslash h.1), and_iff_right hslash]
    cases w.access cwd word with
    | true =>
      -- the word is taken as it is, and has no slash
      refine iff_of_false (fun h => hslash ?_) Bool.noConfusion
      exact FirstIn.slash_mem h
    | false => exact iff_of_true (firstIn_searchPaths cwd word env.paths) rfl

/-- Opening the redirection files leaves the lookup as it is. -/
theorem handleReading_lookup (r : Reading) (env : Environment) (s : Shell w) :
    ∃ (p : Process) (t : Shell w), p.argv = r.argv ∧ p.execPath = none ∧
      handleReading r env s = (findExec env s.cwd p).map (fun p => (p, t)) := by
  have hcwd : ∀ (name : CString) (write : Bool) (s : Shell w),
      (s.openFile name write).2.cwd = s.cwd := fun name write s => (openFile_frame name write s).1
  have hmap : ∀ (p : Process) (t : Shell w), t.cwd = s.cwd →
      (findExec env t.cwd p).map (fun p => (p, t)) =
        (findExec env s.cwd p).map (fun p => (p, t)) := by
    intro p t ht
    rw [ht]
  unfold handleReading
  cases r.outfile with
  | none =>
    cases r.infile with
    | none => exact ⟨_, _, rfl, rfl, rfl⟩
    | some g =>
      refine ⟨_, _, ?_, ?_, hmap _ _ (hcwd g false s)⟩
      · rfl
      · rfl
  | some f =>
    cases r.infile with
    | none =>
      refine ⟨_, _, ?_, ?_, hmap _ _ (hcwd f true s)⟩
      · rfl
      · rfl
    | some g =>
      refine ⟨_, _, ?_, ?_, hmap _ _ ((hcwd g false _).trans (hcwd f true s))⟩
      · rfl
      · rfl

/-- **What `handle_redirection` returns** follows the list in the same cases, for the first word of
its text and the directory it is called in. -/
theorem handleRedirection_follows_iff {b : Scratch} {line word : CString} {args : List CString}
    {env : Environment} {s t : Shell w} {p : Process}
    (h : handleRedirection b line {} env s = .ok (p, t)) (hargv : p.argv = word :: args) :
    FollowsList env s.cwd word p.execPath ↔ ListDecides env s.cwd word := by
  rw [handleRedirection_eq] at h
  obtain ⟨r, _, h⟩ := bind_eq_ok h
  obtain ⟨q, u, hq, hnull, hlookup⟩ := handleReading_lookup r env s
  rw [hlookup] at h
  obtain ⟨p', hp', heq⟩ := map_eq_ok h
  cases heq
  have hwords : q.argv = word :: args := (findExec_spec hp').1.symm.trans hargv
  rw [findExec_cons hwords] at hp'
  cases hp'
  exact followsList_iff env s.cwd word

/-- **When the search list decides which program a command word names**, by the rule that every user
of a shell knows (`FollowsList`).  That a bare word does not find a file of the working directory is
what protects a user who changes into a directory of somebody else; here it does find it, so the
condition speaks of what the directory holds. -/
theorem lookup_follows_iff (env : Environment) (cwd : w.Dir) (p : Process) (word : CString)
    (args : List CString) :
    (∃ q, findExec env cwd { p with argv := word :: args, execPath := none } = .ok q ∧
        FollowsList env cwd word q.execPath) ↔ ListDecides env cwd word := by
  rw [findExec_cons rfl, ← followsList_iff]
  constructor
  · rintro ⟨q, hq, hfollows⟩
    cases hq
    exact hfollows
  · exact fun h => ⟨_, rfl, h⟩

/-- A working directory, and the files in the file system by their names. -/
def filesOnly (files : List CString) : World where
  Dir := Unit
  root := ()
  child := fun _ _ => none
  readable := fun _ => false
  searchable := fun _ => false
  File := Unit
  file := fun _ path => if path ∈ files then some () else none
  executable := fun _ => true
  startable := fun _ => true
  opens := fun _ _ _ => false

/-- A file `ls` of the working directory is run in place of `/bin/ls`; and `sub/ls`, which is not
there, is found below `/bin`. -/
theorem working_directory_first :
    (∃ q, findExec (w := filesOnly ["ls".toList, "/bin/ls".toList]) rootSession.env ()
        { argv := ["ls".toList] } = .ok q ∧ q.execPath = some "ls".toList ∧
      ¬ FollowsList (w := filesOnly ["ls".toList, "/bin/ls".toList]) rootSession.env ()
        "ls".toList q.execPath) ∧
    ∃ q, findExec (w := filesOnly ["/bin/sub/ls".toList]) rootSession.env ()
        { argv := ["sub/ls".toList] } = .ok q ∧ q.execPath = some "/bin/sub/ls".toList ∧
      ¬ FollowsList (w := filesOnly ["/bin/sub/ls".toList]) rootSession.env ()
        "sub/ls".toList q.execPath := by
  constructor
  · refine ⟨_, findExec_cons rfl, by decide, fun h => ?_⟩
    have hfirst := h.bare (by decide)
    rw [if_pos (by decide)] at hfirst
    exact absurd hfirst.slash_mem (by decide)
  · refine ⟨_, findExec_cons rfl, by decide, fun h => ?_⟩
    have hnone := h.slashed (by decide)
    revert hnone
    decide

end Osexp.Seush
