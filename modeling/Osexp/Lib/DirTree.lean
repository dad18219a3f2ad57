/-
# Directories and path resolution

A tree of directories is given by what an entry of a directory leads to: `child d name` is the
directory behind `name` in `d` (`.`, `..` and symbolic links included), or nothing when there is
no such directory or it may not be searched.  A path is walked component by component, from the
root when it begins with a slash and from the current directory otherwise.

The one law: changing to a path that names the current directory changes nothing, whether it is
allowed or not.

The tree is fixed.  A path is a way to a directory and not a name for it: the same path leads
elsewhere from another directory, and two paths may lead to the same one.  Absolute paths are the
exception, they lead to one place from everywhere (`resolve_of_isAbsolute`).  So whoever keeps a
path in order to come back to a directory is right to do so only if the path names the directory
from where it is used; `chdir_getD_of_resolve` is that case.
-/
import Osexp.Lib.Text

/-- Directories, what their entries lead to, and the two permissions on a directory. -/
structure DirTree where
  Dir : Type
  root : Dir
  child : Dir → List Char → Option Dir
  readable : Dir → Bool
  searchable : Dir → Bool

namespace DirTree

variable (T : DirTree)

/-- The components of a path: what stands between its slashes. -/
def components (path : List Char) : List (List Char) := Text.tokens (· == '/') path

/-- A path that begins with a slash. -/
def IsAbsolute (path : List Char) : Prop := path.head? = some '/'

instance (path : List Char) : Decidable (IsAbsolute path) :=
  inferInstanceAs (Decidable (path.head? = some '/'))

/-- Follow a list of components. -/
def walk : T.Dir → List (List Char) → Option T.Dir
  | d, [] => some d
  | d, name :: names => (T.child d name).bind (fun e => walk e names)

/-- The directory a path names, seen from `cwd`; the empty path names nothing. -/
def resolve (cwd : T.Dir) (path : List Char) : Option T.Dir :=
  if path = [] then none
  else T.walk (if IsAbsolute path then T.root else cwd) (components path)

/-- `opendir`: the directory, if it may be read. -/
def opendir (cwd : T.Dir) (path : List Char) : Option T.Dir :=
  (T.resolve cwd path).filter T.readable

/-- `chdir`: the directory, if it may be searched. -/
def chdir (cwd : T.Dir) (path : List Char) : Option T.Dir :=
  (T.resolve cwd path).filter T.searchable

variable {T}

/-- Changing to a path that names the current directory stays there, or fails. -/
theorem chdir_getD_of_resolve {cwd : T.Dir} {path : List Char}
    (h : T.resolve cwd path = some cwd) : (T.chdir cwd path).getD cwd = cwd := by
  rw [chdir, h]
  cases hs : T.searchable cwd <;> simp [Option.filter, hs]

/-- A path is walked in two parts where the first leads. -/
theorem walk_append (d : T.Dir) (names more : List (List Char)) :
    T.walk d (names ++ more) = (T.walk d names).bind (fun e => T.walk e more) := by
  induction names generalizing d with
  | nil => rfl
  | cons name names ih =>
    rw [List.cons_append, walk, walk, Option.bind_assoc]
    exact congrArg _ (funext ih)

theorem components_append_slash (path rest : List Char) :
    components (path ++ '/' :: rest) = components path ++ components rest :=
  Text.tokens_append_cons rfl path rest

theorem isAbsolute_append {path : List Char} (h : IsAbsolute path) (rest : List Char) :
    IsAbsolute (path ++ rest) := by
  rw [IsAbsolute, List.head?_append, h]
  rfl

/-- An absolute path names the same from everywhere. -/
theorem resolve_of_isAbsolute {path : List Char} (h : IsAbsolute path) (here there : T.Dir) :
    T.resolve here path = T.resolve there path := by
  rw [resolve, resolve, if_pos h, if_pos h]

/-- A relative path behind an absolute one names what it names in that directory. -/
theorem resolve_append_slash {cwd path : List Char} {dir : T.Dir} (hcwd : IsAbsolute cwd)
    (hdir : T.resolve T.root cwd = some dir) (hne : path ≠ []) (hpath : ¬ IsAbsolute path)
    (here : T.Dir) : T.resolve here (cwd ++ '/' :: path) = T.resolve dir path := by
  have hroot : T.walk T.root (components cwd) = some dir := by
    rw [resolve, if_pos hcwd] at hdir
    split at hdir
    · cases hdir
    · exact hdir
  rw [resolve, if_neg (by simp), if_pos (isAbsolute_append hcwd _), components_append_slash,
    walk_append, hroot, resolve, if_neg hne, if_neg hpath]
  rfl

end DirTree
