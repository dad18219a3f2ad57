/-
# The language of the shell

What a user of the shell types, and what it means to him.

A line is a built-in command, or segments joined by `&`.  A segment is blank or a job: stages
joined by `|`, each a command with its redirections (`Redirected`) and any number of spaces around
it.

The meaning speaks of programs, files and pipes, not of text, buffers and descriptors.  A line
depends on where the shell is and on its search list (`Place`), nothing else.  The pipelines of a
line run first, one after the other, each stage reading what the one before it has written
(`StagesRun`); then the plain commands are started together and waited for.  `LineRuns` is all of
it.

It is the specification of the shell, written without its source: what a person means who types such
a line.  That is why it leaves out what the shell accepts by accident (a redirection in front of the
command, two of one kind), and why it does not mention the descriptors that are left open.  Whether
the shell does what is meant is the subject of `Osexp.Seush.Jobs` and `Osexp.Seush.Scripts`.
-/
import Osexp.Seush.Wiring

namespace Osexp.Seush

open Text

variable {w : World}

/-! ## 1. What is typed -/

/-- A command with the number of spaces before and after it. -/
structure Spaced extends Redirected where
  before : Nat
  behind : Nat

def Spaced.text (st : Spaced) : CString :=
  List.replicate st.before ' ' ++ (st.render ++ List.replicate st.behind ' ')

/-- Stages joined by `|`; a single stage is a plain command. -/
structure Job where
  stages : List Spaced
  stages_ne : stages ≠ []

namespace Job

def text (j : Job) : CString := join '|' (j.stages.map Spaced.text)

def commands (j : Job) : List Redirected := j.stages.map Spaced.toRedirected

/-- The commands of a job with a `|`. -/
def pipeline (j : Job) : Option (List Redirected) :=
  if 2 ≤ j.stages.length then some j.commands else none

/-- The command of a job without. -/
def plain (j : Job) : List Redirected := if 2 ≤ j.stages.length then [] else j.commands

end Job

/-- What stands between two `&`. -/
inductive Segment
  | blank (spaces : Nat)
  | job (j : Job)

namespace Segment

def text : Segment → CString
  | .blank spaces => List.replicate spaces ' '
  | .job j => j.text

def toJob : Segment → Option Job
  | .blank _ => none
  | .job j => some j

end Segment

/-- A word as a value of its own. -/
abbrev Word := {word : CString // IsWord word}

/-- A line. -/
inductive CommandLine
  | exit
  | help
  | path (dirs : List Word)
  | cd (newDir : Word)
  | run (segments : List Segment)

/-- The names that `run_shell` looks for itself. -/
def builtins : List CString := ["exit".toList, "help".toList, "path".toList, "cd".toList]

/-- The line with one space between the words of a built-in command. -/
def CommandLine.text : CommandLine → CString
  | .exit => "exit".toList
  | .help => "help".toList
  | .path dirs => join ' ' ("path".toList :: dirs.map Subtype.val)
  | .cd newDir => join ' ' ["cd".toList, newDir.val]
  | .run segments => join '&' (segments.map Segment.text)

/-! ## 2. Where a line is run -/

/-- All of the shell that the meaning of a line depends on. -/
structure Place (w : World) where
  dir : w.Dir
  paths : List CString

namespace Place

/-- The program that a command names: its first word as a path, or else in the first directory of
the search list that has it. -/
def program (a : Place w) : List CString → Option CString
  | [] => none
  | name :: _ => if w.access a.dir name then some name else searchPaths a.dir name a.paths

/-- Where the next line is run. -/
def next (a : Place w) : CommandLine → Place w
  | .path dirs => { a with paths := dirs.map Subtype.val }
  | .cd newDir => { a with dir := (w.opendir a.dir newDir.val).getD a.dir }
  | _ => a

end Place

/-! ## 3. What it means -/

/-- The streams that a job starts out with. -/
structure Streams where
  input : OpenFile
  output : OpenFile
  errors : OpenFile

/-- The stream leads to the named file, opened anew, or where it led before. -/
def LeadsTo (name : Option CString) (write : Bool) (before : OpenFile) (now : Option OpenFile) :
    Prop :=
  match name with
  | none => now = some before
  | some name => ∃ n, now = some (.opened n name write)

/-- **A program is started for the command**: with its words, in the directory of the line, on the
file that the search found, and with its streams where the redirections say.  An output file gets
both output streams. -/
structure Launched (a : Place w) (r : Redirected) (std : Streams) (e : Exec w) : Prop where
  argv : e.argv = r.words
  path : e.path = a.program r.words
  access : e.accessDir = a.dir
  cwd : e.execDir = a.dir
  started : e.started = true ↔
    ∃ path, a.program r.words = some path ∧ (w.file a.dir path).any w.startable = true
  stdin : LeadsTo r.input false std.input (e.fds.get STDIN_FILENO)
  stdout : LeadsTo r.output true std.output (e.fds.get STDOUT_FILENO)
  stderr : LeadsTo r.output true std.errors (e.fds.get STDERR_FILENO)
  merged : r.output ≠ none → e.fds.get STDERR_FILENO = e.fds.get STDOUT_FILENO

/-- **The stages of a pipeline**, from left to right, each started when the one before it has been
waited for.  A stage writes to pipe `m`, unless it is redirected, and the next one reads from it;
when it has ended nobody holds the write end any more, so that the reader comes to an end of file.
-/
inductive StagesRun (a : Place w) (output errors : OpenFile) :
    Nat → OpenFile → List Redirected → List (Event w) → Prop
  | last {m : Nat} {input : OpenFile} {r : Redirected} {e : Exec w} {fds : FdTable OpenFile} :
      Launched a r ⟨input, output, errors⟩ e →
      StagesRun a output errors m input [r] [.fork (.execv e), .waitpid fds]
  | piped {m : Nat} {input : OpenFile} {r : Redirected} {e : Exec w} {fds : FdTable OpenFile}
      {more : List Redirected} {rest : List (Event w)} :
      Launched a r ⟨input, .pipeWrite m, errors⟩ e → ¬ fds.Refers (.pipeWrite m) →
      (∀ ev ∈ rest, ¬ ev.Holds (.pipeWrite m)) →
      StagesRun a output errors (m + 1) (.pipeRead m) more rest →
      StagesRun a output errors m input (r :: more) (.fork (.execv e) :: .waitpid fds :: rest)

/-- Pipelines one after the other. -/
inductive PipelinesRun (a : Place w) (std : Streams) :
    List (List Redirected) → List (Event w) → Prop
  | nil : PipelinesRun a std [] []
  | cons {m : Nat} {pipeline : List Redirected} {pipelines : List (List Redirected)}
      {E F : List (Event w)} :
      StagesRun a std.output std.errors m std.input pipeline E →
      PipelinesRun a std pipelines F → PipelinesRun a std (pipeline :: pipelines) (E ++ F)

/-- A child for each of the commands. -/
def CommandsRun (a : Place w) (std : Streams) : List Redirected → List (Event w) → Prop :=
  List.Forall₂ fun r ev => ∃ e, ev = .fork (.execv e) ∧ Launched a r std e

/-- An `open` call of the shell itself. -/
def Event.isOpen : Event w → Bool
  | .openCall _ _ => true
  | _ => false

/-- **What a line of jobs means.**  The pipelines run in their order, then the plain commands are
started in theirs and waited for together.  The shell itself opens the files of the plain commands,
and no others. -/
structure LineRuns (a : Place w) (std : Streams) (jobs : List Job) (E : List (Event w)) :
    Prop where
  children : ∃ P Q, PipelinesRun a std (jobs.filterMap Job.pipeline) P ∧
    CommandsRun a std (jobs.flatMap Job.plain) Q ∧
    E.filter (fun ev => !ev.isOpen) =
      P ++ Q ++ (if jobs.flatMap Job.plain = [] then [] else [.waitAll])
  opened : E.filter Event.isOpen = (jobs.flatMap Job.plain).flatMap Redirected.opens

/-- What is seen of a line from outside; the built-in commands show nothing. -/
def CommandLine.Shows (a : Place w) (std : Streams) (E : List (Event w)) : CommandLine → Prop
  | .run segments => LineRuns a std (segments.filterMap Segment.toJob) E
  | _ => E = []

/-! ## 4. What the shell has room for -/

/-- The command fits in the buffers of `handle_redirection`, its names are read as they are typed
(`Redirected.round_trips_iff`), and its files open. -/
structure Redirected.Admissible (a : Place w) (r : Redirected) : Prop where
  fits : r.Fits
  tight : r.TightSecond
  names : r.NamesStart
  few : r.words.length < MAX_ARGUMENTS_NUM
  input : ∀ name ∈ r.input, w.opens a.dir name false = true
  output : ∀ name ∈ r.output, w.opens a.dir name true = true

/-- The first word of the line is not the name of a built-in command. -/
def StartsProgram : List Segment → Prop
  | .job ⟨st :: _, _⟩ :: _ => ∀ name ∈ st.words.head?, name ∉ builtins
  | _ => True

/-- A line that the shell can take: `path` and `&` within their arrays, a `cd` with an absolute
path that fits in `environment.cwd` and can be entered if it can be read. -/
def CommandLine.Admissible (a : Place w) : CommandLine → Prop
  | .exit => True
  | .help => True
  | .path dirs => dirs.length < MAX_PATH_NUM
  | .cd newDir => DirTree.IsAbsolute newDir.val ∧ newDir.val.length < MAX_PATH ∧
      ∀ d, w.opendir a.dir newDir.val = some d → w.searchable d = true
  | .run segments => segments.length < MAX_ARGUMENTS_NUM ∧ StartsProgram segments ∧
      ∀ j ∈ segments.filterMap Segment.toJob, ∀ r ∈ j.commands, r.Admissible a

end Osexp.Seush
