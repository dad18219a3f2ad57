/-
# Constants and records of the shell

`macros.h` and `structures.h`.  A C string is the list of its bytes without the terminator; where
the size of the array behind it matters, the array is kept as a list of that size and the string
is what stands before its first NUL byte (`cstr`).

The records keep the fields that a modelled function reads.  Constants are the ones of the source
under their names, with the value that decides whether something fits; the statuses and limits that
no modelled function looks at are left out.  A search list is the list of its strings up to the
empty one; the array of pointers behind it has a module of its own, `Osexp.Seush.SearchList`.
-/
import Mathlib.Data.List.Basic

namespace Osexp.Seush

/-! ## 1. C strings -/

/-- The bytes of a C string, without its terminator. -/
abbrev CString := List Char

/-- The string in a buffer: everything before the first NUL byte. -/
def cstr (buf : List Char) : CString := buf.takeWhile (fun c => c != '\x00')

/-- The two characters `clean` treats as blanks. -/
def isBlank (c : Char) : Bool := c == ' ' || c == '\t'

/-! ## 2. `macros.h` -/

def MAX_PATH : Nat := 100
def MAX_PATH_NUM : Nat := 100
def MAX_ARGUMENTS_NUM : Nat := 100
def MAX_CWD : Nat := 300
def MAX_COMMAND_NOREDI : Nat := 200
def MAX_REDIFILE : Nat := 200
def MAX_EXEC_FILENAME : Nat := 300
def DEFAULT_PATHS : CString := "/bin".toList
def EXIT_SUCCESS : Nat := 0
def STDIN_FILENO : Nat := 0
def STDOUT_FILENO : Nat := 1
def STDERR_FILENO : Nat := 2

/-! ## 3. `structures.h` -/

def REDI_IN_MASK : Nat := 1
def REDI_OUT_MASK : Nat := 2
def REDI_PIPE_MASK : Nat := 8

/-- `enum REDIRECTION_TYPE`. -/
inductive RedirectionType
  | noRedi | rediIn | rediOut | rediOutIn | rediInOut
  deriving DecidableEq, Repr

/-- The value of an enumerator: bit 0 for input, bit 1 for output, bit 2 for their order. -/
def RedirectionType.bits : RedirectionType → Nat
  | .noRedi => 0b0000
  | .rediIn => 0b0001
  | .rediOut => 0b0010
  | .rediOutIn => 0b0011
  | .rediInOut => 0b0111

/-- `redirected & mask`, as the truth value C takes it for. -/
def RedirectionType.has (t : RedirectionType) (mask : Nat) : Bool := (t.bits &&& mask) != 0

/-- `struct Process`, less the `pid` that only `runProcesses` writes and nothing reads.  A
descriptor of -1 is `none`, a NULL `exec_path` too; `argc` is the length of `argv`. -/
structure Process where
  argv : List CString := []
  execPath : Option CString := none
  redirected : RedirectionType := .noRedi
  rediInfd : Option Nat := none
  rediOutfd : Option Nat := none

/-- `process[_i].argc`. -/
def Process.argc (p : Process) : Nat := p.argv.length

/-- `struct Environment`.  `paths` holds the strings before the empty one that ends the search
list; `cwd` is the whole array of `MAX_PATH` bytes, terminated or not. -/
structure Environment where
  paths : List CString
  cwd : List Char
  pathSetByUser : Bool
  cwd_length : cwd.length = MAX_PATH

/-- The bytes of `path_set_by_user`, the `int` that follows `cwd` in the record. -/
def Environment.flagBytes (e : Environment) : List Char :=
  [if e.pathSetByUser then '\x01' else '\x00', '\x00', '\x00', '\x00']

/-- `environment->cwd` read as a string.  An array without a terminator is read on into
`path_set_by_user`. -/
def Environment.cwdString (e : Environment) : CString := cstr (e.cwd ++ e.flagBytes)

end Osexp.Seush
