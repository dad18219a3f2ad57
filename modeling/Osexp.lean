import Osexp.Lib.Runs
import Osexp.Lib.Progress
import Osexp.Lib.FdTable
import Osexp.Lib.Text
import Osexp.Lib.BufferedFile
import Osexp.Lib.DirTree
import Osexp.Seush.Structures
import Osexp.Seush.Libc
import Osexp.Seush.Utilities
import Osexp.Seush.System
import Osexp.Seush.RunCommand
import Osexp.Seush.Loop
import Osexp.Seush.Rules
import Osexp.Seush.Cwd
import Osexp.Seush.Pipeline
import Osexp.Seush.Stdin
import Osexp.Seush.Leaks
import Osexp.Seush.Redirection
import Osexp.Seush.Wiring
import Osexp.Seush.Deadlock
import Osexp.Seush.Batch
import Osexp.Hide.Task
import Osexp.Hide.Calls
import Osexp.Hide.Procfs
import Osexp.Hide.Machine
import Osexp.Hide.Cloak
import Osexp.Hide.Agreement
import Osexp.Hide.Reach
import Osexp.Hide.Listing
import Osexp.Hide.ProcFiles
import Osexp.Hide.Requests
import Osexp.Hide.HiddenList
import Osexp.Hide.Recover
import Osexp.Hide.References
import Osexp.Lib.IntText
import Osexp.Hide.WriteHidden
import Osexp.Seush.AndList
import Osexp.Seush.Reaping
import Osexp.Seush.Interactive
import Osexp.Lib.Heap
import Osexp.Seush.SearchList
import Osexp.Seush.Arrays
import Osexp.Seush.Blanks
import Osexp.Seush.Buffers
import Osexp.Seush.Streams
import Osexp.Lib.Marks
import Osexp.Seush.Operators
import Osexp.Lib.OpenFiles
import Osexp.Seush.Output
import Osexp.Seush.Children
import Osexp.Seush.Lookup
import Osexp.Lib.StrBuf
import Osexp.Seush.AbsolutePath
import Osexp.Lib.Accesses
import Osexp.Lib.Collapse
import Osexp.Seush.InPlace
import Osexp.Seush.Splitting
import Osexp.Lib.Simulation
import Osexp.Seush.Language
import Osexp.Seush.Launch
import Osexp.Seush.Jobs
import Osexp.Seush.Scripts
import Osexp.Seush.Main
import Osexp.Hide.Absence
import Osexp.Hide.Telling
import Osexp.Hide.Threads
import Osexp.Hide.ThreadListing
import Osexp.Seush.Memory
import Osexp.Seush.Accounts
import Osexp.Hide.AnyOrder
import Osexp.Seush.BatchFile
import Osexp.Seush.Modes
import Osexp.Seush.Descriptors
import Osexp.Seush.Faults
import Osexp.Hide.Concurrent
import Osexp.Hide.ReadTurns
