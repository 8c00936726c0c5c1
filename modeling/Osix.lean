import Osix.Basic
import Osix.Lib.CircularList
import Osix.Bio.Processes
import Osix.Bio.Transparent
import Osix.Wd.Reads
import Osix.Wd.Partitions
import Osix.Fs.BufferPool
import Osix.Fs.LockPool
import Osix.Fs.Holes
import Osix.Fs.Access
import Osix.Fs.PipeCall
import Osix.Fs.Seek
import Osix.Fs.InodeMap
import Osix.Fs.Records
import Osix.Fs.Truncation
import Osix.Fs.Devices
import Osix.Fs.References
import Osix.Fs.Mkdir
import Osix.Fs.Opening
import Osix.Fs.Editing
import Osix.Kern.Family
import Osix.Pipe.Ends
import Osix.Vm.Owners
import Osix.Vm.Breaks
import Osix.Vm.Calls
import Osix.Vm.Detect
import Osix.Dev.Console
import Osix.Net.Input
import Osix.Net.Ring
import Osix.User.Bc
import Osix.User.Input
import Osix.User.Environ
import Osix.User.Lines
import Osix.User.Quotes
import Osix.User.Gmtime
import Osix.Kern.Fork
import Osix.Kern.Clock
import Osix.Kern.Exec
import Osix.Kern.Reexec
import Osix.Kern.Printf
import Osix.Kern.Mktime
import Osix.User.Glob
import Osix.User.Sort
import Osix.User.Execvp
import Osix.User.Passwd
import Osix.Lib.Ledger
import Osix.Fs.FileCounts
import Osix.Fs.OpenFiles
import Osix.User.Memmove
import Osix.User.Atoi
import Osix.User.Numerals
import Osix.User.Df
import Osix.User.Roff
import Osix.User.Shapes
import Osix.User.Expansions
import Osix.User.Vi.Basic
import Osix.User.Vi.Scrolling
import Osix.User.Vi.Rows
import Osix.User.Vi.Inserting
import Osix.User.Vi.Files
import Osix.User.Malloc
import Osix.Kern.Sched
import Osix.Lib.Patterns
import Osix.User.Reading
import Osix.User.Grep
import Osix.Lib.Runs
import Osix.User.Filters
import Osix.Dev.Keyboard
import Osix.User.Dumps
