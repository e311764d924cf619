import Xv6.Lib.Bytes
import Xv6.Lib.Writes
import Xv6.Lib.Chunks
import Xv6.Lib.Exec
import Xv6.Lib.Runs
import Xv6.Lib.Ring
import Xv6.Lib.Sleep
import Xv6.Lib.SleepLock
import Xv6.Disk
import Xv6.Log
import Xv6.LogCrash
import Xv6.Syscall
import Xv6.Confined
import Xv6.Vm.Memory
import Xv6.Vm.Exec
import Xv6.Vm.Proc
import Xv6.Vm.Custody
import Xv6.Vm.Tables
import Xv6.Vm.Map
import Xv6.Vm.Shrink
import Xv6.Vm.Grow
import Xv6.Vm.Copy
import Xv6.Vm.Load
import Xv6.Vm.Image
import Xv6.Vm.Calls
import Xv6.Vm.Boot
import Xv6.Vm.Isolation
import Xv6.Vm.Breach
import Xv6.Vm.NullPte
import Xv6.Sched.Table
import Xv6.Sched.Pair
import Xv6.Sched.Kill
import Xv6.Sched.Cpu
import Xv6.Pipe
import Xv6.Locks
import Xv6.Lib.Threads
import Xv6.Bio.Cache
import Xv6.Bio.Transparent
import Xv6.Fs.Blocks
import Xv6.Mkfs
import Xv6.Fs.Read
import Xv6.Mkfs.Append
import Xv6.Mkfs.Image
import Xv6.Mkfs.Kernel
import Xv6.Mkfs.Regions
import Xv6.Ide
import Xv6.Vm.Stage
import Xv6.Vm.Ranges
import Xv6.Vm.Fork
import Xv6.Bio.Faults
import Xv6.Fs.Core
import Xv6.Fs.Journal
import Xv6.Fs.Alloc
import Xv6.Fs.Bmap
import Xv6.Fs.Dir
import Xv6.Fs.File
import Xv6.Console.Bounds
import Xv6.Console.Tables
import Xv6.Lib.Bubble
import Xv6.Lib.Edit
import Xv6.Shell.Derive
import Xv6.Shell.Distance
import Xv6.Shell.Strings
import Xv6.Shell.Suggest
import Xv6.Console.Complete
import Xv6.Console.Discipline
import Xv6.Fs.Path
import Xv6.Lib.Circular
import Xv6.Lib.Extents
import Xv6.User.Editor
import Xv6.User.EditorFile
import Xv6.User.Grep
import Xv6.User.Make
import Xv6.User.Files
import Xv6.User.Heap
import Xv6.User.HeapKernel
import Xv6.User.Copy
import Xv6.User.Move
import Xv6.Lib.Visits
import Xv6.Script.Decimal
import Xv6.User.Build
import Xv6.User.Makefile
import Xv6.Script.Expression
import Xv6.Script.Compare
import Xv6.Script.Scope
import Xv6.Memmove
import Xv6.Mp
import Xv6.Script.Increment
import Xv6.Split
