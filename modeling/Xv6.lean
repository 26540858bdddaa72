import Xv6.Lib.Transition
import Xv6.Mlfq.Queue
import Xv6.Mlfq.Table
import Xv6.Mlfq.Dispatch
import Xv6.Mlfq.Boost
import Xv6.Disk.Bcache
import Xv6.Disk.Commit
import Xv6.Disk.CrashSafe
import Xv6.Disk.History
import Xv6.Log.Exclusion
import Xv6.Log.Wakeup
import Xv6.Mlfq.QueueLaw
import Xv6.Fs.Alloc
import Xv6.Fs.Bmap
import Xv6.Fs.Contents
import Xv6.Fs.Trunc
import Xv6.Lib.Tally
import Xv6.Log.Buffers
import Xv6.Mlfq.BoostLaw
import Xv6.Mlfq.LockFirst
import Xv6.Threads.Balance
import Xv6.Threads.Exec
import Xv6.Threads.Held
import Xv6.Threads.Join
import Xv6.Threads.Parent
import Xv6.Threads.Pgdir
import Xv6.Threads.Quota
import Xv6.Threads.Sleep
import Xv6.Memory.Stacks
import Xv6.Exec.Failure
import Xv6.Fs.Bound
import Xv6.Fs.Build
import Xv6.Threads.Kill
import Xv6.Threads.Leak
import Xv6.Threads.Residue
import Xv6.Threads.Words
import Xv6.Memory.Growproc
import Xv6.Memory.Checks
import Xv6.Memory.Fork
import Xv6.Fs.Icache
import Xv6.Fs.BlockMap
import Xv6.Fs.Dir
import Xv6.Fs.Freeing
import Xv6.Fs.Ownership
import Xv6.Fs.Unlink
import Xv6.Mlfq.Choice
import Xv6.Mlfq.Quantum
import Xv6.Mlfq.Release
import Xv6.User.Pmanager
import Xv6.Fs.Holders
import Xv6.Fs.Respects
import Xv6.Fs.Symlink
import Xv6.Fs.Persist
import Xv6.Fs.Main
import Xv6.Mlfq.QueueArray
import Xv6.User.Numbers
import Xv6.Fs.Calm
import Xv6.Fs.ImageTree
import Xv6.Fs.LinkCount
import Xv6.Io.Bio
import Xv6.Io.BioCache
import Xv6.Io.BioQueue
import Xv6.Io.BioStore
import Xv6.Io.BioSaved
import Xv6.Io.Console
import Xv6.Io.ConsoleEditor
import Xv6.Io.ConsoleRead
import Xv6.Io.Pipe
import Xv6.Io.PipeEnds
import Xv6.Io.PipeSleep
import Xv6.User.Grep
import Xv6.User.Malloc
import Xv6.User.MallocBlocks
import Xv6.User.MallocRuns
import Xv6.User.Shell
import Xv6.User.ShellGrammar
import Xv6.User.ShellLine
