import Xv6.Bio.Cache
import Xv6.Disk.Directory
import Xv6.Disk.Passwd
import Xv6.Fs.LinkCount
import Xv6.Icache.Runs
import Xv6.Interleave.Exec
import Xv6.Interleave.Joins
import Xv6.Interleave.Parents
import Xv6.Interleave.Pids
import Xv6.Interleave.Unkilled
import Xv6.Interleave.Wakeups
import Xv6.Log.Reserve
import Xv6.Mlfq.LastLevel
import Xv6.Mlfq.RoundRobin
import Xv6.MultiLevel.RoundRobin
import Xv6.Pipe.Fifo
import Xv6.Pipe.Wakeup
import Xv6.Shell.Login
import Xv6.Shell.Parse
import Xv6.Shell.Pwd
import Xv6.Sys.Balance
import Xv6.Sys.DirWrites
import Xv6.Sys.Forget
import Xv6.Sys.Integrity
import Xv6.Sys.Session
import Xv6.Syscall.Validate
import Xv6.Thread.ExecFailure
import Xv6.Thread.KillLocks
import Xv6.Thread.Pgdir
import Xv6.Thread.Stack
import Xv6.Users.LoadSafe
import Xv6.Vm.Dealloc
