import Xv6.Bio.Pinned
import Xv6.Lib.Refinement
import Xv6.Fs.Calls
import Xv6.Fs.Disk
import Xv6.Fs.Simulation
import Xv6.Log.Crash
import Xv6.Log.Admission
import Xv6.Inode.IputRace
import Xv6.Container.Race
import Xv6.Proc.Wait
import Xv6.Proc.Stranded
import Xv6.Proc.Kill
import Xv6.Syscall.Args
import Xv6.Pipe.Fifo
import Xv6.Pipe.Wakeup
import Xv6.Fs.Accounting
import Xv6.Fs.Ownership
import Xv6.Console.Readers
import Xv6.Umalloc.Request
import Xv6.Vm.Conservation
import Xv6.Vm.Growproc
import Xv6.Vm.Fork
import Xv6.Vm.Exec
import Xv6.Mkfs.Boot
import Xv6.Shell.Runcmd
import Xv6.Kstring.Memmove
import Xv6.Fs.SharedOffset
import Xv6.Fs.DirMap
import Xv6.Fs.StalePointer
import Xv6.Grep.Lines
import Xv6.Mp.Mpinit
import Xv6.Container.Memory
import Xv6.Proc.LockBalance
import Xv6.Ide.Requests
import Xv6.Lock.Spinlock
import Xv6.Lock.Sleeplock
import Xv6.Console.Screen
import Xv6.Timer.Ticks
import Xv6.Ulib.Printf
