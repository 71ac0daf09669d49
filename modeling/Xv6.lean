import Xv6.Ptable.Waitx
import Xv6.Ptable.Accounting
import Xv6.Ptable.Killed
import Xv6.Ptable.Waiting
import Xv6.Ptable.Collect
import Xv6.Ptable.PbsTurns
import Xv6.Ptable.MlfqTicks
import Xv6.Ptable.MlfqAging
import Xv6.Ptable.Fcfs
import Xv6.Locks.Console
import Xv6.Locks.SleeplockSafe
import Xv6.Locks.CliThreads
import Xv6.Console.Delivery
import Xv6.Log.Crash
import Xv6.Log.Waiters
import Xv6.Disk.Agreement
import Xv6.Pipes.Sleepers
import Xv6.Fs.Sharers
import Xv6.Fs.Links
import Xv6.Fs.Deadlock
import Xv6.Vm.Pages
import Xv6.Shell.Accepts
import Xv6.Syscall.Fetch
import Xv6.Umalloc.Runs
import Xv6.Grep.Match
import Xv6.Boot.Mp
