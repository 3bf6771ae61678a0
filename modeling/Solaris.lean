import Solaris.Flock.Posix
import Solaris.Swap.Balance
import Solaris.Ip.Orders
import Solaris.Xdr.RoundTrip
import Solaris.Record.Transparent
import Solaris.Msg.Deliver
import Solaris.Msg.Locks
import Solaris.Ndbm.Refused
import Solaris.Tcp.Runs
import Solaris.Vj.Transparent
import Solaris.Flock.Export
import Solaris.Ufs.Holes
import Solaris.Ufs.Rename
import Solaris.Ufs.QuotaUsage
import Solaris.Tmpfs.Failures
import Solaris.Dnlc.Operations
import Solaris.Callout.Ids
import Solaris.Callout.Save
import Solaris.Rmap.Top
import Solaris.Disk.Elevator
import Solaris.Rmap.Overflow
import Solaris.Blocks.Duplicate
import Solaris.Stream.InsertSpec
import Solaris.Flock.Refused
import Solaris.Ufs.AllocRuns
import Solaris.Routing.Gateways
import Solaris.Routing.Longest
import Solaris.Tcp.Window
import Solaris.Ip.Lengths
import Solaris.Ip.ForwardSums
import Solaris.Ip.CksumCopy
import Solaris.Timers.Uniqtime
import Solaris.Kmem.Perm
import Solaris.Swap.Vnodes
import Solaris.Swap.Newphys
import Solaris.Vm.RangeFaults
import Solaris.Tcp.Paws
import Solaris.Tcp.SendEnds
import Solaris.Share.Exclusion
import Solaris.Record.Setpos
import Solaris.Xdr.Arrays
import Solaris.Xdr.Cursor
import Solaris.Timers.Nanosleep
import Solaris.Timers.Rearm
import Solaris.Dnlc.Purge
import Solaris.Pcfs.Failures
import Solaris.Timers.Mktime
