import Linuxity.Kernel.Twin
import Linuxity.Runtime.Descriptors
import Linuxity.Runtime.Creation
import Linuxity.Runtime.Listings
import Linuxity.Kernel.Dotdot
import Linuxity.Abi.Streams
import Linuxity.Runtime.Parked
import Linuxity.Runtime.Chdir
import Linuxity.Abi.Whole
import Linuxity.Abi.Peers
import Linuxity.Runtime.Signals
import Linuxity.Mem.PageMap
import Linuxity.Mem.Heap
import Linuxity.Kernel.Ends
import Linuxity.Runtime.Start
import Linuxity.Runtime.SockMem
import Linuxity.Runtime.Transfer
import Linuxity.Kernel.ProcTable
import Linuxity.Hvf.Publish
import Linuxity.Hvf.Tables
import Linuxity.Runtime.Seccomp
import Linuxity.Kernel.MetaPrune
import Linuxity.Whp.PathCalls
import Linuxity.Hvf.FdObjects
import Linuxity.Hvf.CopyBytes
import Linuxity.Hvf.Advice
import Linuxity.Hvf.Vcpus
import Linuxity.Hvf.Inotify
import Linuxity.Abi.Selection
import Linuxity.Hvf.Timers
import Linuxity.Conform.Observation
