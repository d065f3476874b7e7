import Xv6.Param
import Xv6.Lib.StepRun
import Xv6.Lib.Census
import Xv6.Lib.Machine
import Xv6.Lib.DList
import Xv6.Log.State
import Xv6.Log.Commit
import Xv6.Log.GroupCommit
import Xv6.Bio.Cache
import Xv6.Log.Pinning
import Xv6.Fs.Layout
import Xv6.Fs.State
import Xv6.Fs.Dir
import Xv6.Fs.Syscall
import Xv6.Fs.Mkfs
import Xv6.Fs.Namespace
import Xv6.Fs.Holes
import Xv6.Fs.ShortWrite
import Xv6.Fs.Bitmap
import Xv6.Fs.Places
import Xv6.Fs.DataView
import Xv6.Fs.Footprint
import Xv6.Fs.SharedFile
import Xv6.Memmove
import Xv6.Spinlock
import Xv6.Lib.Hoare
import Xv6.Proc.Table
import Xv6.Proc.Tree
import Xv6.Lib.Ring
import Xv6.Pipe.Pipe
import Xv6.Pipe.Fifo
import Xv6.Pipe.Records
import Xv6.Lib.Pool
import Xv6.Vm.Layout
import Xv6.Vm.PageTable
import Xv6.Vm.View
import Xv6.Vm.Spec
import Xv6.Vm.AddressSpace
import Xv6.Vm.Proc
import Xv6.Vm.ProcSpec
import Xv6.Vm.Growth
import Xv6.Vm.ExecSpec
import Xv6.Vm.System
import Xv6.Fs.DirMap
import Xv6.Vm.Mappages
import Xv6.Vm.Copy
import Xv6.Printf
import Xv6.User.Umalloc
import Xv6.Lib.Circular
import Xv6.Lib.Language
import Xv6.Lib.Records
import Xv6.User.FreeList
import Xv6.User.Malloc
import Xv6.User.Grep
import Xv6.User.Xargs
import Xv6.User.Find
import Xv6.Console.Console
import Xv6.Console.Lines
import Xv6.Virtio.Alloc
import Xv6.Virtio.Disk
import Xv6.Virtio.Chains
import Xv6.Lib.Terminate
import Xv6.User.Sh
import Xv6.User.ShGrammar
import Xv6.Console.Uart
import Xv6.Proc.Sleeplock
import Xv6.User.Ulib
import Xv6.User.Wc
import Xv6.User.ShRun
import Xv6.Lib.Sieve
import Xv6.Pipe.System
import Xv6.Pipe.Calls
import Xv6.User.Primes
import Xv6.User.PrimesPipeline
import Xv6.User.PrimesRun
import Xv6.User.PrimesOutput
import Xv6.User.PrimesProgress
import Xv6.User.PrimesTermination
