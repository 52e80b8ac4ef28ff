import Xv6.Lib.Run
import Xv6.Lib.RedoLog
import Xv6.Lib.RingBuffer
import Xv6.Lib.LinkedList
import Xv6.Lib.Tally
import Xv6.Lib.Program
import Xv6.Kernel.Param
import Xv6.Kernel.Proc
import Xv6.Kernel.Mlfq
import Xv6.Kernel.ProcCalls
import Xv6.Kernel.Alarm
import Xv6.Kernel.AlarmSystem
import Xv6.Kernel.Log
import Xv6.Kernel.LogSystem
import Xv6.Kernel.ProcSystem
import Xv6.Kernel.Cpu
import Xv6.Kernel.CpuSystem
import Xv6.Kernel.Kalloc
import Xv6.Kernel.Vm
import Xv6.Kernel.Wait
import Xv6.Kernel.Pipe
import Xv6.Kernel.Bio
import Xv6.Kernel.Inode
import Xv6.Kernel.File
import Xv6.Kernel.Fs
import Xv6.Proof.Alarm.Monitor
import Xv6.Proof.Alarm.Change
import Xv6.Proof.Alarm.NullBackup
import Xv6.Proof.Alarm.Reentry
import Xv6.Proof.Alarm.Exec
import Xv6.Proof.Log.Store
import Xv6.Proof.Log.Phase
import Xv6.Proof.Log.Crash
import Xv6.Proof.Log.Space
import Xv6.Proof.Tree.Protocol
import Xv6.Proof.Tree.Invariant
import Xv6.Proof.Tree.Refinement
import Xv6.Proof.Tree.Records
import Xv6.Proof.Tree.Reuse
import Xv6.Proof.Tree.Family
import Xv6.Proof.Cpu.Protocol
import Xv6.Proof.Cpu.Move
import Xv6.Proof.Cpu.Refinement
import Xv6.Proof.Cpu.Invariant
import Xv6.Proof.Cpu.Exclusion
import Xv6.Proof.Cpu.Turns
import Xv6.Proof.Cpu.Legal
import Xv6.Proof.Cpu.Control
import Xv6.Proof.Cpu.Wakeup
import Xv6.Proof.Cpu.Table
import Xv6.Proof.Cpu.Queues
import Xv6.Proof.Cpu.Priority
import Xv6.Proof.Cpu.Ledger
import Xv6.Proof.Cpu.Solo
import Xv6.Proof.Cpu.Fate
import Xv6.Proof.Cpu.Sweep
import Xv6.Proof.Cpu.Slice
import Xv6.Proof.Cpu.Aging
import Xv6.Proof.Cpu.Promotion
import Xv6.Proof.Cpu.Fifo
import Xv6.Proof.Cpu.Pass
import Xv6.Proof.Pipe.Move
import Xv6.Proof.Pipe.Fifo
import Xv6.Proof.Pipe.Stranded
import Xv6.Proof.Bio.Move
import Xv6.Proof.Bio.Count
import Xv6.Proof.Bio.Lru
import Xv6.Proof.Bio.Position
import Xv6.Proof.Bio.Content
import Xv6.Proof.Bio.Recency
import Xv6.Proof.Inode.Move
import Xv6.Proof.Inode.Wired
import Xv6.Proof.Inode.Count
import Xv6.Proof.Inode.Change
import Xv6.Proof.Inode.Content
import Xv6.Proof.Inode.Table
import Xv6.Proof.Inode.Orphan
import Xv6.Proof.Exhaustion
import Xv6.Proof.File
import Xv6.Proof.Vm.Copyout
import Xv6.Proof.Waitx
import Xv6.Kernel.Spinlock
import Xv6.Kernel.Fcfs
import Xv6.Proof.Fcfs.Owns
import Xv6.Proof.Fcfs.Safe
import Xv6.Proof.Fcfs.Pass
import Xv6.Kernel.AlarmClock
import Xv6.Proof.Alarm.Period
import Xv6.Kernel.Console
import Xv6.Proof.Console.Editor
import Xv6.Proof.Console.Discipline
import Xv6.Lib.Bytes
import Xv6.Lib.FreeMap
import Xv6.Lib.SlotTable
import Xv6.Lib.ByteCopy
import Xv6.Lib.CircularList
import Xv6.Lib.Tiling
import Xv6.Kernel.OnDisk
import Xv6.Kernel.BlockFs
import Xv6.Kernel.BlockCalls
import Xv6.Host.Mkfs
import Xv6.User.Ulib
import Xv6.User.Grep
import Xv6.User.Umalloc
import Xv6.Proof.Mkfs.Format
import Xv6.Proof.Mkfs.Layout
import Xv6.Proof.Mkfs.Append
import Xv6.Proof.Mkfs.Files
import Xv6.Proof.Mkfs.Consistent
import Xv6.Proof.Mkfs.Volume
import Xv6.Proof.BlockFs.Format
import Xv6.Proof.BlockFs.Sound
import Xv6.Proof.BlockFs.Alloc
import Xv6.Proof.BlockFs.Bmap
import Xv6.Proof.BlockFs.Read
import Xv6.Proof.BlockFs.Write
import Xv6.Proof.BlockFs.Splice
import Xv6.Proof.BlockFs.Directory
import Xv6.Proof.BlockFs.NameMap
import Xv6.Proof.BlockCalls.Resolve
import Xv6.Proof.BlockCalls.Levels
import Xv6.Proof.Mkfs.Root
import Xv6.Proof.Mkfs.Readback
import Xv6.Proof.Memmove
import Xv6.Proof.User.Match
import Xv6.Proof.User.Grep
import Xv6.Proof.User.Headers
import Xv6.Proof.User.Heap
import Xv6.Proof.User.Free
import Xv6.Proof.User.Malloc
import Xv6.Proof.User.Umalloc
import Xv6.Proof.Vm.Grow
import Xv6.Proof.Vm.UserCopy
import Xv6.Proof.Vm.Permissions
import Xv6.Proof.User.Sbrk
