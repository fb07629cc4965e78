import Riscv2os.Std.Loops
import Riscv2os.Std.TransitionSystem
import Riscv2os.Std.RedoLog
import Riscv2os.Xv7.BioContent
import Riscv2os.Xv7.LogCrash
import Riscv2os.Xv7.LogThread
import Riscv2os.Xv7.LogAccounting
import Riscv2os.Xv7.LogBoot
import Riscv2os.Xv7.MmapSteps
import Riscv2os.Xv7.MmapSystem
import Riscv2os.Xv7.FileAccounting
import Riscv2os.Xv7.MmapFrames
import Riscv2os.Xv7.MmapMaps
import Riscv2os.Xv7.MmapArguments
import Riscv2os.Xv7.MmapWindows
import Riscv2os.Xv7.MunmapPages
import Riscv2os.Xv7.MunmapFrame
import Riscv2os.Xv7.MunmapPieces
import Riscv2os.Xv7.ExitPages
import Riscv2os.Xv7.MmapIsolation
import Riscv2os.Xv7.MmapCalls
import Riscv2os.Xv7.Teardown
import Riscv2os.Xv7.ExitFiles
import Riscv2os.Xv7.CopyOut
import Riscv2os.Emulator.Memory
import Riscv2os.Emulator.Step
import Riscv2os.Emulator.RegisterOps
import Riscv2os.Emulator.ImmediateOps
import Riscv2os.Std.RingBuffer
import Riscv2os.Xv7.Pipe
import Riscv2os.Std.LinkedList
import Riscv2os.Xv7.Sockets
import Riscv2os.Xv7.SocketTable
import Riscv2os.Std.Packets
import Riscv2os.Xv7.NetStack
import Riscv2os.Xv7.NetReceive
import Riscv2os.Xv7.NetRoundTrip
import Riscv2os.Xv7.NetFrames
import Riscv2os.Std.BuddyTree
import Riscv2os.Xv7.Buddy
import Riscv2os.Xv7.BuddyBits
import Riscv2os.Xv7.BuddyHeap
import Riscv2os.Xv7.BuddyCalls
import Riscv2os.Std.BuddyRange
import Riscv2os.Xv7.BuddyMarks
import Riscv2os.Xv7.BuddyInit
import Riscv2os.Xv7.BuddyBoot
import Riscv2os.Xv7.BuddyRuns
import Riscv2os.Xv7.Fs
import Riscv2os.Emulator.ControlFlow
import Riscv2os.Emulator.CsrOps
import Riscv2os.Emulator.MemoryAccess
import Riscv2os.Emulator.LoadStore
import Riscv2os.Emulator.Legal
import Riscv2os.MiniRiscvOs.Alloc
import Riscv2os.Std.RegisterFrame
import Riscv2os.MiniRiscvOs.Trap
import Riscv2os.MiniRiscvOs.Preempt
import Riscv2os.Std.Virtqueue
import Riscv2os.MiniRiscvOs.Virtio
import Riscv2os.Xv7.VirtioDisk
import Riscv2os.Std.ByteMemory
import Riscv2os.Xv7.Kalloc
import Riscv2os.Xv7.E1000
import Riscv2os.Semu.Bus
import Riscv2os.Semu.Cpu
import Riscv2os.Semu.Trap
import Riscv2os.Semu.Loop
import Riscv2os.Xv7.ProcTable
import Riscv2os.Xv7.FileTransfer
import Riscv2os.Xv7.Directory
import Riscv2os.Xv7.InodeCache
import Riscv2os.Xv7.PathNames
import Riscv2os.Std.BumpAllocator
import Riscv2os.Xv7.Mkfs
import Riscv2os.Xv7.PageAccounts
import Riscv2os.Xv7.Growproc
import Riscv2os.Xv7.PipeAccounts
import Riscv2os.Xv7.MbufLayout
import Riscv2os.Xv7.SocketWrite
import Riscv2os.Xv7.SocketOpen
import Riscv2os.Xv7.ProcPagetable
import Riscv2os.Xv7.ForkCall
import Riscv2os.Xv7.BuddyTiles
import Riscv2os.Xv7.PageCount
import Riscv2os.Xv7.ExecImage
import Riscv2os.Xv7.ExecCall
import Riscv2os.MiniRiscvOs.PagePool
import Riscv2os.Std.BoundedBuffer
import Riscv2os.MiniRiscvOs.Printf
import Riscv2os.MiniRiscvOs.PrintfBuffer
import Riscv2os.MiniRiscvOs.Timer
import Riscv2os.MiniRiscvOs.Cooperative
import Riscv2os.Xv7.HostDisk
import Riscv2os.Xv7.MkfsInodes
import Riscv2os.Xv7.MkfsContent
import Riscv2os.Xv7.MmapFaults
import Riscv2os.Semu.Dispatch
import Riscv2os.Std.Sv39
import Riscv2os.Semu.Translate
import Riscv2os.Semu.BaseInstructions
import Riscv2os.Emulator.Disassembly
import Riscv2os.Emulator.ElfImage
import Riscv2os.Emulator.Run
import Riscv2os.Emulator.Stdio
import Riscv2os.Xv7.Editor
import Riscv2os.Std.Cells
import Riscv2os.Std.RedBlack
import Riscv2os.Emulator.SymbolMap
import Riscv2os.Emulator.SymbolTree
import Riscv2os.Emulator.SymbolInsert
import Riscv2os.Emulator.SymbolSearch
import Riscv2os.Emulator.SymbolErase
import Riscv2os.Emulator.SymbolRuns
import Riscv2os.Emulator.SymbolShape
import Riscv2os.Semu.Access
import Riscv2os.Semu.WordInstructions
import Riscv2os.Std.ClaimRegister
import Riscv2os.Semu.ExternalInterrupts
import Riscv2os.Std.ReferenceTree
import Riscv2os.Xv7.FsTree
import Riscv2os.Xv7.FsGrowth
import Riscv2os.Xv7.FsContent
import Riscv2os.Xv7.FsInodes
import Riscv2os.Xv7.FsTruncate
import Riscv2os.Xv7.FsFiles
import Riscv2os.Xv7.FsCalls
import Riscv2os.Xv7.FsRuns
import Riscv2os.Xv7.PageWalk
import Riscv2os.Xv7.PageWalkMap
import Riscv2os.Xv7.PageWalkRuns
import Riscv2os.Xv7.Threads
import Riscv2os.Xv7.ThreadRules
import Riscv2os.Xv7.ThreadInvariant
import Riscv2os.Xv7.ThreadSteps
import Riscv2os.Xv7.ThreadRuns
import Riscv2os.Std.TextPattern
import Riscv2os.Xv7.Grep
