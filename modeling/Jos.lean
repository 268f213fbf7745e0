import Jos.Lib.LinkedList
import Jos.Lib.Ledger
import Jos.Mmu
import Jos.Pmap
import Jos.PageTables
import Jos.PageAccounting
import Jos.PageRuns
import Jos.PageMap
import Jos.Lib.Loop
import Jos.Lib.Outcome
import Jos.Env
import Jos.Sched
import Jos.UserMem
import Jos.Syscall
import Jos.Trap
import Jos.EnvIds
import Jos.Calls
import Jos.BigLock
import Jos.Traps
import Jos.OneCpu
import Jos.RoundRobin
import Jos.EnvPages
import Jos.Machine
import Jos.Mappings
import Jos.RefCounts
import Jos.Slots
import Jos.Privilege
import Jos.Conservation
import Jos.Ipc
import Jos.PageTransfer
import Jos.Upcall
import Jos.UpcallFrames
import Jos.UpcallRuns
import Jos.UserView
import Jos.UserRange
import Jos.UserPointers
import Jos.Fs
import Jos.FsFlat
import Jos.FsPath
import Jos.FsCache
import Jos.FsFile
import Jos.FsOps
import Jos.FsOwned
import Jos.FsBytes
import Jos.Lib.Demand
import Jos.FsSync
import Jos.Serv
import Jos.ServSizes
import Jos.OpenFiles
import Jos.OpenWear
import Jos.FsReads
import Jos.FsTrunc
import Jos.FsNoDisk
import Jos.FsDirs
import Jos.FsResolve
import Jos.FsCreate
import Jos.Lib.Ring
import Jos.Pipe
import Jos.PipeFifo
import Jos.PipeEof
import Jos.PipeWrap
import Jos.Descriptors
import Jos.PipeRefs
import Jos.EnvFree
import Jos.Answers
import Jos.UserMachine
import Jos.Kdebug
import Jos.StabSearch
import Jos.StabTable
import Jos.StabReads
import Jos.Sh
import Jos.ShRun
import Jos.Args
import Jos.Lib.Stateful
import Jos.Spawn
import Jos.SpawnStack
import Jos.SpawnClean
import Jos.SpawnHeaders
import Jos.Dup
import Jos.PageInit
import Jos.FreeOrder
import Jos.BootMap
import Jos.Mmio
import Jos.Console
import Jos.Lib.StringOps
import Jos.MemRoutines
import Jos.Printfmt
import Jos.FormatFlags
import Jos.Vsnprintf
import Jos.Strtol
