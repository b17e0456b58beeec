import UnixV6pp.Lib.Runs
import UnixV6pp.Lib.Extents
import UnixV6pp.Mm.Allocator
import UnixV6pp.Mm.ExtentFree
import UnixV6pp.Mm.ExtentRun
import UnixV6pp.Fs.FileSystem
import UnixV6pp.Fs.FreeChain
import UnixV6pp.Fs.FreeRun
import UnixV6pp.Lib.IndexTree
import UnixV6pp.Fs.INode
import UnixV6pp.Fs.BlockMap
import UnixV6pp.Fs.Bmap
import UnixV6pp.Fs.Truncate
import UnixV6pp.Fs.Ownership
import UnixV6pp.Fs.FileData
import UnixV6pp.Fs.Transfer
import UnixV6pp.Fs.Directory
import UnixV6pp.Fs.Located
import UnixV6pp.Fs.Records
import UnixV6pp.Fs.Scan
import UnixV6pp.Fs.ScanOnce
import UnixV6pp.Fs.OwnBuffer
import UnixV6pp.Lib.Threads
import UnixV6pp.Lib.Tally
import UnixV6pp.Lib.Flags
import UnixV6pp.Fs.Kernel
import UnixV6pp.Fs.SystemCalls
import UnixV6pp.Fs.Books
import UnixV6pp.Fs.Balance
import UnixV6pp.Fs.BalanceFiles
import UnixV6pp.Fs.Account
import UnixV6pp.Fs.Valid
import UnixV6pp.Fs.References
import UnixV6pp.Fs.Actions
import UnixV6pp.Fs.View
import UnixV6pp.Fs.InodeTable
import UnixV6pp.Fs.Calls
import UnixV6pp.Fs.TableIdentity
import UnixV6pp.Fs.OpenFiles
import UnixV6pp.Fs.OpenCalls
import UnixV6pp.Fs.InodeLock
import UnixV6pp.Fs.LockRun
import UnixV6pp.Fs.Wakeup
import UnixV6pp.Fs.WakeupRun
import UnixV6pp.Fs.Programs
import UnixV6pp.Fs.CountRun
import UnixV6pp.Dev.Request
import UnixV6pp.Dev.RequestQueue
import UnixV6pp.Dev.Swap
import UnixV6pp.Proc.PageTable
import UnixV6pp.Proc.PageTableRewrite
import UnixV6pp.Proc.Exec
import UnixV6pp.Lib.Cover
import UnixV6pp.Proc.Loader
import UnixV6pp.Proc.LoaderBounds
import UnixV6pp.Lib.Shares
import UnixV6pp.Mm.PageManager
import UnixV6pp.Proc.TableOwners
import UnixV6pp.Fs.OldDirectory
import UnixV6pp.Fs.DirectoryCalls
import UnixV6pp.Fs.Guards
import UnixV6pp.Fs.Slots
import UnixV6pp.Fs.SlotScan
import UnixV6pp.Fs.SlotFormat
import UnixV6pp.Fs.SlotCalls
import UnixV6pp.Fs.SameDirectory
import UnixV6pp.Fs.SelfWait
import UnixV6pp.Lib.Rotation
import UnixV6pp.Proc.ProcessTable
import UnixV6pp.Proc.Scheduler
import UnixV6pp.Proc.ProcessCalls
import UnixV6pp.Proc.Zombies
import UnixV6pp.Proc.Signals
import UnixV6pp.Proc.Alarm
import UnixV6pp.Dev.TTy
import UnixV6pp.Dev.TTyRead
import UnixV6pp.User.Malloc
import UnixV6pp.User.Headers
import UnixV6pp.User.Heap
import UnixV6pp.User.CommandTree
import UnixV6pp.User.ShellGrammar
import UnixV6pp.User.ShellParse
import UnixV6pp.Lib.Numerals
import UnixV6pp.User.PrintParse
import UnixV6pp.User.Sprintf
import UnixV6pp.User.PrintfReference
import UnixV6pp.User.Printf
import UnixV6pp.Build.CommonFile
import UnixV6pp.Build.ImageMap
import UnixV6pp.Build.Stored
import UnixV6pp.Build.ReadBack
import UnixV6pp.Build.DiskFile
import UnixV6pp.Build.FreeChain
import UnixV6pp.Build.DirItem
import UnixV6pp.Build.DirStored
import UnixV6pp.Build.DirNames
import UnixV6pp.Fs.AnyBytes
import UnixV6pp.Fs.LongNames
import UnixV6pp.Fs.CreatCall
import UnixV6pp.Fs.CreatOver
import UnixV6pp.Fs.Offsets
import UnixV6pp.Fs.CurrentDirectory
import UnixV6pp.Fs.FullDevice
import UnixV6pp.Fs.InCore
import UnixV6pp.Fs.Creation
import UnixV6pp.Lib.Copy
import UnixV6pp.Mm.NextFit
import UnixV6pp.Proc.Break
import UnixV6pp.Proc.BreakRun
import UnixV6pp.Proc.Layouts
import UnixV6pp.Proc.OldBreak
import UnixV6pp.Proc.BreakData
import UnixV6pp.Proc.BreakKept
import UnixV6pp.Fs.TruncLog
import UnixV6pp.Fs.InodeUpdate
import UnixV6pp.Dev.Cache
import UnixV6pp.Dev.ReadErrors
import UnixV6pp.Fs.FailedLoad
import UnixV6pp.Fs.AllocSteps
import UnixV6pp.Fs.AllocRun
import UnixV6pp.Fs.AllocWatch
import UnixV6pp.Lib.Reversal
import UnixV6pp.Proc.SwapChoice
import UnixV6pp.User.Itoa
import UnixV6pp.Lib.Calendar
import UnixV6pp.User.Time
import UnixV6pp.Proc.TextPages
import UnixV6pp.User.Redirection
import UnixV6pp.Dev.CRT
import UnixV6pp.Dev.CacheRun
import UnixV6pp.Proc.ImageRun
import UnixV6pp.Dev.Delimiters
import UnixV6pp.User.PreExecute
import UnixV6pp.User.SpiltCommand
import UnixV6pp.Lib.CString
import UnixV6pp.Proc.ExecArgs
import UnixV6pp.Proc.ArgumentCopy
import UnixV6pp.Proc.ArgumentStack
import UnixV6pp.Lib.Stretches
import UnixV6pp.Mm.LiveRanges
import UnixV6pp.Fs.Passing
import UnixV6pp.Fs.PipeRun
import UnixV6pp.Fs.FullNames
