import Spacefish.Lib.LinkedArray
import Spacefish.Lib.DisjointLists
import Spacefish.Lib.Guards
import Spacefish.Lib.Separated
import Spacefish.Lib.Buffer
import Spacefish.Lib.Ends
import Spacefish.Lib.CyclicScan
import Spacefish.Basic
import Spacefish.Path
import Spacefish.Table
import Spacefish.Data
import Spacefish.Fd
import Spacefish.Upload
import Spacefish.Syscalls
import Spacefish.System
import Spacefish.TableWf
import Spacefish.TableEdit
import Spacefish.TableCreate
import Spacefish.TableMove
import Spacefish.TableMap
import Spacefish.TableRun
import Spacefish.DataWf
import Spacefish.Copy
import Spacefish.CopyFacts
import Spacefish.CopySize
import Spacefish.CopyContent
import Spacefish.ReadWalk
import Spacefish.UploadLaid
import Spacefish.UploadCopy
import Spacefish.TableEnds
import Spacefish.Store
import Spacefish.LinkSteps
import Spacefish.StoreSteps
import Spacefish.FdCache
import Spacefish.FileCalls
import Spacefish.OffsetCalls
import Spacefish.OpenCalls
import Spacefish.OpenFile
import Spacefish.OpenFd
import Spacefish.Effects
import Spacefish.CallEffects
import Spacefish.PathEffects
import Spacefish.SysRun
import Spacefish.Sizes
import Spacefish.Representation
import Spacefish.Layout
import Spacefish.Flush
import Spacefish.LayoutRun
import Spacefish.Lib.Interleaving
import Spacefish.RwLock
import Spacefish.RwLockRuns
import Spacefish.Allocation
import Spacefish.RowSearch
import Spacefish.RowLocks
import Spacefish.RenameLocks
import Spacefish.ProcessSlots
import Spacefish.StepCreation
import Spacefish.Lib.TwoRuns
import Spacefish.Trace
import Spacefish.OpenExisting
import Spacefish.TwoStores
import Spacefish.TruncateHides
import Spacefish.TableCalls
import Spacefish.TableOpen
import Spacefish.TablePaths
import Spacefish.RowPaths
import Spacefish.RemovedNames
import Spacefish.FlushWrite
import Spacefish.DirtyFlag
import Spacefish.ReadPositions
import Spacefish.IndependentReads
import Spacefish.FlatFiles
import Spacefish.FlatSteps
import Spacefish.FlatRefinement
import Spacefish.FlatOpen
import Spacefish.FlatRun
import Spacefish.FlatNames
import Spacefish.FlatNamesRun
import Spacefish.Mount
import Spacefish.MountRoom
import Spacefish.FlatFlush
import Spacefish.Remount
import Spacefish.ProcessLife
import Spacefish.CloseOnExec
import Spacefish.ProcessHandover
import Spacefish.ProcessRuns
import Spacefish.ProcessFlat
import Spacefish.FdFrames
import Spacefish.FdBounds
import Spacefish.FdHistory
import Spacefish.CreateSteps
import Spacefish.CreateNames
import Spacefish.CreateRaces
import Spacefish.CreateRuns
import Spacefish.KernelFds
import Spacefish.EndOfFile
import Spacefish.FullStore
import Spacefish.Allocators
import Spacefish.AllocRanges
import Spacefish.StepsAllocator
import Spacefish.StepsIndex
import Spacefish.UsageCounter
import Spacefish.CoreSlots
import Spacefish.CoreSteps
import Spacefish.LinkGrowth
import Spacefish.LinkCalls
import Spacefish.LinkPaths
import Spacefish.LinkRun
import Spacefish.CacheWalk
import Spacefish.Conservation
import Spacefish.UploadChain
import Spacefish.ThroughFd
import Spacefish.RemovalRuns
import Spacefish.OpenFiles
import Spacefish.OpenFlags
import Spacefish.OpenTruncate
import Spacefish.OpenFailures
import Spacefish.RenameNames
import Spacefish.RenameRow
import Spacefish.PastEnd
import Spacefish.SignedOffsets
import Spacefish.InsideFile
import Spacefish.InsideWrites
import Spacefish.OffsetRuns
import Spacefish.SparseWrite
import Spacefish.TruncFreeAlloc
import Spacefish.TruncFreeChains
import Spacefish.TruncFreeCalls
import Spacefish.TruncFreeTest
import Spacefish.TruncFreeRun
import Spacefish.StepMapping
import Spacefish.CloseOrder
import Spacefish.PathForms
import Spacefish.PathKeys
import Spacefish.Bypass
import Spacefish.Exhaustion
import Spacefish.AllocationAlone
import Spacefish.WaitFree
