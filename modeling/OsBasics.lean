import OsBasics.Lib.ByteMem
import OsBasics.Lib.Tiling
import OsBasics.Lib.StableSort
import OsBasics.Lib.NullList
import OsBasics.Lib.Runs
import OsBasics.Lists.ListH
import OsBasics.Lists.Ring
import OsBasics.Malloc.FreeList
import OsBasics.Malloc.Layout
import OsBasics.Malloc.Tags
import OsBasics.Malloc.Links
import OsBasics.Malloc.Rep
import OsBasics.Malloc.Valid
import OsBasics.Malloc.Coalesce
import OsBasics.Malloc.Refine
import OsBasics.Malloc.WellFormed
import OsBasics.Malloc.Client
import OsBasics.Malloc.Safety
import OsBasics.Malloc.FreeOrder
import OsBasics.Malloc.Replay
import OsBasics.Lists.Sort
import OsBasics.Malloc.FirstFit
import OsBasics.Malloc.Realloc
import OsBasics.Malloc.Limits
import OsBasics.Malloc.Stale
import OsBasics.Malloc.SegLists
import OsBasics.Malloc.SegSearch
import OsBasics.Shell.UtHash
import OsBasics.Shell.Buckets
import OsBasics.Shell.VarTable
import OsBasics.Shell.VarRuns
import OsBasics.Shell.Main
import OsBasics.Shell.Lines
import OsBasics.Lib.Interleave
import OsBasics.MCGrep.Grep
import OsBasics.MCGrep.Threads
import OsBasics.MCGrep.Chunk
import OsBasics.MCGrep.Parse
import OsBasics.Lib.SplitBy
import OsBasics.MCGrep.Print
import OsBasics.MCGrep.Sequential
import OsBasics.Disk.Disksim
import OsBasics.Disk.Queue
import OsBasics.Disk.Order
import OsBasics.Disk.Policies
import OsBasics.Disk.Elevator
import OsBasics.Disk.Distance
import OsBasics.Disk.Main
import OsBasics.Cpu.Schedsim
import OsBasics.Cpu.Queue
import OsBasics.Cpu.Fcfs
import OsBasics.Cpu.Stcf
import OsBasics.Cpu.Passes
import OsBasics.Cpu.Conserve
import OsBasics.Malloc.SegInsert
import OsBasics.Malloc.SegCoalesce
import OsBasics.Cpu.Sjf
import OsBasics.Cpu.Complete
import OsBasics.Lib.Service
import OsBasics.Cpu.Greedy
import OsBasics.Lib.TimeLine
import OsBasics.Cpu.Timeline
import OsBasics.Cpu.Waiting
import OsBasics.Cpu.Buffer
import OsBasics.MCGrep.Split
import OsBasics.MCGrep.Wrap
import OsBasics.MCGrep.Lines
import OsBasics.Shell.Words
import OsBasics.Lib.Extents
import OsBasics.Malloc.Mdriver
import OsBasics.Malloc.Contract
import OsBasics.Malloc.Ranges
import OsBasics.Malloc.Verdict
import OsBasics.Malloc.Naive
import OsBasics.Malloc.FreeListMm
import OsBasics.Malloc.Util
import OsBasics.Malloc.Traces
import OsBasics.Lib.KBest
import OsBasics.Malloc.Check
import OsBasics.Malloc.Fcyc
import OsBasics.Lib.Family
import OsBasics.Lists.Moves
import OsBasics.Shell.Session
import OsBasics.Lists.Calls
import OsBasics.MCGrep.Search
import OsBasics.MCGrep.Main
import OsBasics.Cpu.Shorter
import OsBasics.Disk.Text
import OsBasics.Disk.RoundTrip
import OsBasics.Disk.Ints
import OsBasics.Malloc.SegFaults
import OsBasics.Malloc.SegLinks
import OsBasics.Cpu.Breaks
import OsBasics.Cpu.Leftover
