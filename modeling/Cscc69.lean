import Cscc69.Interceptor.Dispatch
import Cscc69.Interceptor.Flags
import Cscc69.Interceptor.Unload
import Cscc69.Lib.Bytes
import Cscc69.Lib.Spinlocks
import Cscc69.Paging.PageTable
import Cscc69.Paging.Swap
import Cscc69.Paging.Pager
import Cscc69.Paging.Residency
import Cscc69.Paging.Statistics
import Cscc69.Paging.Contents
import Cscc69.Paging.Slots
import Cscc69.Ext2.Layout
import Cscc69.Ext2.Helper
import Cscc69.Ext2.Paths
import Cscc69.Ext2.Tools
import Cscc69.Ext2.Directory
import Cscc69.Ext2.Traverse
import Cscc69.Ext2.Regions
import Cscc69.Ext2.Entries
import Cscc69.Ext2.Unlink
import Cscc69.Ext2.Tree
import Cscc69.Interceptor.Locking
import Cscc69.Lib.DList
import Cscc69.Paging.DataPolicy
import Cscc69.Paging.Lru
import Cscc69.Lib.Caching
import Cscc69.Paging.Demand
import Cscc69.Paging.Opt
import Cscc69.Lib.Scanf
import Cscc69.Paging.TraceFile
import Cscc69.Paging.TableBytes
import Cscc69.Ext2.Edits
import Cscc69.Ext2.Stages
import Cscc69.Ext2.Operations
import Cscc69.Ext2.Links
import Cscc69.Interceptor.InFlight
import Cscc69.Ext2.LastLink
import Cscc69.Ext2.Room
import Cscc69.Ext2.Creation
import Cscc69.Ext2.HardLinks
import Cscc69.Ext2.Copies
import Cscc69.Ext2.ExitCodes
import Cscc69.Lib.SecondChance
import Cscc69.Paging.Clock
import Cscc69.Paging.FifoOrder
import Cscc69.Paging.ClockRuns
import Cscc69.Paging.SelfCheck
import Cscc69.Paging.PageOut
import Cscc69.Paging.TraceLines
import Cscc69.Lib.Epochs
import Cscc69.Traceprogs.Fastslim
import Cscc69.Ext2.Listing
import Cscc69.Ext2.Subtree
import Cscc69.Ext2.Bookkeeping
import Cscc69.Ext2.Bitmaps
import Cscc69.Interceptor.PidLists
import Cscc69.Paging.Sizes
import Cscc69.Paging.Indexing
import Cscc69.Ext2.PathHelpers
import Cscc69.Ext2.Loading
import Cscc69.Ext2.Catalogue
import Cscc69.Interceptor.Interleavings
import Cscc69.Interceptor.LateCalls
import Cscc69.Interceptor.Monitor
import Cscc69.Interceptor.Sessions
import Cscc69.Interceptor.TestFull
import Cscc69.Lib.Competitive
import Cscc69.Lib.Gaps
import Cscc69.Lib.Loops
import Cscc69.Lib.Recency
import Cscc69.Paging.Algorithms
import Cscc69.Paging.Dump
import Cscc69.Paging.Main
import Cscc69.Paging.SlotSet
import Cscc69.Traceprogs.Matmul
import Cscc69.Traceprogs.Reduction
import Cscc69.Ext2.ReadImage
