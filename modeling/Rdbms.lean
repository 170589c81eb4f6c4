import Rdbms.Lib.Multimap
import Rdbms.Sequential.Model
import Rdbms.Sequential.BinarySearch
import Rdbms.Sequential.Invariant
import Rdbms.Sequential.Query
import Rdbms.Sequential.Rebuild
import Rdbms.Sequential.Insert
import Rdbms.Sequential.Splice
import Rdbms.Sequential.Load
import Rdbms.Sequential.Run
import Rdbms.Sequential.BulkInsert
import Rdbms.Sequential.Unique
import Rdbms.Sequential.Remove
import Rdbms.Sequential.RawPos
import Rdbms.Sequential.LoadRecords
import Rdbms.Sequential.Machine
import Rdbms.Lib.AvlTree
import Rdbms.Avl.Model
import Rdbms.Avl.Rep
import Rdbms.Avl.Insert
import Rdbms.Lib.AvlErase
import Rdbms.Avl.Erase
import Rdbms.Avl.Remove
import Rdbms.Avl.Balance
import Rdbms.Avl.Unplaced
import Rdbms.Avl.Report
import Rdbms.Avl.Search
import Rdbms.Avl.Traverse
import Rdbms.Avl.Run
import Rdbms.Avl.Stream
import Rdbms.Avl.Refine
import Rdbms.Avl.Shared
import Rdbms.Lib.AvlHeight
import Rdbms.Avl.Positions
import Rdbms.Lib.Settled
import Rdbms.Avl.Cost
import Rdbms.Index.Duplicates
import Rdbms.Isam.Model
import Rdbms.Lib.ShiftInsert
import Rdbms.Isam.Page
import Rdbms.Isam.Order
import Rdbms.Lib.Partition
import Rdbms.Isam.Invariant
import Rdbms.Isam.Query
import Rdbms.Isam.Insert
import Rdbms.Isam.Build
import Rdbms.Isam.Run
import Rdbms.Isam.Erase
import Rdbms.Isam.Merge
import Rdbms.Isam.Remove
import Rdbms.Isam.Frame
import Rdbms.Isam.Agree
import Rdbms.Isam.Takes
import Rdbms.Isam.Ledger
import Rdbms.Isam.Exact
import Rdbms.Lib.Text
import Rdbms.Lib.FixedWidth
import Rdbms.Heap.Record
import Rdbms.Heap.Codec
import Rdbms.Heap.HeapFile
import Rdbms.Heap.Append
import Rdbms.Heap.Frame
import Rdbms.Lib.Columns
import Rdbms.Heap.Filter
import Rdbms.Heap.Sizes
import Rdbms.Heap.Load
import Rdbms.Lib.KeyedMap
import Rdbms.Engine.Model
import Rdbms.Engine.Add
import Rdbms.Engine.Select
import Rdbms.Engine.Compare
import Rdbms.Engine.Range
import Rdbms.Engine.Positions
import Rdbms.Engine.Usable
import Rdbms.Engine.Drop
import Rdbms.Engine.Reached
import Rdbms.Engine.Create
import Rdbms.Engine.Register
import Rdbms.Engine.Remove
import Rdbms.Engine.Atomic
import Rdbms.Engine.Consistent
import Rdbms.Engine.Isolation
import Rdbms.Engine.Database
import Rdbms.Engine.Held
import Rdbms.Engine.Replies
import Rdbms.Engine.Served
import Rdbms.Engine.Indexed
import Rdbms.Engine.Refine
import Rdbms.Engine.Scan
import Rdbms.Engine.Catalog
import Rdbms.Sequential.Storage
import Rdbms.Sequential.Cost
import Rdbms.Sequential.Canonical
