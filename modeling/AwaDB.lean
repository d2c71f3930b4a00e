import AwaDB.Lib.Run
import AwaDB.Lib.Memory
import AwaDB.Lib.Lists
import AwaDB.Lib.Settles
import AwaDB.Util.BitmapManager
import AwaDB.Vector.VIDMgr
import AwaDB.Realtime.BucketData
import AwaDB.Realtime.MemData
import AwaDB.Realtime.ExactlyOnce
import AwaDB.Realtime.ReverseMap
import AwaDB.Realtime.UpdateAtomic
import AwaDB.Realtime.InvertIndex
import AwaDB.Index.Flat
import AwaDB.Index.Preassigned
import AwaDB.Index.IVFPQ
import AwaDB.Vector.AddRTVecs
import AwaDB.Lib.Codec
import AwaDB.Index.InvertedListsIO
import AwaDB.Index.Numbering
import AwaDB.Index.RoundTrip
import AwaDB.Index.BatchInv
import AwaDB.Vector.Reindex
import AwaDB.Vector.IndexRuns
import AwaDB.Engine.GammaEngine
import AwaDB.Engine.Batch
import AwaDB.Engine.Reachable
import AwaDB.Engine.BatchEqualsSingle
import AwaDB.Engine.Alignment
import AwaDB.Table.Node
import AwaDB.Vector.Reload
import AwaDB.Table.FieldRangeIndex
import AwaDB.Table.IndexContent
import AwaDB.Table.IndexWorker
import AwaDB.Table.IndexAgrees
import AwaDB.Engine.Restart
import AwaDB.Engine.Dump
import AwaDB.Engine.DocsNum
import AwaDB.Engine.Readable
import AwaDB.Engine.RejectedUpdate
import AwaDB.Engine.Tail
import AwaDB.Engine.Recorded
import AwaDB.Engine.KeyMap
import AwaDB.Engine.KeyIds
import AwaDB.Search.AwadbRetrieval
import AwaDB.Search.Conjunction
import AwaDB.Search.PageText
import AwaDB.Table.RangeQuery
import AwaDB.Lib.Binary
import AwaDB.Table.KeyOrder
import AwaDB.Engine.DeleteByQuery
import AwaDB.Engine.SearchPaths
import AwaDB.Storage.AsyncWriter
import AwaDB.Storage.SizeHeader
import AwaDB.Storage.Barrier
import AwaDB.Storage.Block
import AwaDB.Storage.StorageManager
import AwaDB.Storage.ItemArray
import AwaDB.Storage.SimpleCache
import AwaDB.Storage.LRUCache
import AwaDB.Storage.LRUQueue
import AwaDB.Storage.LRUOwned
import AwaDB.Storage.LRUThreads
import AwaDB.Storage.LRUOneOwner
import AwaDB.Storage.LRUReaders
import AwaDB.Storage.LRUCoherent
import AwaDB.Storage.StringBlock
import AwaDB.Storage.StringStore
import AwaDB.Storage.Truncate
import AwaDB.Storage.MigrateData
import AwaDB.Table.DocidTable
import AwaDB.Table.FieldIds
import AwaDB.Table.DocidFieldsFile
import AwaDB.Server.Registry
import AwaDB.Engine.SearchResults
import AwaDB.Engine.FilterTable
import AwaDB.Engine.FilterRestart
import AwaDB.Table.NodeRun
import AwaDB.Table.TagCounts
import AwaDB.Table.ToDocs
import AwaDB.Table.Intersect
import AwaDB.Table.SearchBounds
import AwaDB.Table.TagCopies
import AwaDB.Table.Tokens
import AwaDB.Engine.BatchCodes
import AwaDB.Engine.GetDocs
import AwaDB.Table.StoredRows
import AwaDB.Table.UpdateFrame
import AwaDB.Engine.Upsert
import AwaDB.Table.StringLimit
import AwaDB.Table.MultiString
import AwaDB.Client.SchemaAgrees
import AwaDB.Client.Shelf
import AwaDB.Client.Values
import AwaDB.Client.ResultItem
import AwaDB.Client.VectorReads
import AwaDB.Storage.MemoryPool
import AwaDB.Lib.Groups
import AwaDB.Util.ConcurrentVector
import AwaDB.Lib.Compact
import AwaDB.Vector.VectorResult
import AwaDB.Vector.MemoryRawVector
import AwaDB.Storage.CacheKey
import AwaDB.Lib.Outcome
import AwaDB.Lib.Queue
import AwaDB.Lib.BestFirst
import AwaDB.Lib.Descent
import AwaDB.Vector.Merge
import AwaDB.Vector.VectorSearch
import AwaDB.Vector.FieldMerge
import AwaDB.Vector.VIDLists
import AwaDB.Table.FieldSearch
import AwaDB.Table.GetFields
import AwaDB.Lib.Shortest
import AwaDB.Hub.Values
import AwaDB.Hub.AssembleDoc
import AwaDB.Hub.AssembleFilters
import AwaDB.Api.Request
import AwaDB.Api.Doc
import AwaDB.Client.Filters
import AwaDB.Client.Local
import AwaDB.Client.AddList
import AwaDB.Client.MetaFile
import AwaDB.Client.MetaRuns
import AwaDB.Util.BitmapRuns
import AwaDB.Table.SchemaFile
import AwaDB.Index.HnswGraph
import AwaDB.Index.HnswSearch
import AwaDB.Index.HnswAdd
import AwaDB.Index.HnswUpdate
import AwaDB.Index.HnswRuns
import AwaDB.Index.HnswRows
import AwaDB.Index.HnswFile
import AwaDB.Index.HnswRestart
import AwaDB.Lib.Simulation
import AwaDB.Server.AsyncCalls
import AwaDB.Server.AsyncTables
import AwaDB.Lib.TagSet
import AwaDB.Index.VisitedListPool
import AwaDB.Lib.SortedStore
import AwaDB.Vector.RocksDBRawVector
