import Hecuba.ZorderCurve
import Hecuba.ZorderIds
import Hecuba.BoxCopy
import Hecuba.MortonInverse
import Hecuba.BlockGeometry
import Hecuba.ZorderRoundTrip
import Hecuba.KVCache
import Hecuba.WriteProtocol
import Hecuba.WriteMoves
import Hecuba.WriteConservation
import Hecuba.FlushSafety
import Hecuba.RetryPath
import Hecuba.RetryDeadlock
import Hecuba.QueuedTimestamps
import Hecuba.CassandraTable
import Hecuba.AppliedStatements
import Hecuba.FreshRows
import Hecuba.SequentialTable
import Hecuba.LastWriteWins
import Hecuba.ReadYourWrites
import Hecuba.LazyTable
import Hecuba.LazyWrites
import Hecuba.LazyMap
import Hecuba.CacheTransparency
import Hecuba.CachedRuns
import Hecuba.RowMemory
import Hecuba.TupleRowFactory
import Hecuba.NullVector
import Hecuba.ColumnCodec
import Hecuba.RowCodec
import Hecuba.RowRoundTrip
import Hecuba.DecodedRow
import Hecuba.NullRoundTrip
import Hecuba.StreamMessage
import Hecuba.SizeAgreement
import Hecuba.BlockOrder
import Hecuba.FortranOrder
import Hecuba.FortranBlocks
import Hecuba.CopyResult
import Hecuba.FortranReads
import Hecuba.FortranRoundTrip
import Hecuba.BasicIndexing
import Hecuba.ViewComposer
import Hecuba.StorageNumpy
import Hecuba.PersistentViews
import Hecuba.SplitCover
import Hecuba.SelectedBlocks
import Hecuba.Sessions
import Hecuba.LoadedFlags
import Hecuba.ArrayDataStore
import Hecuba.ArrayReaders
import Hecuba.BitFields
import Hecuba.FortranIds
import Hecuba.ReadersAgree
import Hecuba.HalfOpenRanges
import Hecuba.Prefetch
import Hecuba.PrefetchEnd
import Hecuba.PrefetchHang
import Hecuba.TokenRanges
import Hecuba.PieceLengths
import Hecuba.KVCacheNodes
import Hecuba.RingOwner
import Hecuba.StorageDict
import Hecuba.StorageObj
import Hecuba.TupleRowEquality
import Hecuba.ViewComposition
import Hecuba.PythonSpec
import Hecuba.SchemaMetadata
import Hecuba.LambdaBodies
import Hecuba.LambdaGroups
import Hecuba.LambdaMeaning
import Hecuba.NegativePositions
import Hecuba.BlockSelection
import Hecuba.FailedLoads
import Hecuba.FilteredAgreement
import Hecuba.PartialMerges
import Hecuba.ClusterEnumeration
import Hecuba.TraversalsEnd
import Hecuba.BlockSizing
import Hecuba.NumpyMetadata
import Hecuba.IntCursor
import Hecuba.MetadataRecord
import Hecuba.LiteralsBefore
import Hecuba.BoxExtraction
import Hecuba.ArrowColumns
import Hecuba.SpecRendering
import Hecuba.AttributeBuffers
import Hecuba.AttributeCopies
import Hecuba.ColumnReordering
import Hecuba.AttributeTuples
import Hecuba.KeyIterator
import Hecuba.FaithfulTuples
import Hecuba.CopiedWrites
import Hecuba.ArrayStores
import Hecuba.ArrayTables
import Hecuba.QbeastConditions
import Hecuba.TimestampOrder
import Hecuba.Semaphore
import Hecuba.BoundRows
import Hecuba.QueriedTable
import Hecuba.WriterShutdown
import Hecuba.PrefetchShutdown
import Hecuba.SetDictionary
import Hecuba.DictRegistry
