import Adios2.Lib.Bytes
import Adios2.Lib.Cursor
import Adios2.Helper.Log
import Adios2.Engine.BP5.MetadataIndex
import Adios2.Engine.BP5.Theorems.MetadataIndexRecords
import Adios2.Lib.Lists
import Adios2.Engine.BP5.Theorems.MetadataIndexDelivery
import Adios2.Engine.BP5.Theorems.MetadataIndexRuns
import Adios2.Engine.BP5.DataPlacement
import Adios2.Lib.Layout
import Adios2.Engine.BP5.Theorems.DataPlacement
import Adios2.Format.BP5.Base
import Adios2.Format.BP5.Helper
import Adios2.Lib.BitMask
import Adios2.Lib.FirstOccurrence
import Adios2.Format.BP5.Theorems.Aggregation
import Adios2.Format.BP5.ContiguousMetadata
import Adios2.Format.BP5.Theorems.ContiguousMetadata
import Adios2.Format.BP5.Theorems.ContiguousAggregation
import Adios2.Lib.Heap
import Adios2.Format.Buffer.ChunkV
import Adios2.Format.Buffer.Theorems.ChunkVAlloc
import Adios2.Format.Buffer.Theorems.ChunkVRoom
import Adios2.Lib.CString
import Adios2.Format.BP5.MetaFields
import Adios2.Format.BP5.SerializerFields
import Adios2.Format.BP5.DeserializerControl
import Adios2.Format.BP5.Theorems.Base64
import Adios2.Format.BP5.Theorems.FieldNames
import Adios2.Format.BP5.Theorems.FieldControl
import Adios2.Format.BP5.Theorems.FieldNamesRoundTrip
import Adios2.Lib.Threads
import Adios2.Sst.Writer
import Adios2.Sst.Theorems.ReaderStatus
import Adios2.Sst.Theorems.Operations
import Adios2.Sst.Theorems.Deliveries
import Adios2.Sst.Theorems.TaskOrder
import Adios2.Sst.Theorems.References
import Adios2.Sst.Theorems.TimestepReferences
import Adios2.Sst.Theorems.Messages
import Adios2.Sst.Theorems.Transmission
import Adios2.Lib.PosixFile
import Adios2.Toolkit.Transport.FilePOSIX
import Adios2.Toolkit.Transport.Theorems.VectoredWrites
import Adios2.Helper.Box
import Adios2.Toolkit.Query.Query
import Adios2.Toolkit.Query.Theorems.CompositeCoverage
import Adios2.Toolkit.Aggregator.MPIShmChain
import Adios2.Engine.BP5.TwoLevelShm
import Adios2.Toolkit.Aggregator.Theorems.ShmSizes
import Adios2.Engine.BP5.Theorems.ShmCopies
import Adios2.Engine.BP5.Theorems.ShmTurns
import Adios2.Engine.BP5.Theorems.ShmBuffers
import Adios2.Engine.BP5.Theorems.ShmRuns
import Adios2.Engine.BP5.Theorems.ShmProgress
import Adios2.Engine.BP5.Theorems.TwoLevelShm
import Adios2.Engine.BP5.MetadataFile
import Adios2.Engine.BP5.Theorems.MetadataFile
import Adios2.Engine.BP5.StreamingReader
import Adios2.Engine.BP5.Theorems.MetadataIndexGathering
import Adios2.Engine.BP5.Theorems.StreamingIndex
import Adios2.Engine.BP5.Theorems.StreamingReader
import Adios2.Engine.BP5.Theorems.StreamingRuns
import Adios2.Engine.Daos.DaosWriter
import Adios2.Format.Buffer.Theorems.ChunkVContents
import Adios2.Format.Buffer.Theorems.DaosSubmission
import Adios2.Format.Buffer.Theorems.DaosOperations
import Adios2.Engine.Daos.Theorems.DataWrites
import Adios2.Helper.Partitioner
import Adios2.Helper.Theorems.Partitioner
import Adios2.Engine.BP5.DataSizeAggregation
import Adios2.Engine.BP5.Theorems.AppendPositions
import Adios2.Engine.BP5.Theorems.DataSizeAggregation
import Adios2.Core.Io
import Adios2.Engine.Ssc.SscHelper
import Adios2.Engine.Ssc.Theorems.ItemRecords
import Adios2.Engine.Ssc.Theorems.MetadataRecords
import Adios2.Engine.Ssc.Theorems.MetadataLoop
import Adios2.Engine.Ssc.Theorems.RecordEffects
import Adios2.Engine.Ssc.Theorems.MetadataCodec
import Adios2.Engine.Inline.InlineEngine
import Adios2.Engine.Inline.Theorems.StepContent
import Adios2.Toolkit.BurstBuffer.FileDrainer
import Adios2.Toolkit.BurstBuffer.Theorems.ExecutedOperations
import Adios2.Toolkit.BurstBuffer.Theorems.DrainThread
import Adios2.Engine.DataMan.DataManEngine
import Adios2.Format.DataMan.Theorems.Packs
import Adios2.Engine.DataMan.Theorems.Messages
import Adios2.Engine.DataMan.Theorems.Requests
import Adios2.Engine.DataMan.Theorems.Deliveries
import Adios2.Engine.DataMan.Theorems.ReliableMode
import Adios2.Engine.TimeSeries.Theorems.OpenedSeries
import Adios2.Engine.TimeSeries.Theorems.RandomAccess
import Adios2.Engine.TimeSeries.Theorems.SeriesGets
import Adios2.Engine.TimeSeries.Theorems.SeriesRequests
import Adios2.Engine.TimeSeries.Theorems.Stepping
import Adios2.Engine.TimeSeries.Theorems.SteppedSeries
import Adios2.Engine.TimeSeries.Theorems.TimeSeries
import Adios2.Lib.Boxes
import Adios2.Toolkit.KVCache.QueryBox
import Adios2.Toolkit.KVCache.Theorems.NdCut
import Adios2.Toolkit.KVCache.Theorems.QueryBox
import Adios2.Toolkit.Derived.Execute
import Adios2.Lib.StraightLine
import Adios2.Toolkit.Derived.Theorems.GenerateCode
import Adios2.Toolkit.Derived.Theorems.SemanticsPass
import Adios2.Toolkit.Derived.Theorems.PlanBuffers
import Adios2.Lib.Refines
import Adios2.Toolkit.Derived.Theorems.Pool
import Adios2.Toolkit.Derived.Theorems.Execute
import Adios2.Toolkit.Derived.Theorems.BufferSlots
import Adios2.Toolkit.Derived.VariableDerived
import Adios2.Toolkit.Derived.Theorems.Extents
import Adios2.Toolkit.Derived.Theorems.ShapePrediction
import Adios2.Lib.VectorFields
import Adios2.Toolkit.Derived.Function
import Adios2.Toolkit.Derived.Theorems.VectorOperators
import Adios2.Lib.BlockPartition
import Adios2.Sst.Peers
import Adios2.Sst.Theorems.Peers
import Adios2.Format.BP5.DynamicAggregation
import Adios2.Format.BP5.Theorems.ContributionCodec
import Adios2.Format.BP5.Theorems.DynamicAggregation
import Adios2.Format.BP5.Theorems.DynamicContribution
import Adios2.Format.BP5.Theorems.AggregationFallback
import Adios2.Format.BP5.InstalledMetadata
import Adios2.Format.BP5.Theorems.InstalledMetadata
import Adios2.Format.BP5.Theorems.InstalledSteps
import Adios2.Format.BP5.BlockReads
import Adios2.Format.BP5.Theorems.BlockReads
import Adios2.Format.BP5.Theorems.FlattenedBlocks
import Adios2.Engine.BP5.AsyncWrite
import Adios2.Engine.BP5.Theorems.AsyncWrite
import Adios2.Helper.Theorems.Box
import Adios2.Helper.BlockDivision
import Adios2.Helper.Theorems.BlockDivision
import Adios2.Helper.Theorems.SubblockExtremes
import Adios2.Format.Buffer.BufferV
import Adios2.Format.Buffer.MallocV
import Adios2.Format.Buffer.Theorems.BufferPlaces
import Adios2.Format.Buffer.Theorems.ChunkVPlaces
import Adios2.Format.Buffer.Theorems.MallocVPlaces
import Adios2.Format.Buffer.Theorems.GlobalOffsets
import Adios2.Format.Buffer.Theorems.ChunkVMemory
import Adios2.Format.DataMan.DataManSerializer
import Adios2.Format.DataMan.Theorems.StepSelection
import Adios2.Toolkit.Remote.Theorems.ResponseAssembly
import Adios2.Engine.TimeSeries.Theorems.GrowingList
import Adios2.Helper.VectorMinMax
import Adios2.Helper.Theorems.VectorMinMax
import Adios2.Utils.XrootdPlugin.AdiosFilePool
import Adios2.Utils.XrootdPlugin.Theorems.FilePoolAccounting
import Adios2.Core.Operator
import Adios2.Operator.CompressBZIP2
import Adios2.Operator.CompressBlosc
import Adios2.Operator.Theorems.Buffers
import Adios2.Operator.Theorems.CompressBZIP2
import Adios2.Helper.Theorems.GreedyPartitioning
import Adios2.Helper.RangeFilter
import Adios2.Helper.Theorems.RangeFilter
import Adios2.Lib.Grid
import Adios2.Utils.Reorganize.Reorganize
import Adios2.Utils.Reorganize.Theorems.Decomposition
import Adios2.Utils.Reorganize.Theorems.WrittenSteps
import Adios2.Toolkit.Transport.FileAWSSDK.Cache
import Adios2.Toolkit.Transport.Theorems.CachedMetadata
import Adios2.Lib.ObjectStore
import Adios2.Toolkit.Transport.FileAWSSDK.Segments
import Adios2.Toolkit.Transport.Theorems.ObjectSegments
import Adios2.Core.IoDefinitions
import Adios2.Core.Theorems.OneName
import Adios2.Core.Group
import Adios2.Core.Theorems.GroupView
