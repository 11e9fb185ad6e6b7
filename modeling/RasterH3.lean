import RasterH3.Lib.Numerals
import RasterH3.Lib.Format
import RasterH3.Columnar.RecordBatch
import RasterH3.Raster.PrefetchQueue
import RasterH3.Proofs.PrefetchOrder
import RasterH3.Proofs.IpcStream
import RasterH3.Columnar.ArrowC
import RasterH3.Parquet.Writer
import RasterH3.Sedona.Merge
import RasterH3.Proofs.PhasesAgree
import RasterH3.Parquet.Pipeline
import RasterH3.Proofs.RowGroups
import RasterH3.Proofs.ParquetPipeline
import RasterH3.Proofs.ArrowWindow
import RasterH3.Proofs.ArrowRoundTrip
import RasterH3.Agg.Spill
import RasterH3.Lib.Keyed
import RasterH3.Proofs.SpillMerge
import RasterH3.Agg.Accumulator
import RasterH3.Agg.Categorical
import RasterH3.Proofs.SpillCodec
import RasterH3.Lib.MaxHeap
import RasterH3.Agg.Compaction
import RasterH3.Proofs.CompactionPool
import RasterH3.Proofs.Compaction
import RasterH3.Proofs.CompactionRuns
import RasterH3.Agg.Coordinates
import RasterH3.Proofs.BboxPruning
import RasterH3.Proofs.RectangleTest
import RasterH3.Agg.ShardedMap
import RasterH3.Proofs.ShardedMap
import RasterH3.Agg.Config
import RasterH3.Agg.Controller
import RasterH3.Proofs.StreamSteps
import RasterH3.Proofs.StreamContents
import RasterH3.Lib.Reader
import RasterH3.Lib.Protobuf
import RasterH3.Pmtiles.SortRun
import RasterH3.Proofs.SortRunCodec
import RasterH3.Pmtiles.ExternalExport
import RasterH3.Proofs.ExportOrder
import RasterH3.Proofs.ExportBudget
import RasterH3.Proofs.ExportAgreement
import RasterH3.Agg.Partial
import RasterH3.Proofs.PartialCodec
import RasterH3.Proofs.MosaicOwnership
import RasterH3.Raster.Mosaic
import RasterH3.Pmtiles.TileId
import RasterH3.Pmtiles.Writer
import RasterH3.Pmtiles.Archive
import RasterH3.Proofs.DirectoryLookup
import RasterH3.Proofs.ArchiveRoundTrip
import RasterH3.Pmtiles.TilePyramid
import RasterH3.Pmtiles.Mvt
import RasterH3.Pmtiles.MvtTile
import RasterH3.Proofs.MvtGeometry
import RasterH3.Proofs.MvtTables
import RasterH3.Proofs.MvtArcs
import RasterH3.Proofs.MvtExtents
import RasterH3.Proofs.MvtReach
import RasterH3.Proofs.MvtRoundTrip
import RasterH3.Proofs.TileEviction
import RasterH3.Raster.HttpRange
import RasterH3.Proofs.RemoteReads
import RasterH3.Raster.RemotePrefetch
import RasterH3.Proofs.RemotePrefetchRuns
import RasterH3.Proofs.RemoteRefetch
import RasterH3.Lib.Charges
import RasterH3.Raster.DecodePipeline
import RasterH3.Proofs.DecodeBudget
import RasterH3.Proofs.DecodeCrew
import RasterH3.Proofs.DecodeProgress
import RasterH3.Proofs.DecodeWakes
import RasterH3.Proofs.DecodeKept
import RasterH3.Lib.Ladder
import RasterH3.Agg.Majority
import RasterH3.Proofs.MajorityOrder
import RasterH3.Lib.WeightedSamples
import RasterH3.Agg.Moments
import RasterH3.Proofs.AccumulatorMoments
import RasterH3.DuckDb.RecordQueue
import RasterH3.Proofs.RecordQueueRuns
import RasterH3.Agg.Partition
import RasterH3.Proofs.PartitionPlan
import RasterH3.Columnar.Ipc
import RasterH3.Proofs.IpcFormat
import RasterH3.Proofs.IpcLengths
import RasterH3.Lib.Checked
import RasterH3.Proofs.HilbertCurve
import RasterH3.Pmtiles.TileIdWords
import RasterH3.Raster.CoalesceWords
import RasterH3.Proofs.CoalesceRanges
import RasterH3.Raster.Glob
import RasterH3.Proofs.GlobMatch
import RasterH3.Proofs.GlobStars
import RasterH3.Agg.Histogram
import RasterH3.Proofs.CategoricalMap
import RasterH3.Agg.ShardedSizes
import RasterH3.Proofs.ShardedSizes
import RasterH3.Proofs.TileCoverage
import RasterH3.Agg.Remap
import RasterH3.Proofs.RemapRules
import RasterH3.Agg.Quantiles
import RasterH3.Proofs.QuantileSweep
import RasterH3.Agg.WindowSchedule
import RasterH3.Proofs.WindowTiling
import RasterH3.Lib.Loops
import RasterH3.Lib.Differences
import RasterH3.Raster.Predictor
import RasterH3.Proofs.PredictorInverse
import RasterH3.Agg.RemapParser
import RasterH3.Proofs.RemapText
import RasterH3.Lib.Cuts
import RasterH3.Raster.ChunkGrid
import RasterH3.Proofs.ChunkTiling
import RasterH3.Columnar.LongFormat
import RasterH3.Proofs.LongBatches
import RasterH3.DataFusion.QueryBox
import RasterH3.Proofs.QueryBoxes
import RasterH3.Lib.Endian
import RasterH3.Lib.Binary64
import RasterH3.Encoding.WkbReader
import RasterH3.Sedona.WkbEnvelope
import RasterH3.Proofs.WkbReaders
import RasterH3.Lib.Lanes
import RasterH3.Lib.ExactFloat
import RasterH3.Agg.NoData
import RasterH3.Agg.Simd
import RasterH3.Proofs.SpanKernels
import RasterH3.Raster.TransverseMercator
import RasterH3.Proofs.TmEnclosure
import RasterH3.Raster.ChunkDecoder
import RasterH3.Proofs.ChunkDecoding
import RasterH3.Lib.Plane
import RasterH3.Raster.Radial
import RasterH3.Proofs.RadialBounds
import RasterH3.Proofs.AlbersCone
import RasterH3.Lib.ClosedPaths
import RasterH3.Encoding.WkbWriter
import RasterH3.Proofs.SplitCells
import RasterH3.Proofs.CellPieces
import RasterH3.Proofs.PolarCaps
import RasterH3.Proofs.WrittenCells
import RasterH3.Raster.DecoderCache
import RasterH3.Proofs.FurthestUse
import RasterH3.Raster.RangeReader
import RasterH3.Proofs.RangeCursor
import RasterH3.Parquet.ColumnOrder
import RasterH3.Proofs.FooterOrders
import RasterH3.Pmtiles.Wgs84Bounds
import RasterH3.Proofs.BoundsMerge
import RasterH3.Agg.ForeignChunks
import RasterH3.Proofs.ForeignGrid
import RasterH3.Agg.BoundaryClassifier
import RasterH3.Proofs.InteriorCells
import RasterH3.Proofs.LazyIndexes
import RasterH3.Pmtiles.Overview
import RasterH3.Proofs.BufferedMerge
import RasterH3.Proofs.OverviewTiles
import RasterH3.Pmtiles.ParquetTiler
import RasterH3.Proofs.RowAccounting
import RasterH3.Proofs.StreamBatches
import RasterH3.Proofs.StreamRuns
import RasterH3.Proofs.StreamHorizon
import RasterH3.Proofs.PartitionedScan
import RasterH3.Agg.Walker
import RasterH3.Proofs.WalkerRuns
import RasterH3.Agg.Engines
import RasterH3.Proofs.EngineLaws
import RasterH3.Agg.WindowKernels
import RasterH3.Lib.Rectangles
import RasterH3.Lib.Pools
import RasterH3.Lib.Rounding
import RasterH3.Proofs.StreamedRecords
import RasterH3.Proofs.RowPruning
import RasterH3.Proofs.WalkedScan
import RasterH3.Proofs.KernelLaws
import RasterH3.DuckDb.TableScan
import RasterH3.Proofs.QueryScans
import RasterH3.Agg.Reads
import RasterH3.Proofs.Draws
import RasterH3.Parquet.StreamExport
import RasterH3.Proofs.ExportedStreams
import RasterH3.Pmtiles.StreamTiler
import RasterH3.Proofs.TiledStreams
import RasterH3.Proofs.TiledFiles
