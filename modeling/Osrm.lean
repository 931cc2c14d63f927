import Osrm.Walks
import Osrm.Loops
import Osrm.Labels
import Osrm.Heap
import Osrm.Search
import Osrm.Packing
import Osrm.Contraction
import Osrm.Overlay
import Osrm.Typedefs
import Osrm.Rectangle
import Osrm.Contractor
import Osrm.NodeContraction
import Osrm.ContractionRound
import Osrm.Renumbering
import Osrm.ContractGraph
import Osrm.ContractionProgress
import Osrm.QueryGraph
import Osrm.Phantom
import Osrm.Scan
import Osrm.Hint
import Osrm.CsvFiles
import Osrm.ManyToMany
import Osrm.ChSearch
import Osrm.ChUnpack
import Osrm.ChTable
import Osrm.ChTablePaths
import Osrm.EdgeBasedGraph
import Osrm.Updater
import Osrm.RTree
import Osrm.RTreeQueries
import Osrm.ForwardPass
import Osrm.ContractedEdgeContainer
import Osrm.ExcludableGraph
import Osrm.CliqueSearch
import Osrm.Partition
import Osrm.Changes
import Osrm.PartitionBuild
import Osrm.Slices
import Osrm.BisectionPartition
import Osrm.HiddenMarkovModel
import Osrm.MapMatching
import Osrm.SubMatchings
import Osrm.LevelGraph
import Osrm.CellStorage
import Osrm.MldFacade
import Osrm.MldSearch
import Osrm.Waypoints
import Osrm.Annotation
import Osrm.CompressedGeometry
import Osrm.SegmentData
import Osrm.GraphCompressor
import Osrm.CompressionRun
import Osrm.SharedMonitor
import Osrm.Datastore
import Osrm.SharedRegister
import Osrm.DatastoreKeys
import Osrm.DatasetSwap
import Osrm.LevelOffsets
import Osrm.CellLayout
import Osrm.DataLayout
import Osrm.Base64
import Osrm.XorFastHashStorage
import Osrm.QueryHeapStorage
import Osrm.WordBits
import Osrm.PackedVectors
import Osrm.PackedWriters
import Osrm.Permutation
import Osrm.DynamicGraphs
import Osrm.DynamicGraphRuns
import Osrm.ContractorAdaptors
import Osrm.ParallelEdges
import Osrm.Swar
import Osrm.GroupBlocks
import Osrm.IndexedData
import Osrm.CollapsedRoute
import Osrm.SuffixTrie
import Osrm.TurnRestrictions
import Osrm.RestrictionTransfers
import Osrm.RestrictionWalk
import Osrm.GrowingVectors
import Osrm.RestrictionVectors
import Osrm.ViaWays
import Osrm.MultiEdges
import Osrm.Reader
import Osrm.RequestParser
import Osrm.Json
import Osrm.JsonRenderer
import Osrm.TurnPathCompressor
import Osrm.BestCut
import Osrm.QueryLevels
import Osrm.OffsetBounds
import Osrm.LoadedGraph
import Osrm.BorderPermutation
import Osrm.RemoveUnconnected
import Osrm.RecursiveBisection
import Osrm.TarjanScc
import Osrm.DinicMaxFlow
import Osrm.DinicLevels
import Osrm.DinicPaths
import Osrm.MinimumCut
import Osrm.UniqueSort
import Osrm.ViaCandidates
import Osrm.GeospatialQuery
import Osrm.FilterCandidates
import Osrm.MatchTidy
import Osrm.MatchOptions
import Osrm.LaneProcessing
import Osrm.NextPermutation
import Osrm.TripPlugin
import Osrm.TripBruteForce
import Osrm.TripFarthestInsertion
import Osrm.Stages
import Osrm.LikelyMatchings
import Osrm.Bearings
import Osrm.TableScaling
import Osrm.Polyline
import Osrm.EdgeEnds
import Osrm.HintText
import Osrm.RouteSteps
import Osrm.Calendar
import Osrm.OpeningRules
import Osrm.OpeningSpans
import Osrm.MonthdayRanges
import Osrm.OpeningGrammar
import Osrm.OpeningDates
import Osrm.SpaceFillingCurves
import Osrm.HilbertValue
import Osrm.CyclicRedundancy
import Osrm.DouglasPeucker
import Osrm.ConnectivityChecksums
import Osrm.BoolVectors
import Osrm.RangeTables
import Osrm.PackedRows
import Osrm.StaticGraphs
import Osrm.DynamicGraphCounts
import Osrm.FilteredGraphs
import Osrm.PackedBounds
import Osrm.Microtar
import Osrm.TarListing
import Osrm.BlockMemory
import Osrm.UriDecoding
import Osrm.DeallocatingVectors
import Osrm.VectorRuns
import Osrm.Trips
import Osrm.CellCustomizer
import Osrm.CustomizedCells
import Osrm.CustomizedSearch
import Osrm.MldUnpack
import Osrm.ContractedSearch
