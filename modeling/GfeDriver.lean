import GfeDriver.Foundation.Loop
import GfeDriver.Foundation.Relaxation
import GfeDriver.Foundation.Schedule
import GfeDriver.Foundation.Hops
import GfeDriver.Graph.Edge
import GfeDriver.Graph.CByteArray
import GfeDriver.Graph.EdgeStream
import GfeDriver.Baseline.AdjacencyList
import GfeDriver.Baseline.AdjacencyListInvariant
import GfeDriver.Foundation.Calls
import GfeDriver.Foundation.EdgeCount
import GfeDriver.Foundation.EdgeMap
import GfeDriver.Baseline.AdjacencyListContract
import GfeDriver.Baseline.Csr
import GfeDriver.Baseline.CsrBfs
import GfeDriver.Baseline.CsrSssp
import GfeDriver.Baseline.Represents
import GfeDriver.Baseline.AdjacencyListSssp
import GfeDriver.Foundation.Components
import GfeDriver.Foundation.DepthFirst
import GfeDriver.Baseline.CsrWcc
import GfeDriver.Baseline.CsrWccThreads
import GfeDriver.Baseline.AdjacencyListWcc
import GfeDriver.Foundation.Triangles
import GfeDriver.Foundation.Bytes
import GfeDriver.Foundation.Grouping
import GfeDriver.Foundation.LabelPropagation
import GfeDriver.Baseline.CsrLcc
import GfeDriver.Baseline.CsrLccWorkers
import GfeDriver.Baseline.AdjacencyListLcc
import GfeDriver.Baseline.CsrLoad
import GfeDriver.Baseline.Load
import GfeDriver.Baseline.SsspFrontier
import GfeDriver.Baseline.LccDirected
import GfeDriver.Foundation.RankPropagation
import GfeDriver.Baseline.Pagerank
import GfeDriver.Baseline.Cdlp
import GfeDriver.Baseline.CdlpAgreement
import GfeDriver.Baseline.CdlpLabels
import GfeDriver.Foundation.SharedFlag
import GfeDriver.Baseline.CsrCdlpThreads
import GfeDriver.Foundation.Interleaving
import GfeDriver.Foundation.Runs
import GfeDriver.Experiment.Aging2
import GfeDriver.Experiment.Aging2Run
import GfeDriver.Experiment.BuildThread
import GfeDriver.Experiment.EvenPartition
import GfeDriver.Experiment.Latency
import GfeDriver.Experiment.WorkerThread
import GfeDriver.Foundation.Chunks
import GfeDriver.Experiment.ChunkedUpdates
import GfeDriver.Foundation.RingBuffer
import GfeDriver.Experiment.AsyncBatch
import GfeDriver.Experiment.RemoveVertices
import GfeDriver.Foundation.Moments
import GfeDriver.Experiment.Statistics
import GfeDriver.Llama.FairSharedMutex
import GfeDriver.Llama.Lcc
import GfeDriver.Llama.LccIterator
import GfeDriver.Llama.Snapshot
import GfeDriver.Llama.Sssp
import GfeDriver.Llama.VertexMap
import GfeDriver.Llama.Bfs
import GfeDriver.Llama.Cdlp
import GfeDriver.Llama.Pagerank
import GfeDriver.Llama.Wcc
import GfeDriver.Foundation.Buffer
import GfeDriver.Network.Message
import GfeDriver.Network.Server
import GfeDriver.Network.Client
import GfeDriver.Network.Remote
import GfeDriver.Foundation.ShortReads
import GfeDriver.Network.Framing
import GfeDriver.Network.Encoding
import GfeDriver.Network.BufferBounds
import GfeDriver.Utility.GraphalyticsValidate
import GfeDriver.Foundation.Matching
import GfeDriver.Foundation.MergeMarker
import GfeDriver.Utility.EquivalenceMatch
import GfeDriver.Utility.ErrorBudget
import GfeDriver.Utility.EpsilonMatch
import GfeDriver.Utility.ValidateText
import GfeDriver.Utility.Verdict
import GfeDriver.Foundation.Locks
import GfeDriver.Foundation.Register
import GfeDriver.Sortledton.Transactions
import GfeDriver.Sortledton.UpdateEdge
import GfeDriver.Foundation.Cell
import GfeDriver.Foundation.TextStream
import GfeDriver.Foundation.TextLines
import GfeDriver.Foundation.Double
import GfeDriver.Foundation.FreshArray
import GfeDriver.Teseo.AddEdge
import GfeDriver.Teseo.UpdateEdge
import GfeDriver.LiveGraph.Driver
import GfeDriver.LiveGraph.Bookkeeping
import GfeDriver.LiveGraph.Sssp
import GfeDriver.Library.ClusteringCoefficients
import GfeDriver.Library.ExistenceQueries
import GfeDriver.Library.ProcessVertex
import GfeDriver.Library.TwoHopCandidates
import GfeDriver.Gtx.Driver
import GfeDriver.Gtx.Edges
import GfeDriver.Gtx.AddEdge
import GfeDriver.Gtx.Vertices
import GfeDriver.Gtx.VertexDictionary
import GfeDriver.Foundation.FileStream
import GfeDriver.Foundation.Inflate
import GfeDriver.Reader.GraphalyticsZlib
import GfeDriver.Reader.GraphlogVertices
import GfeDriver.Reader.GraphlogEdges
import GfeDriver.Reader.Metis
import GfeDriver.Reader.MetisFile
import GfeDriver.Reader.EdgeList
import GfeDriver.Reader.Dimacs9
import GfeDriver.Reader.GraphalyticsReset
import GfeDriver.Gtx.Bfs
import GfeDriver.Gtx.BfsRefinement
import GfeDriver.Gtx.Lcc
import GfeDriver.Stinger.Lcc
import GfeDriver.Stinger.ShortestPaths
import GfeDriver.Library.ResultFiles
import GfeDriver.Library.ShortestPaths
import GfeDriver.Library.SortMerge
import GfeDriver.Foundation.CasRelaxation
