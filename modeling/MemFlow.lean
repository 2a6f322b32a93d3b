import MemFlow.IdSet.HandleLemmas
import MemFlow.IdSet.Listing
import MemFlow.Registry.Memo
import MemFlow.Registry.Alias
import MemFlow.Graph.Builder
import MemFlow.Graph.Table
import MemFlow.Analysis.Event
import MemFlow.Options.Reader
import MemFlow.Version
import MemFlow.Proofs.Iteration
import MemFlow.Proofs.Drivers
import MemFlow.Proofs.Solutions
import MemFlow.Proofs.VisitOrders
import MemFlow.Proofs.Paths
import MemFlow.Proofs.Analyses
import MemFlow.Proofs.Executions
import MemFlow.Proofs.LastWriters
import MemFlow.Proofs.AvailableExpressions
import MemFlow.Proofs.Availability
import MemFlow.Proofs.Comparisons
import MemFlow.Proofs.LiveBlocks
import MemFlow.Proofs.Acceptance
import MemFlow.Proofs.Checks
import MemFlow.Proofs.Interning
import MemFlow.Proofs.FiniteSets
import MemFlow.Proofs.Workers
import MemFlow.Proofs.LaterRequests
import MemFlow.Proofs.Strictness
import MemFlow.Proofs.SharedStorage
import MemFlow.Proofs.SetClosures
import MemFlow.Proofs.Footprints
import MemFlow.Proofs.LocalSets
import MemFlow.Proofs.RememberedClosures
import MemFlow.Proofs.ReversePostorder
import MemFlow.Proofs.SweepCounts
import MemFlow.Proofs.LoopDepth
import MemFlow.Proofs.AliasQuestions
import MemFlow.Proofs.GraphBuilding
import MemFlow.Proofs.StrictKills
