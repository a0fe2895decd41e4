import Contexide.Storage.UniqueIndex
import Contexide.Storage.ChildTable
import Contexide.StoragePg.Tenants
import Contexide.StoragePg.Children
import Contexide.Workflow.Agreement
import Contexide.Workflow.Barrier
import Contexide.Workflow.FanOut
import Contexide.Workflow.Isolation
import Contexide.Workflow.Ledger
import Contexide.Workflow.LostDispatch
import Contexide.Workflow.Progress
import Contexide.Workflow.Redelivery
import Contexide.Workflow.Terminal
import Contexide.Workflow.FailedRuns
import Contexide.Workflow.RetryDecisions
import Contexide.Worker.Runner
import Contexide.Worker.Config
import Contexide.Worker.Pipeline
import Contexide.Worker.Runtime
import Contexide.Vector.Store
import Contexide.Vector.Filters
import Contexide.Chunker.Text
import Contexide.Chunker.Spans
import Contexide.Workflow.DagOrder
import Contexide.StoragePg.DocumentsAgree
import Contexide.StoragePg.ChunksAgree
import Contexide.StoragePg.Persistence
import Contexide.Workflow.DispatchFrame
import Contexide.Normalizer.LineEndings
import Contexide.Normalizer.Idempotent
import Contexide.Workflow.Backoff
import Contexide.Workflow.RetryBound
import Contexide.Workflow.ExactPump
import Contexide.Workflow.Commute
import Contexide.Indexer.Pairing
import Contexide.Vector.ArrayConditions
import Contexide.Extractor.Parameters
import Contexide.Extractor.Router
import Contexide.Extractor.PdfPath
import Contexide.BlobStorage.Mem
import Contexide.Normalizer.MarkdownLists
import Contexide.Normalizer.MarkdownTables
import Contexide.Normalizer.MarkdownBlocks
import Contexide.Normalizer.NormalForm
import Contexide.Core.Canon
import Contexide.Core.Idempo
import Contexide.StoragePg.Jobs
import Contexide.Workflow.Roots
import Contexide.Workflow.QueueLoop
import Contexide.Workflow.Profiles
import Contexide.Normalizer.Collapse
import Contexide.Chunker.Overflow
import Contexide.StoragePg.ConcurrentCreate
import Contexide.Workflow.OverPostgres
import Contexide.StoragePg.ConcurrentChildren
import Contexide.StoragePg.JobsAgree
import Contexide.StoragePg.TenantsAgree
import Contexide.Normalizer.MarkdownDocuments
