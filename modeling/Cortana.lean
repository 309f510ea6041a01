import Cortana.Text.ByteOffsets
import Cortana.Text.Search
import Cortana.Text.Ranges
import Cortana.Model.Document
import Cortana.Chunking.Model
import Cortana.Chunking.Windows
import Cortana.Chunking.Pieces
import Cortana.Chunking.Spans
import Cortana.Chunking.Keys
import Cortana.Chunking.Progress
import Cortana.Embed.Model
import Cortana.Embed.Sections
import Cortana.Embed.Vectors
import Cortana.Embed.SingleFlight
import Cortana.Core.Table
import Cortana.Core.Acyclic
import Cortana.Core.Paging
import Cortana.Replication.Journal
import Cortana.Replication.Watermarks
import Cortana.Replication.Replica
import Cortana.Replication.Convergence
import Cortana.Replication.Exchange
import Cortana.Replication.Tracking
import Cortana.Replication.Delivery
import Cortana.Store.Rows
import Cortana.Store.Sample
import Cortana.Store.State
import Cortana.Store.Documents
import Cortana.Store.Memories
import Cortana.Store.Listing
import Cortana.Code.Relations
import Cortana.Core.Loops
import Cortana.Core.Outcomes
import Cortana.Store.Effects
import Cortana.Sync.Engine
import Cortana.Store.Operations
import Cortana.Sync.Steps
import Cortana.Sync.Refinement
import Cortana.Sync.Journaling
import Cortana.Sync.Relay
import Cortana.Sync.Delivery
import Cortana.Sync.Convergence
import Cortana.Store.Quota
import Cortana.Store.Rebuild
import Cortana.Store.SearchIndex
import Cortana.Store.Links
import Cortana.Store.Lifecycle
import Cortana.Store.Revisions
import Cortana.Auth.Policy
import Cortana.Auth.Admission
import Cortana.Core.Sorting
import Cortana.Consolidation.Classification
import Cortana.Consolidation.Policy
import Cortana.Consolidation.Conflicts
import Cortana.Consolidation.Duplicates
import Cortana.Consolidation.Jobs
import Cortana.Consolidation.Engine
import Cortana.Consolidation.Effects
import Cortana.Consolidation.Transactions
import Cortana.Consolidation.Attempts
import Cortana.Consolidation.Interleaving
import Cortana.Consolidation.Queue
import Cortana.Core.Paths
import Cortana.Core.Escaping
import Cortana.Model.Digest
import Cortana.Vault.Export
import Cortana.Vault.Layout
import Cortana.Core.Registry
import Cortana.Control.Cells
import Cortana.Control.Host
import Cortana.Control.Tenant
import Cortana.Control.Team
import Cortana.Control.History
import Cortana.Control.Destruction
import Cortana.Control.Membership
import Cortana.Control.Isolation
import Cortana.Control.Interleaving
import Cortana.Migration.Publication
import Cortana.Ingest.Source
import Cortana.Ingest.Batch
import Cortana.Ingest.Flush
import Cortana.Ingest.Emission
import Cortana.Ingest.Run
import Cortana.Ingest.Snapshot
import Cortana.Ingest.Projects
import Cortana.Store.Listing
import Cortana.Code.Relations
import Cortana.Connectors.GitHub
import Cortana.Core.Pruning
import Cortana.Desktop.SourceJobs
import Cortana.Desktop.SourceRuns
import Cortana.Core.TopK
import Cortana.Store.Semantic
import Cortana.Text.Unicode
import Cortana.Answer.Fusion
import Cortana.Retrieval.Metadata
import Cortana.Text.Braces
import Cortana.Answer.Planner
import Cortana.Text.Case
import Cortana.Store.Coverage
import Cortana.Answer.Citations
import Cortana.Answer.Context
import Cortana.Answer.Synthesis
import Cortana.Answer.Cache
import Cortana.Retrieval.Promotion
import Cortana.Store.Backfill
import Cortana.Chunking.Reconstruction
import Cortana.Store.Neighbors
import Cortana.Code.Syntax
import Cortana.Code.Parser
import Cortana.Code.Attribution
import Cortana.Connectors.Sampling
import Cortana.Core.OrderedSet
import Cortana.Graph.Edges
import Cortana.Core.Calendar
import Cortana.Store.Backups
import Cortana.Sync.Retention
import Cortana.Sync.Identity
import Cortana.Core.Trimming
import Cortana.Ingest.Course
import Cortana.Ingest.Status
import Cortana.Retrieval.Reflection
