import Umd.Lib.Steps
import Umd.Lib.Traces
import Umd.Lib.Json
import Umd.Lib.Schema
import Umd.Lib.Bfs
import Umd.Lib.Uuid
import Umd.Lib.JsonText
import Umd.Domain.Events
import Umd.Storage.Reducer
import Umd.Storage.Precedence
import Umd.Storage.TableFold
import Umd.Storage.Prepared
import Umd.Storage.Ledger
import Umd.Projections.Current
import Umd.Storage.InlineFold
import Umd.Storage.Tier0
import Umd.Storage.Released
import Umd.Storage.Transactions
import Umd.Storage.ExpectedVersion
import Umd.Storage.SeqOrder
import Umd.Storage.Interleaving
import Umd.Projections.Replay
import Umd.Projections.Poison
import Umd.Projections.Driver
import Umd.Jobs.Dag
import Umd.Jobs.Invalidation
import Umd.Jobs.Job
import Umd.Jobs.Service
import Umd.Jobs.Scheduling
import Umd.Jobs.Manifest
import Umd.Jobs.MaskedUuid
import Umd.Jobs.StageRuns
import Umd.Jobs.Execution
import Umd.Jobs.ClaimOnce
import Umd.Jobs.Completion
import Umd.Jobs.PostgresJobs
import Umd.Jobs.Executor
import Umd.Jobs.Runner
import Umd.Jobs.Dependents
import Umd.Jobs.Invalidated
import Umd.Jobs.History
import Umd.Jobs.Reports
import Umd.Jobs.SharedStages
import Umd.Jobs.Answers
import Umd.Jobs.Resume
import Umd.Jobs.OneKey
import Umd.Jobs.Deliveries
import Umd.Lib.Chains
import Umd.Storage.Mirror
import Umd.Storage.Appended
import Umd.Storage.Commit
import Umd.Storage.Tidy
import Umd.Projections.Edges
import Umd.Projections.EdgeChanges
import Umd.Projections.EdgeFold
import Umd.Projections.EdgeReplay
import Umd.Projections.EdgeFacts
import Umd.Projections.EdgeLocks
import Umd.Projections.EdgeAuthority
import Umd.Projections.MirrorFacts
import Umd.Projections.Search
import Umd.Projections.Parts
import Umd.Projections.SearchRuns
import Umd.Projections.SearchEdges
import Umd.Projections.Pass
import Umd.Projections.Quarantine
import Umd.Projections.Publish
import Umd.Api.Consistency
import Umd.Api.Generations
import Umd.Resolution.Resolver
import Umd.Resolution.Canonical
import Umd.Resolution.Mapping
import Umd.Jobs.Hatchet
import Umd.Jobs.Determined
import Umd.Lib.Ranking
import Umd.Domain.Locators
import Umd.Segmentation.Registry
import Umd.Resolution.LocatorResolver
import Umd.Resolution.Split
import Umd.Lib.Python
import Umd.Lib.UnionFind
import Umd.Projections.Hybrid
import Umd.Projections.Scopes
import Umd.Resolution.Candidates
import Umd.Resolution.Service
import Umd.Resolution.Clusters
import Umd.Resolution.OneCanonical
import Umd.Resolution.NoGuess
import Umd.Lib.Orders
import Umd.Resolution.InputOrder
import Umd.Lib.JsonRead
import Umd.Projections.Lifecycle
import Umd.Resolution.AliasRows
import Umd.Alignment.Align
import Umd.Alignment.Accounted
import Umd.Lib.Warping
import Umd.Alignment.Optimal
import Umd.Alignment.Reordering
import Umd.Lib.PosixPath
import Umd.Security.Archive
import Umd.Security.Extraction
import Umd.Lib.Patterns
import Umd.Domain.LocatorText
import Umd.Segmentation.Register
import Umd.Segmentation.Newest
import Umd.Segmentation.PostgresStore
import Umd.Lib.Base64
import Umd.Sandbox.Fields
import Umd.Subtitle.Serialize
import Umd.Audio.Serialize
import Umd.Video.Serialize
import Umd.Sandbox.Boundary
import Umd.Recovery.PostgresBackup
import Umd.Lib.JsonDict
import Umd.Lib.JsonCompact
import Umd.Jobs.Material
import Umd.Storage.EvidenceRows
import Umd.Analysis.TextStructural
import Umd.Analysis.Semantic
import Umd.Analysis.Provider
import Umd.Reconciliation.Reconciler
import Umd.Reconciliation.Committed
import Umd.Reconciliation.Certainty
import Umd.Video.Evidence
import Umd.Subtitle.Evidence
import Umd.Storage.EvidenceKept
import Umd.Resolution.Establish
import Umd.Resolution.Application
import Umd.Resolution.Effects
import Umd.Resolution.Assignments
import Umd.Resolution.Linkage
import Umd.Lib.Utf8
import Umd.Resolution.TextRange
import Umd.Subtitle.Webvtt
import Umd.Subtitle.Cues
import Umd.Lib.Paging
import Umd.Sandbox.Runner
import Umd.Projections.Query
import Umd.Projections.EntityQuery
import Umd.Projections.EntityPages
import Umd.Lib.Runs
import Umd.Lib.FileTree
import Umd.Lib.Flood
import Umd.Raster.Regions
import Umd.Raster.Panels
import Umd.Domain.IiifRegion
import Umd.Raster.Crop
import Umd.Audio.Vad
import Umd.Audio.Hallucination
import Umd.Segmentation.Batches
import Umd.Recovery.Restore
import Umd.Lib.Splits
import Umd.Segmentation.Chapters
import Umd.Lib.Outline
import Umd.Segmentation.Paths
import Umd.Segmentation.Segmenters
import Umd.Segmentation.Documents
import Umd.Lib.Consumed
import Umd.Api.RateLimit
import Umd.Analysis.Observations
import Umd.Resolution.Correspondence
import Umd.Lib.LevelSearch
import Umd.Projections.Traversal
import Umd.Lib.JsonDepth
import Umd.Api.Pagination
import Umd.Lib.LeastRoots
import Umd.Projections.MembershipScope
import Umd.Resolution.MentionStore
import Umd.Raster.Components
import Umd.Lib.Rounding
import Umd.Video.Scenes
import Umd.Lib.Codecs
import Umd.Subtitle.Charset
import Umd.Storage.SourceStore
import Umd.Lib.Markup
import Umd.Extractors.EpubParagraphs
import Umd.Extractors.EpubSpine
import Umd.Extractors.Markdown
import Umd.Lib.Groups
import Umd.Audio.Words
import Umd.Segmentation.Pairing
import Umd.Lib.Slices
import Umd.Audit.Explain
import Umd.Audit.Prior
import Umd.Storage.ImmutableStore
import Umd.Recovery.OcflBackup
import Umd.Api.Sources
import Umd.Lib.Catchup
import Umd.Projections.Embeddings
import Umd.Lib.Closing
import Umd.Audio.Music
import Umd.Operations.Controller
