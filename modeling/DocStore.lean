import DocStore.Foundation.Assoc
import DocStore.Foundation.Slices
import DocStore.Foundation.Table
import DocStore.Foundation.Transition
import DocStore.Foundation.AppendLog
import DocStore.Foundation.Succession
import DocStore.Domain.Strings
import DocStore.Domain.Metadata
import DocStore.Domain.Host
import DocStore.Domain.Schema
import DocStore.Runtime.ExactReconstruction
import DocStore.Runtime.TextReconstruction
import DocStore.Temporal.Assertions
import DocStore.Temporal.Ambiguity
import DocStore.Temporal.Resolution
import DocStore.Temporal.Concurrency
import DocStore.Ingestion.SvoChunking
import DocStore.Ingestion.SentencePlan
import DocStore.Ingestion.Publication
import DocStore.Ingestion.RoundTrip
import DocStore.Runtime.ChunkVersions
import DocStore.Runtime.EntityLifecycle
import DocStore.Client.Instants
import DocStore.Client.TemporalCursor
import DocStore.Database.MapperAcceptance
import DocStore.Database.MapperContent
import DocStore.Database.MapperRoundTrip
import DocStore.Database.Migrations
import DocStore.Database.SemanticChunkMapper
import DocStore.Domain.Embeddings
import DocStore.Domain.Searching
import DocStore.Domain.TextOrder
import DocStore.Domain.UuidText
import DocStore.Foundation.Additions
import DocStore.Foundation.Batches
import DocStore.Foundation.Blocks
import DocStore.Foundation.Brackets
import DocStore.Foundation.BreadthFirst
import DocStore.Foundation.Connection
import DocStore.Foundation.Coverage
import DocStore.Foundation.Displacement
import DocStore.Foundation.Exceptions
import DocStore.Foundation.Grouping
import DocStore.Foundation.GrowingRows
import DocStore.Foundation.LockedLog
import DocStore.Foundation.Loop
import DocStore.Foundation.Mirror
import DocStore.Foundation.Numbering
import DocStore.Foundation.Offsets
import DocStore.Foundation.Ordinals
import DocStore.Foundation.Ownership
import DocStore.Foundation.Paired
import DocStore.Foundation.Patterns
import DocStore.Foundation.Ranking
import DocStore.Foundation.ReadCommitted
import DocStore.Foundation.Rehearsal
import DocStore.Foundation.RoseTree
import DocStore.Foundation.Saturation
import DocStore.Foundation.Schedule
import DocStore.Foundation.Separators
import DocStore.Foundation.SideEffects
import DocStore.Foundation.Slots
import DocStore.Foundation.Sweeps
import DocStore.Foundation.TopWindow
import DocStore.Foundation.UnionFind
import DocStore.Foundation.Utf8
import DocStore.Ingestion.Answers
import DocStore.Ingestion.Attribution
import DocStore.Ingestion.ChapterOrder
import DocStore.Ingestion.ChunkConstruction
import DocStore.Ingestion.ChunkRanges
import DocStore.Ingestion.ConcurrentPublication
import DocStore.Ingestion.DeletionMarks
import DocStore.Ingestion.DiagnosticRedaction
import DocStore.Ingestion.EnrichedHierarchy
import DocStore.Ingestion.Hierarchy
import DocStore.Ingestion.HierarchyAcceptance
import DocStore.Ingestion.HierarchyEnrichment
import DocStore.Ingestion.IntegrityDiagnostics
import DocStore.Ingestion.Provenance
import DocStore.Ingestion.PublicationAttempt
import DocStore.Ingestion.Rechunk
import DocStore.Ingestion.RechunkedText
import DocStore.Ingestion.Replay
import DocStore.Ingestion.RuntimeStatus
import DocStore.Ingestion.SentenceTexts
import DocStore.Ingestion.SourceNormalizer
import DocStore.Ingestion.SourceVersions
import DocStore.Ingestion.VersionIdentity
import DocStore.Query.DocumentRefinement
import DocStore.Query.Executors
import DocStore.Query.Filters
import DocStore.Query.Hybrid
import DocStore.Query.Refinement
import DocStore.Query.Retrieval
import DocStore.Query.SemanticSearch
import DocStore.Query.SemanticWindows
import DocStore.Query.TopWindow
import DocStore.Runtime.ActivityLog
import DocStore.Runtime.ClassifierAgreement
import DocStore.Runtime.ClassifierRuns
import DocStore.Runtime.ClassifierTables
import DocStore.Runtime.ClosedRows
import DocStore.Runtime.CurrentVersion
import DocStore.Runtime.DeletionColumns
import DocStore.Runtime.DeletionSafety
import DocStore.Runtime.DerivedRows
import DocStore.Runtime.DocumentExport
import DocStore.Runtime.DocumentRebind
import DocStore.Runtime.EditedText
import DocStore.Runtime.EntityIds
import DocStore.Runtime.EntityUpdate
import DocStore.Runtime.Invalidation
import DocStore.Runtime.LifecycleClosure
import DocStore.Runtime.MetadataDryRun
import DocStore.Runtime.MetadataUpdates
import DocStore.Runtime.OwnerListing
import DocStore.Runtime.OwnerTree
import DocStore.Runtime.Ownership
import DocStore.Runtime.ParagraphTexts
import DocStore.Runtime.PartialUpdate
import DocStore.Runtime.PublicationFrame
import DocStore.Runtime.PublishedTexts
import DocStore.Runtime.RebuildCoverage
import DocStore.Runtime.RebuildTermination
import DocStore.Runtime.Registry
import DocStore.Runtime.RelationDepth
import DocStore.Runtime.RelationGroups
import DocStore.Runtime.RunImmutability
import DocStore.Runtime.SearchVisibility
import DocStore.Runtime.SemanticRelations
import DocStore.Runtime.ServerLifecycle
import DocStore.Runtime.TextEdits
import DocStore.Runtime.TextPages
import DocStore.Runtime.TextSelection
import DocStore.Runtime.TextUpdates
import DocStore.Runtime.Truncation
import DocStore.Runtime.Undeletion
import DocStore.Runtime.VectorBatches
import DocStore.Runtime.VectorFreshness
import DocStore.Runtime.Vectorization
import DocStore.Runtime.VersionNumbers
import DocStore.Temporal.AcceptedOrder
import DocStore.Temporal.AttachmentState
import DocStore.Temporal.Closure
import DocStore.Temporal.Descendants
import DocStore.Temporal.InForce
import DocStore.Temporal.Intervals
import DocStore.Temporal.Republication
import DocStore.Temporal.Restoration
import DocStore.Temporal.SoftDeletion
import DocStore.Temporal.Splitting
