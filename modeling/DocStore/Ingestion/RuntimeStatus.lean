import DocStore.Ingestion.Rechunk
import DocStore.Ingestion.SourceNormalizer

/-!
# How an ingestion call is left

`RuntimeIngestionBoundary.__call__` records its operation as running, and again in front of the
publication. It ends with a record that is terminal where it rejects the source, where an exception
of the publication is one that its handlers name, and where it succeeds. Everything else that raises
leaves the operation running: `endsTerminal_iff` says for which calls and surroundings nothing does.

The steps that another component answers come with the surroundings, each with what it returns or
raises. Times are left out.
-/

set_option autoImplicit false
set_option relaxedAutoImplicit false

namespace DocStore

open Foundation

/-! ### The status of an operation -/

/-- `status` of a record. -/
inductive RuntimeStatus where
  | running
  | completed
  | idempotent
  | failed
deriving DecidableEq, Repr

/-- A status with which an operation is over. -/
def RuntimeStatus.isTerminal (status : RuntimeStatus) : Bool := decide (status ≠ .running)

/-- The canonical references of a version. -/
structure VersionReferences where
  sourceVersion : ℕ
  idempotent : Bool
  fields : Dict := []

/-- What is recorded about an operation. -/
structure StatusRecord where
  status : RuntimeStatus
  progress : Option ℕ
  documentId : SourceText
  action : Text
  command : Option Text := none
  versionReference : Option VersionReferences := none
  failure : Option FailureRecord := none

/-- What the health report says about an operation. -/
structure ActivitySnapshot where
  operationId : SourceText
  status : RuntimeStatus
  documentId : SourceText
  action : Text

/-- `InMemoryRuntimeStatus`. -/
structure InMemoryRuntimeStatus where
  items : List (SourceText × StatusRecord) := []
  current : Option ActivitySnapshot := none
  last : Option ActivitySnapshot := none

/-- `InMemoryRuntimeStatus.record`. -/
def InMemoryRuntimeStatus.record (operationId : SourceText) (value : StatusRecord)
    (status : InMemoryRuntimeStatus) : InMemoryRuntimeStatus :=
  let snapshot : ActivitySnapshot :=
    { operationId, status := value.status, documentId := value.documentId, action := value.action }
  let items := setKey status.items operationId value
  if value.status = .running then { status with items, current := some snapshot }
  else
    { items
      last := some snapshot
      current := status.current.filter fun running ↦ running.operationId ≠ operationId }

/-- The status that was recorded last for an operation. -/
def InMemoryRuntimeStatus.lastStatus (status : InMemoryRuntimeStatus) (operationId : SourceText) :
    Option RuntimeStatus :=
  (getKey status.items operationId).map fun value ↦ value.status

/-- The last record of an operation is terminal. -/
def Terminal (operationId : SourceText) (status : InMemoryRuntimeStatus) : Prop :=
  ∃ last, status.lastStatus operationId = some last ∧ last.isTerminal = true

theorem lastStatus_record (operationId : SourceText) (value : StatusRecord)
    (status : InMemoryRuntimeStatus) :
    (status.record operationId value).lastStatus operationId = some value.status := by
  by_cases hrunning : value.status = .running
  · simp [InMemoryRuntimeStatus.record, InMemoryRuntimeStatus.lastStatus, hrunning]
  · simp [InMemoryRuntimeStatus.record, InMemoryRuntimeStatus.lastStatus, hrunning]

/-- An operation is over exactly when its last record is not about a running one. -/
theorem terminal_record_iff {operationId : SourceText} {value : StatusRecord}
    {status : InMemoryRuntimeStatus} :
    Terminal operationId (status.record operationId value) ↔ value.status.isTerminal = true := by
  simp [Terminal, lastStatus_record]

/-! ### Calls and their surroundings -/

/-- A call of the boundary. -/
structure BoundaryCall where
  documentId : SourceText
  sourceVersionId : SourceText
  operationId : SourceText
  command : Text
  rawText : Option SourceText := none
  transferredFile : Option TransferredFile := none
  chunkingStrategy : Option SourceText := none

/-- An event for one of the logs. -/
inductive LogEvent where
  | error (operationId documentId : SourceText) (failure : FailureRecord)
  | processedText (call : BoundaryCall) (contentSha256 : Text) (charCount previewChars : ℕ)
      (preview : Text)
  | processedFile (call : BoundaryCall) (contentSha256 : Text) (filename : Option SourceText)
      (descriptor : List (String × TransferValue)) (contentRedacted : Bool)

/-- The columns that `_load_existing_document_source` reads. -/
structure StoredDocument where
  sourceName : Option Text
  sourceHash : Option Text
  blockMeta : Dict

/-- The keywords of `_persist_source`. -/
structure PersistenceRequest where
  requestedDocumentId : Uuid
  sourceVersionId : SourceText
  normalizedSourceVersionId : SourceText
  operationId : SourceText
  command : Text
  textValue : Text
  filename : Option SourceText
  contentSha256 : Text
  chunkingStrategy : Text
  mediaType : Option SourceText := none
  byteLength : Option ℕ := none

/-- What a call takes from its surroundings. The aggregate and the plan are of types of their own. -/
structure IngestionSurroundings (γ π : Type) extends NormalizerSurroundings where
  databaseUrl : Option Text
  previewChars : ℕ
  /-- `str(value)` of a JSON value. -/
  str : Json → Text
  /-- The body of `_append`, which writes an event to its log. -/
  append : LogEvent → Except Raised Unit
  /-- The engine and the connection of `_stored_chunking_strategy`. -/
  connectForStrategy : Except Raised Unit
  /-- `block_meta->>'chunking_strategy'` of a document that is not deleted. -/
  selectStrategy : Uuid → Except Raised (Option Text)
  /-- The engine and the connection of `_load_existing_document_source`. -/
  connectForSource : Except Raised Unit
  /-- A document that is not deleted. -/
  selectDocument : Uuid → Except Raised (Option StoredDocument)
  /-- The texts of its paragraphs that are not deleted, in order. -/
  selectTexts : Uuid → Except Raised (List Text)
  /-- `self._chunker or installed_svo_runtime_chunker()`. -/
  installedChunker : Except Raised Unit
  /-- The paragraphs that the chunker makes of a text. -/
  chunkParagraphs : Text → Uuid → Except Raised (List RuntimeChunk)
  /-- `_sentence_chunks_from_paragraph_batch`. -/
  chunkSentences : List RuntimeChunk → Uuid → Except Raised (List RuntimeChunk)
  /-- `_canonical_aggregate`. -/
  canonicalAggregate : PersistenceRequest → List RuntimeChunk → List RuntimeChunk → Except Raised γ
  /-- `PublicationMapper.map`. -/
  mapAggregate : PersistenceRequest → γ → Except Raised π
  /-- `find_committed_version` of the repository. -/
  findCommittedVersion : γ → π → Except Raised (Option VersionReferences)
  /-- `publish_transaction` of the repository. -/
  publishTransaction : π → List RuntimeChunk → List RuntimeChunk → Except Raised VersionReferences

/-- What a call returns. -/
inductive IngestionReply where
  | committed (references : VersionReferences)
  | idempotentReplay (references : VersionReferences)
  | rolledBack (failure : FailureRecord)

/-- A step of the boundary. -/
abbrev BoundaryStep (α : Type) := Routine InMemoryRuntimeStatus Raised α

/-- `CHUNKING_STRATEGIES`. -/
def chunkingStrategies : List Text := [lit "paragraph", lit "sentence", lit "semantic"]

section Calling

variable {γ π : Type} (surroundings : IngestionSurroundings γ π)

/-- `bool(self._database_url)`. -/
def IngestionSurroundings.hasDatabase : Bool := (nonempty surroundings.databaseUrl).isSome

/-! ### Publication -/

/-- How `publish_document` ends when it returns. -/
inductive PublicationOutcome where
  | committed (references : VersionReferences)
  | idempotentReplay (references : VersionReferences)
  | integrityRefused (controlledError : FailureRecord)
  | rolledBack (stage errorType message : Text)

/-- The handlers of `publish_document`, at a stage. -/
def publicationHandlers (stage : Text) : List (Handler ExceptionClass Raised PublicationOutcome) :=
  [{ classes := [.integrityRefused], respond := fun raised ↦ .integrityRefused raised.record },
    { classes := [.exception]
      respond := fun raised ↦ .rolledBack stage raised.typeName raised.record.message }]

/-- What `publish_document` does with an exception. -/
def publicationRaised (stage : Text) (raised : Raised) : Except Raised PublicationOutcome :=
  (respond Raised.isInstance (publicationHandlers stage) raised).elim (.error raised) .ok

/-- `publish_document`. -/
def IngestionSurroundings.publishDocument (request : PersistenceRequest) (aggregate : γ) (bound : π)
    (paragraphChunks sentenceChunks : List RuntimeChunk) : Except Raised PublicationOutcome :=
  match surroundings.findCommittedVersion aggregate bound with
  | .error raised => publicationRaised (lit "identity_lookup") raised
  | .ok (some existing) => .ok (.idempotentReplay existing)
  | .ok none =>
    match surroundings.mapAggregate request aggregate with
    | .error raised => publicationRaised (lit "mapper") raised
    | .ok plan =>
      match surroundings.publishTransaction plan paragraphChunks sentenceChunks with
      | .error raised => publicationRaised (lit "repository_transaction") raised
      | .ok references => .ok (.committed references)

/-- `_PublicationRolledBack`. -/
def publicationRolledBack (record : FailureRecord) : Raised where
  classes := [.publicationRolledBack, .valueError, .exception, .baseException]
  record

/-- The references of an outcome, or the exception that it becomes. -/
def PublicationOutcome.references : PublicationOutcome → Except Raised VersionReferences
  | committed references => .ok references
  | idempotentReplay references => .ok references
  | integrityRefused controlledError => .error (publicationRolledBack controlledError)
  | rolledBack _ errorType message => .error (publicationRolledBack
      { code := lit "PERSISTENCE_FAILED", message, type := some errorType })

/-- `_persist_source`. -/
def persistNormalized (request : PersistenceRequest) : Except Raised VersionReferences := do
  surroundings.installedChunker
  let paragraphChunks ←
    surroundings.chunkParagraphs request.textValue request.requestedDocumentId
  let sentenceChunks ← surroundings.chunkSentences paragraphChunks request.requestedDocumentId
  let aggregate ← surroundings.canonicalAggregate request paragraphChunks sentenceChunks
  let bound ← surroundings.mapAggregate request aggregate
  let outcome ←
    surroundings.publishDocument request aggregate bound paragraphChunks sentenceChunks
  outcome.references

/-- The handlers of the boundary. -/
def persistenceHandlers : List (Handler ExceptionClass Raised FailureRecord) :=
  [{ classes := [.chunkerError], respond := fun raised ↦ raised.record },
    { classes := [.publicationRolledBack], respond := fun raised ↦ raised.record },
    { classes := [.sqlAlchemyError, .osError, .valueError]
      respond := fun raised ↦
        { code := lit "PERSISTENCE_FAILED"
          message := raised.record.message
          type := some raised.typeName } }]

/-! ### The strategy and the stored source -/

/-- A failure for which a call is rolled back. -/
abbrev Rejected (α : Type) := Except FailureRecord α

/-- `_stored_chunking_strategy`. -/
def storedChunkingStrategy (documentId : SourceText) : Except Raised (Option Text) :=
  if surroundings.hasDatabase then do
    surroundings.connectForStrategy
    let id ← uuidOf documentId
    let value ← surroundings.selectStrategy id
    return value.filter fun strategy ↦ chunkingStrategies.contains strategy
  else .ok none

/-- `_resolve_chunking_strategy`. -/
def resolveChunkingStrategy (call : BoundaryCall) : Except Raised (Rejected Text) :=
  match call.chunkingStrategy with
  | some requested =>
    match chunkingStrategies.find? fun strategy ↦ requested = sourceText strategy with
    | some strategy => .ok (.ok strategy)
    | none => .error (valueErrorOf
        (lit "chunking_strategy must be one of paragraph, sentence, semantic"))
  | none =>
    if call.command = lit "document_create" then
      .ok (.error
        { code := lit "CHUNKING_STRATEGY_REQUIRED"
          message := lit "chunking_strategy is required when creating a document" })
    else do
      let stored ← storedChunkingStrategy surroundings call.documentId
      return match stored with
        | some strategy => .ok strategy
        | none => .error
            { code := lit "CHUNKING_STRATEGY_REQUIRED"
              message := lit "document has no stored chunking_strategy" }

/-- The source that the rows of a document and its paragraphs make. -/
def sourceOfRows (document : StoredDocument) (texts : List Text) : Rejected ExistingSource :=
  let textValue := joinTexts (lit "\n\n") (texts.filter fun text ↦ !text.isEmpty)
  if textValue.isEmpty then
    .error { code := lit "DOCUMENT_TEXT_NOT_FOUND", message := lit "document has no stored text" }
  else .ok
    { textValue
      sourceVersionId := match (getKey document.blockMeta "source_version_id").filter truthy with
        | some (.str version) => version
        | some value => surroundings.str value
        | none => lit "stored"
      filename := document.sourceName
      contentSha256 := (nonempty document.sourceHash).getD
        (surroundings.digest (encodeUtf8 textValue)) }

/-- The failure for a document that is not there. -/
def documentNotFound : FailureRecord where
  code := lit "DOCUMENT_NOT_FOUND"
  message := lit "document does not exist"

/-- `_load_existing_document_source`. -/
def loadStoredSource (documentId : SourceText) : Except Raised (Rejected ExistingSource) := do
  surroundings.connectForSource
  let id ← uuidOf documentId
  match ← surroundings.selectDocument id with
  | none => return .error documentNotFound
  | some document => return sourceOfRows surroundings document (← surroundings.selectTexts id)

/-! ### Logs -/

/-- `_append`, which no `OSError` leaves. -/
def appendEvent (event : LogEvent) : Except Raised Unit :=
  match surroundings.append event with
  | .ok () => .ok ()
  | .error raised => if raised.isInstance .osError then .ok () else .error raised

/-- The keys of a transferred file that are logged. -/
def loggedKeys : List String :=
  ["transfer_id", "filename", "name", "media_type", "content_type", "size_bytes", "checksum_value"]

/-- The event about the file of a call. An object that is no mapping has no keys to test. -/
def processedFileEvent (call : BoundaryCall) (metadata : SourceMetadata) :
    Except Raised LogEvent :=
  match call.transferredFile with
  | none => .ok (.processedFile call metadata.contentSha256 metadata.filename [] false)
  | some (.mapping fields) => .ok (.processedFile call metadata.contentSha256 metadata.filename
      (loggedKeys.filterMap fun key ↦ (getKey fields key).map fun value ↦ (key, value))
      ((getKey fields "content").isSome || (getKey fields "data").isSome))
  | some (.descriptor _ _ _) => .error
      { classes := [.other (lit "TypeError"), .exception, .baseException]
        record := { code := [], message := lit "argument is not iterable" } }

/-- `_log_processed_source` logs a file, too. -/
def logsFile (call : BoundaryCall) (metadata : SourceMetadata) : Bool :=
  (metadata.filename.filter fun name ↦ !name.isEmpty).isSome || call.transferredFile.isSome

/-- The event about the text of a call. -/
def processedTextEvent (call : BoundaryCall) (request : NormalizedIngestionRequest) : LogEvent :=
  .processedText call request.sourceMetadata.contentSha256 request.text.length
    surroundings.previewChars
    ((joinTexts (lit " ") (splitWords request.text)).take surroundings.previewChars)

/-- `_log_processed_source`. -/
def logProcessedSource (call : BoundaryCall) (request : NormalizedIngestionRequest) :
    Except Raised Unit := do
  appendEvent surroundings (processedTextEvent surroundings call request)
  if logsFile call request.sourceMetadata then
    let event ← processedFileEvent call request.sourceMetadata
    appendEvent surroundings event

/-! ### The call -/

/-- `_record_failed`. -/
def recordFailed (call : BoundaryCall) (failure : FailureRecord) : BoundaryStep IngestionReply := do
  Routine.update (InMemoryRuntimeStatus.record call.operationId
    { status := .failed
      progress := none
      documentId := call.documentId
      action := lit "failed"
      failure := some failure })
  Routine.outcome (appendEvent surroundings (.error call.operationId call.documentId failure))
  return .rolledBack failure

/-- The record of an operation that runs. -/
def runningRecord (call : BoundaryCall) (progress : ℕ) (action : Text) : StatusRecord where
  status := .running
  progress := some progress
  documentId := call.documentId
  action
  command := some call.command

/-- The record of an operation that succeeded. -/
def completedRecord (call : BoundaryCall) (status : RuntimeStatus)
    (references : VersionReferences) : StatusRecord where
  status
  progress := some 100
  documentId := call.documentId
  action := lit "completed"
  command := some call.command
  versionReference := some references

/-- What follows the `try` around `_persist_source`, and what its handlers do. -/
def concludeCall (call : BoundaryCall) (persisted : Except Raised VersionReferences)
    (status : VersionReferences → RuntimeStatus) (reply : VersionReferences → IngestionReply) :
    BoundaryStep IngestionReply :=
  match persisted with
  | .ok references => do
    Routine.update (InMemoryRuntimeStatus.record call.operationId
      (completedRecord call (status references) references))
    return reply references
  | .error raised =>
    match respond Raised.isInstance persistenceHandlers raised with
    | some failure => recordFailed surroundings call failure
    | none => Routine.outcome (.error raised)

/-- The failure without a database. -/
def databaseNotConfigured : FailureRecord where
  code := lit "DATABASE_NOT_CONFIGURED"
  message := lit "DOC_STORE_DATABASE_URL is not configured"

/-- What `_rechunk_existing` persists. -/
def storedRequest (call : BoundaryCall) (strategy : Text) (source : ExistingSource) (id : Uuid) :
    PersistenceRequest :=
  let sourceVersionId :=
    if call.sourceVersionId ≠ sourceText (lit "stored") then call.sourceVersionId
    else sourceText source.sourceVersionId
  { requestedDocumentId := id
    sourceVersionId
    normalizedSourceVersionId := sourceVersionId
    operationId := call.operationId
    command := call.command
    textValue := source.textValue
    filename := source.filename.map sourceText
    contentSha256 := source.contentSha256
    chunkingStrategy := strategy }

/-- What `__call__` persists. -/
def receivedRequest (call : BoundaryCall) (strategy : Text) (request : NormalizedIngestionRequest)
    (id : Uuid) : PersistenceRequest where
  requestedDocumentId := id
  sourceVersionId := call.sourceVersionId
  normalizedSourceVersionId := sourceText request.sourceVersionId
  operationId := call.operationId
  command := call.command
  textValue := request.text
  filename := request.sourceMetadata.filename
  contentSha256 := request.sourceMetadata.contentSha256
  chunkingStrategy := strategy
  mediaType := request.sourceMetadata.mediaType
  byteLength := some request.sourceMetadata.byteLength

/-- The body of the `try` of both paths. -/
def persistUnder (call : BoundaryCall) (request : Uuid → PersistenceRequest) :
    Except Raised VersionReferences := do
  let id ← uuidOf call.documentId
  persistNormalized surroundings (request id)

/-- `_rechunk_existing`. -/
def rechunkStored (call : BoundaryCall) : BoundaryStep IngestionReply :=
  if surroundings.hasDatabase then do
    match ← Routine.outcome (resolveChunkingStrategy surroundings call) with
    | .error failure => recordFailed surroundings call failure
    | .ok strategy =>
      match ← Routine.outcome (loadStoredSource surroundings call.documentId) with
      | .error failure => recordFailed surroundings call failure
      | .ok source =>
        concludeCall surroundings call
          (persistUnder surroundings call (storedRequest call strategy source)) (fun _ ↦ .completed) .committed
  else recordFailed surroundings call databaseNotConfigured

/-- `__call__` behind the normalization of a source. -/
def ingestNormalized (call : BoundaryCall) (request : NormalizedIngestionRequest) :
    BoundaryStep IngestionReply := do
  match ← Routine.outcome (resolveChunkingStrategy surroundings call) with
  | .error failure => recordFailed surroundings call failure
  | .ok strategy =>
    Routine.outcome (logProcessedSource surroundings call request)
    if surroundings.hasDatabase then
      Routine.update (InMemoryRuntimeStatus.record call.operationId
        (runningRecord call 40 (lit "persisting_hierarchy_and_embeddings")))
      concludeCall surroundings call
        (persistUnder surroundings call (receivedRequest call strategy request))
        (fun references ↦ if references.idempotent then .idempotent else .completed)
        (fun references ↦
          if references.idempotent then .idempotentReplay references else .committed references)
    else recordFailed surroundings call databaseNotConfigured

/-- The failure with a diagnostic. -/
def NormalizationDiagnostic.failure (diagnostic : NormalizationDiagnostic) : FailureRecord where
  code := diagnostic.code
  message := diagnostic.message
  context := diagnostic.context

/-- `RuntimeIngestionBoundary.__call__`. -/
def ingest (call : BoundaryCall) : BoundaryStep IngestionReply := do
  Routine.update (InMemoryRuntimeStatus.record call.operationId
    (runningRecord call 10 (lit "normalizing_source")))
  if call.command = lit "document_chunk" then rechunkStored surroundings call
  else
    match ← Routine.outcome (normalizeSource surroundings.toNormalizerSurroundings {} call.rawText
      call.transferredFile call.documentId) with
    | .error diagnostic => recordFailed surroundings call diagnostic.failure
    | .ok request => ingestNormalized surroundings call request

/-! ### What may be raised -/

omit surroundings in
/-- A computation raises nothing but certain exceptions. -/
def RaisesOnly {α : Type} (allowed : Raised → Prop) (computation : Except Raised α) : Prop :=
  ∀ raised, computation = .error raised → allowed raised

/-- An exception that a handler of the boundary takes. -/
def Raised.Handled (raised : Raised) : Prop :=
  raised.isInstance .chunkerError = true ∨ raised.isInstance .publicationRolledBack = true ∨
    raised.isInstance .sqlAlchemyError = true ∨ raised.isInstance .osError = true ∨
      raised.isInstance .valueError = true

/-- An exception that a handler of the publication takes, or one of the boundary. -/
def Raised.Contained (raised : Raised) : Prop :=
  raised.isInstance .integrityRefused = true ∨ raised.isInstance .exception = true ∨ raised.Handled

/-- Every step of `_persist_source` that is reached raises nothing but exceptions with a handler. -/
def PersistsQuietly (request : PersistenceRequest) : Prop :=
  RaisesOnly Raised.Handled surroundings.installedChunker ∧
  (surroundings.installedChunker = .ok () →
    RaisesOnly Raised.Handled
      (surroundings.chunkParagraphs request.textValue request.requestedDocumentId) ∧
    ∀ paragraphChunks,
      surroundings.chunkParagraphs request.textValue request.requestedDocumentId =
        .ok paragraphChunks →
      RaisesOnly Raised.Handled
        (surroundings.chunkSentences paragraphChunks request.requestedDocumentId) ∧
      ∀ sentenceChunks,
        surroundings.chunkSentences paragraphChunks request.requestedDocumentId =
          .ok sentenceChunks →
        RaisesOnly Raised.Handled
          (surroundings.canonicalAggregate request paragraphChunks sentenceChunks) ∧
        ∀ aggregate,
          surroundings.canonicalAggregate request paragraphChunks sentenceChunks = .ok aggregate →
          RaisesOnly Raised.Handled (surroundings.mapAggregate request aggregate) ∧
          ∀ bound, surroundings.mapAggregate request aggregate = .ok bound →
            RaisesOnly Raised.Contained (surroundings.findCommittedVersion aggregate bound) ∧
            (surroundings.findCommittedVersion aggregate bound = .ok none →
              RaisesOnly Raised.Contained
                (surroundings.publishTransaction bound paragraphChunks sentenceChunks)))

/-- The strategy is given and known, or nothing is raised where it is looked up. -/
def StrategyAvailable (call : BoundaryCall) : Prop :=
  match call.chunkingStrategy with
  | some requested => ∃ strategy ∈ chunkingStrategies, requested = sourceText strategy
  | none => call.command = lit "document_create" ∨ surroundings.hasDatabase = false ∨
      surroundings.connectForStrategy = .ok () ∧ ∃ id, call.documentId.uuid = some id ∧
        ∃ stored, surroundings.selectStrategy id = .ok stored

/-- Nothing is raised where the stored source is read. -/
def SourceAvailable (call : BoundaryCall) : Prop :=
  surroundings.connectForSource = .ok () ∧ ∃ id, call.documentId.uuid = some id ∧
    ∃ document, surroundings.selectDocument id = .ok document ∧
      (document.isSome = true → ∃ texts, surroundings.selectTexts id = .ok texts)

/-- Writing an event raises nothing but an `OSError`. -/
def LogsQuietly (event : LogEvent) : Prop :=
  RaisesOnly (fun raised ↦ raised.isInstance .osError = true) (surroundings.append event)

/-- The source of a call is logged, or could not be written to a log. -/
def SourceLogged (call : BoundaryCall) (request : NormalizedIngestionRequest) : Prop :=
  LogsQuietly surroundings (processedTextEvent surroundings call request) ∧
    (logsFile call request.sourceMetadata = true →
      ∃ event, processedFileEvent call request.sourceMetadata = .ok event ∧
        LogsQuietly surroundings event)

/-! ### The condition -/

/-- What is persisted raises only what is handled. An id that is no UUID is a `ValueError`. -/
def PersistsUnder (call : BoundaryCall) (request : Uuid → PersistenceRequest) : Prop :=
  ∀ id, call.documentId.uuid = some id → PersistsQuietly surroundings (request id)

/-- The condition for a call that chunks a stored document again. -/
def SettlesStored (call : BoundaryCall) : Prop :=
  surroundings.hasDatabase = true → StrategyAvailable surroundings call ∧ ∀ strategy,
    resolveChunkingStrategy surroundings call = .ok (.ok strategy) →
      SourceAvailable surroundings call ∧ ∀ source,
        loadStoredSource surroundings call.documentId = .ok (.ok source) →
          PersistsUnder surroundings call (storedRequest call strategy source)

/-- The condition behind the normalization of a source. -/
def SettlesNormalized (call : BoundaryCall) (request : NormalizedIngestionRequest) : Prop :=
  StrategyAvailable surroundings call ∧ ∀ strategy,
    resolveChunkingStrategy surroundings call = .ok (.ok strategy) →
      SourceLogged surroundings call request ∧ (surroundings.hasDatabase = true →
        PersistsUnder surroundings call (receivedRequest call strategy request))

/-- The condition for a call that receives a source: its text has an encoding, and what follows the
normalization raises nothing without a handler. -/
def SettlesReceived (call : BoundaryCall) : Prop :=
  (Readable surroundings.toNormalizerSurroundings call.rawText call.transferredFile ∧
    ∀ content metadata passed,
      readSource surroundings.toNormalizerSurroundings {} call.rawText call.transferredFile =
        .ok (.ok (content, metadata)) →
      filterSource {} content metadata = .ok (.ok passed) →
        Nameable call.documentId metadata) ∧
  ∀ request, normalizeSource surroundings.toNormalizerSurroundings {} call.rawText
    call.transferredFile call.documentId = .ok (.ok request) →
      SettlesNormalized surroundings call request

/-- The condition under which a call leaves a terminal status. -/
def SettlesCall (call : BoundaryCall) : Prop :=
  if call.command = lit "document_chunk" then SettlesStored surroundings call
  else SettlesReceived surroundings call

/-! ### Steps -/

omit surroundings in
/-- A sequence raises only certain exceptions when both of its steps do. -/
theorem raisesOnly_bind {α β : Type} {allowed : Raised → Prop} {first : Except Raised α}
    {next : α → Except Raised β} : RaisesOnly allowed (first >>= next) ↔
      RaisesOnly allowed first ∧ ∀ value, first = .ok value → RaisesOnly allowed (next value) := by
  cases first with
  | error raised => simp [RaisesOnly, bind, Except.bind]
  | ok value => simp [RaisesOnly, bind, Except.bind]

omit surroundings in
theorem raisesOnly_ok {α : Type} {allowed : Raised → Prop} {value : α} :
    RaisesOnly allowed (.ok value) := fun _ herror ↦ by cases herror

omit surroundings in
theorem raisesOnly_error {α : Type} {allowed : Raised → Prop} {raised : Raised} :
    RaisesOnly allowed (.error raised : Except Raised α) ↔ allowed raised := by
  simp [RaisesOnly]

omit surroundings in
/-- The handlers of the boundary take the exceptions that they name. -/
theorem respond_persistenceHandlers_isSome_iff {raised : Raised} :
    (respond Raised.isInstance persistenceHandlers raised).isSome = true ↔ raised.Handled := by
  rw [Option.isSome_iff_ne_none, ne_eq, respond_eq_none_iff]
  simp only [persistenceHandlers, List.mem_cons, List.not_mem_nil, or_false, forall_eq_or_imp,
    forall_eq, Raised.Handled, ← Bool.not_eq_true]
  tauto

omit surroundings in
theorem handled_publicationRolledBack (record : FailureRecord) :
    (publicationRolledBack record).Handled :=
  .inr (.inl (by simp [publicationRolledBack, Raised.isInstance]))

omit surroundings in
theorem handled_uuidOf (text : SourceText) : RaisesOnly Raised.Handled (uuidOf text) := by
  intro raised herror
  rw [uuidOf] at herror
  split at herror
  next => cases herror
  next =>
    obtain rfl := Except.error.inj herror
    exact .inr (.inr (.inr (.inr (by simp [valueErrorOf, Raised.isInstance]))))

omit surroundings in
/-- An outcome becomes references or an exception that has a handler. -/
theorem handled_references (outcome : PublicationOutcome) :
    RaisesOnly Raised.Handled outcome.references := by
  cases outcome with
  | committed references => exact raisesOnly_ok
  | idempotentReplay references => exact raisesOnly_ok
  | integrityRefused controlledError =>
    exact raisesOnly_error.mpr (handled_publicationRolledBack _)
  | rolledBack stage errorType message =>
    exact raisesOnly_error.mpr (handled_publicationRolledBack _)

omit surroundings in
/-- What is raised during a publication leaves it with a handler exactly when it is contained. -/
theorem handled_publicationRaised_iff {stage : Text} {raised : Raised} :
    RaisesOnly Raised.Handled (publicationRaised stage raised) ↔ raised.Contained := by
  rw [publicationRaised]
  cases hrespond : respond Raised.isInstance (publicationHandlers stage) raised with
  | none =>
    have hpasses := respond_eq_none_iff _ |>.mp hrespond
    have hrefused : raised.isInstance .integrityRefused = false :=
      hpasses _ (List.mem_cons_self ..) _ (List.mem_cons_self ..)
    have hexception : raised.isInstance .exception = false :=
      hpasses _ (List.mem_cons_of_mem _ (List.mem_cons_self ..)) _ (List.mem_cons_self ..)
    simp [raisesOnly_error, Raised.Contained, hrefused, hexception]
  | some outcome =>
    refine iff_of_true raisesOnly_ok ?_
    by_contra hescapes
    simp only [Raised.Contained, not_or, Bool.not_eq_true] at hescapes
    have hnone : respond Raised.isInstance (publicationHandlers stage) raised = none := by
      rw [respond_eq_none_iff]
      simp [publicationHandlers, hescapes.1, hescapes.2.1]
    cases hrespond.symm.trans hnone

/-- What leaves `_persist_source` has a handler exactly when each step that is reached is quiet. -/
theorem handled_persistNormalized_iff {request : PersistenceRequest} :
    RaisesOnly Raised.Handled (persistNormalized surroundings request) ↔
      PersistsQuietly surroundings request := by
  have hpublish : ∀ aggregate bound paragraphChunks sentenceChunks,
      surroundings.mapAggregate request aggregate = .ok bound →
      (RaisesOnly Raised.Handled (surroundings.publishDocument request aggregate bound
          paragraphChunks sentenceChunks >>= PublicationOutcome.references) ↔
        RaisesOnly Raised.Contained (surroundings.findCommittedVersion aggregate bound) ∧
          (surroundings.findCommittedVersion aggregate bound = .ok none →
            RaisesOnly Raised.Contained
              (surroundings.publishTransaction bound paragraphChunks sentenceChunks))) := by
    intro aggregate bound paragraphChunks sentenceChunks hmap
    rw [raisesOnly_bind, and_iff_left fun outcome _ ↦ handled_references outcome,
      IngestionSurroundings.publishDocument]
    cases hfound : surroundings.findCommittedVersion aggregate bound with
    | error raised => simp [handled_publicationRaised_iff, raisesOnly_error]
    | ok found =>
      cases found with
      | some existing => simp [raisesOnly_ok]
      | none =>
        simp only [hmap, raisesOnly_ok, true_and, true_imp_iff]
        cases surroundings.publishTransaction bound paragraphChunks sentenceChunks with
        | error raised => simp only [handled_publicationRaised_iff, raisesOnly_error]
        | ok references => simp only [raisesOnly_ok]
  rw [persistNormalized, PersistsQuietly, raisesOnly_bind, Unique.forall_iff]
  refine and_congr_right fun _ ↦ imp_congr_right fun _ ↦ ?_
  rw [raisesOnly_bind]
  refine and_congr_right fun _ ↦ forall₂_congr fun paragraphChunks _ ↦ ?_
  rw [raisesOnly_bind]
  refine and_congr_right fun _ ↦ forall₂_congr fun sentenceChunks _ ↦ ?_
  rw [raisesOnly_bind]
  refine and_congr_right fun _ ↦ forall₂_congr fun aggregate _ ↦ ?_
  rw [raisesOnly_bind]
  exact and_congr_right fun _ ↦ forall₂_congr fun bound hmap ↦
    hpublish aggregate bound paragraphChunks sentenceChunks hmap

theorem handled_persistUnder_iff {call : BoundaryCall} {request : Uuid → PersistenceRequest} :
    RaisesOnly Raised.Handled (persistUnder surroundings call request) ↔
      PersistsUnder surroundings call request := by
  rw [persistUnder, raisesOnly_bind, and_iff_right (handled_uuidOf _), PersistsUnder]
  refine forall_congr' fun id ↦ ?_
  rw [handled_persistNormalized_iff, uuidOf]
  cases call.documentId.uuid with
  | none => simp
  | some found => simp

theorem resolveChunkingStrategy_returns_iff {call : BoundaryCall} :
    (∃ outcome, resolveChunkingStrategy surroundings call = .ok outcome) ↔
      StrategyAvailable surroundings call := by
  rw [resolveChunkingStrategy, StrategyAvailable]
  cases call.chunkingStrategy with
  | some requested =>
    simp only
    cases hfind : chunkingStrategies.find? fun strategy ↦ requested = sourceText strategy with
    | none => simpa using hfind
    | some strategy =>
      exact iff_of_true ⟨_, rfl⟩
        ⟨strategy, List.mem_of_find?_eq_some hfind, by simpa using List.find?_some hfind⟩
  | none =>
    simp only
    by_cases hcreate : call.command = lit "document_create"
    · simp [hcreate]
    · rw [if_neg hcreate, exists_map_eq_ok, storedChunkingStrategy]
      cases surroundings.hasDatabase with
      | false => simp
      | true =>
        cases hconnect : surroundings.connectForStrategy with
        | error raised => simp [hcreate, bind, Except.bind]
        | ok connected =>
          rw [uuidOf]
          cases call.documentId.uuid with
          | none => simp [hcreate, bind, Except.bind]
          | some id =>
            cases hselect : surroundings.selectStrategy id with
            | error raised => simp [hcreate, hselect, bind, Except.bind]
            | ok stored => simp [hcreate, hselect, bind, Except.bind, pure, Except.pure]

theorem loadStoredSource_returns_iff {call : BoundaryCall} :
    (∃ outcome, loadStoredSource surroundings call.documentId = .ok outcome) ↔
      SourceAvailable surroundings call := by
  rw [loadStoredSource, SourceAvailable]
  cases surroundings.connectForSource with
  | error raised => simp [bind, Except.bind]
  | ok connected =>
    rw [uuidOf]
    cases call.documentId.uuid with
    | none => simp [bind, Except.bind]
    | some id =>
      cases hselect : surroundings.selectDocument id with
      | error raised => simp [hselect, bind, Except.bind]
      | ok document =>
        cases document with
        | none => simp [hselect, bind, Except.bind, pure, Except.pure]
        | some document =>
          cases htexts : surroundings.selectTexts id with
          | error raised => simp [hselect, htexts, bind, Except.bind]
          | ok texts => simp [hselect, htexts, bind, Except.bind, pure, Except.pure]

theorem appendEvent_returns_iff {event : LogEvent} :
    (∃ outcome, appendEvent surroundings event = .ok outcome) ↔
      LogsQuietly surroundings event := by
  rw [appendEvent, LogsQuietly]
  cases surroundings.append event with
  | ok connected => simp [raisesOnly_ok]
  | error raised =>
    by_cases hos : raised.isInstance .osError
    · simp [raisesOnly_error, hos]
    · simp [raisesOnly_error, hos]

theorem logProcessedSource_returns_iff {call : BoundaryCall}
    {request : NormalizedIngestionRequest} :
    (∃ outcome, logProcessedSource surroundings call request = .ok outcome) ↔
      SourceLogged surroundings call request := by
  rw [logProcessedSource, SourceLogged, ← appendEvent_returns_iff]
  cases appendEvent surroundings (processedTextEvent surroundings call request) with
  | error raised => simp [bind, Except.bind]
  | ok written =>
    rw [ok_bind, and_iff_right ⟨written, rfl⟩]
    by_cases hfile : logsFile call request.sourceMetadata = true
    · rw [if_pos hfile, imp_iff_right hfile]
      cases processedFileEvent call request.sourceMetadata with
      | error raised => simp [bind, Except.bind]
      | ok event => simp [ok_bind, appendEvent_returns_iff]
    · rw [if_neg hfile]
      exact iff_of_true ⟨(), rfl⟩ fun htrue ↦ absurd htrue hfile

/-! ### The end of a call -/

/-- A call that records a failure has settled its operation, whatever the log does. -/
theorem endsIn_recordFailed (call : BoundaryCall) (failure : FailureRecord)
    (status : InMemoryRuntimeStatus) :
    Routine.EndsIn (Terminal call.operationId) (recordFailed surroundings call failure) status :=
  Routine.endsIn_update_outcome (terminal_record_iff.mpr rfl)

/-- Behind the `try`, an operation that is not over is settled when what is raised has a handler. -/
theorem endsIn_concludeCall_iff {call : BoundaryCall}
    {persisted : Except Raised VersionReferences} {status : VersionReferences → RuntimeStatus}
    {reply : VersionReferences → IngestionReply} {before : InMemoryRuntimeStatus}
    (hterminal : ∀ references, (status references).isTerminal = true)
    (hbefore : ¬Terminal call.operationId before) :
    Routine.EndsIn (Terminal call.operationId)
        (concludeCall surroundings call persisted status reply) before ↔
      RaisesOnly Raised.Handled persisted := by
  cases persisted with
  | ok references =>
    refine iff_of_true ?_ raisesOnly_ok
    exact Routine.endsIn_update_bind.mpr
      (Routine.endsIn_pure.mpr (terminal_record_iff.mpr (hterminal references)))
  | error raised =>
    rw [raisesOnly_error, ← respond_persistenceHandlers_isSome_iff, concludeCall]
    cases respond Raised.isInstance persistenceHandlers raised with
    | none => simpa using hbefore
    | some failure => exact iff_of_true (endsIn_recordFailed surroundings call failure before) rfl

/-- An operation that runs is not over. -/
theorem not_terminal_running (call : BoundaryCall) (progress : ℕ) (action : Text)
    (status : InMemoryRuntimeStatus) :
    ¬Terminal call.operationId
      (status.record call.operationId (runningRecord call progress action)) := by
  simp [terminal_record_iff, runningRecord, RuntimeStatus.isTerminal]

omit surroundings in
/-- A step that returns a value or a failure, which is recorded: the call ends with a terminal status
when the step raises nothing and the call does so behind every value. -/
theorem endsIn_rejected_iff {φ α : Type} {call : BoundaryCall}
    {result : Except Raised (Except φ α)} {next : Except φ α → BoundaryStep IngestionReply} {before : InMemoryRuntimeStatus}
    (hbefore : ¬Terminal call.operationId before)
    (hrejected : ∀ failure,
      Routine.EndsIn (Terminal call.operationId) (next (.error failure)) before) :
    Routine.EndsIn (Terminal call.operationId) (Routine.outcome result >>= next) before ↔
      (∃ outcome, result = .ok outcome) ∧ ∀ value, result = .ok (.ok value) →
        Routine.EndsIn (Terminal call.operationId) (next (.ok value)) before := by
  rw [Routine.endsIn_outcome_bind hbefore]
  rcases result with raised | failure | value
  · simp
  · simp [hrejected]
  · simp

theorem endsIn_rechunkStored_iff {call : BoundaryCall} {before : InMemoryRuntimeStatus}
    (hbefore : ¬Terminal call.operationId before) :
    Routine.EndsIn (Terminal call.operationId) (rechunkStored surroundings call) before ↔
      SettlesStored surroundings call := by
  rw [rechunkStored, SettlesStored]
  by_cases hdatabase : surroundings.hasDatabase = true
  · rw [if_pos hdatabase, imp_iff_right hdatabase,
      endsIn_rejected_iff hbefore fun failure ↦ endsIn_recordFailed surroundings call failure before,
      resolveChunkingStrategy_returns_iff]
    refine and_congr_right fun _ ↦ forall₂_congr fun strategy _ ↦ ?_
    rw [endsIn_rejected_iff hbefore fun failure ↦ endsIn_recordFailed surroundings call failure before,
      loadStoredSource_returns_iff]
    refine and_congr_right fun _ ↦ forall₂_congr fun source _ ↦ ?_
    rw [endsIn_concludeCall_iff surroundings (fun _ ↦ rfl) hbefore, handled_persistUnder_iff]
  · rw [if_neg hdatabase]
    exact iff_of_true (endsIn_recordFailed surroundings call _ before) fun htrue ↦
      absurd htrue hdatabase

theorem endsIn_ingestNormalized_iff {call : BoundaryCall} {request : NormalizedIngestionRequest}
    {before : InMemoryRuntimeStatus} (hbefore : ¬Terminal call.operationId before) :
    Routine.EndsIn (Terminal call.operationId) (ingestNormalized surroundings call request)
        before ↔ SettlesNormalized surroundings call request := by
  rw [ingestNormalized, SettlesNormalized,
    endsIn_rejected_iff hbefore fun failure ↦ endsIn_recordFailed surroundings call failure before,
    resolveChunkingStrategy_returns_iff]
  refine and_congr_right fun _ ↦ forall₂_congr fun strategy _ ↦ ?_
  rw [Routine.endsIn_outcome_bind hbefore, exists_and_right, logProcessedSource_returns_iff]
  refine and_congr_right fun _ ↦ ?_
  by_cases hdatabase : surroundings.hasDatabase = true
  · rw [if_pos hdatabase, imp_iff_right hdatabase, Routine.endsIn_update_bind,
      endsIn_concludeCall_iff surroundings _ (not_terminal_running call _ _ _),
      handled_persistUnder_iff]
    intro references
    cases references.idempotent <;> rfl
  · rw [if_neg hdatabase]
    exact iff_of_true (endsIn_recordFailed surroundings call _ before) fun htrue ↦
      absurd htrue hdatabase

/-- **When a call leaves a terminal status.** The last record of the operation is terminal, whether
the call returns or raises, exactly when nothing without a handler is raised on its way. -/
theorem endsTerminal_iff (call : BoundaryCall) (status : InMemoryRuntimeStatus) :
    Routine.EndsIn (Terminal call.operationId) (ingest surroundings call) status ↔
      SettlesCall surroundings call := by
  rw [ingest, Routine.endsIn_update_bind, SettlesCall]
  have hbefore := not_terminal_running call 10 (lit "normalizing_source") status
  by_cases hrechunk : call.command = lit "document_chunk"
  · rw [if_pos hrechunk, if_pos hrechunk]
    exact endsIn_rechunkStored_iff surroundings hbefore
  · rw [if_neg hrechunk, if_neg hrechunk, SettlesReceived, ← normalizeSource_returns_iff,
      endsIn_rejected_iff hbefore fun diagnostic ↦ endsIn_recordFailed surroundings call _ _]
    exact and_congr_right fun _ ↦ forall₂_congr fun request _ ↦
      endsIn_ingestNormalized_iff surroundings hbefore

end Calling

/-! ### A call that raises -/

/-- Surroundings in which nothing is raised. -/
def sampleSurroundings : IngestionSurroundings Unit Unit where
  digest _ := []
  uuid5 _ := 5
  guessMediaType _ := none
  transferSession _ := .error (valueErrorOf [])
  isFile _ := .ok false
  readBytes _ := .ok []
  readGzip _ := .ok []
  databaseUrl := some (lit "postgresql://doc-store")
  previewChars := 220
  str _ := []
  append _ := .ok ()
  connectForStrategy := .ok ()
  selectStrategy _ := .ok (some (lit "paragraph"))
  connectForSource := .ok ()
  selectDocument _ := .ok (some { sourceName := none, sourceHash := none, blockMeta := [] })
  selectTexts _ := .ok [lit "One."]
  installedChunker := .ok ()
  chunkParagraphs _ _ := .ok []
  chunkSentences _ _ := .ok []
  canonicalAggregate _ _ _ := .ok ()
  mapAggregate _ _ := .ok ()
  findCommittedVersion _ _ := .ok none
  publishTransaction _ _ _ := .ok { sourceVersion := 1, idempotent := false }

/-- A document is created from a text that is a single surrogate. -/
def surrogateCall : BoundaryCall where
  documentId := sourceText (lit "00000000-0000-4000-8000-000000000001")
  sourceVersionId := sourceText (lit "v1")
  operationId := sourceText (lit "op")
  command := lit "document_create"
  rawText := some [.surrogate 0]
  chunkingStrategy := some (sourceText (lit "paragraph"))

/-- A text that cannot be encoded leaves the operation running. -/
theorem exists_call_left_running : ∃ (call : BoundaryCall) (status : InMemoryRuntimeStatus),
    ¬Routine.EndsIn (Terminal call.operationId) (ingest sampleSurroundings call) status := by
  refine ⟨surrogateCall, {}, ?_⟩
  have hlast : (ingest sampleSurroundings surrogateCall {}).2.lastStatus surrogateCall.operationId =
      some .running := by decide +kernel
  rintro ⟨last, hterminal, hover⟩
  obtain rfl := Option.some.inj (hlast.symm.trans hterminal)
  cases hover

end DocStore
