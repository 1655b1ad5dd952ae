import DocStore.Domain.Embeddings
import DocStore.Domain.Host
import DocStore.Foundation.Batches
import DocStore.Foundation.Loop
import Mathlib

/-!
# The vectorizer

`rebuild` selects documents in batches, sends the texts below them to the embedding client, averages
the vectors of a document and of a file from the vectors below, and stores all of them in one
transaction that also takes the flags off the documents of the batch and off their files. The loop
runs in one of three modes: over one document, over all documents behind a cursor, or over the
documents that are flagged, themselves or through their file.

The client is a parameter: what it answers to the texts of a call may depend on how many calls came
before. Components of vectors are rational numbers, and what a vector literal stores is a parameter
too.
-/

set_option autoImplicit false
set_option relaxedAutoImplicit false

namespace DocStore

open Foundation

/-! ### Configuration and client -/

/-- The part of `RuntimeEmbeddingConfig` that says what is stored. -/
structure EmbeddingConfig where
  provider : Text
  model : Text
  modelVersion : Text
  dimension : ℕ
  batchSize : ℤ
  directTextMaxChars : ℤ

/-- An entry of the results of the client. A component is missing when it is not finite, the vector
when it is not a sequence; the tokens may be absent, or not a sequence of strings. -/
structure EmbedItem where
  error : Option String := none
  vector : Option (List (Option ℚ))
  bm25Tokens : Option (Option (List Text)) := none

/-- The mapping that the client returns. -/
structure EmbedResponse where
  model : Option Text := none
  dimension : Option ℤ := none
  results : Option (List EmbedItem)

/-- `embed`, after a number of earlier calls. The failure is the text of an exception. -/
abbrev EmbedClient := ℕ → List Text → Except String EmbedResponse

/-- The surroundings of the vectorizer. -/
structure VectorizationService (ν : Type) where
  config : EmbeddingConfig
  client : EmbedClient
  /-- What the literal of a vector stores. -/
  literal : Vector → ν
  /-- The time of the transaction that follows a number of processed documents. -/
  now : ℕ → Instant

/-! ### Tables -/

/-- A row of `semantic_chunk_tokens` of the kind `bm25_tokens`. -/
structure Bm25Token where
  chunkUuid : Uuid
  chunkVersionId : Option Uuid
  ordinal : ℕ
  tokenValue : Text

/-- The tables with the times of the documents and the tokens. -/
structure VectorizationDb (ν : Type) extends VectorDb ν where
  documentCreatedAt : Uuid → Instant
  documentUpdatedAt : Uuid → Option Instant
  bm25Tokens : List Bm25Token := []

/-- `ChunkVectorInput`. -/
structure ChunkVectorInput where
  entityType : VectorEntity
  entityId : Uuid
  documentId : Uuid
  body : Text
  chunkVersionId : Option Uuid := none

/-- `ChunkVectorRecord`. -/
structure ChunkVectorRecord where
  entityType : VectorEntity
  entityId : Uuid
  vector : Vector
  bm25Tokens : Option (List Text) := none
  documentId : Option Uuid := none
  chunkVersionId : Option Uuid := none

variable {ν : Type}

/-! ### Selecting documents -/

namespace VectorizationDb

variable (store : VectorizationDb ν)

/-- `d.needs_revectorize IS TRUE OR f.needs_revectorize IS TRUE`. -/
def needsRevectorize (row : DocumentRow) : Bool :=
  store.documentsToRevectorize.contains row.id || row.ownerId.any fun fileId ↦
    store.files.any (fun file ↦ file.id = fileId) && store.filesToRevectorize.contains fileId

/-- `d.updated_at ASC NULLS FIRST, d.created_at ASC, d.id ASC`. -/
def documentRank (documentId : Uuid) : Lex (WithBot Instant × Lex (Instant × ℕ)) :=
  toLex (store.documentUpdatedAt documentId,
    toLex (store.documentCreatedAt documentId, documentId.toNat))

/-- The `ORDER BY` of the flagged documents. -/
def rankBefore (first second : Uuid) : Prop := store.documentRank first ≤ store.documentRank second

instance (first second : Uuid) : Decidable (store.rankBefore first second) :=
  inferInstanceAs (Decidable (_ ≤ _))

end VectorizationDb

/-- `d.id ASC`. -/
def idBefore (first second : Uuid) : Prop := first.toNat ≤ second.toNat

instance (first second : Uuid) : Decidable (idBefore first second) :=
  inferInstanceAs (Decidable (_ ≤ _))

/-- The condition of `_select_documents`. -/
def documentSelected (documentId : Option Uuid) (allDocuments : Bool)
    (afterDocumentId : Option Uuid) (store : VectorizationDb ν) (row : DocumentRow) : Bool :=
  row.deletedAt.isNone &&
    match documentId, afterDocumentId with
    | some wanted, _ => row.id = wanted
    | none, some after => after.toNat < row.id.toNat
    | none, none => allDocuments || store.needsRevectorize row

/-- The documents that `_select_documents` finds, in order. -/
def documentsInOrder (documentId : Option Uuid) (allDocuments : Bool)
    (afterDocumentId : Option Uuid) (store : VectorizationDb ν) : List Uuid :=
  let found := (store.documents.filter
    (documentSelected documentId allDocuments afterDocumentId store)).map fun row ↦ row.id
  if allDocuments then found.insertionSort idBefore else found.insertionSort store.rankBefore

/-- `_select_documents`. -/
def selectDocuments (documentId : Option Uuid) (allDocuments : Bool) (documentLimit : ℤ)
    (afterDocumentId : Option Uuid) (store : VectorizationDb ν) : Except String (List Uuid) := do
  raiseIf (documentLimit ≤ 0) "document_limit must be positive"
  return (documentsInOrder documentId allDocuments afterDocumentId store).take documentLimit.toNat

/-! ### Selecting texts -/

/-- `btrim(text) = ''`. -/
def isBlank (text : Text) : Bool := text.all fun character ↦ character = ' '

/-- `ORDER BY order_index ASC, id ASC`. -/
def paragraphBefore (first second : ParagraphRow) : Prop :=
  first.orderIndex < second.orderIndex ∨
    first.orderIndex = second.orderIndex ∧ first.id.toNat ≤ second.id.toNat

instance (first second : ParagraphRow) : Decidable (paragraphBefore first second) :=
  inferInstanceAs (Decidable (_ ∨ _))

/-- The paragraphs of a document that have no deletion time, in order. -/
def paragraphsInOrder (db : Db) (documentId : Uuid) : List ParagraphRow :=
  (db.paragraphs.filter fun row ↦
    row.documentId = documentId && row.deletedAt.isNone).insertionSort paragraphBefore

/-- `ORDER BY order_index ASC, id ASC`. -/
def vectorChunkBefore (first second : SemanticChunkRow) : Prop :=
  first.orderIndex < second.orderIndex ∨
    first.orderIndex = second.orderIndex ∧ first.id.toNat ≤ second.id.toNat

instance (first second : SemanticChunkRow) : Decidable (vectorChunkBefore first second) :=
  inferInstanceAs (Decidable (_ ∨ _))

/-- The paragraphs of a document whose text is not blank. -/
def paragraphInputs (db : Db) (documentId : Uuid) : List ChunkVectorInput :=
  ((paragraphsInOrder db documentId).filter fun row ↦ !isBlank row.text).map fun row ↦
    { entityType := .paragraph, entityId := row.id, documentId, body := row.text }

/-- The chunks of a document that have a text, with their current version. -/
def chunkInputs (db : Db) (documentId : Uuid) : List ChunkVectorInput :=
  ((db.semanticChunks.filter fun row ↦
    row.documentId = documentId && row.deletedAt.isNone).insertionSort vectorChunkBefore).filterMap
      fun row ↦ (lookup SemanticChunkText.chunkUuid row.id db.semanticChunkTexts).map fun text ↦
        { entityType := .semanticChunk, entityId := row.id, documentId, body := text.text
          chunkVersionId := (lookup SemanticChunkCurrent.chunkUuid row.id
            db.semanticChunkCurrent).map fun current ↦ current.versionId }

/-- `string_agg(p.text, E'\n\n')`, when there is a text and it is short enough and not blank. -/
def directText (directMax : ℤ) (texts : List Text) : Option Text :=
  let joined := joinTexts (lit "\n\n") texts
  if texts ≠ [] ∧ (texts.map List.length).sum ≤ directMax ∧ isBlank joined = false then some joined
  else none

/-- The texts of the paragraphs of a document, in order. -/
def paragraphBodies (db : Db) (documentId : Uuid) : List Text :=
  (paragraphsInOrder db documentId).map fun row ↦ row.text

/-- The documents among some that have no deletion time. -/
def liveDocuments (db : Db) (documentIds : List Uuid) : List DocumentRow :=
  db.documents.filter fun row ↦ row.deletedAt.isNone && documentIds.contains row.id

/-- The documents that are embedded as a whole. -/
def documentInputs (directMax : ℤ) (db : Db) (documentIds : List Uuid) : List ChunkVectorInput :=
  (liveDocuments db documentIds).filterMap fun row ↦
    (directText directMax (paragraphBodies db row.id)).map fun body ↦
      { entityType := .document, entityId := row.id, documentId := row.id, body }

/-- `d.created_at ASC, d.id ASC`. -/
def createdBefore (store : VectorizationDb ν) (first second : Uuid) : Prop :=
  store.documentCreatedAt first < store.documentCreatedAt second ∨
    store.documentCreatedAt first = store.documentCreatedAt second ∧ idBefore first second

instance (store : VectorizationDb ν) (first second : Uuid) :
    Decidable (createdBefore store first second) :=
  inferInstanceAs (Decidable (_ ∨ _))

/-- The documents of a file among some, in order, that have a paragraph. -/
def fileGroup (store : VectorizationDb ν) (documentIds : List Uuid) (fileId : Uuid) : List Uuid :=
  (((liveDocuments store.toDb documentIds).filter fun row ↦
    row.ownerId = some fileId && !(paragraphsInOrder store.toDb row.id).isEmpty).map
      fun row ↦ row.id).insertionSort (createdBefore store)

/-- The files that are embedded as a whole: the text of a file is that of its documents among some.
The document of an input is the one with the least UUID. -/
def fileInputs (directMax : ℤ) (store : VectorizationDb ν) (documentIds : List Uuid) :
    List ChunkVectorInput :=
  (store.files.filter fun row ↦ row.deletedAt.isNone).filterMap fun row ↦
    let group := fileGroup store documentIds row.id
    (directText directMax (group.flatMap (paragraphBodies store.toDb))).map fun body ↦
      { entityType := .file, entityId := row.id
        documentId := (group.insertionSort idBefore).headD row.id, body }

/-- `_select_vector_inputs`. -/
def selectVectorInputs (config : EmbeddingConfig) (documentIds : List Uuid)
    (store : VectorizationDb ν) : List ChunkVectorInput :=
  let ordered := documentIds.insertionSort idBefore
  let direct := 0 < config.directTextMaxChars
  ordered.flatMap (paragraphInputs store.toDb) ++ ordered.flatMap (chunkInputs store.toDb) ++
    (if direct then documentInputs config.directTextMaxChars store.toDb documentIds else []) ++
    if direct then fileInputs config.directTextMaxChars store documentIds else []

/-! ### Embedding -/

/-- `_vector`. -/
def vectorOf (dimension index : ℕ) (raw : Option (List (Option ℚ))) : Except String Vector := do
  match raw with
  | none => throw s!"embedding response vector {index} is not a sequence"
  | some components =>
    raiseIf (components.length ≠ dimension) s!"embedding response vector {index} dimension mismatch"
    raiseIf (components.any Option.isNone)
      s!"embedding response vector {index} contains a non-finite value"
    return components.filterMap id

/-- The vector of one entry of the results. -/
def itemVector (dimension : ℕ) (entry : EmbedItem × ℕ) : Except String Vector :=
  match entry.1.error with
  | some error => .error s!"embedding response item {entry.2} failed: {error}"
  | none => vectorOf dimension entry.2 entry.1.vector

/-- `_extract_vectors`. -/
def extractVectors (config : EmbeddingConfig) (expectedCount : ℕ) (response : EmbedResponse) :
    Except String (List Vector) := do
  raiseIf (response.model.any fun model ↦ model ≠ config.model)
    "embedding response model does not match configuration"
  raiseIf (response.dimension.any fun dimension : ℤ ↦ dimension ≠ config.dimension)
    "embedding response dimension does not match configuration"
  match response.results with
  | none => throw "embedding response must contain a results sequence"
  | some results =>
    raiseIf (results.length ≠ expectedCount)
      "embedding response count does not match input count"
    results.zipIdx.mapM (itemVector config.dimension)

/-- `_bm25_tokens`: at most 256 tokens, with white space normalised. -/
def bm25Tokens (entry : EmbedItem × ℕ) : Except String (Option (List Text)) :=
  match entry.1.bm25Tokens with
  | none => .ok none
  | some none => .error s!"embedding response bm25_tokens {entry.2} is not a sequence"
  | some (some tokens) => .ok (some (((tokens.map fun token ↦
      joinTexts (lit " ") (splitWords token)).filter fun token ↦ !token.isEmpty).take 256))

/-- `_extract_bm25_token_groups`. -/
def extractBm25TokenGroups (response : EmbedResponse) : Except String (List (Option (List Text))) :=
  (response.results.getD []).zipIdx.mapM bm25Tokens

/-- One call of the client. -/
def embedBatch (config : EmbeddingConfig) (client : EmbedClient) (calls : ℕ)
    (batch : List ChunkVectorInput) : Except String (List ChunkVectorRecord) := do
  let response ← (client calls (batch.map ChunkVectorInput.body)).mapError
    fun exception ↦ s!"embedding client failed: {exception}"
  let vectors ← extractVectors config batch.length response
  let tokens ← extractBm25TokenGroups response
  return (batch.zip (vectors.zip tokens)).map fun (item, vector, tokens) ↦
    { entityType := item.entityType, entityId := item.entityId, vector
      bm25Tokens := if item.entityType = .semanticChunk then tokens else none
      documentId := some item.documentId, chunkVersionId := item.chunkVersionId }

/-- The calls that a list of inputs takes. -/
def EmbeddingConfig.callsFor (config : EmbeddingConfig) (inputs : List ChunkVectorInput) :
    List (List ChunkVectorInput) :=
  batches config.batchSize.toNat inputs

/-- `_embed_chunks`. -/
def embedChunks (config : EmbeddingConfig) (client : EmbedClient) (calls : ℕ)
    (inputs : List ChunkVectorInput) : Except String (List ChunkVectorRecord) := do
  raiseIf (config.batchSize ≤ 0) "embedding batch_size must be positive"
  let records ← (config.callsFor inputs).zipIdx.mapM fun entry ↦
    embedBatch config client (calls + entry.2) entry.1
  return records.flatten

/-! ### Averages -/

/-- `_mean_vector`. -/
def meanVector (vectors : List Vector) : Except String Vector :=
  match vectors with
  | [] => .error "cannot average an empty vector set"
  | first :: rest =>
    if first.length = 0 then .error "cannot average empty vectors"
    else if rest.any fun vector ↦ vector.length ≠ first.length then
      .error "cannot average vectors with different dimensions"
    else .ok ((List.range first.length).map fun index ↦
      ((first :: rest).map fun vector ↦ vector.getD index 0).sum / (first :: rest).length)

/-- The entities of a type among some records. -/
def recordedIds (entityType : VectorEntity) (records : List ChunkVectorRecord) : List Uuid :=
  (records.filter fun record ↦ record.entityType = entityType).map ChunkVectorRecord.entityId

/-- The vectors of the records of a type under the documents that have no vector of their own. -/
def vectorsByDocument (entityType : VectorEntity) (direct : List Uuid)
    (records : List ChunkVectorRecord) : List (Uuid × List Vector) :=
  grouped ((records.filter fun record ↦ record.entityType = entityType).filterMap fun record ↦
    (record.documentId.filter fun documentId ↦ !direct.contains documentId).map fun documentId ↦
      (documentId, record.vector))

/-- `by_document`: the vectors of paragraphs, or those of chunks when there is no paragraph at
all. -/
def byDocument (records : List ChunkVectorRecord) : List (Uuid × List Vector) :=
  let direct := recordedIds .document records
  let paragraphs := vectorsByDocument .paragraph direct records
  if paragraphs.isEmpty then vectorsByDocument .semanticChunk direct records else paragraphs

/-- The records of the means of some groups. -/
def meanRecords (entityType : VectorEntity) (groups : List (Uuid × List Vector)) :
    Except String (List ChunkVectorRecord) :=
  groups.mapM fun group ↦ do
    let vector ← meanVector group.2
    return { entityType, entityId := group.1, vector }

/-- `document_vectors`: the last record of a document. -/
def documentVector (records : List ChunkVectorRecord) (documentId : Uuid) : Option Vector :=
  (records.reverse.find? fun record ↦
    record.entityType = .document && record.entityId = documentId).map ChunkVectorRecord.vector

/-- `by_file`: the vectors of the documents under the files that have no vector of their own. -/
def byFile (db : Db) (documentIds : List Uuid) (records : List ChunkVectorRecord)
    (direct : List Uuid) : List (Uuid × List Vector) :=
  grouped ((db.documents.filter fun row ↦ documentIds.contains row.id).filterMap fun row ↦ do
    let fileId ← row.ownerId
    let vector ← documentVector records row.id
    if direct.contains fileId then none else some (fileId, vector))

/-- `_aggregate_document_file_vectors`. -/
def aggregateDocumentFileVectors (db : Db) (documentIds : List Uuid)
    (records : List ChunkVectorRecord) : Except String (List ChunkVectorRecord) := do
  let documentRecords ← meanRecords .document (byDocument records)
  let fileRecords ← meanRecords .file
    (byFile db documentIds (documentRecords ++ records) (recordedIds .file records))
  return documentRecords ++ fileRecords

/-! ### Storing -/

/-- The row that a record is stored as. -/
def embeddingRow (service : VectorizationService ν) (record : ChunkVectorRecord) :
    EmbeddingRow ν where
  entityType := record.entityType
  entityId := record.entityId
  chunkUuid := if record.entityType = .semanticChunk then some record.entityId else none
  chunkVersionId := if record.entityType = .semanticChunk then record.chunkVersionId else none
  vector := service.literal record.vector
  model := service.config.model
  dimension := service.config.dimension
  provider := service.config.provider
  modelVersion := service.config.modelVersion

/-- The columns of `uq_semantic_chunk_embeddings_entity_version`. -/
def EmbeddingRow.version (row : EmbeddingRow ν) :
    (VectorEntity × Uuid) × Text × Text × Text × ℕ :=
  (row.entity, row.model, row.provider, row.modelVersion, row.dimension)

/-- The rows of an entity, a model and a dimension. -/
def embeddingOf (config : EmbeddingConfig) (entity : VectorEntity × Uuid) (row : EmbeddingRow ν) :
    Bool :=
  row.entity = entity && row.model = config.model && row.dimension = config.dimension

/-- The tokens of a chunk, numbered. -/
def tokenRows (record : ChunkVectorRecord) (tokens : List Text) : List Bm25Token :=
  tokens.zipIdx.map fun entry ↦
    { chunkUuid := record.entityId, chunkVersionId := record.chunkVersionId
      ordinal := entry.2, tokenValue := entry.1 }

/-- Stores one record: the rows of its entity are deactivated, and the row of its version is
rewritten or added. -/
def storeVector (service : VectorizationService ν) (store : VectorizationDb ν)
    (record : ChunkVectorRecord) : VectorizationDb ν :=
  let row := embeddingRow service record
  let embeddings := upsert EmbeddingRow.version row
    (fun old ↦ { old with
      vector := row.vector, chunkVersionId := row.chunkVersionId, active := true })
    (deactivate (embeddingOf service.config (record.entityType, record.entityId)) store.embeddings)
  let written := { store with embeddings }
  if record.entityType ≠ .semanticChunk then written
  else
    match record.bm25Tokens with
    | none => written
    | some tokens =>
      { written with
        bm25Tokens := deleteWhere (fun token ↦ token.chunkUuid = record.entityId)
          written.bm25Tokens ++ tokenRows record tokens }

/-- The owners of some documents. -/
def ownersOf (db : Db) (documentIds : List Uuid) : List Uuid :=
  (db.documents.filter fun row ↦ documentIds.contains row.id).filterMap fun row ↦ row.ownerId

/-- Takes the flags off some documents and off their files. -/
def unflag (now : Instant) (documentIds : List Uuid) (store : VectorizationDb ν) :
    VectorizationDb ν :=
  { store with
    documentsToRevectorize := clearFlag (documentIds.contains ·) store.documentsToRevectorize
    documentUpdatedAt := fun id ↦
      if documentIds.contains id then some now else store.documentUpdatedAt id
    filesToRevectorize := clearFlag ((ownersOf store.toDb documentIds).contains ·)
      store.filesToRevectorize }

/-- `_persist_vectors`. -/
def persistVectors (service : VectorizationService ν) (now : Instant) (documentIds : List Uuid)
    (vectors : List ChunkVectorRecord) (store : VectorizationDb ν) :
    Except String (VectorizationDb ν) := do
  let aggregated ← aggregateDocumentFileVectors store.toDb documentIds vectors
  return unflag now documentIds ((vectors ++ aggregated).foldl (storeVector service) store)

/-! ### The loop -/

/-- The arguments of `rebuild`. -/
structure RebuildCall where
  documentId : Option Uuid := none
  allDocuments : Bool := false
  documentLimit : Option ℤ := none
  documentBatchSize : ℤ := 5
  dryRun : Bool := false

/-- The status of a result. -/
inductive RebuildStatus where
  | ok
  | dryRun
  | embeddingUnavailable
deriving DecidableEq, Repr

/-- `_result`. -/
structure RebuildResult where
  status : RebuildStatus
  documents : List Uuid
  chunks : List ChunkVectorInput
  issue : Option String := none

/-- What the loop carries: the tables, the number of calls of the client, and the variables. -/
structure RebuildState (ν : Type) where
  store : VectorizationDb ν
  calls : ℕ := 0
  processedDocs : List Uuid := []
  processedChunks : List ChunkVectorInput := []
  allDocumentsAfter : Option Uuid := none

/-- The documents of a turn, with the cursor behind them; `none` ends the loop. -/
def nextDocuments (call : RebuildCall) (state : RebuildState ν) :
    Except String (Option (List Uuid × Option Uuid)) :=
  match call.documentId with
  | some documentId =>
    if state.processedDocs ≠ [] then return none
    else do
      let docs ← selectDocuments (some documentId) false 1 none state.store
      return some (docs, state.allDocumentsAfter)
  | none =>
    let remaining := call.documentLimit.map fun limit : ℤ ↦
      limit - state.processedDocs.length
    if remaining.any (· ≤ 0) then return none
    else
      let limit := (remaining.map (min call.documentBatchSize)).getD call.documentBatchSize
      if call.allDocuments then do
        let docs ← selectDocuments none true limit state.allDocumentsAfter state.store
        return if docs.isEmpty then none else some (docs, docs.getLast?)
      else do
        let docs ← selectDocuments none false limit none state.store
        return if docs.isEmpty then none else some (docs, state.allDocumentsAfter)

/-- What the loop ends with: the tables, and a result or the text of an exception. -/
abbrev RebuildEnd (ν : Type) := VectorizationDb ν × Except String RebuildResult

/-- A turn that has found documents. -/
def processDocuments (service : VectorizationService ν) (call : RebuildCall)
    (state : RebuildState ν) (docs : List Uuid) (after : Option Uuid) :
    Turn (RebuildState ν) (RebuildEnd ν) :=
  let chunks := selectVectorInputs service.config docs state.store
  let processed := { state with
    processedDocs := state.processedDocs ++ docs
    processedChunks := state.processedChunks ++ chunks
    allDocumentsAfter := after }
  if call.dryRun then .next processed
  else
    match embedChunks service.config service.client state.calls chunks with
    | .error issue => .stop (state.store, .ok
        { status := .embeddingUnavailable, documents := state.processedDocs
          chunks := state.processedChunks, issue := some issue })
    | .ok vectors =>
      match persistVectors service (service.now state.processedDocs.length) docs vectors
          state.store with
      | .error exception => .stop (state.store, .error exception)
      | .ok store => .next { processed with
          store, calls := state.calls + (service.config.callsFor chunks).length }

/-- A turn of the loop. -/
def rebuildTurn (service : VectorizationService ν) (call : RebuildCall) (state : RebuildState ν) :
    Turn (RebuildState ν) (RebuildEnd ν) :=
  match nextDocuments call state with
  | .error exception => .stop (state.store, .error exception)
  | .ok none => .stop (state.store, .ok
      { status := if call.dryRun then .dryRun else .ok
        documents := state.processedDocs, chunks := state.processedChunks })
  | .ok (some (docs, after)) => processDocuments service call state docs after

/-- `rebuild`: what it ends with, within a number of turns of its loop. -/
def rebuild (service : VectorizationService ν) (call : RebuildCall) (store : VectorizationDb ν)
    (fuel : ℕ) : Option (RebuildEnd ν) :=
  if call.documentBatchSize ≤ 0 then
    some (store, .error "document_batch_size must be positive")
  else loop (rebuildTurn service call) fuel { store }

/-- A vectorizer for runs on fixed inputs: the vector of a text is its length. -/
def sampleVectorizer : VectorizationService Vector where
  config :=
    { provider := lit "embedding-service-vvz", model := lit "model-a", modelVersion := lit "v1"
      dimension := 1, batchSize := 16, directTextMaxChars := 0 }
  client _ texts := .ok { results := some (texts.map fun text ↦
    { vector := some [some (text.length : ℚ)] }) }
  literal vector := vector
  now processed := processed

/-! ### What a turn does -/

variable {service : VectorizationService ν} {call : RebuildCall} {state next : RebuildState ν}

theorem storeVector_toDb (store : VectorizationDb ν) (record : ChunkVectorRecord) :
    storeVector service store record = { store with
      embeddings := (storeVector service store record).embeddings
      bm25Tokens := (storeVector service store record).bm25Tokens } := by
  unfold storeVector
  dsimp only
  split
  · rfl
  · split <;> rfl

/-- Storing records writes embeddings and tokens. -/
theorem foldl_storeVector_toDb (records : List ChunkVectorRecord) (store : VectorizationDb ν) :
    records.foldl (storeVector service) store = { store with
      embeddings := (records.foldl (storeVector service) store).embeddings
      bm25Tokens := (records.foldl (storeVector service) store).bm25Tokens } := by
  induction records generalizing store with
  | nil => rfl
  | cons record records ih =>
    rw [List.foldl_cons, ih (storeVector service store record), storeVector_toDb]

/-- What a turn stores: embeddings, tokens, and the flags taken off. -/
theorem persistVectors_toDb {now : Instant} {docs : List Uuid} {vectors : List ChunkVectorRecord}
    {store written : VectorizationDb ν}
    (hpersist : persistVectors service now docs vectors store = .ok written) :
    written = { unflag now docs store with
      embeddings := written.embeddings, bm25Tokens := written.bm25Tokens } := by
  obtain ⟨aggregated, _, hwritten⟩ := bind_eq_ok.mp hpersist
  cases hwritten
  rw [foldl_storeVector_toDb]
  rfl

/-- What a turn that does not end the loop does. -/
structure TurnEffect (service : VectorizationService ν) (call : RebuildCall)
    (state next : RebuildState ν) (docs : List Uuid) (after : Option Uuid) : Prop where
  selected : nextDocuments call state = .ok (some (docs, after))
  processedDocs : next.processedDocs = state.processedDocs ++ docs
  allDocumentsAfter : next.allDocumentsAfter = after
  dryStore : call.dryRun = true → next.store = state.store
  stored : call.dryRun = false → ∃ vectors,
    embedChunks service.config service.client state.calls
      (selectVectorInputs service.config docs state.store) = .ok vectors ∧
    persistVectors service (service.now state.processedDocs.length) docs vectors state.store =
      .ok next.store

theorem turnEffect_of_next (hturn : rebuildTurn service call state = .next next) :
    ∃ docs after, TurnEffect service call state next docs after := by
  unfold rebuildTurn at hturn
  split at hturn
  · cases hturn
  · cases hturn
  next docs after hselected =>
    refine ⟨docs, after, ?_⟩
    unfold processDocuments at hturn
    dsimp only at hturn
    split at hturn
    next hdry =>
      cases hturn
      exact ⟨hselected, rfl, rfl, fun _ ↦ rfl, fun hnot ↦ by rw [hdry] at hnot; cases hnot⟩
    next hwet =>
      split at hturn
      · cases hturn
      next vectors hvectors =>
        split at hturn
        · cases hturn
        next store hstore =>
          cases hturn
          exact ⟨hselected, rfl, rfl, fun hdry ↦ absurd hdry hwet,
            fun _ ↦ ⟨vectors, hvectors, hstore⟩⟩

/-- A turn whose texts are embedded and whose vectors are stored. -/
theorem rebuildTurn_of_stored (hwet : call.dryRun = false) {docs : List Uuid}
    {after : Option Uuid} (hselected : nextDocuments call state = .ok (some (docs, after)))
    {vectors : List ChunkVectorRecord} (hvectors : embedChunks service.config service.client
      state.calls (selectVectorInputs service.config docs state.store) = .ok vectors)
    {written : VectorizationDb ν}
    (hwritten : persistVectors service (service.now state.processedDocs.length) docs vectors
      state.store = .ok written) :
    rebuildTurn service call state = .next
      { store := written
        calls := state.calls +
          (service.config.callsFor (selectVectorInputs service.config docs state.store)).length
        processedDocs := state.processedDocs ++ docs
        processedChunks := state.processedChunks ++
          selectVectorInputs service.config docs state.store
        allDocumentsAfter := after } := by
  rw [rebuildTurn, hselected]
  simp only [processDocuments, hwet, Bool.false_eq_true, if_false, hvectors, hwritten]

/-- What a transaction leaves flagged. -/
theorem needsRevectorize_unflag {now : Instant} {docs : List Uuid} {store : VectorizationDb ν}
    {row : DocumentRow} : (unflag now docs store).needsRevectorize row = true ↔
      (row.id ∈ store.documentsToRevectorize ∧ row.id ∉ docs) ∨
      ∃ fileId, row.ownerId = some fileId ∧ (∃ file ∈ store.files, file.id = fileId) ∧
        fileId ∈ store.filesToRevectorize ∧ fileId ∉ ownersOf store.toDb docs := by
  simp only [VectorizationDb.needsRevectorize, unflag, Bool.or_eq_true, List.contains_eq_mem,
    decide_eq_true_eq, mem_clearFlag, decide_eq_false_iff_not, Option.any_eq_true,
    Bool.and_eq_true, List.any_eq_true]

theorem needsRevectorize_eq_true {store : VectorizationDb ν} {row : DocumentRow} :
    store.needsRevectorize row = true ↔ row.id ∈ store.documentsToRevectorize ∨
      ∃ fileId, row.ownerId = some fileId ∧ (∃ file ∈ store.files, file.id = fileId) ∧
        fileId ∈ store.filesToRevectorize := by
  simp only [VectorizationDb.needsRevectorize, Bool.or_eq_true, List.contains_eq_mem,
    decide_eq_true_eq, Option.any_eq_true, Bool.and_eq_true, List.any_eq_true]

/-- The documents of a transaction are not flagged after it. -/
theorem not_needsRevectorize_of_mem {now : Instant} {docs : List Uuid}
    {store : VectorizationDb ν} {row : DocumentRow} (hrow : row ∈ store.documents)
    (hdocs : row.id ∈ docs) : (unflag now docs store).needsRevectorize row = false := by
  rw [Bool.eq_false_iff, Ne, needsRevectorize_unflag]
  rintro (⟨_, hnot⟩ | ⟨fileId, howner, _, _, hnot⟩)
  · exact hnot hdocs
  · exact hnot (List.mem_filterMap.mpr
      ⟨row, List.mem_filter.mpr ⟨hrow, by simpa using hdocs⟩, howner⟩)

/-- Nothing is flagged by a transaction. -/
theorem needsRevectorize_of_unflag {now : Instant} {docs : List Uuid}
    {store : VectorizationDb ν} {row : DocumentRow}
    (hflagged : (unflag now docs store).needsRevectorize row = true) :
    store.needsRevectorize row = true := by
  rw [needsRevectorize_eq_true]
  exact (needsRevectorize_unflag.mp hflagged).imp And.left
    fun ⟨fileId, howner, hfile, hmem, _⟩ ↦ ⟨fileId, howner, hfile, hmem⟩

/-- A turn keeps the rows. -/
theorem TurnEffect.tables {docs : List Uuid} {after : Option Uuid}
    (heffect : TurnEffect service call state next docs after) :
    next.store.toDb = state.store.toDb := by
  cases hdry : call.dryRun with
  | true => rw [heffect.dryStore hdry]
  | false =>
    obtain ⟨vectors, _, hpersist⟩ := heffect.stored hdry
    rw [persistVectors_toDb hpersist]
    rfl

/-- Outside a dry run a turn takes the flags off its documents and their files. -/
theorem TurnEffect.flags {docs : List Uuid} {after : Option Uuid}
    (heffect : TurnEffect service call state next docs after) (hwet : call.dryRun = false)
    (row : DocumentRow) : next.store.needsRevectorize row =
      (unflag (service.now state.processedDocs.length) docs state.store).needsRevectorize row := by
  obtain ⟨vectors, _, hpersist⟩ := heffect.stored hwet
  rw [persistVectors_toDb hpersist]
  rfl

end DocStore
