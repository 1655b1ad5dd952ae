import DocStore.Domain.Schema
import DocStore.Ingestion.SentencePlan
import DocStore.Runtime.TextReconstruction

/-!
# Publication

`publish` writes one document version: it deletes the hierarchy that is there, writes the file, the
document, one chapter, the paragraphs and their sentence chunks with texts and first versions, reads
the text back and compares it with the source. On a match the run is recorded and the source state
appended; otherwise the hierarchy is rolled back and only the failed run is kept.

Embeddings, metrics, tokens, tags, the dictionary tables and the evidence about a refused text are
left out; nothing that is read back depends on them. Random UUIDs come with the call.
-/

set_option autoImplicit false
set_option relaxedAutoImplicit false

namespace DocStore

open Foundation

/-! ### The plan -/

/-- `NormalizedRequestContext`. -/
structure NormalizedRequest where
  documentId : Uuid
  sourceVersionId : Text
  normalizedSourceVersionId : Text
  operationId : Uuid
  command : Text
  textValue : Text
  filename : Option Text
  contentSha256 : Text
  chunkingStrategy : Text

/-- `PersistencePlan`. -/
structure PersistencePlan extends NormalizedRequest where
  sourceVersion : ℕ
  sourceName : Option Text
  length : ℕ
  bodySha256 : Text
  fileId : Uuid
  docMeta : Dict

/-- `value or None` of an optional text. -/
def nonempty (value : Option Text) : Option Text := value.filter fun text ↦ !text.isEmpty

/-- `PurePosixPath(filename).name`. -/
def posixName (filename : Text) : Text :=
  ((filename.splitOn '/').filter fun part ↦ !part.isEmpty && part ≠ lit ".").getLastD []

/-- `_source_name`. -/
def sourceName (filename : Option Text) : Option Text :=
  (nonempty filename).map fun name ↦ (posixName name).take 512

/-- `_source_properties` as a dict. -/
def SourceProperties.toDict (properties : SourceProperties) (defaultProject : Option Text) : Dict :=
  [("tags", .arr (properties.tags.map .str))] ++
    ((properties.project.or defaultProject).map fun project ↦ ("project", Json.str project)).toList

section Writing

variable (host : Host)

/-- `_source_version_number`: the first eight hexadecimal digits of the digest, folded. -/
def sourceVersionNumber (sourceVersionId : Text) : ℕ :=
  (host.sha256 sourceVersionId >>> 224).toNat % 2147483646 + 1

/-- `_file_id`. -/
def fileIdOf (documentId : Uuid) (bodySha256 : Text) (filename : Option Text) : Uuid :=
  host.stableUuid4 (lit "doc-store:file:" ++ uuidText documentId ++ lit ":" ++ bodySha256 ++
    lit ":" ++ filename.getD [])

/-- `_doc_meta`. -/
def docMeta (request : NormalizedRequest) (bodySha256 : Text) (fileId : Uuid) : Dict :=
  updateKeys
    [("file_id", .str (uuidText fileId)),
      ("source_version_id", .str request.sourceVersionId),
      ("normalized_source_version_id", .str request.normalizedSourceVersionId),
      ("operation_id", .str (uuidText request.operationId)),
      ("ingestion_command", .str request.command),
      ("chunking_strategy", .str request.chunkingStrategy),
      ("checksum_algorithm", .str (lit "sha256")),
      ("content_sha256", .str request.contentSha256),
      ("source_sha256", .str bodySha256),
      ("file_sha256", .str bodySha256),
      ("body_sha256", .str bodySha256)]
    ((host.sourceProperties request.textValue).toDict (some (lit "doc-store")))

/-- `PublicationMapper.map`. -/
def mapPlan (request : NormalizedRequest) : PersistencePlan :=
  let bodySha256 := host.hexdigest request.textValue
  let fileId := fileIdOf host request.documentId bodySha256 request.filename
  { request with
    sourceVersion := sourceVersionNumber host request.sourceVersionId
    sourceName := sourceName request.filename
    length := request.textValue.length
    bodySha256
    fileId
    docMeta := docMeta host request bodySha256 fileId }

/-! ### Metadata of paragraphs and chunks -/

/-- `str(value)`. -/
def Host.strOf : Json → Text
  | .str text => text
  | value => host.str value

/-- `metadata.get(key)`, with `None` for a null. -/
def getValue (metadata : Dict) (key : String) : Option Json :=
  match getKey metadata key with
  | some .null => none
  | value => value

/-- `_chunk_metadata_features`. -/
def chunkMetadataFeatures (metadata : Dict) : Dict :=
  (["type", "role", "status", "block_type", "language", "category"].filterMap fun key ↦
    ((getValue metadata key).map fun value ↦ strip (host.strOf value)).bind fun text ↦
      if text.isEmpty then none else some (key, Json.str text)) ++
  ["chunking_version", "block_id", "block_index"].filterMap fun key ↦
    (getValue metadata key).map fun value ↦ (key, Json.str (host.strOf value))

/-- `_chunk_features` as a dict. -/
def ChunkFeatures.toDict (features : ChunkFeatures) : Dict :=
  [("category", .str features.category),
    ("tags", .arr (features.tags.map .str)),
    ("tags_flat", .str (joinTexts (lit ", ") features.tags)),
    ("tokens", .arr (features.tokens.map .str)),
    ("bm25_tokens", .arr (features.bm25Tokens.map .str))]

/-- The features of a chunk text, with those of the chunker on top. -/
def chunkFeatureDict (sourceName : Option Text) (chunkingStrategy : Text) (chunk : RuntimeChunk) :
    Dict :=
  updateKeys (host.chunkFeatures chunk.text sourceName chunkingStrategy).toDict
    (chunkMetadataFeatures host chunk.metadata)

/-- `SEMANTIC_CLASSIFIER_DEFAULTS`. -/
def semanticClassifierDefaults : List (String × Text) :=
  [("type", lit "DocBlock"), ("role", lit "system"), ("status", lit "needs_review"),
    ("block_type", lit "paragraph"), ("language", lit "UNKNOWN"),
    ("category", lit "uncategorized")]

/-- `_semantic_classifier_values`. -/
def semanticClassifierValues (features : Dict) : List (String × Text) :=
  semanticClassifierDefaults.map fun (field, default) ↦
    (field, match getKey features field with
      | some (.str candidate) => if (strip candidate).isEmpty then default else strip candidate
      | _ => default)

/-- The checks of `_dictionary_id` on a classifier value. -/
def dictionaryDescr (descr : Text) : Except Failure Text := do
  raiseIf (strip descr).isEmpty (.value "dictionary descr must be a non-empty string")
  raiseIf (100 < (strip descr).length) (.value "dictionary descr must be at most 100 characters")
  return strip descr

/-- The metadata of a paragraph, which its chunks inherit. -/
def paragraphMeta (plan : PersistencePlan) (orderIndex : ℕ) (paragraph : RuntimeChunk) : Dict :=
  [(host.sourceProperties paragraph.text).toDict none,
    chunkFeatureDict host plan.sourceName (lit "paragraph") paragraph,
    [("paragraph_number", .num (orderIndex + 1)), ("chunker", .str (lit "svo"))]].foldl
      updateKeys plan.docMeta

/-- The features of a sentence chunk. -/
def sentenceFeatures (plan : PersistencePlan) (sentence : RuntimeChunk) : Dict :=
  setKey (chunkFeatureDict host plan.sourceName (lit "sentence") sentence) "block_type"
    (.str (lit "sentence"))

/-- The metadata of a sentence chunk. -/
def chunkMeta (plan : PersistencePlan) (chapterId paragraphId : Uuid) (inherited : Dict)
    (sentence : RuntimeChunk) : Dict :=
  let features := sentenceFeatures host plan sentence
  [features,
    [("unit_type", .str (lit "sentence")),
      ("chapter_id", .str (uuidText chapterId)),
      ("paragraph_id", .str (uuidText paragraphId)),
      ("source_name", Json.ofOption plan.sourceName),
      ("svo_chunk", .obj sentence.metadata)],
    (semanticClassifierValues features).map fun (field, value) ↦ (field, Json.str value)].foldl
      updateKeys inherited

/-! ### The rows of the hierarchy -/

/-- What comes with a call of `_publish`: `now()` and the random UUIDs. -/
structure PublicationIds where
  now : Instant
  runId : Uuid
  chapterId : Uuid
  /-- `uuid4()` of the paragraph with an order index. -/
  paragraphId : ℕ → Uuid
  /-- `gen_random_uuid()` of the first version of a chunk. -/
  versionId : Uuid → Uuid
  assertionId : Uuid

variable (ids : PublicationIds) (plan : PersistencePlan)

/-- The row of a paragraph. -/
def paragraphRow (orderIndex : ℕ) (paragraph : RuntimeChunk) : ParagraphRow where
  id := ids.paragraphId orderIndex
  ownerId := some ids.chapterId
  documentId := plan.documentId
  chapterId := ids.chapterId
  orderIndex := orderIndex
  text := paragraph.text
  sourceStart := paragraph.start
  sourceEnd := paragraph.stop
  blockMeta := paragraphMeta host plan orderIndex paragraph

/-- The rows of one sentence: the chunk, its text and its first version. -/
structure SentenceRows where
  chunk : SemanticChunkRow
  text : SemanticChunkText
  version : SemanticChunkVersion

/-- The rows of a sentence with its piece, in the paragraph with an order index. The text keeps the
piece, the chunk and the version do not. -/
def sentenceRows (orderIndex : ℕ) (paragraph : RuntimeChunk)
    (entry : RuntimeChunk × ExactReconstructionPiece) : SentenceRows :=
  let sentence := entry.1
  let blockMeta := chunkMeta host plan ids.chapterId (ids.paragraphId orderIndex)
    (paragraphMeta host plan orderIndex paragraph) sentence
  let textSha256 := host.hexdigest sentence.text
  { chunk :=
      { id := sentence.uuid
        ownerId := some (ids.paragraphId orderIndex)
        documentId := plan.documentId
        paragraphId := ids.paragraphId orderIndex
        chapterId := ids.chapterId
        orderIndex := sentence.ordinal
        text := []
        sourceStart := sentence.start
        sourceEnd := sentence.stop
        charCount := sentence.text.length
        chunkType := (getKey (semanticClassifierValues (sentenceFeatures host plan sentence))
          "type").getD []
        blockMeta }
    text :=
      { chunkUuid := sentence.uuid
        text := sentence.text
        textSha256
        charCount := sentence.text.length
        blockMeta := mergePieceMetadata blockMeta entry.2 }
    version :=
      { id := ids.versionId sentence.uuid
        chunkUuid := sentence.uuid
        logicalChunkId := sentence.uuid
        versionNo := 1
        text := sentence.text
        textSha256
        charCount := sentence.text.length
        sourceStart := sentence.start
        sourceEnd := sentence.stop
        orderIndex := sentence.ordinal
        isCurrent := true
        validFrom := ids.now
        operation := some (lit "ingest")
        blockMeta } }

/-- The chapter that holds the whole text. -/
def chapterRow : ChapterRow where
  id := ids.chapterId
  ownerId := some plan.documentId
  documentId := plan.documentId
  orderIndex := 0
  sourceStart := 0
  sourceEnd := plan.length
  blockMeta := plan.docMeta

/-! ### Writing the hierarchy -/

/-- The largest value of an `INTEGER` column. -/
def maxInteger : ℕ := 2147483647

/-- `COALESCE(MAX(order_index), 0) + 1` over the chapters of a document. -/
def nextChapterOrder (documentId : Uuid) (db : Db) : ℕ :=
  ((db.chapters.filter fun row ↦ row.documentId = documentId).map
    ChapterRow.orderIndex).foldl max 0 + 1

/-- Sets both deletion columns of the rows of a document that are not deleted yet. -/
def markHierarchy (now : Instant) (documentId : Uuid) (db : Db) : Db :=
  { db with
    semanticChunks := updateWhere
      (fun row ↦ row.documentId = documentId && row.deletedAt.isNone)
      (fun row ↦ { row with toLifecycle := .deletedNow now }) db.semanticChunks
    paragraphs := updateWhere
      (fun row ↦ row.documentId = documentId && row.deletedAt.isNone)
      (fun row ↦ { row with toLifecycle := .deletedNow now }) db.paragraphs
    chapters := updateWhere
      (fun row ↦ row.documentId = documentId && row.deletedAt.isNone)
      (fun row ↦ { row with toLifecycle := .deletedNow now }) db.chapters }

/-- Moves the deleted chapters of a document behind all its chapters. -/
def shiftChapters (documentId : Uuid) (db : Db) : Except Failure Db := do
  let offset := nextChapterOrder documentId db
  raiseIf (db.chapters.any fun row ↦ row.documentId = documentId && row.isDeleted &&
    maxInteger < row.orderIndex + offset) (.outOfRange "chapters.order_index")
  return { db with
    chapters := updateWhere (fun row ↦ row.documentId = documentId && row.isDeleted)
      (fun row ↦ { row with orderIndex := row.orderIndex + offset }) db.chapters }

/-- `_mark_existing_hierarchy_deleted`. -/
def markExistingHierarchyDeleted (now : Instant) (documentId : Uuid) (db : Db) :
    Except Failure Db :=
  shiftChapters documentId (markHierarchy now documentId db)

/-- `_retire_previous_files`. -/
def retirePreviousFiles (now : Instant) (documentId : Uuid) (db : Db) : Db :=
  let ownerId := (lookup (fun row : DocumentRow ↦ row.id) documentId db.documents).bind
    fun row ↦ row.ownerId
  { db with
    files := updateWhere (fun row ↦ row.ownerId = some documentId || some row.id = ownerId)
      (fun row ↦ { row with toLifecycle := .deletedNow now }) db.files }

/-- `_resolve_primary_source`: the original that the file already names, else a stable UUID. -/
def resolvePrimarySource (db : Db) : Uuid :=
  match lookup (fun row : FileRow ↦ row.id) plan.fileId db.files with
  | some row => row.primarySourceId
  | none => host.stableUuid4 (lit "doc-store:primary-source:" ++ uuidText plan.fileId ++ lit ":" ++
      plan.contentSha256)

/-- The row of the file. -/
def fileRow (primarySourceId : Uuid) : FileRow where
  id := plan.fileId
  ownerId := none
  primarySourceId := primarySourceId
  path := ((nonempty plan.filename).or (nonempty plan.sourceName)).getD (uuidText plan.fileId)
  name := ((nonempty plan.sourceName).or (nonempty plan.filename)).getD (uuidText plan.fileId)
  charCount := plan.length
  contentSha256 := plan.contentSha256
  bodySha256 := plan.bodySha256
  blockMeta := plan.docMeta

/-- `_write_file`. A file that is there keeps its owner and its original, and is undeleted. -/
def writeFile (primarySourceId : Uuid) (db : Db) : Except Failure Db :=
  let row := fileRow plan primarySourceId
  if hasKey (fun row : FileRow ↦ row.id) plan.fileId db.files then
    return { db with
      files := updateWhere (fun old ↦ old.id = plan.fileId)
        (fun old ↦ { row with ownerId := old.ownerId, primarySourceId := old.primarySourceId })
        db.files }
  else do
    let db ← db.register .files plan.fileId
    raiseIf (db.files.any fun old ↦ old.primarySourceId = primarySourceId)
      (.integrity "uq_files_primary_source_id")
    return { db with files := db.files ++ [row] }

/-- The row of the document. -/
def documentRow : DocumentRow where
  id := plan.documentId
  ownerId := some plan.fileId
  sourceUploadId := plan.documentId
  sourceVersion := plan.sourceVersion
  sourcePath := plan.filename
  sourceName := plan.sourceName
  sourceHash := some plan.bodySha256
  blockMeta := plan.docMeta

/-- `_write_document`. A document that is there loses its `deleted_at` and keeps its `is_deleted`. -/
def writeDocument (db : Db) : Except Failure Db := do
  let row := documentRow plan
  raiseIf (db.documents.any fun old ↦ old.id ≠ plan.documentId &&
      old.sourceUploadId = plan.documentId && old.sourceVersion = plan.sourceVersion)
    (.integrity "uq_documents_upload_version")
  if hasKey (fun row : DocumentRow ↦ row.id) plan.documentId db.documents then
    return { db with
      documents := updateWhere (fun old ↦ old.id = plan.documentId)
        (fun old ↦ { row with isDeleted := old.isDeleted }) db.documents }
  else do
    let db ← db.register .documents plan.documentId
    return { db with documents := db.documents ++ [row] }

/-- `_insert_semantic_chunk_initial_version`: the first version, unless the chunk has one, and the
pointer to it. -/
def insertInitialVersion (version : SemanticChunkVersion) (db : Db) : Except Failure Db :=
  match db.semanticChunkVersions.find? fun old ↦
      old.chunkUuid = version.chunkUuid && old.versionNo = version.versionNo with
  | some existing => db.setCurrent { chunkUuid := version.chunkUuid, versionId := existing.id }
  | none => do
    let db ← db.insertVersion version
    db.setCurrent { chunkUuid := version.chunkUuid, versionId := version.id }

/-- Writes the rows of a sentence. -/
def writeSentenceRows (rows : SentenceRows) (db : Db) : Except Failure Db := do
  let db ← db.insertSemanticChunk rows.chunk
  let db ← db.insertText rows.text
  insertInitialVersion rows.version db

/-- `_write_semantic_chunk`. -/
def writeSemanticChunk (orderIndex : ℕ) (paragraph : RuntimeChunk)
    (entry : RuntimeChunk × ExactReconstructionPiece) (db : Db) : Except Failure Db := do
  let _ ← (semanticClassifierValues (sentenceFeatures host plan entry.1)).mapM fun value ↦
    dictionaryDescr value.2
  writeSentenceRows (sentenceRows host ids plan orderIndex paragraph entry) db

/-- The loop over the sentences of a paragraph. -/
def writeSentences (orderIndex : ℕ) (paragraph : RuntimeChunk) :
    List (RuntimeChunk × ExactReconstructionPiece) → Db → Except Failure Db
  | [], db => .ok db
  | entry :: entries, db => do
    let db ← writeSemanticChunk host ids plan orderIndex paragraph entry db
    writeSentences orderIndex paragraph entries db

/-- The loop over the paragraphs. -/
def writeParagraphs : ℕ → List PlannedParagraph → Db → Except Failure Db
  | _, [], db => .ok db
  | orderIndex, (paragraph, sentences) :: rest, db => do
    let db ← db.insertParagraph (paragraphRow host ids plan orderIndex paragraph)
    let db ← writeSentences host ids plan orderIndex paragraph sentences db
    writeParagraphs (orderIndex + 1) rest db

/-- What a publication writes in front of its paragraphs. -/
def prepareHierarchy (primarySourceId : Uuid) (db : Db) : Except Failure Db := do
  let db ← markExistingHierarchyDeleted ids.now plan.documentId db
  let db ← writeFile plan primarySourceId (retirePreviousFiles ids.now plan.documentId db)
  let db ← writeDocument plan db
  db.insertChapter (chapterRow ids plan)

/-- What a publication writes before it reads the text back. -/
def writeHierarchy (primarySourceId : Uuid) (paragraphs : List PlannedParagraph) (db : Db) :
    Except Failure Db := do
  let db ← prepareHierarchy ids plan primarySourceId db
  writeParagraphs host ids plan 0 paragraphs db

end Writing

/-! ### Reading back -/

/-- `value ->> key` of a JSON object. -/
def jsonText (host : Host) (blockMeta : Dict) (key : String) : Option Text :=
  (getValue blockMeta key).map host.strOf

/-- The order of publication: chapter, paragraph, chunk, chunk UUID. -/
abbrev OrderKey := ℕ × ℕ × ℕ × ℕ

/-- `ORDER BY c.order_index, p.order_index, sc.order_index, sc.id`. -/
def OrderKey.before : OrderKey → OrderKey → Bool
  | (chapter, paragraph, chunk, id), (chapter', paragraph', chunk', id') =>
    chapter < chapter' || (chapter = chapter' && (paragraph < paragraph' ||
      (paragraph = paragraph' && (chunk < chunk' || (chunk = chunk' && id ≤ id')))))

/-- The row that the joins of the readers make of a chunk, if no row of the hierarchy above it is
missing or deleted. -/
def joinChunk (host : Host) (db : Db) (chunk : SemanticChunkRow) :
    Option (OrderKey × ChunkTextRow) := do
  let text ← lookup SemanticChunkText.chunkUuid chunk.id db.semanticChunkTexts
  let paragraph ← lookup (fun row : ParagraphRow ↦ row.id) chunk.paragraphId db.paragraphs
  let chapter ← lookup (fun row : ChapterRow ↦ row.id) chunk.chapterId db.chapters
  let document ← lookup (fun row : DocumentRow ↦ row.id) chunk.documentId db.documents
  if document.isLive && chapter.isLive && paragraph.isLive && chunk.isLive then
    some ((chapter.orderIndex, paragraph.orderIndex, chunk.orderIndex, chunk.id.toNat),
      { chunkId := chunk.id
        paragraphId := chunk.paragraphId
        text := text.text
        chunkBlockMeta := chunk.blockMeta
        textBlockMeta := text.blockMeta
        chapterId := chunk.chapterId
        documentId := chunk.documentId
        orderIndex := chunk.orderIndex
        paragraphOrderIndex := paragraph.orderIndex
        sourceStart := some chunk.sourceStart
        sourceEnd := some chunk.sourceEnd
        sourceName := document.sourceName
        sourcePath := document.sourcePath
        fileId := (jsonText host chunk.blockMeta "file_id").or
          ((document.ownerId.map uuidText).or (some (uuidText document.sourceUploadId))) })
  else none

/-- The joined rows of a document in the order of publication. -/
def joinedRows (host : Host) (db : Db) (documentId : Uuid) : List ChunkTextRow :=
  (((db.semanticChunks.filter fun chunk ↦ chunk.documentId = documentId).filterMap
    (joinChunk host db)).insertionSort fun first second ↦
      first.1.before second.1 = true).map Prod.snd

/-- `_reconstructed_scope_text`. -/
def reconstructedScopeText (host : Host) (db : Db) (documentId : Uuid) : Except Failure Text :=
  scopeText ((joinedRows host db documentId).map ChunkTextRow.toScopeRow)

/-- `reconstruct_source_file` of a document, with a limit of characters and of rows. -/
def reconstructSourceFile (host : Host) (db : Db) (documentId : Uuid) (maxChars limit : ℕ) :
    Except Failure Assembly := do
  let rows := (joinedRows host db documentId).take limit
  raiseIf rows.isEmpty (.lookup "no current chunk text found for source selector")
  assemble host rows maxChars

/-! ### The verdict -/

/-- `text.encode("utf-8")`. -/
def encodeUtf8 (text : Text) : List UInt8 := text.flatMap String.utf8EncodeChar

/-- The position of the first difference of two byte strings, at the latest where one ends. -/
def firstDifference : List UInt8 → List UInt8 → ℕ
  | first :: firsts, second :: seconds =>
    if first = second then firstDifference firsts seconds + 1 else 0
  | _, _ => 0

/-- `_integrity_verdict`. -/
def integrityVerdict (sourceText reconstructedText : Text) : IntegrityOutcome × Option ℕ :=
  if sourceText = reconstructedText then (.matching, none)
  else
    let source := encodeUtf8 sourceText
    let reconstructed := encodeUtf8 reconstructedText
    let offset := firstDifference source reconstructed
    if offset = min source.length reconstructed.length then (.lengthBoundary, some offset)
    else (.mismatch, some offset)

/-! ### Publication -/

/-- What `_publish` leaves when it commits: the tables and the verdict. On a verdict other than a
match the caller is refused. -/
structure Publication where
  db : Db
  integrityOutcome : IntegrityOutcome
  firstDifferenceOffset : Option ℕ

/-- What the registry says about an object. -/
def Db.objects (db : Db) : Objects where
  kind id := if db.registry.contains id then some (lit "document") else none
  descendants _ := []

/-- What is recorded about a publication, with the document and the chapter it produced. -/
def publicationRun (host : Host) (ids : PublicationIds) (plan : PersistencePlan)
    (primarySourceId : Uuid) (reconstructed : Text) (produced : Option (Uuid × Uuid)) :
    ProcessingRun where
  runId := ids.runId
  primarySourceId := primarySourceId
  succeeded := produced.isSome
  sourceSha256 := plan.bodySha256
  reconstructionSha256 := host.hexdigest reconstructed
  integrityOutcome := (integrityVerdict plan.textValue reconstructed).1
  firstDifferenceOffset := (integrityVerdict plan.textValue reconstructed).2
  documentId := produced.map Prod.fst
  chapterId := produced.map Prod.snd
  operationId := plan.operationId

/-- Keeps the written hierarchy, with the run and the source state. -/
def acceptHierarchy (host : Host) (ids : PublicationIds) (plan : PersistencePlan)
    (run : ProcessingRun) (hierarchy : Db) : Except Failure Db := do
  let hierarchy ← hierarchy.insertProcessingRun run
  let (_, temporalAssertions) ← (appendSourceState hierarchy.objects
    { now := ids.now, uuid4 := fun _ ↦ ids.assertionId } plan.documentId
    { acceptedBy := some host.runActor
      acceptedVia := some plan.command
      operationId := some plan.operationId }).run hierarchy.temporalAssertions
  return { hierarchy with temporalAssertions }

/-- Records the verdict: with the hierarchy on a match, without it otherwise. -/
def recordVerdict (host : Host) (ids : PublicationIds) (plan : PersistencePlan)
    (primarySourceId : Uuid) (db hierarchy : Db) (reconstructed : Text) : Except Failure Db :=
  let run := publicationRun host ids plan primarySourceId reconstructed
  if (integrityVerdict plan.textValue reconstructed).1 = .matching then
    acceptHierarchy host ids plan (run (some (plan.documentId, ids.chapterId))) hierarchy
  else db.insertProcessingRun (run none)

/-- The second half of `_publish`, once the hierarchy is written and read back. -/
def concludePublication (host : Host) (ids : PublicationIds) (plan : PersistencePlan)
    (primarySourceId : Uuid) (db hierarchy : Db) (reconstructed : Text) :
    Except Failure Publication := do
  let recorded ← recordVerdict host ids plan primarySourceId db hierarchy reconstructed
  let (integrityOutcome, firstDifferenceOffset) := integrityVerdict plan.textValue reconstructed
  return { db := recorded, integrityOutcome, firstDifferenceOffset }

/-- `_publish`. -/
def publish (host : Host) (ids : PublicationIds) (request : NormalizedRequest)
    (paragraphChunks sentenceChunks : List RuntimeChunk) (db : Db) : Except Failure Publication := do
  raiseIf paragraphChunks.isEmpty (.value "chunker returned no paragraph chunks")
  raiseIf sentenceChunks.isEmpty (.value "chunker returned no sentence chunks")
  let plan := mapPlan host request
  let paragraphs ← exactSentencePlan plan.textValue paragraphChunks sentenceChunks
  let primarySourceId := resolvePrimarySource host plan db
  let hierarchy ← writeHierarchy host ids plan primarySourceId paragraphs db
  let reconstructed ← reconstructedScopeText host hierarchy plan.documentId
  concludePublication host ids plan primarySourceId db hierarchy reconstructed

end DocStore
