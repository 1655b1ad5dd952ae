import DocStore.Runtime.ChunkVersions
import DocStore.Runtime.EntityUpdate

/-!
# Updates of texts

Besides the version service two other modules write the text of a chunk. `update_entity` replaces it
behind a new version and resets the metadata that described the old text; the chunk repository
replaces the whole row of a chunk and its text, and writes no version. A paragraph keeps its text in
its own row, which `update_entity` assigns like any other column.

The columns with a type of their own are here; `DocStore.Runtime.EntityUpdate` has the others, and
the completion of the values. Foreign keys are left out, and so are the dictionaries, the metrics,
the tokens, the tags and the links.
-/

set_option autoImplicit false
set_option relaxedAutoImplicit false

namespace DocStore

open Foundation

/-! ### The text of a chunk -/

/-- What comes with an update of a text: `now()` and the random UUID of a new version. -/
structure TextCall where
  now : Instant
  versionId : Uuid

/-- The text row of a chunk. -/
def Db.textRow (db : Db) (chunkUuid : Uuid) : Option SemanticChunkText :=
  lookup SemanticChunkText.chunkUuid chunkUuid db.semanticChunkTexts

/-- The stored text of a chunk. -/
def Db.chunkText (db : Db) (chunkUuid : Uuid) : Option Text :=
  (db.textRow chunkUuid).map SemanticChunkText.text

/-- `_stored_text` of a chunk: the text of its text row, or of its own row. -/
def Db.storedText (db : Db) (chunkUuid : Uuid) : Option Text :=
  (lookup (fun row : SemanticChunkRow ↦ row.id) chunkUuid db.semanticChunks).map fun row ↦
    (db.chunkText chunkUuid).getD row.text

/-- The version that the pointer of a chunk names. -/
def Db.pointedVersion (db : Db) (chunkUuid : Uuid) : Option Uuid :=
  (lookup SemanticChunkCurrent.chunkUuid chunkUuid db.semanticChunkCurrent).map
    SemanticChunkCurrent.versionId

/-- The metadata of the text row after a change of the text. -/
def resetTextMeta (chunkMeta : Dict) (textMeta : Option Dict) : Dict :=
  resetSemanticChunkBlockMeta (match textMeta with
    | none | some [] => resetSemanticChunkBlockMeta chunkMeta
    | some entries => entries)

/-- The version that an update of the entity writes. -/
def entityUpdateVersion (host : Host) (call : TextCall) (chunk : SemanticChunkRow)
    (textValue : Text) (textMeta : Dict) (db : Db) : SemanticChunkVersion where
  id := call.versionId
  chunkUuid := chunk.id
  logicalChunkId := chunk.id
  previousVersionId := db.pointedVersion chunk.id
  versionNo := db.nextVersionNo chunk.id
  text := textValue
  textSha256 := host.hexdigest textValue
  charCount := textValue.length
  sourceStart := chunk.sourceStart
  sourceEnd := chunk.sourceEnd
  orderIndex := chunk.orderIndex
  isCurrent := false
  validFrom := call.now
  operation := some (lit "entity_update")
  blockMeta := textMeta

/-- Gives the flag of the pointed version of a chunk to another one, and lets the chunk point to
it. -/
def repoint (call : TextCall) (chunkUuid : Uuid) (version : SemanticChunkVersion) (db : Db) :
    Except Failure Db := do
  let pointed := db.pointedVersion chunkUuid
  let retired : Db :=
    { db with
      semanticChunkVersions := updateWhere (fun row ↦ pointed = some row.id)
        (fun row ↦ row.retired call.now) db.semanticChunkVersions }
  raiseIf (retired.currentTaken version) (.integrity "uq_semantic_chunk_versions_current_logical")
  raiseIf (db.semanticChunkCurrent.any fun pointer ↦
      pointer.versionId = version.id && pointer.chunkUuid ≠ chunkUuid)
    (.integrity "uq_semantic_chunk_current_version_id")
  return { retired with
    semanticChunkVersions := updateWhere (fun row ↦ row.id = version.id)
      (fun row ↦ { row with
        isCurrent := true
        status := .active
        validTo := none })
      retired.semanticChunkVersions
    semanticChunkCurrent := upsert SemanticChunkCurrent.chunkUuid
      { chunkUuid, versionId := version.id }
      (fun pointer ↦ { pointer with versionId := version.id }) db.semanticChunkCurrent }

/-- Stores the text of a chunk with the metadata of the chunk and of the text. -/
def storeText (host : Host) (chunkUuid : Uuid) (textValue : Text) (chunkMeta textMeta : Dict)
    (db : Db) : Db :=
  let row : SemanticChunkText :=
    { chunkUuid
      text := textValue
      textSha256 := host.hexdigest textValue
      charCount := textValue.length
      blockMeta := textMeta }
  { db with
    semanticChunks := updateWhere (fun chunk ↦ chunk.id = chunkUuid)
      (fun chunk ↦ { chunk with
        text := []
        charCount := textValue.length
        blockMeta := chunkMeta })
      db.semanticChunks
    semanticChunkTexts := upsert SemanticChunkText.chunkUuid row (fun _ ↦ row)
      db.semanticChunkTexts }

/-- `_replace_semantic_chunk_text`. -/
def replaceSemanticChunkText (host : Host) (call : TextCall) (chunkUuid : Uuid) (textValue : Text)
    (db : Db) : Except Failure Db := do
  let chunk ← db.requireChunk chunkUuid
  if db.chunkText chunkUuid = some textValue then return db
  else
    let chunkMeta := resetSemanticChunkBlockMeta chunk.blockMeta
    let textMeta := resetTextMeta chunk.blockMeta
      ((db.textRow chunkUuid).map SemanticChunkText.blockMeta)
    let version := entityUpdateVersion host call chunk textValue textMeta db
    let inserted ← db.insertVersion version
    let pointing ← repoint call chunkUuid version inserted
    return storeText host chunkUuid textValue chunkMeta textMeta pointing

/-! ### Typed values -/

/-- Columns that an update of a chunk or of a paragraph may name. -/
structure TextValues where
  ownerId : Option (Option Uuid) := none
  text : Option Text := none
  body : Option Text := none
  isDeleted : Option Bool := none
  deletedAt : Option (Option Instant) := none
  blockMeta : Option Dict := none

/-- Whether no column is named. -/
def TextValues.isEmpty (values : TextValues) : Bool :=
  values.ownerId.isNone && values.text.isNone && values.body.isNone && values.isDeleted.isNone &&
    values.deletedAt.isNone && values.blockMeta.isNone

/-- Assigns the columns that every entity has. -/
def TextValues.assign (values : TextValues) (row : EntityRow) : EntityRow :=
  { row with
    ownerId := values.ownerId.getD row.ownerId
    isDeleted := values.isDeleted.getD row.isDeleted
    deletedAt := values.deletedAt.getD row.deletedAt }

/-- `_validate_owner`. -/
def TextValues.validateOwner (values : TextValues) (db : Db) : Except Failure Unit :=
  raiseIf (values.ownerId.join.any fun id ↦ !db.registry.contains id)
    (.value "owner_id does not reference a registered entity")

/-- Assigns columns of a chunk other than its text. -/
def assignChunkValues (chunkUuid : Uuid) (values : TextValues) (db : Db) : Db :=
  { db with
    semanticChunks := updateWhere (fun row ↦ row.id = chunkUuid)
      (fun row ↦ { row with
        toEntityRow := values.assign row.toEntityRow
        blockMeta := values.blockMeta.getD row.blockMeta })
      db.semanticChunks }

/-- `update_entity` of a chunk. -/
def updateChunkValues (host : Host) (call : TextCall) (chunkUuid : Uuid) (values : TextValues)
    (db : Db) : Except Failure Db := do
  raiseIf values.isEmpty (.value "update values must not be empty")
  values.validateOwner db
  raiseIf (values.text.isSome && values.body.isSome && values.text ≠ values.body)
    (.value "semantic_chunks text and body must match when both are supplied")
  let _ ← db.requireChunk chunkUuid
  let assigned := assignChunkValues chunkUuid values db
  match values.text.or values.body with
  | none => return assigned
  | some textValue => replaceSemanticChunkText host call chunkUuid textValue assigned

/-- `update_entity` of a paragraph. -/
def updateParagraphValues (paragraphId : Uuid) (values : TextValues) (db : Db) :
    Except Failure Db := do
  raiseIf values.body.isSome (.value "unsupported fields for paragraphs")
  raiseIf values.isEmpty (.value "update values must not be empty")
  values.validateOwner db
  raiseIf (!hasKey (fun row : ParagraphRow ↦ row.id) paragraphId db.paragraphs) (.lookup "entity")
  return { db with
    paragraphs := updateWhere (fun row ↦ row.id = paragraphId)
      (fun row ↦ { row with
        toEntityRow := values.assign row.toEntityRow
        text := values.text.getD row.text
        blockMeta := values.blockMeta.getD row.blockMeta })
      db.paragraphs }

/-- The text of a paragraph. -/
def Db.paragraphText (db : Db) (paragraphId : Uuid) : Option Text :=
  (lookup (fun row : ParagraphRow ↦ row.id) paragraphId db.paragraphs).map fun row ↦ row.text

/-! ### The chunk repository -/

/-- `RootRow`. -/
structure RootRow where
  id : Uuid
  documentId : Uuid
  paragraphId : Uuid
  chapterId : Uuid
  orderIndex : ℕ
  text : Text
  sourceStart : ℕ
  sourceEnd : ℕ
  chunkType : Text
  blockMeta : Dict

/-- Assigns the columns of a root row. The text goes to the text row. -/
def RootRow.assign (root : RootRow) (row : SemanticChunkRow) : SemanticChunkRow :=
  { row with
    documentId := root.documentId
    paragraphId := root.paragraphId
    chapterId := root.chapterId
    orderIndex := root.orderIndex
    text := []
    sourceStart := root.sourceStart
    sourceEnd := root.sourceEnd
    charCount := root.text.length
    chunkType := root.chunkType
    blockMeta := root.blockMeta }

/-- The row of a chunk that is not there yet. -/
def RootRow.newRow (root : RootRow) : SemanticChunkRow where
  id := root.id
  ownerId := none
  documentId := root.documentId
  paragraphId := root.paragraphId
  chapterId := root.chapterId
  orderIndex := root.orderIndex
  text := []
  sourceStart := root.sourceStart
  sourceEnd := root.sourceEnd
  charCount := root.text.length
  chunkType := root.chunkType
  blockMeta := root.blockMeta

/-- `_upsert_root`. -/
def upsertRoot (root : RootRow) (db : Db) : Except Failure Db := do
  if hasKey (fun row : SemanticChunkRow ↦ row.id) root.id db.semanticChunks then
    raiseIf (Db.chunkTypeWidth < root.chunkType.length) (.outOfRange "semantic_chunks.chunk_type")
    raiseIf (db.semanticChunks.any fun row ↦ row.id ≠ root.id &&
        row.paragraphId = root.paragraphId && row.orderIndex = root.orderIndex)
      (.integrity "uq_semantic_chunks_paragraph_order")
    return { db with
      semanticChunks := updateWhere (fun row ↦ row.id = root.id) root.assign db.semanticChunks }
  else db.insertSemanticChunk root.newRow

/-- `_upsert_text_payload`. -/
def upsertTextPayload (host : Host) (root : RootRow) (db : Db) : Db :=
  let row : SemanticChunkText :=
    { chunkUuid := root.id
      text := root.text
      textSha256 := host.hexdigest root.text
      charCount := root.text.length
      blockMeta := root.blockMeta }
  { db with
    semanticChunkTexts := upsert SemanticChunkText.chunkUuid row (fun _ ↦ row)
      db.semanticChunkTexts }

/-- `text_changed`: whether a chunk is there with another stored text. -/
def rootTextChanged (root : RootRow) (db : Db) : Bool :=
  (db.storedText root.id).any fun text ↦ text ≠ root.text

/-- `_reset_machine_metadata`, of the root. -/
def RootRow.reset (root : RootRow) : RootRow :=
  { root with blockMeta := resetSemanticChunkBlockMeta root.blockMeta }

/-- `upsert`, as far as the chunk and its text are concerned. -/
def upsertChunk (host : Host) (root : RootRow) (db : Db) : Except Failure Db := do
  let root := if rootTextChanged root db then root.reset else root
  let rooted ← upsertRoot root db
  return upsertTextPayload host root rooted

end DocStore
