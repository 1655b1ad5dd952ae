import DocStore.Runtime.EntityLifecycle

/-!
# Updates of entity columns

`update_entity` names some columns of a row and gives them values. A row is the dict of its columns
here, for each of the tables. `validatedValues` checks the values and completes them with defaults,
as for a new row; `updatePlainEntity` assigns what came out of it, and a new text of a semantic
chunk resets the metadata that described the old one.

Types and constraints of columns are left out: they only make more updates fail. The versions that
an update of a chunk text writes are in `DocStore.Runtime.TextUpdates`.
-/

set_option autoImplicit false
set_option relaxedAutoImplicit false

namespace DocStore

open Foundation

/-! ### Writable columns -/

/-- `_update_tables`. -/
def updateTables : List EntityTable :=
  [.projects, .files, .documents, .paragraphs, .semanticChunks, .dictionary .chunkTypes,
    .dictionary .chunkRoles, .dictionary .chunkStatuses, .dictionary .blockTypes,
    .dictionary .languages, .dictionary .categories]

/-- `_writable_fields`. -/
def writableFields : EntityTable → List String
  | .dictionary _ => ["id", "owner_id", "descr", "is_deleted", "deleted_at"]
  | .projects => ["id", "owner_id", "name", "description", "is_deleted", "deleted_at"]
  | .files => ["id", "owner_id", "path", "name", "media_type", "byte_length", "char_count",
      "checksum_algorithm", "content_sha256", "body_sha256", "needs_rechunk", "needs_revectorize",
      "is_deleted", "deleted_at", "block_meta"]
  | .documents => ["id", "owner_id", "source_upload_id", "source_version", "source_path",
      "source_name", "source_hash", "checksum_algorithm", "content_sha256", "body_sha256", "title",
      "processing_status", "processing_attempt", "needs_revectorize", "processing_trace_id",
      "processing_started_at", "processing_completed_at", "is_deleted", "deleted_at", "block_meta"]
  | .paragraphs => ["owner_id", "text", "language", "quality_score", "search_weight", "is_deleted",
      "deleted_at", "block_meta"]
  | .semanticChunks => ["owner_id", "text", "body", "score", "search_weight", "is_deleted",
      "deleted_at", "block_meta"]
  | .chapters => []

/-- The columns that hold a UUID. -/
def uuidFields : List String :=
  ["id", "owner_id", "source_upload_id", "processing_trace_id", "chunk_type_id", "role_id",
    "status_id", "block_type_id", "language_id", "category_id"]

/-- `UPDATED_AT_TABLES`. -/
def EntityTable.hasUpdatedAt : EntityTable → Bool
  | .dictionary _ | .projects | .files | .documents => true
  | .chapters | .paragraphs | .semanticChunks => false

/-! ### Completion of the values -/

/-- The digests that a document takes from its source hash. -/
def sourceHashDefaults (values : Dict) : Dict :=
  match getValue values "source_hash" with
  | some digest => [("body_sha256", digest), ("content_sha256", digest)]
  | none => []

/-- The defaults that complete the values of a row. -/
def defaultColumns (table : EntityTable) (values : Dict) : Dict :=
  match table with
  | .documents =>
    [("processing_status", .str (lit "draft")), ("processing_attempt", .num 0),
      ("block_meta", .obj []), ("checksum_algorithm", .str (lit "sha256"))] ++
    sourceHashDefaults values ++ [("needs_revectorize", .bool false)]
  | .files =>
    [("checksum_algorithm", .str (lit "sha256")), ("needs_rechunk", .bool false),
      ("needs_revectorize", .bool false)]
  | _ => []

/-- The values with the defaults of the columns that they do not name. -/
def completedValues (table : EntityTable) (values : Dict) : Dict :=
  (defaultColumns table values).foldl setDefault values

/-- The value of a column as the database takes it. -/
def normalizedValue (host : Host) (entry : String × Json) : Except Failure (String × Json) :=
  if uuidFields.contains entry.1 then
    match entry.2 with
    | .null => .ok entry
    | value =>
      match parseUuid (host.strOf value) with
      | some id => .ok (entry.1, .str (uuidText id))
      | none => .error (.value "badly formed hexadecimal UUID string")
  else .ok entry

/-- Whether a value may be the checksum algorithm of a file. -/
def checksumAlgorithmAllowed : Option Json → Bool
  | none | some .null => true
  | some (.str algorithm) => algorithm = lit "sha256"
  | some _ => false

/-- Whether a value is an object. -/
def isMapping : Json → Bool
  | .obj _ => true
  | _ => false

/-- `_validated_values` of an update. -/
def validatedValues (host : Host) (table : EntityTable) (values : Dict) : Except Failure Dict := do
  raiseIf (values.any fun entry ↦ !(writableFields table).contains entry.1)
    (.value ("unsupported fields for " ++ table.name))
  let payload ← (completedValues table values).mapM (normalizedValue host)
  raiseIf ((getKey payload "descr").any fun descr ↦ 100 < (host.strOf descr).length)
    (.value "descr must be at most 100 characters")
  raiseIf (table = .files && !checksumAlgorithmAllowed (getKey payload "checksum_algorithm"))
    (.value "files.checksum_algorithm must be sha256")
  raiseIf ((getKey payload "block_meta").any fun blockMeta ↦ !isMapping blockMeta)
    (.value "block_meta must be an object")
  return payload

/-! ### Rows as columns -/

/-- A row as the dict of its columns. -/
abbrev ColumnRow := EntityTable × Dict

/-- The entity tables with the texts of the chunks. -/
structure ColumnDb where
  registry : List Uuid := []
  rows : List ColumnRow := []
  chunkTexts : List (Uuid × Text) := []

/-- `WHERE id = :entity_id` in a table. -/
def addressed (table : EntityTable) (id : Uuid) (row : ColumnRow) : Bool :=
  row.1 = table && match getKey row.2 "id" with
    | some (.str value) => value = uuidText id
    | _ => false

/-- What comes with an update: `now()` and the `uuid4()` of two dictionary entries. -/
structure UpdateCall where
  now : Instant
  statusId : Uuid
  categoryId : Uuid

/-- The columns of a row with some of them assigned. -/
def assignColumns (now : Instant) (payload : Dict) (row : ColumnRow) : ColumnRow :=
  (row.1, updateKeys row.2 (payload ++
    if row.1.hasUpdatedAt then [("updated_at", .num now)] else []))

/-- `_update_plain_entity`, when the row is there. -/
def updatePlainEntity (call : UpdateCall) (table : EntityTable) (id : Uuid) (payload : Dict)
    (db : ColumnDb) : ColumnDb :=
  { db with rows := updateWhere (addressed table id) (assignColumns call.now payload) db.rows }

/-! ### The text of a chunk -/

/-- `RESET_BLOCK_META_FIELDS`. -/
def resetBlockMetaFields : List String :=
  ["category", "tags", "tags_flat", "summary", "title", "classification"]

/-- `RESET_STATUS`. -/
def resetStatus : Text := lit "needs_review"

/-- `RESET_CATEGORY`. -/
def resetCategory : Text := lit "uncategorized"

/-- `_reset_semantic_chunk_block_meta`. -/
def resetSemanticChunkBlockMeta (blockMeta : Dict) : Dict :=
  setKey (setKey (popKeys blockMeta resetBlockMetaFields) "status" (.str resetStatus)) "category"
    (.str resetCategory)

/-- Whether a row is the entry of a dictionary with a description. -/
def isEntry (table : DictionaryTable) (descr : Text) (row : ColumnRow) : Bool :=
  row.1 = .dictionary table && match getKey row.2 "descr" with
    | some (.str value) => value = descr
    | _ => false

/-- `_dictionary_id`: the UUID of an entry, which is made when it is not there. -/
def dictionaryId (freshId : Uuid) (table : DictionaryTable) (descr : Text) (db : ColumnDb) :
    Json × ColumnDb :=
  match db.rows.find? (isEntry table descr) with
  | some row => ((getKey row.2 "id").getD .null, db)
  | none =>
    (.str (uuidText freshId),
      { db with
        registry := db.registry ++ [freshId]
        rows := db.rows ++ [(.dictionary table, [("id", .str (uuidText freshId)),
          ("owner_id", .null), ("descr", .str descr), ("is_deleted", .bool false),
          ("deleted_at", .null)])] })

/-- What `_replace_semantic_chunk_text` writes into the row of the chunk. -/
def resetColumns (text : Text) (statusId categoryId : Json) (columns : Dict) : Dict :=
  [("text", .str []), ("char_count", .num text.length), ("status_id", statusId),
    ("category_id", categoryId),
    ("block_meta", .obj (resetSemanticChunkBlockMeta
      (asMapping ((getKey columns "block_meta").getD .null))))]

/-- The stored text of a chunk. -/
def ColumnDb.chunkText (db : ColumnDb) (id : Uuid) : Option Text :=
  (lookup Prod.fst id db.chunkTexts).map Prod.snd

/-- `_replace_semantic_chunk_text`, as far as columns of entities are concerned. -/
def replaceChunkColumns (call : UpdateCall) (id : Uuid) (text : Text) (db : ColumnDb) : ColumnDb :=
  if db.chunkText id = some text then db
  else
    let (statusId, withStatus) := dictionaryId call.statusId .chunkStatuses resetStatus db
    let (categoryId, withBoth) := dictionaryId call.categoryId .categories resetCategory withStatus
    { withBoth with
      rows := updateWhere (addressed .semanticChunks id)
        (fun row ↦ (row.1, updateKeys row.2 (resetColumns text statusId categoryId row.2)))
        withBoth.rows
      chunkTexts := upsert Prod.fst (id, text) (fun _ ↦ (id, text)) withBoth.chunkTexts }

/-- The text that the values of a chunk give, as `text` or as `body`. -/
def newChunkText (host : Host) (payload : Dict) : Option Text :=
  ((getValue payload "text").or (getValue payload "body")).map host.strOf

/-- Whether the values of a chunk give two texts. -/
def givesTwoTexts (payload : Dict) : Bool :=
  match getValue payload "text", getKey payload "body" with
  | some text, some body => !body.same text
  | _, _ => false

/-- `_update_semantic_chunk`, when the row is there. -/
def updateSemanticChunk (host : Host) (call : UpdateCall) (id : Uuid) (payload : Dict)
    (db : ColumnDb) : Except Failure ColumnDb := do
  raiseIf (givesTwoTexts payload)
    (.value "semantic_chunks text and body must match when both are supplied")
  let assigned := updatePlainEntity call .semanticChunks id (popKeys payload ["text", "body"]) db
  return match newChunkText host payload with
    | some text => replaceChunkColumns call id text assigned
    | none => assigned

/-- `update_entity`. -/
def updateEntity (host : Host) (call : UpdateCall) (table : EntityTable) (id : Uuid)
    (values : Dict) (db : ColumnDb) : Except Failure ColumnDb := do
  raiseIf (!updateTables.contains table) (.value ("update is unsupported for " ++ table.name))
  let payload ← validatedValues host table values
  raiseIf payload.isEmpty (.value "update values must not be empty")
  raiseIf ((getValue payload "owner_id").any fun owner ↦
      !db.registry.any fun entity ↦ uuidText entity = host.strOf owner)
    (.value "owner_id does not reference a registered entity")
  raiseIf (!db.rows.any (addressed table id)) (.lookup "entity")
  if table = .semanticChunks then updateSemanticChunk host call id payload db
  else return updatePlainEntity call table id payload db

end DocStore
