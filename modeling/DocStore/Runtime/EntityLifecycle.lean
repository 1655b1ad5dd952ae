import DocStore.Foundation.Saturation
import DocStore.Ingestion.Publication

/-!
# Entity lifecycle

`EntityLifecycleService` addresses the rows of twelve tables by table and UUID. A deletion starts
from some rows and takes along what hangs below them: `closure` follows owners, foreign keys and the
project names in the metadata of documents. `softDelete` and `undelete` set the two deletion columns
of the whole closure; `hardDelete` removes it, unless `referencesTo` finds a reference from outside.

An `EntityDb` adds to the tables of a publication the six dictionaries, the dictionary columns of
the chunks and the links between chunks. An `EntityRecord` is what the operations read of a row,
whatever its table. Titles, descriptions and `updated_at` are left out, and so are the assignment
tables, which repeat the dictionary columns.
-/

set_option autoImplicit false
set_option relaxedAutoImplicit false

namespace DocStore

open Foundation

/-! ### Dictionaries and links -/

/-- `DICTIONARY_REFERENCE_COLUMNS`. -/
def dictionaryReferenceColumns : List (DictionaryTable × String) :=
  [(.chunkTypes, "chunk_type_id"), (.chunkRoles, "role_id"), (.chunkStatuses, "status_id"),
    (.blockTypes, "block_type_id"), (.languages, "language_id"), (.categories, "category_id")]

/-- A row of a dictionary. -/
structure DictionaryRow extends EntityRow where
  table : DictionaryTable
  descr : Text

/-- A dictionary column of a chunk. -/
structure ChunkDictionary where
  chunkUuid : Uuid
  table : DictionaryTable
  dictionaryId : Uuid

/-- A row of `semantic_chunk_links`. -/
structure ChunkLink where
  sourceChunkUuid : Uuid
  targetChunkUuid : Uuid

/-- The tables with the dictionaries and the links. -/
structure EntityDb extends Db where
  dictionaries : List DictionaryRow := []
  chunkDictionaries : List ChunkDictionary := []
  chunkLinks : List ChunkLink := []

/-! ### Records -/

/-- What the lifecycle operations read of a row. -/
structure EntityRecord extends EntityRow where
  table : EntityTable
  /-- `projects.name`. -/
  name : Option Text := none
  documentId : Option Uuid := none
  chapterId : Option Uuid := none
  paragraphId : Option Uuid := none
  /-- `documents.block_meta ->> 'project_id'`. -/
  projectId : Option Text := none
  /-- `documents.block_meta ->> 'project'`. -/
  project : Option Text := none

/-- The address of a row. -/
def EntityRecord.ref (row : EntityRecord) : EntityRef := (row.table, row.id)

def DictionaryRow.record (row : DictionaryRow) : EntityRecord where
  toEntityRow := row.toEntityRow
  table := .dictionary row.table

def ProjectRow.record (row : ProjectRow) : EntityRecord where
  toEntityRow := row.toEntityRow
  table := .projects
  name := some row.name

def FileRow.record (row : FileRow) : EntityRecord where
  toEntityRow := row.toEntityRow
  table := .files

def DocumentRow.record (host : Host) (row : DocumentRow) : EntityRecord where
  toEntityRow := row.toEntityRow
  table := .documents
  projectId := jsonText host row.blockMeta "project_id"
  project := jsonText host row.blockMeta "project"

def ChapterRow.record (row : ChapterRow) : EntityRecord where
  toEntityRow := row.toEntityRow
  table := .chapters
  documentId := some row.documentId

def ParagraphRow.record (row : ParagraphRow) : EntityRecord where
  toEntityRow := row.toEntityRow
  table := .paragraphs
  documentId := some row.documentId
  chapterId := some row.chapterId

def SemanticChunkRow.record (row : SemanticChunkRow) : EntityRecord where
  toEntityRow := row.toEntityRow
  table := .semanticChunks
  documentId := some row.documentId
  chapterId := some row.chapterId
  paragraphId := some row.paragraphId

/-- The rows of all twelve tables. -/
def EntityDb.records (host : Host) (db : EntityDb) : List EntityRecord :=
  db.dictionaries.map DictionaryRow.record ++ db.projects.map ProjectRow.record ++
    db.files.map FileRow.record ++ db.documents.map (DocumentRow.record host) ++
    db.chapters.map ChapterRow.record ++ db.paragraphs.map ParagraphRow.record ++
    db.semanticChunks.map SemanticChunkRow.record

/-! ### The closure -/

/-- Whether a foreign key of a row names a row. -/
def EntityRecord.refersTo (row : EntityRecord) : EntityRef → Bool
  | (.documents, id) => row.documentId = some id
  | (.chapters, id) => row.chapterId = some id
  | (.paragraphs, id) => row.paragraphId = some id
  | _ => false

/-- Whether the metadata of a document name a project, by its UUID or by its name. -/
def EntityRecord.inProject (row project : EntityRecord) : Bool :=
  row.table = .documents &&
    (row.projectId = some (uuidText project.id) || (row.project.isSome && row.project = project.name))

/-- Whether a pass of `_closure` adds a row because of an entry. -/
def dependsOn (records : List EntityRecord) (parent : EntityRef) (row : EntityRecord) : Bool :=
  match parent.1 with
  | .projects => row.ownerId = some parent.2 ||
      records.any fun project ↦ project.ref = parent && row.inProject project
  | .files => row.ownerId = some parent.2
  | .documents => row.ownerId = some parent.2 || row.refersTo parent
  | .chapters | .paragraphs => row.refersTo parent
  | .dictionary _ | .semanticChunks => false

/-- What a pass of `_closure` adds because of an entry. -/
def childRefs (records : List EntityRecord) (parent : EntityRef) : List EntityRef :=
  (records.filter (dependsOn records parent)).map EntityRecord.ref

/-- `_closure`. A pass that adds something adds a row, so the loop ends after at most as many passes
as there are rows. -/
def closure (records : List EntityRecord) (roots : List EntityRef) : List EntityRef :=
  saturate (childRefs records) records.length roots

/-- `_roots_for`: only projects are looked up. -/
def rootsFor (records : List EntityRecord) (table : EntityTable) (ids : List Uuid) :
    List EntityRef :=
  if table = .projects then
    (records.filter fun row ↦ row.table = .projects && row.id ∈ ids).map EntityRecord.ref
  else ids.map fun id ↦ (table, id)

/-! ### The deletion columns -/

/-- Rewrites what the rows of all tables have in common. -/
def EntityDb.mapRows (rewrite : EntityTable → EntityRow → EntityRow) (db : EntityDb) : EntityDb :=
  { db with
    dictionaries := db.dictionaries.map fun row ↦
      { row with toEntityRow := rewrite (.dictionary row.table) row.toEntityRow }
    projects := db.projects.map fun row ↦
      { row with toEntityRow := rewrite .projects row.toEntityRow }
    files := db.files.map fun row ↦ { row with toEntityRow := rewrite .files row.toEntityRow }
    documents := db.documents.map fun row ↦
      { row with toEntityRow := rewrite .documents row.toEntityRow }
    chapters := db.chapters.map fun row ↦
      { row with toEntityRow := rewrite .chapters row.toEntityRow }
    paragraphs := db.paragraphs.map fun row ↦
      { row with toEntityRow := rewrite .paragraphs row.toEntityRow }
    semanticChunks := db.semanticChunks.map fun row ↦
      { row with toEntityRow := rewrite .semanticChunks row.toEntityRow } }

/-- What `_set_deleted` writes. -/
def Lifecycle.marked (now : Instant) (deleted : Bool) : Lifecycle :=
  if deleted then .deletedNow now else {}

/-- `_set_deleted`. -/
def EntityDb.setDeleted (now : Instant) (refs : List EntityRef) (deleted : Bool) (db : EntityDb) :
    EntityDb :=
  db.mapRows fun table row ↦
    if (table, row.id) ∈ refs then { row with toLifecycle := .marked now deleted } else row

/-- `_mark_deleted`. Without roots the closure is empty and nothing is written. -/
def EntityDb.markDeleted (host : Host) (now : Instant) (table : EntityTable) (ids : List Uuid)
    (deleted : Bool) (db : EntityDb) : EntityDb :=
  let records := db.records host
  db.setDeleted now (closure records (rootsFor records table ids)) deleted

/-- `soft_delete`. -/
def EntityDb.softDelete (host : Host) (now : Instant) (table : EntityTable) (ids : List Uuid)
    (db : EntityDb) : EntityDb :=
  db.markDeleted host now table ids true

/-- `undelete`. -/
def EntityDb.undelete (host : Host) (now : Instant) (table : EntityTable) (ids : List Uuid)
    (db : EntityDb) : EntityDb :=
  db.markDeleted host now table ids false

/-! ### References from outside -/

/-- A reference to a row that is to be deleted from a row that is not. -/
structure EntityReference where
  fromTable : String
  fromId : Uuid
  fromColumn : String
  toTable : Option String := none
  toId : Uuid

section References

variable (records : List EntityRecord) (refs : List EntityRef)

/-- The references of the rows outside that meet a condition. -/
def externalRows (condition : EntityRecord → Bool) (fromColumn : String) (toTable : Option String)
    (target : Uuid) : List EntityReference :=
  (records.filter fun row ↦ condition row && !(refs.contains row.ref)).map fun row ↦
    { fromTable := row.table.name, fromId := row.id, fromColumn, toTable, toId := target }

/-- `_external_owner_rows`. -/
def externalOwnerRows (target : Uuid) : List EntityReference :=
  externalRows records refs (fun row ↦ row.ownerId = some target) "owner_id" none target

/-- `_external_project_rows` of the project with a UUID, when it is there. -/
def externalProjectRows (target : Uuid) : List EntityReference :=
  externalRows records refs
    (fun row ↦ records.any fun project ↦
      project.ref = (.projects, target) && row.inProject project)
    "block_meta.project_id" (some "projects") target

/-- `_external_fk_rows` for the rows of the hierarchy. -/
def externalFkRows (table : EntityTable) (fromColumn : String) (target : Uuid) :
    List EntityReference :=
  externalRows records refs (fun row ↦ row.refersTo (table, target)) fromColumn none target

/-- The references by `semantic_chunk_links`. -/
def externalLinks (links : List ChunkLink) (target : Uuid) : List EntityReference :=
  (links.filter fun link ↦ link.targetChunkUuid = target &&
      !(refs.contains (.semanticChunks, link.sourceChunkUuid))).map fun link ↦
    { fromTable := "semantic_chunk_links", fromId := link.sourceChunkUuid
      fromColumn := "target_chunk_uuid", toTable := some "semantic_chunks", toId := target }

/-- `_external_fk_rows` for a dictionary column. -/
def externalDictionaryRows (columns : List ChunkDictionary) (table : DictionaryTable)
    (fromColumn : String) (target : Uuid) : List EntityReference :=
  (columns.filter fun column ↦ column.table = table && column.dictionaryId = target &&
      !(refs.contains (.semanticChunks, column.chunkUuid))).map fun column ↦
    { fromTable := "semantic_chunks", fromId := column.chunkUuid, fromColumn
      toTable := some table.name, toId := target }

/-- The UUIDs of the entries of a table, as `_group_refs` collects them. -/
def refsOf (table : EntityTable) : List Uuid :=
  refs.filterMap fun ref ↦ if ref.1 = table then some ref.2 else none

end References

/-- `references_to`. -/
def referencesTo (host : Host) (db : EntityDb) (refs : List EntityRef) : List EntityReference :=
  let records := db.records host
  ((refsOf refs .projects).flatMap fun id ↦
    externalOwnerRows records refs id ++ externalProjectRows records refs id) ++
  ((refsOf refs .documents).flatMap fun id ↦
    externalOwnerRows records refs id ++ externalFkRows records refs .documents "document_id" id) ++
  ((refsOf refs .files).flatMap (externalOwnerRows records refs)) ++
  ((refsOf refs .chapters).flatMap (externalFkRows records refs .chapters "chapter_id")) ++
  ((refsOf refs .paragraphs).flatMap (externalFkRows records refs .paragraphs "paragraph_id")) ++
  ((refsOf refs .semanticChunks).flatMap (externalLinks refs db.chunkLinks)) ++
  dictionaryReferenceColumns.flatMap fun (table, column) ↦
    (refsOf refs (.dictionary table)).flatMap
      (externalDictionaryRows refs db.chunkDictionaries table column)

/-! ### Hard deletion -/

/-- Removes rows, with the trigger that unregisters them and what goes with a chunk and with a
registered UUID. -/
def EntityDb.deleteRows (host : Host) (refs : List EntityRef) (db : EntityDb) : EntityDb :=
  let gone := ((db.records host).filter fun row ↦ row.ref ∈ refs).map EntityRecord.ref
  let unregistered := (db.entityUuidRegistry.filter fun entry ↦ entry ∈ gone).map Prod.snd
  let keptChunk (chunkUuid : Uuid) : Bool := (.semanticChunks, chunkUuid) ∉ refs
  { db with
    entityUuidRegistry := db.entityUuidRegistry.filter fun entry ↦ entry ∉ gone
    dictionaries := db.dictionaries.filter fun row ↦ (.dictionary row.table, row.id) ∉ refs
    projects := db.projects.filter fun row ↦ (.projects, row.id) ∉ refs
    files := db.files.filter fun row ↦ (.files, row.id) ∉ refs
    documents := db.documents.filter fun row ↦ (.documents, row.id) ∉ refs
    chapters := db.chapters.filter fun row ↦ (.chapters, row.id) ∉ refs
    paragraphs := db.paragraphs.filter fun row ↦ (.paragraphs, row.id) ∉ refs
    semanticChunks := db.semanticChunks.filter fun row ↦ (.semanticChunks, row.id) ∉ refs
    semanticChunkTexts := db.semanticChunkTexts.filter fun row ↦ keptChunk row.chunkUuid
    semanticChunkVersions := db.semanticChunkVersions.filter fun row ↦ keptChunk row.chunkUuid
    semanticChunkCurrent := db.semanticChunkCurrent.filter fun row ↦ keptChunk row.chunkUuid
    chunkDictionaries := db.chunkDictionaries.filter fun row ↦ keptChunk row.chunkUuid
    chunkLinks := db.chunkLinks.filter fun link ↦
      keptChunk link.sourceChunkUuid && keptChunk link.targetChunkUuid
    temporalAssertions := (db.temporalAssertions.filter fun row ↦
        row.objectId ∉ unregistered).map fun row ↦
      { row with supersedesAssertionId := row.supersedesAssertionId.filter fun id ↦
          db.temporalAssertions.any fun old ↦ old.assertionId = id && old.objectId ∉ unregistered } }

/-- The rows that `ON DELETE CASCADE` takes along. -/
def dependentRefs (records : List EntityRecord) (refs : List EntityRef) : List EntityRef :=
  (records.filter fun row ↦ refs.any row.refersTo).map EntityRecord.ref

/-- Removes rows, and level by level the rows that refer to them. -/
def EntityDb.deleteCascade (host : Host) : ℕ → List EntityRef → EntityDb → EntityDb
  | 0, _, db => db
  | levels + 1, refs, db =>
    let next := db.deleteRows host refs
    deleteCascade host levels (dependentRefs (next.records host) refs) next

/-- `_delete_closure`. A recorded run keeps the document and the chapter it produced: the trigger on
`processing_runs` refuses that a deletion clears them. -/
def EntityDb.deleteClosure (host : Host) (refs : List EntityRef) (db : EntityDb) :
    Except Failure EntityDb := do
  raiseIf (db.processingRuns.any fun run ↦
      run.documentId.any (fun id ↦ refs.contains (.documents, id)) ||
        run.chapterId.any fun id ↦ refs.contains (.chapters, id))
    (.integrity "trg_processing_runs_immutable")
  return db.deleteCascade host 4 refs

/-- `hard_delete`. -/
def EntityDb.hardDelete (host : Host) (table : EntityTable) (ids : List Uuid) (db : EntityDb) :
    Except Failure EntityDb := do
  let records := db.records host
  let refs := closure records (rootsFor records table ids)
  raiseIf (!(referencesTo host db refs).isEmpty)
    (.deletionSafety "unsafe hard delete: external references exist")
  db.deleteClosure host refs

/-! ### Creation and ownership -/

/-- The values of a new entity. -/
inductive NewEntity where
  | project (row : ProjectRow)
  | document (row : DocumentRow)
  | dictionary (row : DictionaryRow)
  /-- A file cannot be given its original. -/
  | file (row : EntityRow)

/-- The owner of a new entity. -/
def NewEntity.ownerId : NewEntity → Option Uuid
  | .project row => row.ownerId
  | .document row => row.ownerId
  | .dictionary row => row.ownerId
  | .file row => row.ownerId

/-- `_validate_owner`. -/
def validateOwner (ownerId : Option Uuid) (db : EntityDb) : Except Failure Unit :=
  raiseIf (ownerId.any fun id ↦ !db.registry.contains id)
    (.value "owner_id does not reference a registered entity")

/-- `create_entity`. -/
def EntityDb.create (values : NewEntity) (db : EntityDb) : Except Failure EntityDb := do
  validateOwner values.ownerId db
  match values with
  | .project row => do
    raiseIf (db.projects.any fun old ↦ old.name = row.name) (.integrity "uq_projects_name")
    let registered ← db.register .projects row.id
    return { db with toDb := { registered with projects := db.projects ++ [row] } }
  | .document row => do
    raiseIf (db.documents.any fun old ↦ old.sourceUploadId = row.sourceUploadId &&
      old.sourceVersion = row.sourceVersion) (.integrity "uq_documents_upload_version")
    let registered ← db.register .documents row.id
    return { db with toDb := { registered with documents := db.documents ++ [row] } }
  | .dictionary row => do
    raiseIf (db.dictionaries.any fun old ↦ old.table = row.table && old.descr = row.descr)
      (.integrity "uq_dictionary_descr")
    let registered ← db.register (.dictionary row.table) row.id
    return { db with toDb := registered, dictionaries := db.dictionaries ++ [row] }
  | .file _ => .error (.integrity "files.primary_source_id")

/-- `rebind_owner`. -/
def EntityDb.rebindOwner (table : EntityTable) (ids : List Uuid) (ownerId : Option Uuid) (db : EntityDb) :
    Except Failure EntityDb := do
  raiseIf ids.isEmpty (.value "ids must not be empty")
  validateOwner ownerId db
  return db.mapRows fun other row ↦
    if other = table ∧ row.id ∈ ids then { row with ownerId } else row

/-! ### Ingestion -/

/-- What comes with an ingestion: a call of `_publish`, and the `uuid4()` of every dictionary entry
that is not there yet. -/
structure IngestionCall where
  ids : PublicationIds
  request : NormalizedRequest
  paragraphChunks : List RuntimeChunk
  sentenceChunks : List RuntimeChunk
  entryId : DictionaryTable → Text → Uuid

/-- `SEMANTIC_CLASSIFIER_DICTIONARIES`. -/
def semanticClassifierDictionaries : List (String × DictionaryTable) :=
  [("type", .chunkTypes), ("role", .chunkRoles), ("status", .chunkStatuses),
    ("block_type", .blockTypes), ("language", .languages), ("category", .categories)]

/-- The dictionary entries of a sentence. -/
def classifierEntries (host : Host) (plan : PersistencePlan) (sentence : RuntimeChunk) :
    List (DictionaryTable × Text) :=
  let values := semanticClassifierValues (sentenceFeatures host plan sentence)
  semanticClassifierDictionaries.map fun (field, table) ↦
    (table, strip ((getKey values field).getD []))

/-- `_dictionary_id`, and the column of the chunk that takes it. -/
def writeClassifier (entryId : DictionaryTable → Text → Uuid) (chunkUuid : Uuid)
    (entry : DictionaryTable × Text) (db : EntityDb) : Except Failure EntityDb :=
  match db.dictionaries.find? fun row ↦ row.table = entry.1 && row.descr = entry.2 with
  | some row => .ok { db with
      chunkDictionaries := db.chunkDictionaries ++
        [{ chunkUuid, table := entry.1, dictionaryId := row.id }] }
  | none => do
    let id := entryId entry.1 entry.2
    let registered ← db.register (.dictionary entry.1) id
    return { db with
      toDb := registered
      dictionaries := db.dictionaries ++
        [{ id, ownerId := none, table := entry.1, descr := entry.2 }]
      chunkDictionaries := db.chunkDictionaries ++
        [{ chunkUuid, table := entry.1, dictionaryId := id }] }

/-- The dictionary columns of some sentences. -/
def writeClassifiers (entryId : DictionaryTable → Text → Uuid) :
    List (Uuid × DictionaryTable × Text) → EntityDb → Except Failure EntityDb
  | [], db => .ok db
  | (chunkUuid, entry) :: rest, db => do
    let db ← writeClassifier entryId chunkUuid entry db
    writeClassifiers entryId rest db

/-- A publication with its dictionary entries, which a refused one takes back. -/
def EntityDb.ingest (host : Host) (call : IngestionCall) (db : EntityDb) :
    Except Failure EntityDb := do
  let publication ← publish host call.ids call.request call.paragraphChunks call.sentenceChunks
    db.toDb
  let published := { db with toDb := publication.db }
  if publication.integrityOutcome = .matching then do
    let paragraphs ← exactSentencePlan call.request.textValue call.paragraphChunks
      call.sentenceChunks
    writeClassifiers call.entryId
      ((plannedSentences paragraphs).flatMap fun (sentence, _) ↦
        (classifierEntries host (mapPlan host call.request) sentence).map fun entry ↦
          (sentence.uuid, entry)) published
  else return published

/-! ### Steps -/

/-- An operation on the entities. -/
inductive EntityAction where
  | create (values : NewEntity)
  | rebindOwner (table : EntityTable) (ids : List Uuid) (ownerId : Option Uuid)
  | ingest (call : IngestionCall)
  | softDelete (now : Instant) (table : EntityTable) (ids : List Uuid)
  | undelete (now : Instant) (table : EntityTable) (ids : List Uuid)
  | hardDelete (table : EntityTable) (ids : List Uuid)

/-- What an operation leaves when it succeeds. -/
def EntityAction.apply (host : Host) (db : EntityDb) : EntityAction → Except Failure EntityDb
  | .create values => db.create values
  | .rebindOwner table ids ownerId => db.rebindOwner table ids ownerId
  | .ingest call => db.ingest host call
  | .softDelete now table ids => .ok (db.softDelete host now table ids)
  | .undelete now table ids => .ok (db.undelete host now table ids)
  | .hardDelete table ids => db.hardDelete host table ids

/-- One operation. -/
def entityStep (host : Host) (db : EntityDb) (action : EntityAction) : Option EntityDb :=
  toOption (action.apply host db)

end DocStore
