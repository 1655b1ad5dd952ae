import DocStore.Foundation.Table
import DocStore.Temporal.Assertions
import Mathlib.Data.List.Perm.Basic

/-!
# The tables of the store

A `Db` holds the rows of the tables in which a document, its hierarchy, its chunk texts and the
evidence about its publications live. The insertions below refuse what the declared constraints refuse: a UUID that is already registered to
an entity, a version or an order that is taken, a second current version.

`Db.Consistent` is what the constraints promise about every state: the rows of the hierarchy carry
registered UUIDs and refer to registered entities, and a current pointer names a version.
-/

set_option autoImplicit false
set_option relaxedAutoImplicit false

namespace DocStore

open Foundation

/-! ### Tables -/

/-- `DICTIONARY_TABLES`. -/
inductive DictionaryTable where
  | chunkTypes
  | chunkRoles
  | chunkStatuses
  | blockTypes
  | languages
  | categories
deriving DecidableEq, Repr

/-- `OWNER_TABLES`, the tables of addressable entities. -/
inductive EntityTable where
  | dictionary (table : DictionaryTable)
  | projects
  | files
  | documents
  | chapters
  | paragraphs
  | semanticChunks
deriving DecidableEq, Repr

/-- The name of a dictionary. -/
def DictionaryTable.name : DictionaryTable → String
  | .chunkTypes => "chunk_types"
  | .chunkRoles => "chunk_roles"
  | .chunkStatuses => "chunk_statuses"
  | .blockTypes => "block_types"
  | .languages => "languages"
  | .categories => "categories"

/-- The name of a table. -/
def EntityTable.name : EntityTable → String
  | .dictionary table => table.name
  | .projects => "projects"
  | .files => "files"
  | .documents => "documents"
  | .chapters => "chapters"
  | .paragraphs => "paragraphs"
  | .semanticChunks => "semantic_chunks"

/-- `EntityRef`. -/
abbrev EntityRef := EntityTable × Uuid

instance : LawfulBEq EntityRef := inferInstance

/-! ### Rows -/

/-- The two columns that say that a row is deleted. -/
structure Lifecycle where
  isDeleted : Bool := false
  deletedAt : Option Instant := none
deriving DecidableEq

/-- What every entity row has. -/
structure EntityRow extends Lifecycle where
  id : Uuid
  ownerId : Option Uuid

/-- A row of `projects`. -/
structure ProjectRow extends EntityRow where
  name : Text

/-- A row of `files`. -/
structure FileRow extends EntityRow where
  primarySourceId : Uuid
  path : Text
  name : Text
  charCount : ℕ
  contentSha256 : Text
  bodySha256 : Text
  blockMeta : Dict

/-- A row of `documents`. -/
structure DocumentRow extends EntityRow where
  sourceUploadId : Uuid
  sourceVersion : ℕ
  sourcePath : Option Text
  sourceName : Option Text
  sourceHash : Option Text
  blockMeta : Dict

/-- A row of `chapters`. -/
structure ChapterRow extends EntityRow where
  documentId : Uuid
  orderIndex : ℕ
  sourceStart : ℕ
  sourceEnd : ℕ
  blockMeta : Dict

/-- A row of `paragraphs`. -/
structure ParagraphRow extends EntityRow where
  documentId : Uuid
  chapterId : Uuid
  orderIndex : ℕ
  text : Text
  sourceStart : ℕ
  sourceEnd : ℕ
  blockMeta : Dict

/-- A row of `semantic_chunks`. -/
structure SemanticChunkRow extends EntityRow where
  documentId : Uuid
  paragraphId : Uuid
  chapterId : Uuid
  orderIndex : ℕ
  text : Text
  sourceStart : ℕ
  sourceEnd : ℕ
  charCount : ℕ
  chunkType : Text
  blockMeta : Dict

/-- A row of `semantic_chunk_texts`. -/
structure SemanticChunkText where
  chunkUuid : Uuid
  text : Text
  textSha256 : Text
  charCount : ℕ
  blockMeta : Dict

/-- The status of a version. -/
inductive VersionStatus where
  | active
  | retired
  | deleted
deriving DecidableEq, Repr

/-- A row of `semantic_chunk_versions`. -/
structure SemanticChunkVersion where
  id : Uuid
  chunkUuid : Uuid
  logicalChunkId : Uuid
  previousVersionId : Option Uuid := none
  restoredFromVersionId : Option Uuid := none
  versionNo : ℕ
  text : Text
  textSha256 : Text
  charCount : ℕ
  sourceVersionId : Option Text := none
  sourceStart : ℕ
  sourceEnd : ℕ
  orderIndex : ℕ
  status : VersionStatus := .active
  isCurrent : Bool
  validFrom : Instant
  validTo : Option Instant := none
  comment : Option Text := none
  actor : Option Text := none
  operation : Option Text
  operationId : Option Uuid := none
  deletedAt : Option Instant := none
  blockMeta : Dict

/-- A row of `semantic_chunk_current`. -/
structure SemanticChunkCurrent where
  chunkUuid : Uuid
  versionId : Uuid
  comment : Option Text := none
  actor : Option Text := none
  operation : Option Text := none

/-- The allowlisted outcomes of an integrity comparison. -/
inductive IntegrityOutcome where
  | matching
  | lengthBoundary
  | mismatch
deriving DecidableEq, Repr

/-- A row of `processing_runs`. -/
structure ProcessingRun where
  runId : Uuid
  primarySourceId : Uuid
  succeeded : Bool
  sourceSha256 : Text
  reconstructionSha256 : Text
  integrityOutcome : IntegrityOutcome
  firstDifferenceOffset : Option ℕ
  documentId : Option Uuid
  chapterId : Option Uuid
  operationId : Uuid

/-- The tables. The registry holds the address of every entity row. -/
structure Db where
  entityUuidRegistry : List EntityRef := []
  projects : List ProjectRow := []
  files : List FileRow := []
  documents : List DocumentRow := []
  chapters : List ChapterRow := []
  paragraphs : List ParagraphRow := []
  semanticChunks : List SemanticChunkRow := []
  semanticChunkTexts : List SemanticChunkText := []
  semanticChunkVersions : List SemanticChunkVersion := []
  semanticChunkCurrent : List SemanticChunkCurrent := []
  processingRuns : List ProcessingRun := []
  temporalAssertions : History := []

/-- The registered UUIDs. -/
def Db.registry (db : Db) : List Uuid := db.entityUuidRegistry.map Prod.snd

/-! ### Deletion -/

/-- `deleted_at IS NULL AND NOT is_deleted`, the condition of the readers. -/
def Lifecycle.isLive (row : Lifecycle) : Bool := row.deletedAt.isNone && !row.isDeleted

/-- The two columns say the same. -/
def Lifecycle.Paired (row : Lifecycle) : Prop := row.isDeleted = row.deletedAt.isSome

/-- `is_deleted = TRUE, deleted_at = now()`. -/
def Lifecycle.deletedNow (now : Instant) : Lifecycle := { isDeleted := true, deletedAt := some now }

@[simp] theorem Lifecycle.paired_deletedNow (now : Instant) :
    (Lifecycle.deletedNow now).Paired :=
  rfl

@[simp] theorem Lifecycle.paired_default : ({} : Lifecycle).Paired :=
  rfl

@[simp] theorem Lifecycle.isLive_deletedNow (now : Instant) :
    (Lifecycle.deletedNow now).isLive = false :=
  rfl

/-- A row with paired columns is live exactly when it is not deleted. -/
theorem Lifecycle.Paired.isLive_eq {row : Lifecycle} (hpaired : row.Paired) :
    row.isLive = !row.isDeleted := by
  rw [isLive, show row.isDeleted = row.deletedAt.isSome from hpaired]
  cases row.deletedAt <;> rfl

/-! ### Insertions -/

namespace Db

/-- The trigger that registers the UUID of an inserted entity row with its table. It also stands for
the primary key of the table. -/
def register (db : Db) (table : EntityTable) (id : Uuid) : Except Failure Db := do
  raiseIf (db.registry.contains id) (.integrity "entity_uuid_registry")
  return { db with entityUuidRegistry := db.entityUuidRegistry ++ [(table, id)] }

/-- Inserts a chapter. -/
def insertChapter (db : Db) (row : ChapterRow) : Except Failure Db := do
  let db ← db.register .chapters row.id
  raiseIf (db.chapters.any fun old ↦
      old.documentId = row.documentId && old.orderIndex = row.orderIndex)
    (.integrity "uq_chapters_document_order")
  return { db with chapters := db.chapters ++ [row] }

/-- Inserts a paragraph. -/
def insertParagraph (db : Db) (row : ParagraphRow) : Except Failure Db := do
  let db ← db.register .paragraphs row.id
  raiseIf (db.paragraphs.any fun old ↦
      old.chapterId = row.chapterId && old.orderIndex = row.orderIndex)
    (.integrity "uq_paragraphs_chapter_order")
  return { db with paragraphs := db.paragraphs ++ [row] }

/-- The width of `semantic_chunks.chunk_type`. -/
def chunkTypeWidth : ℕ := 64

/-- Inserts a chunk. -/
def insertSemanticChunk (db : Db) (row : SemanticChunkRow) : Except Failure Db := do
  raiseIf (chunkTypeWidth < row.chunkType.length) (.outOfRange "semantic_chunks.chunk_type")
  let db ← db.register .semanticChunks row.id
  raiseIf (db.semanticChunks.any fun old ↦
      old.paragraphId = row.paragraphId && old.orderIndex = row.orderIndex)
    (.integrity "uq_semantic_chunks_paragraph_order")
  return { db with semanticChunks := db.semanticChunks ++ [row] }

/-- Inserts the text of a chunk. -/
def insertText (db : Db) (row : SemanticChunkText) : Except Failure Db := do
  raiseIf (db.semanticChunkTexts.any fun old ↦ old.chunkUuid = row.chunkUuid)
    (.integrity "pk_semantic_chunk_texts")
  return { db with semanticChunkTexts := db.semanticChunkTexts ++ [row] }

/-- The partial unique index: whether another version of the logical chunk is current. -/
def currentTaken (db : Db) (row : SemanticChunkVersion) : Bool :=
  db.semanticChunkVersions.any fun other ↦ other.id ≠ row.id &&
    other.logicalChunkId = row.logicalChunkId && other.isCurrent && other.deletedAt.isNone

/-- Inserts a version. -/
def insertVersion (db : Db) (row : SemanticChunkVersion) : Except Failure Db := do
  raiseIf (db.semanticChunkVersions.any fun old ↦ old.id = row.id)
    (.integrity "pk_semantic_chunk_versions")
  raiseIf (db.semanticChunkVersions.any fun old ↦
      old.chunkUuid = row.chunkUuid && old.versionNo = row.versionNo)
    (.integrity "uq_semantic_chunk_versions_chunk_version")
  raiseIf (db.semanticChunkVersions.any fun old ↦
      old.logicalChunkId = row.logicalChunkId && old.versionNo = row.versionNo)
    (.integrity "uq_semantic_chunk_versions_logical_version")
  raiseIf (row.isCurrent && row.deletedAt.isNone && db.currentTaken row)
    (.integrity "uq_semantic_chunk_versions_current_logical")
  return { db with semanticChunkVersions := db.semanticChunkVersions ++ [row] }

/-- Lets a chunk point to a version. -/
def setCurrent (db : Db) (row : SemanticChunkCurrent) : Except Failure Db := do
  raiseIf (db.semanticChunkCurrent.any fun old ↦
      old.versionId = row.versionId && old.chunkUuid ≠ row.chunkUuid)
    (.integrity "uq_semantic_chunk_current_version_id")
  return { db with
    semanticChunkCurrent := upsert SemanticChunkCurrent.chunkUuid row (fun _ ↦ row)
      db.semanticChunkCurrent }

/-- `_insert_processing_run`. A run succeeds on equal hashes only. -/
def insertProcessingRun (db : Db) (row : ProcessingRun) : Except Failure Db := do
  raiseIf (db.processingRuns.any fun old ↦ old.runId = row.runId)
    (.integrity "pk_processing_runs")
  raiseIf (row.succeeded && row.sourceSha256 ≠ row.reconstructionSha256)
    (.integrity "ck_processing_runs_run_succeeds_only_on_equal_hashes")
  return { db with processingRuns := db.processingRuns ++ [row] }

/-! ### What an insertion does -/

variable {db next : Db}

/-- A registration adds a UUID. -/
theorem registry_of_append {table : EntityTable} {id : Uuid}
    (hnext : next.entityUuidRegistry = db.entityUuidRegistry ++ [(table, id)]) :
    next.registry = db.registry ++ [id] := by
  rw [registry, hnext, List.map_append, ← registry]
  rfl

/-- A registered UUID stays registered. -/
theorem mem_registry_of_append {refs : List EntityRef} {id : Uuid}
    (hnext : next.entityUuidRegistry = db.entityUuidRegistry ++ refs) (hid : id ∈ db.registry) :
    id ∈ next.registry := by
  rw [registry, hnext, List.map_append, ← registry]
  exact List.mem_append_left _ hid

/-- The UUID that a registration adds is registered. -/
theorem mem_registry_self {table : EntityTable} {id : Uuid}
    (hnext : next.entityUuidRegistry = db.entityUuidRegistry ++ [(table, id)]) :
    id ∈ next.registry := by
  rw [registry_of_append hnext]
  exact List.mem_append_right _ (List.mem_singleton_self _)

theorem register_eq_ok {table : EntityTable} {id : Uuid} : db.register table id = .ok next ↔
    id ∉ db.registry ∧
      next = { db with entityUuidRegistry := db.entityUuidRegistry ++ [(table, id)] } := by
  simp only [register, raiseIf_bind_eq_ok, pure_eq_ok, List.contains_eq_mem,
    decide_eq_false_iff_not]

/-- A sequence that starts with a registration. -/
theorem register_bind_eq_ok {α : Type} {table : EntityTable} {id : Uuid}
    {rest : Db → Except Failure α} {result : α} : (db.register table id >>= rest) = .ok result ↔
      id ∉ db.registry ∧
        rest { db with entityUuidRegistry := db.entityUuidRegistry ++ [(table, id)] } =
          .ok result := by
  rw [bind_eq_ok]
  simp only [register_eq_ok]
  exact ⟨fun ⟨_, ⟨hfresh, hdb⟩, hrest⟩ ↦ ⟨hfresh, hdb ▸ hrest⟩,
    fun ⟨hfresh, hrest⟩ ↦ ⟨_, ⟨hfresh, rfl⟩, hrest⟩⟩

theorem insertChapter_eq_ok {row : ChapterRow} : db.insertChapter row = .ok next ↔
    row.id ∉ db.registry ∧
      (∀ old ∈ db.chapters, old.documentId = row.documentId → old.orderIndex ≠ row.orderIndex) ∧
      next = { db with
        entityUuidRegistry := db.entityUuidRegistry ++ [(.chapters, row.id)]
        chapters := db.chapters ++ [row] } := by
  simp only [insertChapter, register_bind_eq_ok, raiseIf_bind_eq_ok, pure_eq_ok, List.any_eq_false,
    Bool.and_eq_true, decide_eq_true_eq, not_and, ne_eq]

theorem insertParagraph_eq_ok {row : ParagraphRow} : db.insertParagraph row = .ok next ↔
    row.id ∉ db.registry ∧
      (∀ old ∈ db.paragraphs, old.chapterId = row.chapterId → old.orderIndex ≠ row.orderIndex) ∧
      next = { db with
        entityUuidRegistry := db.entityUuidRegistry ++ [(.paragraphs, row.id)]
        paragraphs := db.paragraphs ++ [row] } := by
  simp only [insertParagraph, register_bind_eq_ok, raiseIf_bind_eq_ok, pure_eq_ok,
    List.any_eq_false, Bool.and_eq_true, decide_eq_true_eq, not_and, ne_eq]

theorem insertSemanticChunk_eq_ok {row : SemanticChunkRow} :
    db.insertSemanticChunk row = .ok next ↔
      row.chunkType.length ≤ chunkTypeWidth ∧ row.id ∉ db.registry ∧
      (∀ old ∈ db.semanticChunks, old.paragraphId = row.paragraphId →
        old.orderIndex ≠ row.orderIndex) ∧
      next = { db with
        entityUuidRegistry := db.entityUuidRegistry ++ [(.semanticChunks, row.id)]
        semanticChunks := db.semanticChunks ++ [row] } := by
  simp only [insertSemanticChunk, register_bind_eq_ok, raiseIf_bind_eq_ok, pure_eq_ok,
    List.any_eq_false, Bool.and_eq_true, decide_eq_true_eq, not_and, ne_eq,
    decide_eq_false_iff_not, not_lt]

theorem insertText_eq_ok {row : SemanticChunkText} : db.insertText row = .ok next ↔
    (∀ old ∈ db.semanticChunkTexts, old.chunkUuid ≠ row.chunkUuid) ∧
      next = { db with semanticChunkTexts := db.semanticChunkTexts ++ [row] } := by
  simp only [insertText, raiseIf_bind_eq_ok, pure_eq_ok, List.any_eq_false, decide_eq_true_eq,
    ne_eq]

/-- What the insertion of a version asks for. -/
structure VersionFits (db : Db) (row : SemanticChunkVersion) : Prop where
  id : ∀ old ∈ db.semanticChunkVersions, old.id ≠ row.id
  chunkVersion : ∀ old ∈ db.semanticChunkVersions, old.chunkUuid = row.chunkUuid →
    old.versionNo ≠ row.versionNo
  logicalVersion : ∀ old ∈ db.semanticChunkVersions, old.logicalChunkId = row.logicalChunkId →
    old.versionNo ≠ row.versionNo
  current : (row.isCurrent && row.deletedAt.isNone && db.currentTaken row) = false

theorem insertVersion_eq_ok {row : SemanticChunkVersion} : db.insertVersion row = .ok next ↔
    db.VersionFits row ∧
      next = { db with semanticChunkVersions := db.semanticChunkVersions ++ [row] } := by
  simp only [insertVersion, raiseIf_bind_eq_ok, pure_eq_ok, List.any_eq_false, Bool.and_eq_true,
    decide_eq_true_eq, not_and]
  exact ⟨fun ⟨hid, hchunk, hlogical, hcurrent, hnext⟩ ↦ ⟨⟨hid, hchunk, hlogical, hcurrent⟩, hnext⟩,
    fun ⟨⟨hid, hchunk, hlogical, hcurrent⟩, hnext⟩ ↦ ⟨hid, hchunk, hlogical, hcurrent, hnext⟩⟩

theorem setCurrent_eq_ok {row : SemanticChunkCurrent} : db.setCurrent row = .ok next ↔
    (∀ old ∈ db.semanticChunkCurrent, old.versionId = row.versionId →
      old.chunkUuid = row.chunkUuid) ∧
      next = { db with
        semanticChunkCurrent := upsert SemanticChunkCurrent.chunkUuid row (fun _ ↦ row)
          db.semanticChunkCurrent } := by
  simp only [setCurrent, raiseIf_bind_eq_ok, pure_eq_ok, List.any_eq_false, Bool.and_eq_true,
    decide_eq_true_eq, not_and, ne_eq, not_not]

theorem insertProcessingRun_eq_ok {row : ProcessingRun} : db.insertProcessingRun row = .ok next ↔
    (∀ old ∈ db.processingRuns, old.runId ≠ row.runId) ∧
      (row.succeeded = true → row.sourceSha256 = row.reconstructionSha256) ∧
      next = { db with processingRuns := db.processingRuns ++ [row] } := by
  simp only [insertProcessingRun, raiseIf_bind_eq_ok, pure_eq_ok, List.any_eq_false,
    decide_eq_true_eq, ne_eq, Bool.and_eq_false_imp, decide_eq_false_iff_not, not_not]

/-! ### Consistency -/

/-- What the declared constraints promise about the tables: registered UUIDs are distinct, the rows
of the hierarchy are registered and refer to registered entities, and so do texts, versions and
current pointers; a current pointer names a version. -/
structure Consistent (db : Db) : Prop where
  registry : db.registry.Nodup
  files : ∀ row ∈ db.files, row.id ∈ db.registry
  documents : ∀ row ∈ db.documents, row.id ∈ db.registry
  chapters : ∀ row ∈ db.chapters, row.id ∈ db.registry
  paragraphs : ∀ row ∈ db.paragraphs, row.id ∈ db.registry ∧ row.chapterId ∈ db.registry
  chunks : ∀ row ∈ db.semanticChunks, row.id ∈ db.registry ∧ row.paragraphId ∈ db.registry
  texts : ∀ row ∈ db.semanticChunkTexts, row.chunkUuid ∈ db.registry
  versions : ∀ row ∈ db.semanticChunkVersions,
    row.chunkUuid ∈ db.registry ∧ row.logicalChunkId ∈ db.registry
  current : ∀ row ∈ db.semanticChunkCurrent, row.chunkUuid ∈ db.registry ∧
    ∃ version ∈ db.semanticChunkVersions, version.id = row.versionId

theorem consistent_empty : ({} : Db).Consistent := by
  constructor <;> simp [registry]

/-- The tables stay consistent when a fresh UUID is registered. -/
theorem Consistent.register (hdb : db.Consistent) {id : Uuid} (hfresh : id ∉ db.registry)
    (table : EntityTable) : ({ db with
      entityUuidRegistry := db.entityUuidRegistry ++ [(table, id)] } : Db).Consistent := by
  have hregistry : ({ db with
      entityUuidRegistry := db.entityUuidRegistry ++ [(table, id)] } : Db).registry =
        db.registry ++ [id] := registry_of_append rfl
  have hkeep : ∀ other ∈ db.registry, other ∈ ({ db with
      entityUuidRegistry := db.entityUuidRegistry ++ [(table, id)] } : Db).registry :=
    fun other hmem ↦ mem_registry_of_append rfl hmem
  exact
    { registry := hregistry ▸ List.nodup_append.mpr ⟨hdb.registry, by simp, by
        simpa using fun other hother ↦ ne_of_mem_of_not_mem hother hfresh⟩
      files := fun row hmem ↦ hkeep _ (hdb.files row hmem)
      documents := fun row hmem ↦ hkeep _ (hdb.documents row hmem)
      chapters := fun row hmem ↦ hkeep _ (hdb.chapters row hmem)
      paragraphs := fun row hmem ↦ (hdb.paragraphs row hmem).imp (hkeep _) (hkeep _)
      chunks := fun row hmem ↦ (hdb.chunks row hmem).imp (hkeep _) (hkeep _)
      texts := fun row hmem ↦ hkeep _ (hdb.texts row hmem)
      versions := fun row hmem ↦ (hdb.versions row hmem).imp (hkeep _) (hkeep _)
      current := fun row hmem ↦ (hdb.current row hmem).imp_left (hkeep _) }

end Db

end DocStore
