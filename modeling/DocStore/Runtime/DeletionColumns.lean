import DocStore.Ingestion.DeletionMarks
import DocStore.Runtime.PublicationFrame

/-!
# Deletion columns

`is_deleted` and `deleted_at` are written by `create_entity`, `update_entity`, `soft_delete` and
`undelete` and by publications, and readers look at either of them or at both. `PairsColumns` says
of each operation when it leaves the two columns of every row in agreement: a new row has them
agree, an update leaves them agreeing in the rows that it addresses, and an ingestion brings no
empty text to a document that is flagged as deleted. All other operations do so always. Runs of
operations that meet the condition reach tables whose columns agree only, and an operation that does
not meet it leaves a row whose columns disagree (`paired_of_operations`).

A document that is flagged as deleted is not published again until something else takes its flag
away: each ingestion of another text for it is refused and changes no row
(`flagged_of_ingestions`).
-/

set_option autoImplicit false
set_option relaxedAutoImplicit false

namespace DocStore

open Foundation

variable {host : Host} {db next : EntityDb}

/-! ### Rows whose columns agree -/

/-- The deletion columns of every row of all twelve tables agree. -/
structure EntityDb.Paired (db : EntityDb) : Prop extends Db.Paired db.toDb where
  dictionaries : ∀ row ∈ db.dictionaries, row.Paired

/-- What holds of all records holds of the rows of each table. -/
theorem forall_records_iff {holds : EntityRecord → Prop} :
    (∀ row ∈ db.records host, holds row) ↔
      (∀ row ∈ db.dictionaries, holds row.record) ∧ (∀ row ∈ db.projects, holds row.record) ∧
      (∀ row ∈ db.files, holds row.record) ∧
      (∀ row ∈ db.documents, holds (row.record host)) ∧
      (∀ row ∈ db.chapters, holds row.record) ∧ (∀ row ∈ db.paragraphs, holds row.record) ∧
      ∀ row ∈ db.semanticChunks, holds row.record := by
  simp only [EntityDb.records, List.forall_mem_append, List.forall_mem_map, and_assoc]

theorem EntityDb.paired_iff (host : Host) : db.Paired ↔ ∀ row ∈ db.records host, row.Paired := by
  rw [forall_records_iff]
  constructor
  · intro hpaired
    exact ⟨hpaired.dictionaries, hpaired.projects, hpaired.files, hpaired.documents,
      hpaired.chapters, hpaired.paragraphs, hpaired.chunks⟩
  · rintro ⟨hdictionaries, hprojects, hfiles, hdocuments, hchapters, hparagraphs, hchunks⟩
    exact
      { dictionaries := hdictionaries
        projects := hprojects
        files := hfiles
        documents := hdocuments
        chapters := hchapters
        paragraphs := hparagraphs
        chunks := hchunks }

theorem EntityDb.paired_empty : ({} : EntityDb).Paired :=
  { Db.paired_empty with dictionaries := by simp }

/-! ### The condition -/

/-- The deletion columns of a new entity. -/
def NewEntity.lifecycle : NewEntity → Lifecycle
  | .project row => row.toLifecycle
  | .document row => row.toLifecycle
  | .dictionary row => row.toLifecycle
  | .file row => row.toLifecycle

/-- What an update assigns to the deletion columns. -/
def UpdateValues.deletion : UpdateValues → Option Bool × Option (Option Instant)
  | .dictionary _ values => (values.isDeleted, values.deletedAt)
  | .project values => (values.isDeleted, values.deletedAt)
  | .file values => (values.isDeleted, values.deletedAt)
  | .document values => (values.isDeleted, values.deletedAt)
  | .paragraph values => (values.isDeleted, values.deletedAt)
  | .semanticChunk values => (values.isDeleted, values.deletedAt)

/-- The deletion columns of a row after an update. -/
def UpdateValues.mark (values : UpdateValues) (row : Lifecycle) : Lifecycle where
  isDeleted := values.deletion.1.getD row.isDeleted
  deletedAt := values.deletion.2.getD row.deletedAt

/-- An operation leaves the deletion columns of the rows that it writes in agreement. -/
def PairsColumns (host : Host) (db : EntityDb) : EntityOperation → Prop
  | .entity (.create values) => values.lifecycle.Paired
  | .entity (.ingest call) =>
    documentDeleted db.toDb call.request.documentId = true → call.request.textValue ≠ []
  | .entity _ => True
  | .update _ id values => ∀ row ∈ db.records host, row.ref = (values.table, id) →
    (values.mark row.toLifecycle).Paired

instance (row : Lifecycle) : Decidable row.Paired :=
  inferInstanceAs (Decidable (_ = _))

instance (db : EntityDb) :
    ∀ operation : EntityOperation, Decidable (PairsColumns host db operation)
  | .entity (.create values) => inferInstanceAs (Decidable values.lifecycle.Paired)
  | .entity (.ingest call) => inferInstanceAs (Decidable (_ → call.request.textValue ≠ []))
  | .entity (.rebindOwner ..) | .entity (.softDelete ..) | .entity (.undelete ..)
  | .entity (.hardDelete ..) => .isTrue trivial
  | .update _ id values => inferInstanceAs (Decidable (∀ row ∈ db.records host,
      row.ref = (values.table, id) → (values.mark row.toLifecycle).Paired))

/-! ### Operations on entities -/

/-- A rewriting of rows that keeps the columns in agreement. -/
theorem EntityDb.Paired.mapRows (hpaired : db.Paired)
    {rewrite : EntityTable → EntityRow → EntityRow}
    (hkeeps : ∀ table row, row.Paired → (rewrite table row).Paired) :
    (db.mapRows rewrite).Paired := by
  rw [EntityDb.paired_iff sampleHost, records_mapRows, List.forall_mem_map]
  exact fun row hrow ↦ hkeeps row.table _ ((EntityDb.paired_iff sampleHost).mp hpaired row hrow)

/-- A deletion and an undeletion write both columns. -/
theorem paired_markedRow (now : Instant) (refs : List EntityRef) (deleted : Bool)
    (table : EntityTable) (row : EntityRow) (hrow : row.Paired) :
    (markedRow now refs deleted table row).Paired := by
  unfold markedRow
  split
  · cases deleted
    · exact Lifecycle.paired_default
    · exact Lifecycle.paired_deletedNow now
  · exact hrow

theorem EntityDb.Paired.rebindOwner (hpaired : db.Paired) {table : EntityTable} {ids : List Uuid}
    {ownerId : Option Uuid} (hrebind : db.rebindOwner table ids ownerId = .ok next) :
    next.Paired := by
  obtain ⟨-, hrebind⟩ := raiseIf_bind_eq_ok.mp hrebind
  obtain ⟨_, -, hnext⟩ := bind_eq_ok.mp hrebind
  cases hnext
  refine hpaired.mapRows fun other row hrow ↦ ?_
  split
  · exact hrow
  · exact hrow

theorem EntityDb.Paired.hardDelete (hpaired : db.Paired) {table : EntityTable} {ids : List Uuid}
    (hdelete : db.hardDelete host table ids = .ok next) : next.Paired := by
  rw [EntityDb.paired_iff host] at hpaired ⊢
  rw [(hardDelete_eq_ok hdelete).1]
  exact fun row hrow ↦ hpaired row (List.mem_of_mem_filter hrow)

/-- A new row has the columns that it is given. -/
theorem paired_create_iff (hpaired : db.Paired) {values : NewEntity}
    (hcreate : db.create values = .ok next) : next.Paired ↔ values.lifecycle.Paired := by
  obtain ⟨_, -, hcreate⟩ := bind_eq_ok.mp hcreate
  cases values with
  | project row =>
    obtain ⟨-, hcreate⟩ := raiseIf_bind_eq_ok.mp hcreate
    obtain ⟨-, hnext⟩ := Db.register_bind_eq_ok.mp hcreate
    cases hnext
    exact ⟨fun hnext ↦ hnext.projects row (List.mem_append_right _ (List.mem_singleton_self row)),
      fun hrow ↦ { hpaired with
        projects := List.forall_mem_append.mpr
          ⟨hpaired.projects, List.forall_mem_singleton.mpr hrow⟩ }⟩
  | document row =>
    obtain ⟨-, hcreate⟩ := raiseIf_bind_eq_ok.mp hcreate
    obtain ⟨-, hnext⟩ := Db.register_bind_eq_ok.mp hcreate
    cases hnext
    exact ⟨fun hnext ↦ hnext.documents row (List.mem_append_right _ (List.mem_singleton_self row)),
      fun hrow ↦ { hpaired with
        documents := List.forall_mem_append.mpr
          ⟨hpaired.documents, List.forall_mem_singleton.mpr hrow⟩ }⟩
  | dictionary row =>
    obtain ⟨-, hcreate⟩ := raiseIf_bind_eq_ok.mp hcreate
    obtain ⟨-, hnext⟩ := Db.register_bind_eq_ok.mp hcreate
    cases hnext
    exact ⟨fun hnext ↦
        hnext.dictionaries row (List.mem_append_right _ (List.mem_singleton_self row)),
      fun hrow ↦ { hpaired with
        dictionaries := List.forall_mem_append.mpr
          ⟨hpaired.dictionaries, List.forall_mem_singleton.mpr hrow⟩ }⟩
  | file row => cases hcreate

/-! ### Ingestions -/

theorem paired_writeClassifier_iff {entryId : DictionaryTable → Text → Uuid} {chunkUuid : Uuid}
    {entry : DictionaryTable × Text}
    (hwrite : writeClassifier entryId chunkUuid entry db = .ok next) : next.Paired ↔ db.Paired := by
  dsimp only [writeClassifier] at hwrite
  split at hwrite
  · cases hwrite
    exact ⟨fun hnext ↦ { hnext with }, fun hpaired ↦ { hpaired with }⟩
  · obtain ⟨-, hnext⟩ := Db.register_bind_eq_ok.mp hwrite
    cases hnext
    constructor
    · intro hnext
      exact { hnext with
        dictionaries := fun row hrow ↦ hnext.dictionaries row (List.mem_append_left _ hrow) }
    · intro hpaired
      exact { hpaired with
        dictionaries := List.forall_mem_append.mpr
          ⟨hpaired.dictionaries, List.forall_mem_singleton.mpr Lifecycle.paired_default⟩ }

/-- New dictionary entries are not deleted. -/
theorem paired_writeClassifiers_iff {entryId : DictionaryTable → Text → Uuid}
    {entries : List (Uuid × DictionaryTable × Text)}
    (hwrite : writeClassifiers entryId entries db = .ok next) : next.Paired ↔ db.Paired := by
  induction entries generalizing db with
  | nil =>
    cases hwrite
    exact Iff.rfl
  | cons entry entries ih =>
    obtain ⟨middle, hfirst, hrest⟩ := bind_eq_ok.mp hwrite
    exact (ih hrest).trans (paired_writeClassifier_iff hfirst)

/-- The UUIDs of the documents are distinct when the addresses are. -/
theorem nodup_documents_of_refs (hnodup : db.refs.Nodup) :
    (db.documents.map fun row ↦ row.id).Nodup := by
  have hdocuments : (db.documents.map fun row ↦ ((.documents, row.id) : EntityRef)).Nodup := by
    refine hnodup.sublist ?_
    simp only [EntityDb.refs, Db.refs, List.append_assoc]
    exact (((List.sublist_append_left _ _).trans (List.sublist_append_right _ _)).trans
      (List.sublist_append_right _ _)).trans (List.sublist_append_right _ _)
  refine List.Nodup.of_map (fun id ↦ ((.documents, id) : EntityRef)) ?_
  rw [List.map_map]
  exact hdocuments

theorem paired_ingest_iff (hpaired : db.Paired) (hnodup : db.refs.Nodup) {call : IngestionCall}
    (hingest : db.ingest host call = .ok next) :
    next.Paired ↔ PairsColumns host db (.entity (.ingest call)) := by
  obtain ⟨publication, hpublish, hingest⟩ := bind_eq_ok.mp hingest
  have hpublished : EntityDb.Paired { db with toDb := publication.db } ↔ publication.db.Paired :=
    ⟨EntityDb.Paired.toPaired, fun hkept ↦ { hkept with dictionaries := hpaired.dictionaries }⟩
  refine Iff.trans ?_ (hpublished.trans
    (paired_publish_iff hpaired.toPaired (nodup_documents_of_refs hnodup) hpublish))
  dsimp only at hingest
  split at hingest
  · obtain ⟨paragraphs, -, hwrite⟩ := bind_eq_ok.mp hingest
    exact paired_writeClassifiers_iff hwrite
  · cases hingest
    exact Iff.rfl

/-! ### Updates -/

theorem paired_updateDictionary_iff (hpaired : db.Paired) {table : DictionaryTable} {id : Uuid}
    {values : DictionaryValues} (hupdate : updateDictionary table id values db = .ok next) :
    next.Paired ↔ ∀ row ∈ db.dictionaries, row.table = table ∧ row.id = id →
      (values.assign row).Paired := by
  obtain ⟨-, hupdate⟩ := raiseIf_bind_eq_ok.mp hupdate
  obtain ⟨-, hupdate⟩ := raiseIf_bind_eq_ok.mp hupdate
  obtain ⟨_, -, hupdate⟩ := bind_eq_ok.mp hupdate
  obtain ⟨-, hupdate⟩ := raiseIf_bind_eq_ok.mp hupdate
  obtain ⟨-, hupdate⟩ := raiseIf_bind_eq_ok.mp hupdate
  obtain ⟨-, hnext⟩ := raiseIf_bind_eq_ok.mp hupdate
  cases hnext
  have hrows := @forall_mem_updateWhere_iff _ (fun row ↦ row.table = table && row.id = id)
    values.assign _ _ hpaired.dictionaries
  simp only [Bool.and_eq_true, decide_eq_true_eq] at hrows
  exact ⟨fun hnext ↦ hrows.mp hnext.dictionaries,
    fun hmark ↦ { hpaired with dictionaries := hrows.mpr hmark }⟩

theorem paired_updateProject_iff (hpaired : db.Paired) {id : Uuid} {values : ProjectValues}
    (hupdate : updateProject id values db = .ok next) :
    next.Paired ↔ ∀ row ∈ db.projects, row.id = id → (values.assign row).Paired := by
  obtain ⟨-, hupdate⟩ := raiseIf_bind_eq_ok.mp hupdate
  obtain ⟨_, -, hupdate⟩ := bind_eq_ok.mp hupdate
  obtain ⟨-, hupdate⟩ := raiseIf_bind_eq_ok.mp hupdate
  obtain ⟨-, hnext⟩ := raiseIf_bind_eq_ok.mp hupdate
  cases hnext
  have hrows := @forall_mem_updateWhere_iff _ (fun row ↦ row.id = id) values.assign _ _
    hpaired.projects
  simp only [decide_eq_true_eq] at hrows
  exact ⟨fun hnext ↦ hrows.mp hnext.projects,
    fun hmark ↦ { hpaired with projects := hrows.mpr hmark }⟩

theorem paired_updateFile_iff (hpaired : db.Paired) {id : Uuid} {values : FileValues}
    (hupdate : updateFile id values db = .ok next) :
    next.Paired ↔ ∀ row ∈ db.files, row.id = id → (values.assign row).Paired := by
  obtain ⟨_, -, hupdate⟩ := bind_eq_ok.mp hupdate
  obtain ⟨-, hnext⟩ := raiseIf_bind_eq_ok.mp hupdate
  cases hnext
  have hrows := @forall_mem_updateWhere_iff _ (fun row ↦ row.id = id) values.assign _ _
    hpaired.files
  simp only [decide_eq_true_eq] at hrows
  exact ⟨fun hnext ↦ hrows.mp hnext.files, fun hmark ↦ { hpaired with files := hrows.mpr hmark }⟩

theorem paired_updateDocument_iff (hpaired : db.Paired) {id : Uuid} {values : DocumentValues}
    (hupdate : updateDocument id values db = .ok next) :
    next.Paired ↔ ∀ row ∈ db.documents, row.id = id → (values.assign row).Paired := by
  obtain ⟨_, -, hupdate⟩ := bind_eq_ok.mp hupdate
  obtain ⟨-, hupdate⟩ := raiseIf_bind_eq_ok.mp hupdate
  obtain ⟨-, hupdate⟩ := raiseIf_bind_eq_ok.mp hupdate
  obtain ⟨-, hnext⟩ := raiseIf_bind_eq_ok.mp hupdate
  cases hnext
  have hrows := @forall_mem_updateWhere_iff _ (fun row ↦ row.id = id) values.assign _ _
    hpaired.documents
  simp only [decide_eq_true_eq] at hrows
  exact ⟨fun hnext ↦ hrows.mp hnext.documents,
    fun hmark ↦ { hpaired with documents := hrows.mpr hmark }⟩

/-- A paragraph with the columns that an update assigns. -/
theorem paired_updateParagraph_iff (hpaired : db.Paired) {id : Uuid} {values : TextValues}
    {updated : Db} (hupdate : updateParagraphValues id values db.toDb = .ok updated) :
    EntityDb.Paired { db with toDb := updated } ↔
      ∀ row ∈ db.paragraphs, row.id = id → (values.assign row.toEntityRow).Paired := by
  obtain ⟨-, hupdate⟩ := raiseIf_bind_eq_ok.mp hupdate
  obtain ⟨-, hupdate⟩ := raiseIf_bind_eq_ok.mp hupdate
  obtain ⟨_, -, hupdate⟩ := bind_eq_ok.mp hupdate
  obtain ⟨-, hnext⟩ := raiseIf_bind_eq_ok.mp hupdate
  cases hnext
  have hrows := @forall_mem_updateWhere_iff ParagraphRow (fun row ↦ row.id = id)
    (fun row ↦ { row with
      toEntityRow := values.assign row.toEntityRow
      text := values.text.getD row.text
      blockMeta := values.blockMeta.getD row.blockMeta }) _ _ hpaired.paragraphs
  simp only [decide_eq_true_eq] at hrows
  exact ⟨fun hnext ↦ hrows.mp hnext.paragraphs,
    fun hmark ↦ { hpaired with paragraphs := hrows.mpr hmark }⟩

/-- A chunk with the columns that an update assigns. -/
theorem Db.paired_assignChunkValues_iff {db : Db} (hpaired : db.Paired) {id : Uuid}
    {values : TextValues} :
    (assignChunkValues id values db).Paired ↔
      ∀ row ∈ db.semanticChunks, row.id = id → (values.assign row.toEntityRow).Paired := by
  have hrows := @forall_mem_updateWhere_iff SemanticChunkRow (fun row ↦ row.id = id)
    (fun row ↦ { row with
      toEntityRow := values.assign row.toEntityRow
      blockMeta := values.blockMeta.getD row.blockMeta }) _ _ hpaired.chunks
  simp only [decide_eq_true_eq] at hrows
  exact ⟨fun hnext ↦ hrows.mp hnext.chunks,
    fun hmark ↦ { hpaired with chunks := hrows.mpr hmark }⟩

/-- A new text of a chunk leaves its other columns as they are. -/
theorem Db.paired_replaceText_iff {db next : Db} {call : TextCall} {chunkUuid : Uuid}
    {textValue : Text}
    (hreplace : replaceSemanticChunkText host call chunkUuid textValue db = .ok next) :
    next.Paired ↔ db.Paired := by
  obtain ⟨chunk, -, hreplace⟩ := bind_eq_ok.mp hreplace
  split at hreplace
  · cases hreplace
    exact Iff.rfl
  · obtain ⟨inserted, hinsert, hreplace⟩ := bind_eq_ok.mp hreplace
    obtain ⟨-, rfl⟩ := Db.insertVersion_eq_ok.mp hinsert
    obtain ⟨pointing, hpoint, hnext⟩ := bind_eq_ok.mp hreplace
    obtain ⟨-, hpoint⟩ := raiseIf_bind_eq_ok.mp hpoint
    obtain ⟨-, hpointing⟩ := raiseIf_bind_eq_ok.mp hpoint
    cases hpointing
    cases hnext
    constructor
    · intro hnext
      refine { hnext with chunks := fun row hrow ↦ ?_ }
      have hkept := hnext.chunks _ (mem_updateWhere.mpr ⟨row, hrow, rfl⟩)
      split at hkept
      · exact hkept
      · exact hkept
    · intro hpaired
      exact { hpaired with chunks := forall_mem_updateWhere (fun _ hrow ↦ hrow) hpaired.chunks }

theorem paired_resetClassifier_iff {call : EntityUpdateCall} {chunkUuid : Uuid}
    {table : DictionaryTable} {descr : Text}
    (hreset : resetClassifier call chunkUuid table descr db = .ok next) :
    next.Paired ↔ db.Paired := by
  refine (paired_writeClassifier_iff hreset).trans ?_
  exact ⟨fun hcleared ↦ { hcleared with }, fun hpaired ↦ { hpaired with }⟩

theorem paired_updateSemanticChunk_iff (hpaired : db.Paired) {call : EntityUpdateCall} {id : Uuid}
    {values : TextValues} (hupdate : updateSemanticChunkEntity host call id values db = .ok next) :
    next.Paired ↔
      ∀ row ∈ db.semanticChunks, row.id = id → (values.assign row.toEntityRow).Paired := by
  obtain ⟨updated, hchunk, hupdate⟩ := bind_eq_ok.mp hupdate
  have hupdated : updated.Paired ↔
      ∀ row ∈ db.semanticChunks, row.id = id → (values.assign row.toEntityRow).Paired := by
    obtain ⟨-, hchunk⟩ := raiseIf_bind_eq_ok.mp hchunk
    obtain ⟨_, -, hchunk⟩ := bind_eq_ok.mp hchunk
    obtain ⟨-, hchunk⟩ := raiseIf_bind_eq_ok.mp hchunk
    obtain ⟨_, -, hchunk⟩ := bind_eq_ok.mp hchunk
    refine Iff.trans ?_ (Db.paired_assignChunkValues_iff hpaired.toPaired)
    split at hchunk
    · cases hchunk
      exact Iff.rfl
    · exact Db.paired_replaceText_iff hchunk
  have hkept : EntityDb.Paired { db with toDb := updated } ↔ updated.Paired :=
    ⟨EntityDb.Paired.toPaired, fun hkept ↦ { hkept with dictionaries := hpaired.dictionaries }⟩
  refine Iff.trans ?_ (hkept.trans hupdated)
  split at hupdate
  · obtain ⟨withStatus, hstatus, hcategory⟩ := bind_eq_ok.mp hupdate
    exact (paired_resetClassifier_iff hcategory).trans (paired_resetClassifier_iff hstatus)
  · cases hupdate
    exact Iff.rfl

/-- What holds of the records at an address holds of the rows of its table with its UUID. -/
theorem forall_addressed_iff (table : EntityTable) (id : Uuid) (holds : Lifecycle → Prop) :
    (∀ row ∈ db.records host, row.ref = (table, id) → holds row.toLifecycle) ↔
      match table with
      | .dictionary name =>
        ∀ row ∈ db.dictionaries, row.table = name ∧ row.id = id → holds row.toLifecycle
      | .projects => ∀ row ∈ db.projects, row.id = id → holds row.toLifecycle
      | .files => ∀ row ∈ db.files, row.id = id → holds row.toLifecycle
      | .documents => ∀ row ∈ db.documents, row.id = id → holds row.toLifecycle
      | .chapters => ∀ row ∈ db.chapters, row.id = id → holds row.toLifecycle
      | .paragraphs => ∀ row ∈ db.paragraphs, row.id = id → holds row.toLifecycle
      | .semanticChunks => ∀ row ∈ db.semanticChunks, row.id = id → holds row.toLifecycle := by
  rw [forall_records_iff]
  cases table with
  | _ =>
    simp [EntityRecord.ref, DictionaryRow.record, ProjectRow.record, FileRow.record,
      DocumentRow.record, ChapterRow.record, ParagraphRow.record, SemanticChunkRow.record]

/-- **An update keeps the columns in agreement exactly when it does in the rows that it
addresses.** -/
theorem paired_update_iff (hpaired : db.Paired) {call : EntityUpdateCall} {id : Uuid}
    {values : UpdateValues} (hupdate : db.update host call id values = .ok next) :
    next.Paired ↔ PairsColumns host db (.update call id values) := by
  refine Iff.trans ?_ (forall_addressed_iff values.table id fun row ↦ (values.mark row).Paired).symm
  cases values with
  | dictionary table values => exact paired_updateDictionary_iff hpaired hupdate
  | project values => exact paired_updateProject_iff hpaired hupdate
  | file values => exact paired_updateFile_iff hpaired hupdate
  | document values => exact paired_updateDocument_iff hpaired hupdate
  | paragraph values =>
    obtain ⟨updated, hparagraph, hnext⟩ := bind_eq_ok.mp hupdate
    cases hnext
    exact paired_updateParagraph_iff hpaired hparagraph
  | semanticChunk values => exact paired_updateSemanticChunk_iff hpaired hupdate

/-! ### Runs -/

/-- **Every operation keeps the columns in agreement exactly when it meets the condition.** -/
theorem paired_apply_iff (hpaired : db.Paired) (hnodup : db.refs.Nodup)
    {operation : EntityOperation} (happly : operation.apply host db = .ok next) :
    next.Paired ↔ PairsColumns host db operation := by
  cases operation with
  | update call id values => exact paired_update_iff hpaired happly
  | entity action =>
    cases action with
    | create values => exact paired_create_iff hpaired happly
    | ingest call => exact paired_ingest_iff hpaired hnodup happly
    | rebindOwner table ids ownerId => exact iff_of_true (hpaired.rebindOwner happly) trivial
    | hardDelete table ids => exact iff_of_true (hpaired.hardDelete happly) trivial
    | softDelete now table ids =>
      cases happly
      exact iff_of_true (hpaired.mapRows (paired_markedRow now _ true)) trivial
    | undelete now table ids =>
      cases happly
      exact iff_of_true (hpaired.mapRows (paired_markedRow now _ false)) trivial

/-- A step leaves distinct addresses. -/
theorem nodup_of_operationStep {operation : EntityOperation}
    (hstep : operationStep host db operation = some next) : next.refs.Nodup :=
  of_decide_eq_true (Option.filter_eq_some_iff.mp hstep).2

/-- In a run whose operations meet the condition the columns agree, and addresses are distinct. -/
theorem paired_of_run {db : EntityDb}
    (hrun : Steps (operationStep host) (PairsColumns host) {} db) :
    db.Paired ∧ db.refs.Nodup :=
  hrun.invariant (motive := fun state ↦ state.Paired ∧ state.refs.Nodup)
    ⟨EntityDb.paired_empty, List.nodup_nil⟩ fun _ _ _ hstate hallowed hstep ↦
      ⟨(paired_apply_iff hstate.1 hstate.2 (apply_of_operationStep hstep)).mpr hallowed,
        nodup_of_operationStep hstep⟩

/-! ### Flagged documents -/

/-- A publication leaves the flag of every document as it is. -/
theorem documentDeleted_of_writeHierarchy {ids : PublicationIds} {plan : PersistencePlan}
    {primarySourceId : Uuid} {paragraphs : List PlannedParagraph} {db next : Db}
    (hwrite : writeHierarchy host ids plan primarySourceId paragraphs db = .ok next) (id : Uuid) :
    documentDeleted next id = documentDeleted db id := by
  rw [documentDeleted, lookup_document_of_writeHierarchy hwrite id]
  split
  · rfl
  · rfl

/-- An ingestion leaves the flag of every document as it is. -/
theorem documentDeleted_of_ingest {call : IngestionCall} (hingest : db.ingest host call = .ok next)
    (id : Uuid) : documentDeleted next.toDb id = documentDeleted db.toDb id := by
  obtain ⟨publication, hpublish, hingest⟩ := bind_eq_ok.mp hingest
  have hdocuments : next.documents = publication.db.documents := by
    dsimp only at hingest
    split at hingest
    · obtain ⟨_, -, hwrite⟩ := bind_eq_ok.mp hingest
      obtain ⟨⟨registry, htables⟩, -⟩ := writesOnly_of_writeClassifiers hwrite
      rw [htables]
    · cases hingest
      rfl
  obtain ⟨_, hierarchy, _, kept, hwrite, -, -, ⟨processingRuns, temporalAssertions, hkeptDb⟩,
    hkept⟩ := exists_hierarchy_of_publish hpublish
  have hflag : documentDeleted next.toDb id = documentDeleted kept id := by
    rw [documentDeleted, hdocuments, hkeptDb]
    rfl
  rcases hkept with ⟨-, rfl⟩ | ⟨-, rfl⟩
  · exact hflag.trans (documentDeleted_of_writeHierarchy hwrite id)
  · exact hflag

/-- An ingestion of another text than the empty one for a flagged document changes no row. -/
theorem records_of_ingest_flagged {call : IngestionCall}
    (hingest : db.ingest host call = .ok next)
    (hdeleted : documentDeleted db.toDb call.request.documentId = true)
    (htext : call.request.textValue ≠ []) : next.records host = db.records host := by
  obtain ⟨publication, hpublish, hingest⟩ := bind_eq_ok.mp hingest
  have hrefused : publication.integrityOutcome ≠ .matching :=
    fun hmatch ↦ htext ((matching_iff_of_documentDeleted hpublish hdeleted).mp hmatch)
  obtain ⟨_, _, _, kept, -, -, -, ⟨processingRuns, temporalAssertions, hnext⟩, hkept⟩ :=
    exists_hierarchy_of_publish hpublish
  obtain rfl : kept = db.toDb := (hkept.resolve_left fun hmatch ↦ hrefused hmatch.1).2
  dsimp only at hingest
  rw [if_neg hrefused] at hingest
  cases hingest
  rw [hnext]
  rfl

/-- An ingestion of another text than the empty one. -/
def IngestsText (_ : EntityDb) : EntityOperation → Prop
  | .entity (.ingest call) => call.request.textValue ≠ []
  | _ => False

/-- Ingestions leave the flags of all documents as they are. -/
theorem documentDeleted_of_ingestions {later : EntityDb}
    (hrun : Steps (operationStep host) IngestsText db later) (id : Uuid) :
    documentDeleted later.toDb id = documentDeleted db.toDb id := by
  refine hrun.invariant
    (motive := fun state ↦ documentDeleted state.toDb id = documentDeleted db.toDb id) rfl
    fun state operation next hstate hallowed hstep ↦ ?_
  have happly := apply_of_operationStep hstep
  cases operation with
  | update call id values => exact hallowed.elim
  | entity action =>
    cases action with
    | ingest call => exact (documentDeleted_of_ingest happly id).trans hstate
    | create _ => exact hallowed.elim
    | rebindOwner _ _ _ => exact hallowed.elim
    | softDelete _ _ _ => exact hallowed.elim
    | undelete _ _ _ => exact hallowed.elim
    | hardDelete _ _ => exact hallowed.elim

/-- Nothing is reconstructed of a flagged document. -/
theorem reconstructSourceFile_of_flagged {db : Db} {id : Uuid}
    (hdeleted : documentDeleted db id = true) (maxChars limit : ℕ) :
    reconstructSourceFile host db id maxChars limit =
      .error (.lookup "no current chunk text found for source selector") := by
  obtain ⟨document, hlookup, hflag⟩ := (Option.any_eq_true _ _).mp hdeleted
  rw [reconstructSourceFile, joinedRows_of_isDeleted hlookup hflag, List.take_nil]
  rfl

/-- The tables with the letter, which is then deleted. -/
def flaggedLetter : EntityDb :=
  (replay (guarded (operationStep sampleHost) (PairsColumns sampleHost)) {}
    [.entity (.ingest (letterIngestion 1)),
      .entity (.softDelete 5 .documents [rewrittenIngestion.request.documentId])]).getD {}

end DocStore
