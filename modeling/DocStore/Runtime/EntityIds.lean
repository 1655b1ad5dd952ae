import DocStore.Runtime.DeletionSafety
import DocStore.Runtime.TextUpdates

/-!
# Updates of UUIDs

`_writable_fields` lists `id` among the columns of projects, files, documents and dictionary
entries, so `update_entity` may give a row another UUID. The registry is kept by triggers on
insertions and deletions only: it goes on listing the row under its old UUID and never learns of the
new one. An update keeps the registry exact just when it leaves the UUID of its row alone, and runs
of operations whose updates all do so reach exact registries only (`registered_of_operations`).

The columns have types of their own here. The other columns of the tables and their constraints are
left out, as in `DocStore.Runtime.EntityUpdate`.
-/

set_option autoImplicit false
set_option relaxedAutoImplicit false

namespace DocStore

open Foundation

/-! ### Values -/

/-- The columns of every entity that an update may name. -/
structure EntityValues where
  id : Option Uuid := none
  ownerId : Option (Option Uuid) := none
  isDeleted : Option Bool := none
  deletedAt : Option (Option Instant) := none

/-- Whether no column is named. -/
def EntityValues.isEmpty (values : EntityValues) : Bool :=
  values.id.isNone && values.ownerId.isNone && values.isDeleted.isNone && values.deletedAt.isNone

/-- Assigns the columns of every entity. -/
def EntityValues.assign (values : EntityValues) (row : EntityRow) : EntityRow where
  id := values.id.getD row.id
  ownerId := values.ownerId.getD row.ownerId
  isDeleted := values.isDeleted.getD row.isDeleted
  deletedAt := values.deletedAt.getD row.deletedAt

/-- The columns of a dictionary entry. -/
structure DictionaryValues extends EntityValues where
  descr : Option Text := none

/-- The columns of a project; a description is not kept here. -/
structure ProjectValues extends EntityValues where
  name : Option Text := none
  description : Option Text := none

/-- The columns of a file. -/
structure FileValues extends EntityValues where
  path : Option Text := none
  name : Option Text := none
  charCount : Option ℕ := none
  contentSha256 : Option Text := none
  bodySha256 : Option Text := none
  blockMeta : Option Dict := none

/-- The columns of a document. -/
structure DocumentValues extends EntityValues where
  sourceUploadId : Option Uuid := none
  sourceVersion : Option ℕ := none
  sourcePath : Option (Option Text) := none
  sourceName : Option (Option Text) := none
  sourceHash : Option (Option Text) := none
  blockMeta : Option Dict := none

def DictionaryValues.assign (values : DictionaryValues) (row : DictionaryRow) : DictionaryRow :=
  { row with
    toEntityRow := values.toEntityValues.assign row.toEntityRow
    descr := values.descr.getD row.descr }

def ProjectValues.assign (values : ProjectValues) (row : ProjectRow) : ProjectRow where
  toEntityRow := values.toEntityValues.assign row.toEntityRow
  name := values.name.getD row.name

def FileValues.assign (values : FileValues) (row : FileRow) : FileRow :=
  { row with
    toEntityRow := values.toEntityValues.assign row.toEntityRow
    path := values.path.getD row.path
    name := values.name.getD row.name
    charCount := values.charCount.getD row.charCount
    contentSha256 := values.contentSha256.getD row.contentSha256
    bodySha256 := values.bodySha256.getD row.bodySha256
    blockMeta := values.blockMeta.getD row.blockMeta }

/-- Assigns the columns of a document, where metadata that are not named are emptied. -/
def DocumentValues.assign (values : DocumentValues) (row : DocumentRow) : DocumentRow where
  toEntityRow := values.toEntityValues.assign row.toEntityRow
  sourceUploadId := values.sourceUploadId.getD row.sourceUploadId
  sourceVersion := values.sourceVersion.getD row.sourceVersion
  sourcePath := values.sourcePath.getD row.sourcePath
  sourceName := values.sourceName.getD row.sourceName
  sourceHash := values.sourceHash.getD row.sourceHash
  blockMeta := values.blockMeta.getD []

/-- The values of an update, by table. Chapters cannot be updated. -/
inductive UpdateValues where
  | dictionary (table : DictionaryTable) (values : DictionaryValues)
  | project (values : ProjectValues)
  | file (values : FileValues)
  | document (values : DocumentValues)
  | paragraph (values : TextValues)
  | semanticChunk (values : TextValues)

/-- The UUID that an update assigns. -/
def UpdateValues.newId : UpdateValues → Option Uuid
  | .dictionary _ values => values.id
  | .project values => values.id
  | .file values => values.id
  | .document values => values.id
  | .paragraph _ | .semanticChunk _ => none

/-! ### Updates -/

/-- What comes with an update: the values of a new version, and the `uuid4()` of every dictionary
entry that is not there yet. -/
structure EntityUpdateCall extends TextCall where
  entryId : DictionaryTable → Text → Uuid

/-- Whether an assignment changes a UUID. -/
def EntityValues.renames (values : EntityValues) (id : Uuid) : Bool :=
  values.id.any fun new ↦ new ≠ id

/-- The bound that `_validated_values` puts on a description. -/
def maxDescr : ℕ := 100

/-- `update_entity` of a dictionary entry. -/
def updateDictionary (table : DictionaryTable) (id : Uuid) (values : DictionaryValues)
    (db : EntityDb) : Except Failure EntityDb := do
  raiseIf (values.descr.any fun descr ↦ maxDescr < descr.length)
    (.value "descr must be at most 100 characters")
  raiseIf (values.isEmpty && values.descr.isNone) (.value "update values must not be empty")
  validateOwner values.ownerId.join db
  raiseIf (!db.dictionaries.any fun row ↦ row.table = table && row.id = id) (.lookup "entity")
  raiseIf (values.descr.any fun descr ↦ db.dictionaries.any fun other ↦
      other.table = table && other.id ≠ id && other.descr = descr)
    (.integrity "uq_dictionary_descr")
  raiseIf (values.renames id && db.chunkDictionaries.any fun column ↦
      column.table = table && column.dictionaryId = id)
    (.integrity "fk_semantic_chunks_dictionary_id")
  return { db with
    dictionaries := updateWhere (fun row ↦ row.table = table && row.id = id) values.assign
      db.dictionaries }

/-- `update_entity` of a project. -/
def updateProject (id : Uuid) (values : ProjectValues) (db : EntityDb) :
    Except Failure EntityDb := do
  raiseIf (values.isEmpty && values.name.isNone && values.description.isNone)
    (.value "update values must not be empty")
  validateOwner values.ownerId.join db
  raiseIf (!hasKey (fun row : ProjectRow ↦ row.id) id db.projects) (.lookup "entity")
  raiseIf (values.name.any fun name ↦ db.projects.any fun other ↦
      other.id ≠ id && other.name = name) (.integrity "uq_projects_name")
  return { db with projects := updateWhere (fun row ↦ row.id = id) values.assign db.projects }

/-- `update_entity` of a file. There are defaults for columns that are not kept here, so the values
are never empty. -/
def updateFile (id : Uuid) (values : FileValues) (db : EntityDb) : Except Failure EntityDb := do
  validateOwner values.ownerId.join db
  raiseIf (!hasKey (fun row : FileRow ↦ row.id) id db.files) (.lookup "entity")
  return { db with files := updateWhere (fun row ↦ row.id = id) values.assign db.files }

/-- Whether a foreign key names a document. -/
def Db.refersToDocument (db : Db) (id : Uuid) : Bool :=
  (db.chapters.any fun row ↦ row.documentId = id) ||
    (db.paragraphs.any fun row ↦ row.documentId = id) ||
    (db.semanticChunks.any fun row ↦ row.documentId = id) ||
    db.processingRuns.any fun run ↦ run.documentId = some id

/-- `update_entity` of a document. -/
def updateDocument (id : Uuid) (values : DocumentValues) (db : EntityDb) :
    Except Failure EntityDb := do
  validateOwner values.ownerId.join db
  raiseIf (!hasKey (fun row : DocumentRow ↦ row.id) id db.documents) (.lookup "entity")
  raiseIf (values.renames id && db.refersToDocument id) (.integrity "fk_chapters_document_id")
  let updated := updateWhere (fun row ↦ row.id = id) values.assign db.documents
  raiseIf (updated.any fun row ↦ updated.any fun other ↦ row.id ≠ other.id &&
      row.sourceUploadId = other.sourceUploadId && row.sourceVersion = other.sourceVersion)
    (.integrity "uq_documents_upload_version")
  return { db with documents := updated }

/-- `_dictionary_id`, and the column of a chunk that takes it in place of what it had. -/
def resetClassifier (call : EntityUpdateCall) (chunkUuid : Uuid) (table : DictionaryTable)
    (descr : Text) (db : EntityDb) : Except Failure EntityDb :=
  writeClassifier call.entryId chunkUuid (table, descr)
    { db with
      chunkDictionaries := db.chunkDictionaries.filter fun column ↦
        !(column.chunkUuid = chunkUuid && column.table = table) }

/-- `update_entity` of a chunk. A new text resets the status and the category of the chunk. -/
def updateSemanticChunkEntity (host : Host) (call : EntityUpdateCall) (id : Uuid)
    (values : TextValues) (db : EntityDb) : Except Failure EntityDb := do
  let updated ← updateChunkValues host call.toTextCall id values db.toDb
  if (values.text.or values.body).any fun text ↦ db.chunkText id ≠ some text then do
    let withStatus ← resetClassifier call id .chunkStatuses resetStatus { db with toDb := updated }
    resetClassifier call id .categories resetCategory withStatus
  else return { db with toDb := updated }

/-- `update_entity`. -/
def EntityDb.update (host : Host) (call : EntityUpdateCall) (id : Uuid) (values : UpdateValues)
    (db : EntityDb) : Except Failure EntityDb :=
  match values with
  | .dictionary table values => updateDictionary table id values db
  | .project values => updateProject id values db
  | .file values => updateFile id values db
  | .document values => updateDocument id values db
  | .paragraph values => do
    let updated ← updateParagraphValues id values db.toDb
    return { db with toDb := updated }
  | .semanticChunk values => updateSemanticChunkEntity host call id values db

/-- The table of an update. -/
def UpdateValues.table : UpdateValues → EntityTable
  | .dictionary table _ => .dictionary table
  | .project _ => .projects
  | .file _ => .files
  | .document _ => .documents
  | .paragraph _ => .paragraphs
  | .semanticChunk _ => .semanticChunks

/-! ### Addresses after an update -/

variable {host : Host} {db next : EntityDb}

/-- The address of a row after the row at an address has got another UUID. -/
def readdressed (old : EntityRef) (newId : Uuid) (ref : EntityRef) : EntityRef :=
  if ref = old then (old.1, newId) else ref

/-- The rows of another table keep their addresses. -/
theorem map_readdressed_of_ne {ρ : Type} {old : EntityRef} {newId : Uuid} {rows : List ρ}
    {address : ρ → EntityRef} (hother : ∀ row, (address row).1 ≠ old.1) :
    (rows.map address).map (readdressed old newId) = rows.map address := by
  rw [List.map_map]
  refine List.map_congr_left fun row _ ↦ if_neg fun heq ↦ ?_
  exact hother row (congrArg Prod.fst heq)

/-- The updated row gets its new address. -/
theorem map_readdressed_updateWhere {ρ : Type} {old : EntityRef} {newId : Uuid} {rows : List ρ}
    {address : ρ → EntityRef} {selected : ρ → Bool} {change : ρ → ρ}
    (hselected : ∀ row, selected row = true ↔ address row = old)
    (hchange : ∀ row, address row = old → address (change row) = (old.1, newId)) :
    (updateWhere selected change rows).map address =
      (rows.map address).map (readdressed old newId) := by
  rw [updateWhere, List.map_map, List.map_map]
  refine List.map_congr_left fun row _ ↦ ?_
  by_cases hrow : address row = old
  · simp only [Function.comp_apply, readdressed, if_pos hrow, if_pos ((hselected row).mpr hrow)]
    exact hchange row hrow
  · have hnot : ¬selected row = true := fun htrue ↦ hrow ((hselected row).mp htrue)
    simp only [Function.comp_apply, readdressed, if_neg hrow, if_neg hnot]

/-- An update that only gives the row at an address another UUID, as far as the registry is
concerned. -/
structure Readdressed (db next : EntityDb) (ref : EntityRef) (newId : Uuid) : Prop where
  registry : next.entityUuidRegistry = db.entityUuidRegistry
  mem : ref ∈ db.refs
  refs : next.refs = db.refs.map (readdressed ref newId)

/-- The registry stays exact when the UUID stays, and only then. -/
theorem Readdressed.registered_iff {ref : EntityRef} {newId : Uuid}
    (hreaddressed : Readdressed db next ref newId) (hregistered : db.Registered) :
    next.Registered ↔ newId = ref.2 := by
  show Mirrors Prod.snd next.entityUuidRegistry next.refs ↔ _
  rw [hreaddressed.registry, hreaddressed.refs]
  constructor
  · intro hnext
    by_contra hne
    refine hregistered.mirrors.not_of_rename (ref.1, newId) hreaddressed.mem ?_ hnext
    exact fun heq ↦ hne (congrArg Prod.snd heq)
  · rintro rfl
    have hsame : readdressed ref ref.2 = id := by
      funext other
      by_cases heq : other = ref
      · simp [readdressed, heq]
      · simp [readdressed, heq]
    rw [hsame, List.map_id]
    exact hregistered

theorem readdressed_of_updateDictionary {table : DictionaryTable} {id : Uuid}
    {values : DictionaryValues} (hupdate : updateDictionary table id values db = .ok next) :
    Readdressed db next (.dictionary table, id) (values.id.getD id) := by
  obtain ⟨-, hupdate⟩ := raiseIf_bind_eq_ok.mp hupdate
  obtain ⟨-, hupdate⟩ := raiseIf_bind_eq_ok.mp hupdate
  obtain ⟨_, -, hupdate⟩ := bind_eq_ok.mp hupdate
  obtain ⟨hthere, hupdate⟩ := raiseIf_bind_eq_ok.mp hupdate
  obtain ⟨-, hupdate⟩ := raiseIf_bind_eq_ok.mp hupdate
  obtain ⟨-, hnext⟩ := raiseIf_bind_eq_ok.mp hupdate
  cases hnext
  have hselected : ∀ row : DictionaryRow, (row.table = table && row.id = id) = true ↔
      ((.dictionary row.table, row.id) : EntityRef) = (.dictionary table, id) := by
    intro row
    simp
  refine ⟨rfl, ?_, ?_⟩
  · obtain ⟨row, hrow, hrowId⟩ := List.any_eq_true.mp (Bool.not_eq_eq_eq_not.mp hthere)
    exact List.mem_append_left _ (List.mem_map.mpr ⟨row, hrow, (hselected row).mp hrowId⟩)
  · have hchange : ∀ row : DictionaryRow,
        ((.dictionary row.table, row.id) : EntityRef) = (.dictionary table, id) →
          ((.dictionary (values.assign row).table, (values.assign row).id) : EntityRef) =
            (.dictionary table, values.id.getD id) := by
      rintro row heq
      cases heq
      rfl
    simp only [EntityDb.refs, Db.refs, List.map_append, ne_eq, reduceCtorEq, not_false_eq_true,
      implies_true, map_readdressed_of_ne]
    rw [map_readdressed_updateWhere hselected hchange]

theorem readdressed_of_updateProject {id : Uuid} {values : ProjectValues}
    (hupdate : updateProject id values db = .ok next) :
    Readdressed db next (.projects, id) (values.id.getD id) := by
  obtain ⟨-, hupdate⟩ := raiseIf_bind_eq_ok.mp hupdate
  obtain ⟨_, -, hupdate⟩ := bind_eq_ok.mp hupdate
  obtain ⟨hthere, hupdate⟩ := raiseIf_bind_eq_ok.mp hupdate
  obtain ⟨-, hnext⟩ := raiseIf_bind_eq_ok.mp hupdate
  cases hnext
  obtain ⟨row, hrow, hrowId⟩ := hasKey_eq_true.mp (Bool.not_eq_eq_eq_not.mp hthere)
  refine ⟨rfl, ?_, ?_⟩
  · simp only [EntityDb.refs, Db.refs, List.mem_append]
    exact Or.inr (Or.inl (Or.inl (Or.inl (Or.inl (Or.inl (List.mem_map.mpr
      ⟨row, hrow, congrArg _ hrowId⟩))))))
  · have hchange : ∀ row : ProjectRow, ((.projects, row.id) : EntityRef) = (.projects, id) →
        ((.projects, (values.assign row).id) : EntityRef) = (.projects, values.id.getD id) := by
      rintro row heq
      cases heq
      rfl
    simp only [EntityDb.refs, Db.refs, List.map_append, ne_eq, reduceCtorEq, not_false_eq_true,
      implies_true, map_readdressed_of_ne]
    rw [map_readdressed_updateWhere (by simp) hchange]

theorem readdressed_of_updateFile {id : Uuid} {values : FileValues}
    (hupdate : updateFile id values db = .ok next) :
    Readdressed db next (.files, id) (values.id.getD id) := by
  obtain ⟨_, -, hupdate⟩ := bind_eq_ok.mp hupdate
  obtain ⟨hthere, hnext⟩ := raiseIf_bind_eq_ok.mp hupdate
  cases hnext
  obtain ⟨row, hrow, hrowId⟩ := hasKey_eq_true.mp (Bool.not_eq_eq_eq_not.mp hthere)
  refine ⟨rfl, ?_, ?_⟩
  · simp only [EntityDb.refs, Db.refs, List.mem_append]
    exact Or.inr (Or.inl (Or.inl (Or.inl (Or.inl (Or.inr (List.mem_map.mpr
      ⟨row, hrow, congrArg _ hrowId⟩))))))
  · have hchange : ∀ row : FileRow, ((.files, row.id) : EntityRef) = (.files, id) →
        ((.files, (values.assign row).id) : EntityRef) = (.files, values.id.getD id) := by
      rintro row heq
      cases heq
      rfl
    simp only [EntityDb.refs, Db.refs, List.map_append, ne_eq, reduceCtorEq, not_false_eq_true,
      implies_true, map_readdressed_of_ne]
    rw [map_readdressed_updateWhere (by simp) hchange]

theorem readdressed_of_updateDocument {id : Uuid} {values : DocumentValues}
    (hupdate : updateDocument id values db = .ok next) :
    Readdressed db next (.documents, id) (values.id.getD id) := by
  obtain ⟨_, -, hupdate⟩ := bind_eq_ok.mp hupdate
  obtain ⟨hthere, hupdate⟩ := raiseIf_bind_eq_ok.mp hupdate
  obtain ⟨-, hupdate⟩ := raiseIf_bind_eq_ok.mp hupdate
  obtain ⟨-, hnext⟩ := raiseIf_bind_eq_ok.mp hupdate
  cases hnext
  obtain ⟨row, hrow, hrowId⟩ := hasKey_eq_true.mp (Bool.not_eq_eq_eq_not.mp hthere)
  refine ⟨rfl, ?_, ?_⟩
  · simp only [EntityDb.refs, Db.refs, List.mem_append]
    exact Or.inr (Or.inl (Or.inl (Or.inl (Or.inr (List.mem_map.mpr
      ⟨row, hrow, congrArg _ hrowId⟩)))))
  · have hchange : ∀ row : DocumentRow, ((.documents, row.id) : EntityRef) = (.documents, id) →
        ((.documents, (values.assign row).id) : EntityRef) = (.documents, values.id.getD id) := by
      rintro row heq
      cases heq
      rfl
    simp only [EntityDb.refs, Db.refs, List.map_append, ne_eq, reduceCtorEq, not_false_eq_true,
      implies_true, map_readdressed_of_ne]
    rw [map_readdressed_updateWhere (by simp) hchange]

/-! ### Texts -/

/-- An update of a paragraph keeps the registry exact. -/
theorem EntityDb.Registered.updateParagraph (hregistered : db.Registered) {id : Uuid}
    {values : TextValues} {updated : Db}
    (hupdate : updateParagraphValues id values db.toDb = .ok updated) :
    EntityDb.Registered { db with toDb := updated } := by
  obtain ⟨-, hupdate⟩ := raiseIf_bind_eq_ok.mp hupdate
  obtain ⟨-, hupdate⟩ := raiseIf_bind_eq_ok.mp hupdate
  obtain ⟨_, -, hupdate⟩ := bind_eq_ok.mp hupdate
  obtain ⟨-, hnext⟩ := raiseIf_bind_eq_ok.mp hupdate
  cases hnext
  refine Db.Registered.congr hregistered rfl ?_
  simp only [Db.refs, TextValues.assign, map_updateWhere, implies_true]

theorem EntityDb.Registered.resetClassifier (hregistered : db.Registered)
    {call : EntityUpdateCall} {chunkUuid : Uuid} {table : DictionaryTable} {descr : Text}
    (hreset : resetClassifier call chunkUuid table descr db = .ok next) : next.Registered := by
  refine EntityDb.Registered.writeClassifier ?_ hreset
  exact hregistered

/-- A new text of a chunk is nothing to the registry. -/
theorem Db.Registered.updateChunk {dictionaries : List EntityRef} {db next : Db}
    (hregistered : db.Registered dictionaries) {call : TextCall} {id : Uuid} {values : TextValues}
    (hupdate : updateChunkValues host call id values db = .ok next) :
    next.Registered dictionaries := by
  obtain ⟨-, hupdate⟩ := raiseIf_bind_eq_ok.mp hupdate
  obtain ⟨_, -, hupdate⟩ := bind_eq_ok.mp hupdate
  obtain ⟨-, hupdate⟩ := raiseIf_bind_eq_ok.mp hupdate
  obtain ⟨_, -, hupdate⟩ := bind_eq_ok.mp hupdate
  have hassigned : (assignChunkValues id values db).Registered dictionaries := by
    refine hregistered.congr rfl ?_
    simp only [Db.refs, assignChunkValues, TextValues.assign, map_updateWhere, implies_true]
  split at hupdate
  · cases hupdate
    exact hassigned
  · obtain ⟨chunk, -, hreplace⟩ := bind_eq_ok.mp hupdate
    split at hreplace
    · cases hreplace
      exact hassigned
    · obtain ⟨inserted, hinsert, hreplace⟩ := bind_eq_ok.mp hreplace
      obtain ⟨-, rfl⟩ := Db.insertVersion_eq_ok.mp hinsert
      obtain ⟨pointing, hpoint, hnext⟩ := bind_eq_ok.mp hreplace
      obtain ⟨-, hpoint⟩ := raiseIf_bind_eq_ok.mp hpoint
      obtain ⟨-, hpointing⟩ := raiseIf_bind_eq_ok.mp hpoint
      cases hpointing
      cases hnext
      refine hassigned.congr rfl ?_
      simp only [Db.refs, storeText, map_updateWhere, implies_true]

/-- An update of a chunk keeps the registry exact. -/
theorem EntityDb.Registered.updateSemanticChunk (hregistered : db.Registered)
    {call : EntityUpdateCall} {id : Uuid} {values : TextValues}
    (hupdate : updateSemanticChunkEntity host call id values db = .ok next) : next.Registered := by
  obtain ⟨updated, hchunk, hupdate⟩ := bind_eq_ok.mp hupdate
  have hupdated : EntityDb.Registered { db with toDb := updated } :=
    Db.Registered.updateChunk hregistered hchunk
  split at hupdate
  · obtain ⟨withStatus, hstatus, hcategory⟩ := bind_eq_ok.mp hupdate
    exact (hupdated.resetClassifier hstatus).resetClassifier hcategory
  · cases hupdate
    exact hupdated

/-! ### Runs -/

/-- An update that assigns no other UUID than the one that the row has. -/
def UpdateValues.KeepsId (values : UpdateValues) (id : Uuid) : Prop :=
  ∀ newId, values.newId = some newId → newId = id

instance (values : UpdateValues) (id : Uuid) : Decidable (values.KeepsId id) :=
  decidable_of_iff (values.newId.all fun newId ↦ newId = id) (by
    simp [UpdateValues.KeepsId, Option.all_eq_true])

/-- **An update keeps the registry exact exactly when it leaves the UUID of its row alone.** -/
theorem registered_update_iff (hregistered : db.Registered) {call : EntityUpdateCall} {id : Uuid}
    {values : UpdateValues} (hupdate : db.update host call id values = .ok next) :
    next.Registered ↔ values.KeepsId id := by
  have hgetD : ∀ assigned : Option Uuid,
      assigned.getD id = id ↔ ∀ newId, assigned = some newId → newId = id := by
    rintro (_ | assigned)
    · simp
    · simp
  cases values with
  | dictionary table values =>
    exact ((readdressed_of_updateDictionary hupdate).registered_iff hregistered).trans (hgetD _)
  | project values =>
    exact ((readdressed_of_updateProject hupdate).registered_iff hregistered).trans (hgetD _)
  | file values =>
    exact ((readdressed_of_updateFile hupdate).registered_iff hregistered).trans (hgetD _)
  | document values =>
    exact ((readdressed_of_updateDocument hupdate).registered_iff hregistered).trans (hgetD _)
  | paragraph values =>
    obtain ⟨updated, hparagraph, hnext⟩ := bind_eq_ok.mp hupdate
    cases hnext
    exact ⟨fun _ ↦ nofun, fun _ ↦ hregistered.updateParagraph hparagraph⟩
  | semanticChunk values =>
    exact ⟨fun _ ↦ nofun, fun _ ↦ hregistered.updateSemanticChunk hupdate⟩

/-- An operation on the entities, updates included. -/
inductive EntityOperation where
  | entity (action : EntityAction)
  | update (call : EntityUpdateCall) (id : Uuid) (values : UpdateValues)

/-- What an operation leaves when it succeeds. -/
def EntityOperation.apply (host : Host) (db : EntityDb) : EntityOperation → Except Failure EntityDb
  | .entity action => action.apply host db
  | .update call id values => db.update host call id values

/-- One operation, under the primary keys of the tables: once UUIDs change, the registry no longer
stands for them. -/
def operationStep (host : Host) (db : EntityDb) (operation : EntityOperation) : Option EntityDb :=
  (toOption (operation.apply host db)).filter fun next ↦ next.refs.Nodup

/-- Every update leaves the UUID of its row alone. -/
def KeepsIds (_ : EntityDb) : EntityOperation → Prop
  | .entity _ => True
  | .update _ id values => values.KeepsId id

instance (db : EntityDb) : ∀ operation : EntityOperation, Decidable (KeepsIds db operation)
  | .entity _ => .isTrue trivial
  | .update _ id values => inferInstanceAs (Decidable (values.KeepsId id))

/-- A step succeeds as its operation does. -/
theorem apply_of_operationStep {operation : EntityOperation}
    (hstep : operationStep host db operation = some next) :
    operation.apply host db = .ok next :=
  toOption_eq_some.mp (Option.eq_some_of_filter_eq_some hstep)

/-- A project is created and gets a description. -/
def describedProject : List EntityOperation :=
  [.entity (.create (.project sampleProject)),
    .update { now := 0, versionId := 0, entryId := fun _ _ ↦ 0 } 1
      (.project { description := some (lit "d") })]

/-- The tables with the described project. -/
def describedTables : EntityDb :=
  (replay (guarded (operationStep sampleHost) KeepsIds) {} describedProject).getD {}

/-- The tables with a project that was given the UUID 2. -/
def renamedTables : EntityDb :=
  (replay (guarded (operationStep sampleHost) fun _ _ ↦ True) {}
    [.entity (.create (.project sampleProject)),
      .update { now := 0, versionId := 0, entryId := fun _ _ ↦ 0 } 1
        (.project { id := some 2 })]).getD {}

end DocStore
