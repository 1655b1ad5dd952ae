import DocStore.Domain.Embeddings
import DocStore.Runtime.CurrentVersion
import DocStore.Runtime.TextUpdates

/-!
# Invalidation of derived data

Three modules change the text of a chunk or of a paragraph, and each invalidates what was computed
from the old text by statements of its own. The version service deactivates the embeddings of the
chunk and of the paragraph, the document and the file above it, and flags the document and the file.
`update_entity` and the chunk repository delete the embeddings of the chunk and leave the levels
above it as they are; and nothing is invalidated with the text of a paragraph. So what they leave is
invalidated exactly when the levels that they pass over were so before.
-/

set_option autoImplicit false
set_option relaxedAutoImplicit false

namespace DocStore

open Foundation

variable {ν : Type}

/-! ### The version service -/

/-- `_invalidate_derived_rows`. -/
def invalidateDerivedRows (chunkUuid : Uuid) (store : VectorDb ν) : VectorDb ν :=
  let chunks := store.semanticChunks.filter fun row ↦ row.id = chunkUuid
  let paragraphIds := chunks.map fun row ↦ row.paragraphId
  let documentIds := chunks.map fun row ↦ row.documentId
  let ownerIds := documentIds.flatMap store.documentOwners
  let stale (entityType : VectorEntity) (ids : List Uuid) (row : EmbeddingRow ν) : Bool :=
    row.entityType = entityType && ids.contains row.entityId
  { store with
    embeddings := deactivate (stale .file ownerIds) (deactivate (stale .document documentIds)
      (deactivate (stale .paragraph paragraphIds) (deactivate (stale .semanticChunk [chunkUuid])
        store.embeddings)))
    documentsToRevectorize := setFlag documentIds.contains (store.documents.map fun row ↦ row.id)
      store.documentsToRevectorize
    filesToRevectorize := setFlag ownerIds.contains (store.files.map fun row ↦ row.id)
      store.filesToRevectorize }

/-- Whether a call that succeeds activates a version. -/
def VersionAction.activates (action : VersionAction) (db : Db) (reply : VersionReply) : Bool :=
  match action.operation with
  | .appendVersion _ _ | .updateText _ _ => reply.outcome = "appended"
  | .restoreVersion _ _ | .setCurrent _ => true
  | .retireVersion versionNo _ =>
    (db.version action.chunkUuid versionNo.toNat).any SemanticChunkVersion.isCurrent
  | .deleteVersion versionNo =>
    (db.version action.chunkUuid versionNo.toNat).any fun row ↦
      (deleteRow db row).pointedVersion action.chunkUuid = some row.id

/-- A call of the version service, with the invalidation that ends an activation. -/
def VersionAction.applyTo (host : Host) (action : VersionAction) (store : VectorDb ν) :
    Except Failure (VectorDb ν) := do
  let (reply, db) ← action.apply host store.toDb
  let next := { store with toDb := db }
  return if action.activates store.toDb reply then invalidateDerivedRows action.chunkUuid next
    else next

/-! ### The other writers -/

/-- `DELETE FROM semantic_chunk_embeddings WHERE chunk_uuid = :chunk_uuid`. -/
def deleteEmbeddings (chunkUuid : Uuid) (store : VectorDb ν) : VectorDb ν :=
  { store with
    embeddings := deleteWhere (fun row ↦ row.chunkUuid = some chunkUuid) store.embeddings }

/-- `update_entity` of a chunk. The embeddings go with a text that is replaced. -/
def updateChunk (host : Host) (call : TextCall) (chunkUuid : Uuid) (values : TextValues)
    (store : VectorDb ν) : Except Failure (VectorDb ν) := do
  let db ← updateChunkValues host call chunkUuid values store.toDb
  let next := { store with toDb := db }
  return if (values.text.or values.body).any fun textValue ↦
      store.chunkText chunkUuid ≠ some textValue then deleteEmbeddings chunkUuid next
    else next

/-- `update_entity` of a paragraph. -/
def updateParagraph (paragraphId : Uuid) (values : TextValues) (store : VectorDb ν) :
    Except Failure (VectorDb ν) := do
  let db ← updateParagraphValues paragraphId values store.toDb
  return { store with toDb := db }

/-- The embedding that comes with a chunk. -/
structure EmbeddingPayload (ν : Type) where
  vector : ν
  model : Text
  dimension : ℕ
  provider : Text
  modelVersion : Text
  active : Bool

/-- Whether an embedding of a chunk is one of a model. -/
def EmbeddingPayload.sameModel (payload : EmbeddingPayload ν) (chunkUuid : Uuid)
    (row : EmbeddingRow ν) : Bool :=
  row.chunkUuid = some chunkUuid && row.model = payload.model && row.dimension = payload.dimension

/-- `_upsert_embeddings`. A new row would name no entity, which the column refuses. -/
def upsertEmbedding (chunkUuid : Uuid) (payload : EmbeddingPayload ν) (store : VectorDb ν) :
    Except Failure (VectorDb ν) := do
  let embeddings := if payload.active then deactivate (payload.sameModel chunkUuid) store.embeddings
    else store.embeddings
  let existing (row : EmbeddingRow ν) : Bool := payload.sameModel chunkUuid row &&
    row.provider = payload.provider && row.modelVersion = payload.modelVersion
  raiseIf (!embeddings.any existing) (.integrity "semantic_chunk_embeddings.entity_id")
  return { store with
    embeddings := updateWhere existing
      (fun row ↦ { row with
        vector := payload.vector
        active := payload.active
        chunkVersionId := store.pointedVersion chunkUuid })
      embeddings }

/-- `SemanticChunkRepository.upsert`. A changed text comes without its embeddings. -/
def upsertAggregate (host : Host) (root : RootRow) (embedding : Option (EmbeddingPayload ν))
    (store : VectorDb ν) : Except Failure (VectorDb ν) := do
  let db ← upsertChunk host root store.toDb
  let next := { store with toDb := db }
  if rootTextChanged root store.toDb then return deleteEmbeddings root.id next
  else match embedding with
    | none => return next
    | some payload => upsertEmbedding root.id payload next

/-! ### Operations on texts -/

/-- The operations that may change the text of a chunk or of a paragraph. -/
inductive TextOperation (ν : Type) where
  | version (action : VersionAction)
  | updateChunk (call : TextCall) (chunkUuid : Uuid) (values : TextValues)
  | updateParagraph (paragraphId : Uuid) (values : TextValues)
  | upsert (root : RootRow) (embedding : Option (EmbeddingPayload ν))

namespace TextOperation

/-- What an operation does. -/
def apply (host : Host) (operation : TextOperation ν) (store : VectorDb ν) :
    Except Failure (VectorDb ν) :=
  match operation with
  | .version action => action.applyTo host store
  | .updateChunk call chunkUuid values => DocStore.updateChunk host call chunkUuid values store
  | .updateParagraph paragraphId values => DocStore.updateParagraph paragraphId values store
  | .upsert root embedding => upsertAggregate host root embedding store

/-- The stored text that an operation is about. -/
def text (operation : TextOperation ν) (store : VectorDb ν) : Option Text :=
  match operation with
  | .version action => store.storedText action.chunkUuid
  | .updateChunk _ chunkUuid _ => store.storedText chunkUuid
  | .updateParagraph paragraphId _ => store.paragraphText paragraphId
  | .upsert root _ => store.storedText root.id

/-- What is computed from that text: the chunk or the paragraph with everything above it. -/
def scope (operation : TextOperation ν) (store : VectorDb ν) : List (VectorEntity × Uuid) :=
  match operation with
  | .version action => store.chunkScope action.chunkUuid
  | .updateChunk _ chunkUuid _ => store.chunkScope chunkUuid
  | .updateParagraph paragraphId _ => store.paragraphScope paragraphId
  | .upsert root _ => store.chunkScope root.id

end TextOperation

/-! ### What the version service leaves alone -/

/-- Where a chunk stands in the hierarchy. -/
def SemanticChunkRow.place (row : SemanticChunkRow) : Uuid × Uuid × Uuid :=
  (row.id, row.paragraphId, row.documentId)

/-- The hierarchy of two states is the same, down to the places of the chunks. -/
structure SameHierarchy (db next : Db) : Prop where
  files : next.files = db.files
  documents : next.documents = db.documents
  places : next.semanticChunks.map SemanticChunkRow.place =
    db.semanticChunks.map SemanticChunkRow.place

/-- The texts of two states are the same, too. -/
structure SameTexts (db next : Db) : Prop extends SameHierarchy db next where
  chunks : next.semanticChunks = db.semanticChunks
  texts : next.semanticChunkTexts = db.semanticChunkTexts

section Service

variable {host : Host} {call : VersionCall} {chunkUuid : Uuid} {db middle next : Db}
  {row : SemanticChunkVersion} {operation : Text} {action : VersionAction} {reply : VersionReply}

theorem SameTexts.refl (db : Db) : SameTexts db db := ⟨⟨rfl, rfl, rfl⟩, rfl, rfl⟩

theorem SameHierarchy.trans (hfirst : SameHierarchy db middle) (hsecond : SameHierarchy middle next) :
    SameHierarchy db next :=
  ⟨hsecond.files.trans hfirst.files, hsecond.documents.trans hfirst.documents,
    hsecond.places.trans hfirst.places⟩

theorem sameTexts_of_insertChunkVersion {chunk : SemanticChunkRow} {versionNo : ℕ} {value : Text}
    {previous restored : Option Uuid} (hinsert : insertChunkVersion host call chunk versionNo value
      operation previous restored db = .ok (row, next)) : SameTexts db next := by
  obtain ⟨-, hinsert⟩ := raiseIf_bind_eq_ok.mp hinsert
  obtain ⟨-, hinsert⟩ := raiseIf_bind_eq_ok.mp hinsert
  obtain ⟨inserted, hversion, hinsert⟩ := bind_eq_ok.mp hinsert
  cases hinsert
  obtain ⟨-, rfl⟩ := Db.insertVersion_eq_ok.mp hversion
  exact ⟨⟨rfl, rfl, rfl⟩, rfl, rfl⟩

theorem sameHierarchy_of_activate (hactivate : activate call chunkUuid row operation db = .ok next) :
    SameHierarchy db next := by
  rw [activate_eq_ok hactivate]
  exact ⟨rfl, rfl, map_updateWhere (by intro _; rfl) _⟩

theorem sameTexts_retireRow (versionId : Uuid) : SameTexts db (retireRow call db versionId) :=
  ⟨⟨rfl, rfl, rfl⟩, rfl, rfl⟩

theorem sameTexts_deleteRow : SameTexts db (deleteRow db row) :=
  ⟨⟨rfl, rfl, rfl⟩, rfl, rfl⟩

/-- A call leaves the hierarchy alone, and the texts unless it activates a version. -/
structure LeavesAlone (db next : Db) (activates : Bool) : Prop where
  hierarchy : SameHierarchy db next
  texts : activates = false → SameTexts db next

theorem LeavesAlone.of_sameTexts {activates : Bool} (hsame : SameTexts db next) :
    LeavesAlone db next activates :=
  ⟨hsame.toSameHierarchy, fun _ ↦ hsame⟩

theorem leavesAlone_of_appendAndActivate {textValue : Text} {expected : Option ℤ}
    (happly : appendAndActivate host call chunkUuid db textValue operation expected =
      .ok (reply, next)) : LeavesAlone db next (reply.outcome = "appended") := by
  obtain ⟨chunk, -, happly⟩ := bind_eq_ok.mp happly
  obtain ⟨-, -, happly⟩ := bind_eq_ok.mp happly
  dsimp only at happly
  split at happly
  · cases happly
    exact .of_sameTexts (SameTexts.refl db)
  · obtain ⟨⟨row, inserted⟩, hinsert, happly⟩ := bind_eq_ok.mp happly
    obtain ⟨activated, hactivate, happly⟩ := bind_eq_ok.mp happly
    cases happly
    exact ⟨(sameTexts_of_insertChunkVersion hinsert).toSameHierarchy.trans (sameHierarchy_of_activate hactivate),
      by simp⟩

theorem sameHierarchy_of_restoreVersion {number : ℤ} {expected : Option ℤ}
    (happly : restoreVersion host call chunkUuid db number expected = .ok (reply, next)) :
    SameHierarchy db next := by
  obtain ⟨wanted, -, happly⟩ := bind_eq_ok.mp happly
  obtain ⟨chunk, -, happly⟩ := bind_eq_ok.mp happly
  split at happly
  · cases happly
  · obtain ⟨-, -, happly⟩ := bind_eq_ok.mp happly
    obtain ⟨⟨row, inserted⟩, hinsert, happly⟩ := bind_eq_ok.mp happly
    obtain ⟨activated, hactivate, happly⟩ := bind_eq_ok.mp happly
    cases happly
    exact (sameTexts_of_insertChunkVersion hinsert).toSameHierarchy.trans (sameHierarchy_of_activate hactivate)

theorem sameHierarchy_of_setCurrentVersion {number : ℤ}
    (happly : setCurrentVersion call chunkUuid db number = .ok (reply, next)) :
    SameHierarchy db next := by
  obtain ⟨wanted, -, happly⟩ := bind_eq_ok.mp happly
  obtain ⟨chunk, -, happly⟩ := bind_eq_ok.mp happly
  split at happly
  · cases happly
  · obtain ⟨activated, hactivate, happly⟩ := bind_eq_ok.mp happly
    cases happly
    exact sameHierarchy_of_activate hactivate

theorem leavesAlone_of_replaceCurrent {versionNo : ℕ} {replacement : Option ℕ}
    (hreplace : replaceCurrent call chunkUuid db row versionNo replacement = .ok next) :
    LeavesAlone db next row.isCurrent := by
  unfold replaceCurrent at hreplace
  split at hreplace
  next hcurrent =>
    refine ⟨?_, fun hnot ↦ absurd hcurrent (hnot ▸ Bool.false_ne_true)⟩
    unfold activateReplacement at hreplace
    split at hreplace
    · cases hreplace
    · split at hreplace
      · cases hreplace
      · exact sameHierarchy_of_activate hreplace
  next =>
    cases hreplace
    exact .of_sameTexts (SameTexts.refl db)

theorem leavesAlone_of_retireVersion {number : ℤ} {replacement : Option ℤ}
    (happly : retireVersion call chunkUuid db number replacement = .ok (reply, next)) :
    LeavesAlone db next ((db.version chunkUuid number.toNat).any SemanticChunkVersion.isCurrent) := by
  obtain ⟨wanted, hwanted, happly⟩ := bind_eq_ok.mp happly
  obtain ⟨-, hwanted⟩ := raiseIf_bind_eq_ok.mp hwanted
  cases hwanted
  obtain ⟨replacing, -, happly⟩ := bind_eq_ok.mp happly
  obtain ⟨chunk, -, happly⟩ := bind_eq_ok.mp happly
  split at happly
  · cases happly
  next row hfound =>
    obtain ⟨hversion, -⟩ := Option.filter_eq_some_iff.mp hfound
    obtain ⟨-, happly⟩ := raiseIf_bind_eq_ok.mp happly
    obtain ⟨replaced, hreplace, happly⟩ := bind_eq_ok.mp happly
    obtain ⟨-, happly⟩ := raiseIf_bind_eq_ok.mp happly
    cases happly
    have hleaves := leavesAlone_of_replaceCurrent hreplace
    rw [hversion, Option.any_some]
    have hretired : SameHierarchy db (retireRow call replaced row.id) :=
      hleaves.hierarchy.trans (sameTexts_retireRow row.id).toSameHierarchy
    exact ⟨hretired, fun hnot ↦ ⟨hretired, (hleaves.texts hnot).chunks, (hleaves.texts hnot).texts⟩⟩

theorem leavesAlone_of_deleteVersion {number : ℤ}
    (happly : deleteVersion call chunkUuid db number = .ok (reply, next)) :
    LeavesAlone db next ((db.version chunkUuid number.toNat).any fun row ↦
      (deleteRow db row).pointedVersion chunkUuid = some row.id) := by
  obtain ⟨wanted, hwanted, happly⟩ := bind_eq_ok.mp happly
  obtain ⟨-, hwanted⟩ := raiseIf_bind_eq_ok.mp hwanted
  cases hwanted
  obtain ⟨chunk, -, happly⟩ := bind_eq_ok.mp happly
  split at happly
  · cases happly
  next row hversion =>
    obtain ⟨-, happly⟩ := raiseIf_bind_eq_ok.mp happly
    obtain ⟨reactivated, hreactivate, happly⟩ := bind_eq_ok.mp happly
    cases happly
    rw [hversion, Option.any_some]
    unfold reactivateLatest at hreactivate
    dsimp only at hreactivate
    split at hreactivate
    next hpointed =>
      refine ⟨?_, fun hnot ↦ absurd hpointed (of_decide_eq_false hnot)⟩
      split at hreactivate
      · cases hreactivate
      · exact sameTexts_deleteRow.toSameHierarchy.trans (sameHierarchy_of_activate hreactivate)
    next =>
      cases hreactivate
      exact .of_sameTexts sameTexts_deleteRow

/-- **What a call of the version service leaves alone.** -/
theorem leavesAlone_of_apply (happly : action.apply host db = .ok (reply, next)) :
    LeavesAlone db next (action.activates db reply) := by
  obtain ⟨chunkUuid, call, operation⟩ := action
  cases operation with
  | appendVersion => exact leavesAlone_of_appendAndActivate happly
  | updateText => exact leavesAlone_of_appendAndActivate happly
  | restoreVersion => exact ⟨sameHierarchy_of_restoreVersion happly, fun hnot ↦ by cases hnot⟩
  | setCurrent => exact ⟨sameHierarchy_of_setCurrentVersion happly, fun hnot ↦ by cases hnot⟩
  | retireVersion => exact leavesAlone_of_retireVersion happly
  | deleteVersion => exact leavesAlone_of_deleteVersion happly

end Service

/-! ### Scopes -/

section Scopes

variable {db next : Db} {chunkUuid : Uuid}

theorem documentScope_congr (hdocuments : next.documents = db.documents) (documentId : Uuid) :
    next.documentScope documentId = db.documentScope documentId := by
  rw [Db.documentScope, Db.documentOwners, hdocuments]
  rfl

theorem SameHierarchy.aboveChunk_eq (hsame : SameHierarchy db next) (chunkUuid : Uuid) :
    next.aboveChunk chunkUuid = db.aboveChunk chunkUuid := by
  have hplaces : ∀ tables : Db, tables.aboveChunk chunkUuid =
      ((tables.semanticChunks.map SemanticChunkRow.place).filter fun place ↦
        place.1 = chunkUuid).flatMap fun place ↦
          (.paragraph, place.2.1) :: tables.documentScope place.2.2 := by
    intro tables
    rw [List.filter_map, List.flatMap_map]
    rfl
  rw [hplaces, hplaces, hsame.places]
  simp only [documentScope_congr hsame.documents]

theorem mem_chunkScope {entity : VectorEntity × Uuid} :
    entity ∈ db.chunkScope chunkUuid ↔ entity = (.semanticChunk, chunkUuid) ∨
      ∃ chunk ∈ db.semanticChunks, chunk.id = chunkUuid ∧
        (entity = (.paragraph, chunk.paragraphId) ∨ entity = (.document, chunk.documentId) ∨
          ∃ ownerId ∈ db.documentOwners chunk.documentId, (.file, ownerId) = entity) := by
  simp only [Db.chunkScope, Db.aboveChunk, Db.documentScope, List.mem_cons, List.mem_flatMap,
    List.mem_filter, decide_eq_true_eq, List.mem_map, and_assoc]

/-- **What `_invalidate_derived_rows` leaves.** -/
theorem invalidated_invalidateDerivedRows (chunkUuid : Uuid) (store : VectorDb ν) :
    Invalidated (store.chunkScope chunkUuid) (invalidateDerivedRows chunkUuid store) := by
  set chunks := store.semanticChunks.filter fun row ↦ row.id = chunkUuid with hchunks
  have hselected : ∀ chunk ∈ store.semanticChunks, chunk.id = chunkUuid → chunk ∈ chunks :=
    fun chunk hmem hid ↦ List.mem_filter.mpr ⟨hmem, decide_eq_true hid⟩
  have hdocuments : ∀ id, (.document, id) ∈ store.chunkScope chunkUuid →
      id ∈ chunks.map fun row ↦ row.documentId := by
    intro id hscope
    rcases mem_chunkScope.mp hscope with hentity | ⟨chunk, hmem, hid, hentity⟩
    · cases hentity
    · rcases hentity with hentity | hentity | ⟨ownerId, -, hentity⟩ <;> cases hentity
      exact List.mem_map_of_mem (hselected chunk hmem hid)
  have howners : ∀ id, (.file, id) ∈ store.chunkScope chunkUuid →
      id ∈ (chunks.map fun row ↦ row.documentId).flatMap store.documentOwners := by
    intro id hscope
    rcases mem_chunkScope.mp hscope with hentity | ⟨chunk, hmem, hid, hentity⟩
    · cases hentity
    · rcases hentity with hentity | hentity | ⟨ownerId, howner, hentity⟩ <;> cases hentity
      exact List.mem_flatMap.mpr ⟨_, List.mem_map_of_mem (hselected chunk hmem hid), howner⟩
  have hparagraphs : ∀ id, (.paragraph, id) ∈ store.chunkScope chunkUuid →
      id ∈ chunks.map fun row ↦ row.paragraphId := by
    intro id hscope
    rcases mem_chunkScope.mp hscope with hentity | ⟨chunk, hmem, hid, hentity⟩
    · cases hentity
    · rcases hentity with hentity | hentity | ⟨ownerId, -, hentity⟩ <;> cases hentity
      exact List.mem_map_of_mem (hselected chunk hmem hid)
  constructor
  · intro row hmem hactive hscope
    obtain ⟨hmem, hactive, hfile⟩ := mem_deactivate_active.mp ⟨hmem, hactive⟩
    obtain ⟨hmem, hactive, hdocument⟩ := mem_deactivate_active.mp ⟨hmem, hactive⟩
    obtain ⟨hmem, hactive, hparagraph⟩ := mem_deactivate_active.mp ⟨hmem, hactive⟩
    obtain ⟨-, -, hchunk⟩ := mem_deactivate_active.mp ⟨hmem, hactive⟩
    simp only [Bool.and_eq_false_imp, decide_eq_true_eq, List.contains_eq_mem,
      decide_eq_false_iff_not] at hfile hdocument hparagraph hchunk
    have hentity : row.entity = (row.entityType, row.entityId) := rfl
    cases htype : row.entityType with
    | semanticChunk =>
      refine hchunk htype (List.mem_singleton.mpr ?_)
      rw [hentity, htype, mem_chunkScope] at hscope
      rcases hscope with hsame | ⟨chunk, -, -, hsame | hsame | ⟨ownerId, -, hsame⟩⟩ <;> cases hsame
      rfl
    | paragraph => exact hparagraph htype (hparagraphs _ (htype ▸ hscope))
    | document => exact hdocument htype (hdocuments _ (htype ▸ hscope))
    | file => exact hfile htype (howners _ (htype ▸ hscope))
  · intro row hmem hscope
    refine mem_setFlag.mpr (Or.inr ⟨List.mem_map_of_mem hmem, ?_⟩)
    exact List.contains_iff_mem.mpr (hdocuments row.id hscope)
  · intro row hmem hscope
    refine mem_setFlag.mpr (Or.inr ⟨List.mem_map_of_mem hmem, ?_⟩)
    exact List.contains_iff_mem.mpr (howners row.id hscope)

end Scopes

/-! ### What every operation leaves -/

/-- What an operation passes over was invalidated before: no embedding of the scope is active but
those that name the chunk itself, and the flags are set. -/
structure InvalidatedButFor (chunkUuid : Uuid) (scope : List (VectorEntity × Uuid))
    (store : VectorDb ν) : Prop where
  embeddings : ∀ row ∈ store.embeddings, row.active = true → row.entity ∈ scope →
    row.chunkUuid = some chunkUuid
  documents : ∀ row ∈ store.documents, (.document, row.id) ∈ scope →
    row.id ∈ store.documentsToRevectorize
  files : ∀ row ∈ store.files, (.file, row.id) ∈ scope → row.id ∈ store.filesToRevectorize

/-- When an operation leaves nothing that was computed from the old text in use: always when it is
one of the version service, and otherwise when what it passes over was not in use before. -/
def TextOperation.Covered (operation : TextOperation ν) (store : VectorDb ν) : Prop :=
  match operation with
  | .version _ => True
  | .updateChunk _ chunkUuid _ => InvalidatedButFor chunkUuid (store.chunkScope chunkUuid) store
  | .updateParagraph paragraphId _ => Invalidated (store.paragraphScope paragraphId) store
  | .upsert root _ => InvalidatedButFor root.id (store.chunkScope root.id) store

section Operations

variable {host : Host} {store next : VectorDb ν} {scope : List (VectorEntity × Uuid)}
  {db tables : Db} {chunkUuid : Uuid}

/-- Whether something is invalidated is read from the files, the documents, the flags and the
embeddings. -/
theorem invalidated_congr (hfiles : tables.files = store.files)
    (hdocuments : tables.documents = store.documents) :
    Invalidated scope { store with toDb := tables } ↔ Invalidated scope store :=
  ⟨fun hleft ↦ ⟨hleft.embeddings, hdocuments ▸ hleft.documents, hfiles ▸ hleft.files⟩,
    fun hbefore ↦ ⟨hbefore.embeddings, fun row hmem ↦ hbefore.documents row (hdocuments ▸ hmem),
      fun row hmem ↦ hbefore.files row (hfiles ▸ hmem)⟩⟩

/-- The embeddings that a deletion leaves are those that do not name the chunk. -/
theorem invalidated_deleteEmbeddings_iff (hfiles : tables.files = store.files)
    (hdocuments : tables.documents = store.documents) :
    Invalidated scope (deleteEmbeddings chunkUuid { store with toDb := tables }) ↔
      InvalidatedButFor chunkUuid scope store := by
  constructor
  · intro hleft
    refine ⟨fun row hmem hactive hscope ↦ ?_, hdocuments ▸ hleft.documents, hfiles ▸ hleft.files⟩
    by_contra hother
    refine hleft.embeddings row (List.mem_filter.mpr ⟨hmem, ?_⟩) hactive hscope
    simpa using hother
  · intro hbefore
    refine ⟨fun row hmem hactive hscope ↦ ?_, ?_, ?_⟩
    · obtain ⟨hmem, hother⟩ := List.mem_filter.mp hmem
      simp [hbefore.embeddings row hmem hactive hscope] at hother
    · exact fun row hmem ↦ hbefore.documents row (hdocuments ▸ hmem)
    · exact fun row hmem ↦ hbefore.files row (hfiles ▸ hmem)

/-! ### The version service -/

theorem invalidated_of_applyTo {action : VersionAction} {old : Text}
    (hold : store.storedText action.chunkUuid = some old)
    (happly : action.applyTo host store = .ok next)
    (hchanged : next.storedText action.chunkUuid ≠ some old) :
    Invalidated (store.chunkScope action.chunkUuid) next := by
  obtain ⟨⟨reply, db⟩, happly, hnext⟩ := bind_eq_ok.mp happly
  have hleaves := leavesAlone_of_apply happly
  cases hactivates : action.activates store.toDb reply with
  | true =>
    simp only [hactivates, if_true] at hnext
    cases hnext
    have hscope : db.chunkScope action.chunkUuid = store.chunkScope action.chunkUuid :=
      congrArg (List.cons _) (hleaves.hierarchy.aboveChunk_eq action.chunkUuid)
    exact hscope ▸ invalidated_invalidateDerivedRows action.chunkUuid { store with toDb := db }
  | false =>
    simp only [hactivates] at hnext
    cases hnext
    have hsame := hleaves.texts hactivates
    refine absurd ?_ hchanged
    show db.storedText action.chunkUuid = some old
    rw [← hold, Db.storedText, Db.chunkText, Db.textRow, hsame.chunks, hsame.texts]
    rfl

/-! ### The other writers -/

theorem filing_of_replaceSemanticChunkText {call : TextCall} {textValue : Text} {next : Db}
    (hreplace : replaceSemanticChunkText host call chunkUuid textValue db = .ok next) :
    next.files = db.files ∧ next.documents = db.documents := by
  obtain ⟨chunk, -, hreplace⟩ := bind_eq_ok.mp hreplace
  split at hreplace
  · cases hreplace
    exact ⟨rfl, rfl⟩
  · obtain ⟨inserted, hinsert, hreplace⟩ := bind_eq_ok.mp hreplace
    obtain ⟨-, rfl⟩ := Db.insertVersion_eq_ok.mp hinsert
    obtain ⟨pointing, hpoint, hreplace⟩ := bind_eq_ok.mp hreplace
    obtain ⟨-, hpoint⟩ := raiseIf_bind_eq_ok.mp hpoint
    obtain ⟨-, hpoint⟩ := raiseIf_bind_eq_ok.mp hpoint
    cases hpoint
    cases hreplace
    exact ⟨rfl, rfl⟩

theorem filing_of_updateChunkValues {call : TextCall} {values : TextValues} {next : Db}
    (hupdate : updateChunkValues host call chunkUuid values db = .ok next) :
    next.files = db.files ∧ next.documents = db.documents := by
  obtain ⟨-, hupdate⟩ := raiseIf_bind_eq_ok.mp hupdate
  obtain ⟨-, -, hupdate⟩ := bind_eq_ok.mp hupdate
  obtain ⟨-, hupdate⟩ := raiseIf_bind_eq_ok.mp hupdate
  obtain ⟨-, -, hupdate⟩ := bind_eq_ok.mp hupdate
  dsimp only at hupdate
  split at hupdate
  · cases hupdate
    exact ⟨rfl, rfl⟩
  · have hfiling := filing_of_replaceSemanticChunkText hupdate
    exact hfiling

theorem filing_of_updateParagraphValues {paragraphId : Uuid} {values : TextValues} {next : Db}
    (hupdate : updateParagraphValues paragraphId values db = .ok next) :
    next.files = db.files ∧ next.documents = db.documents := by
  obtain ⟨-, hupdate⟩ := raiseIf_bind_eq_ok.mp hupdate
  obtain ⟨-, hupdate⟩ := raiseIf_bind_eq_ok.mp hupdate
  obtain ⟨-, -, hupdate⟩ := bind_eq_ok.mp hupdate
  obtain ⟨-, hupdate⟩ := raiseIf_bind_eq_ok.mp hupdate
  cases hupdate
  exact ⟨rfl, rfl⟩

/-- The text of a chunk is not among its other columns. -/
theorem storedText_assignChunkValues (values : TextValues) :
    (assignChunkValues chunkUuid values db).storedText chunkUuid = db.storedText chunkUuid := by
  have hkeep : ∀ row : SemanticChunkRow,
      (if row.id = chunkUuid then ({ row with
        toEntityRow := values.assign row.toEntityRow
        blockMeta := values.blockMeta.getD row.blockMeta } : SemanticChunkRow) else row).text =
          row.text := by
    intro row
    split <;> rfl
  rw [Db.storedText, assignChunkValues, lookup_updateWhere (by intro _; rfl), Option.map_map]
  refine Option.map_congr fun row _ ↦ ?_
  simp only [Function.comp_apply, decide_eq_true_eq, hkeep]
  rfl

/-- A chunk whose text is not replaced keeps its stored text. -/
theorem storedText_of_updateChunkValues {call : TextCall} {values : TextValues} {next : Db}
    (hupdate : updateChunkValues host call chunkUuid values db = .ok next)
    (hsame : ((values.text.or values.body).any fun textValue ↦
      db.chunkText chunkUuid ≠ some textValue) = false) :
    next.storedText chunkUuid = db.storedText chunkUuid := by
  obtain ⟨-, hupdate⟩ := raiseIf_bind_eq_ok.mp hupdate
  obtain ⟨-, -, hupdate⟩ := bind_eq_ok.mp hupdate
  obtain ⟨-, hupdate⟩ := raiseIf_bind_eq_ok.mp hupdate
  obtain ⟨-, -, hupdate⟩ := bind_eq_ok.mp hupdate
  dsimp only at hupdate
  split at hupdate
  · cases hupdate
    exact storedText_assignChunkValues values
  next textValue hvalue =>
    rw [hvalue, Option.any_some, decide_eq_false_iff_not, not_not] at hsame
    obtain ⟨chunk, -, hupdate⟩ := bind_eq_ok.mp hupdate
    rw [if_pos (show (assignChunkValues chunkUuid values db).chunkText chunkUuid = _ from hsame)]
      at hupdate
    cases hupdate
    exact storedText_assignChunkValues values

theorem invalidated_iff_of_updateChunk {call : TextCall} {values : TextValues} {old : Text}
    (hold : store.storedText chunkUuid = some old)
    (happly : updateChunk host call chunkUuid values store = .ok next)
    (hchanged : next.storedText chunkUuid ≠ some old) :
    Invalidated scope next ↔ InvalidatedButFor chunkUuid scope store := by
  obtain ⟨db, hupdate, hnext⟩ := bind_eq_ok.mp happly
  obtain ⟨hfiles, hdocuments⟩ := filing_of_updateChunkValues hupdate
  cases hreplaced : ((values.text.or values.body).any fun textValue ↦
      store.chunkText chunkUuid ≠ some textValue) with
  | true =>
    simp only [hreplaced, if_true] at hnext
    cases hnext
    exact invalidated_deleteEmbeddings_iff hfiles hdocuments
  | false =>
    simp only [hreplaced] at hnext
    cases hnext
    exact absurd ((storedText_of_updateChunkValues hupdate hreplaced).trans hold) hchanged

theorem filing_of_upsertRoot {root : RootRow} {next : Db} (hroot : upsertRoot root db = .ok next) :
    next.files = db.files ∧ next.documents = db.documents := by
  unfold upsertRoot at hroot
  split at hroot
  · obtain ⟨-, hroot⟩ := raiseIf_bind_eq_ok.mp hroot
    obtain ⟨-, hroot⟩ := raiseIf_bind_eq_ok.mp hroot
    cases hroot
    exact ⟨rfl, rfl⟩
  · obtain ⟨-, -, -, rfl⟩ := Db.insertSemanticChunk_eq_ok.mp hroot
    exact ⟨rfl, rfl⟩

/-- A chunk that is there is still there with its root row replaced. -/
theorem hasKey_of_upsertRoot {root : RootRow} {next : Db}
    (hthere : hasKey (fun row : SemanticChunkRow ↦ row.id) root.id db.semanticChunks = true)
    (hroot : upsertRoot root db = .ok next) :
    ∃ row, lookup (fun row : SemanticChunkRow ↦ row.id) root.id next.semanticChunks = some row := by
  rw [upsertRoot, if_pos hthere] at hroot
  obtain ⟨-, hroot⟩ := raiseIf_bind_eq_ok.mp hroot
  obtain ⟨-, hroot⟩ := raiseIf_bind_eq_ok.mp hroot
  cases hroot
  cases hfound : lookup (fun row : SemanticChunkRow ↦ row.id) root.id db.semanticChunks with
  | none => exact absurd (hasKey_eq_false.mpr (lookup_eq_none.mp hfound)) (by simp [hthere])
  | some old =>
    refine ⟨if old.id = root.id then root.assign old else old,
      (lookup_updateWhere (by intro _; rfl) _ _).trans ?_⟩
    rw [hfound, Option.map_some]
    simp only [decide_eq_true_eq]

/-- What the chunk repository stores is the text that it was given. -/
theorem storedText_of_upsertChunk {root : RootRow} {next : Db} {old : Text}
    (hold : db.storedText root.id = some old) (hupsert : upsertChunk host root db = .ok next) :
    next.storedText root.id = some root.text := by
  obtain ⟨row, hfound, -⟩ := Option.map_eq_some_iff.mp hold
  have hthere : hasKey (fun row : SemanticChunkRow ↦ row.id) root.id db.semanticChunks = true :=
    hasKey_eq_true.mpr ⟨row, mem_of_lookup hfound⟩
  obtain ⟨rooted, hroot, hnext⟩ := bind_eq_ok.mp hupsert
  cases hnext
  set written := if rootTextChanged root db then root.reset else root with hwritten
  have hid : written.id = root.id := by
    rw [hwritten]
    split <;> rfl
  have htext : written.text = root.text := by
    rw [hwritten]
    split <;> rfl
  obtain ⟨kept, hkept⟩ := hasKey_of_upsertRoot (hid ▸ hthere) hroot
  have hstored : (upsertTextPayload host written rooted).chunkText written.id =
      some written.text :=
    congrArg (Option.map SemanticChunkText.text)
      (@lookup_upsert_self _ _ _ SemanticChunkText.chunkUuid
        { chunkUuid := written.id
          text := written.text
          textSha256 := host.hexdigest written.text
          charCount := written.text.length
          blockMeta := written.blockMeta } rooted.semanticChunkTexts)
  rw [← hid, ← htext, Db.storedText, hstored]
  exact (congrArg (Option.map _) hkept).trans rfl

theorem invalidated_iff_of_upsertAggregate {root : RootRow}
    {embedding : Option (EmbeddingPayload ν)} {old : Text}
    (hold : store.storedText root.id = some old)
    (happly : upsertAggregate host root embedding store = .ok next)
    (hchanged : next.storedText root.id ≠ some old) :
    Invalidated scope next ↔ InvalidatedButFor root.id scope store := by
  obtain ⟨db, hupsert, hnext⟩ := bind_eq_ok.mp happly
  obtain ⟨hfiles, hdocuments⟩ : db.files = store.files ∧ db.documents = store.documents := by
    obtain ⟨rooted, hroot, hdb⟩ := bind_eq_ok.mp hupsert
    cases hdb
    have hfiling := filing_of_upsertRoot hroot
    exact hfiling
  dsimp only at hnext
  split at hnext
  · cases hnext
    exact invalidated_deleteEmbeddings_iff hfiles hdocuments
  next hsame =>
    rw [rootTextChanged, hold, Option.any_some, decide_eq_true_eq, not_not] at hsame
    have hstored : next.toDb = db := by
      split at hnext
      · cases hnext
        rfl
      · obtain ⟨-, hnext⟩ := raiseIf_bind_eq_ok.mp hnext
        cases hnext
        rfl
    rw [hstored, storedText_of_upsertChunk hold hupsert, hsame] at hchanged
    exact absurd rfl hchanged

/-- **What an operation on a text invalidates.** For every operation that succeeds and changes the
stored text of a chunk or of a paragraph that is there: afterwards nothing that was computed from the
old text of the chunk or the paragraph, or of what is above it, is in use, if and only if the
operation is covered. -/
theorem invalidated_iff_covered {operation : TextOperation ν} {old : Text}
    (hold : operation.text store = some old) (happly : operation.apply host store = .ok next)
    (hchanged : operation.text next ≠ some old) :
    Invalidated (operation.scope store) next ↔ operation.Covered store := by
  cases operation with
  | version action =>
    exact iff_of_true (invalidated_of_applyTo hold happly hchanged) trivial
  | updateChunk call chunkUuid values =>
    exact invalidated_iff_of_updateChunk hold happly hchanged
  | updateParagraph paragraphId values =>
    obtain ⟨db, hupdate, hnext⟩ := bind_eq_ok.mp happly
    cases hnext
    obtain ⟨hfiles, hdocuments⟩ := filing_of_updateParagraphValues hupdate
    exact invalidated_congr hfiles hdocuments
  | upsert root embedding => exact invalidated_iff_of_upsertAggregate hold happly hchanged

end Operations

/-- The tables with one chunk, the document and the file above it, and an embedding of each level. -/
def embeddedChunk : VectorDb ℕ where
  toDb := { seededChunk with
    documents :=
      [{ id := 2, ownerId := some 5, sourceUploadId := 2, sourceVersion := 1, sourcePath := none
         sourceName := none, sourceHash := none, blockMeta := [] }]
    files :=
      [{ id := 5, ownerId := none, primarySourceId := 6, path := lit "a.txt", name := lit "a.txt"
         charCount := 1, contentSha256 := [], bodySha256 := [], blockMeta := [] }] }
  embeddings :=
    let row (entityType : VectorEntity) (entityId : Uuid) (chunkUuid : Option Uuid) :
        EmbeddingRow ℕ :=
      { entityType, entityId, chunkUuid, vector := 0, model := lit "m", dimension := 1
        provider := lit "p", modelVersion := lit "1" }
    [row .semanticChunk 1 (some 1), row .paragraph 3 none, row .document 2 none, row .file 5 none]

/-- A new text by way of the version service. -/
def appendsText : TextOperation ℕ :=
  .version { chunkUuid := 1, call := { now := 1, versionId := 12 }
             operation := .appendVersion (lit "b") none }

/-- The same text by way of `update_entity`. -/
def replacesText : TextOperation ℕ :=
  .updateChunk { now := 1, versionId := 12 } 1 { text := some (lit "b") }

/-- What an operation on the chunk leaves. -/
def afterOperation (operation : TextOperation ℕ) : VectorDb ℕ :=
  (toOption (operation.apply sampleHost embeddedChunk)).getD embeddedChunk

/-- The version service leaves nothing that was computed from the old text in use. -/
theorem invalidated_afterOperation_appendsText :
    Invalidated (appendsText.scope embeddedChunk) (afterOperation appendsText) := by
  have happly : appendsText.apply sampleHost embeddedChunk = .ok (afterOperation appendsText) := by
    rw [afterOperation]
    exact eq_ok_of_succeeds (by decide +kernel)
  refine (@invalidated_iff_covered _ _ _ _ appendsText (lit "a") ?_ happly ?_).mpr trivial <;> decide +kernel

/-- `update_entity` leaves embeddings of the paragraph, the document and the file in use, and no
flag. -/
theorem not_invalidated_afterOperation_replacesText :
    succeeds (replacesText.apply sampleHost embeddedChunk) = true ∧
      replacesText.text embeddedChunk = some (lit "a") ∧
      replacesText.text (afterOperation replacesText) = some (lit "b") ∧
      ¬Invalidated (replacesText.scope embeddedChunk) (afterOperation replacesText) := by
  refine ⟨?_, ?_, ?_, ?_⟩ <;> decide +kernel

end DocStore
