import DocStore.Domain.Schema

/-!
# Embeddings

A `VectorDb` adds to the tables of a publication the embeddings and the columns that ask for
reprocessing. An embedding stands for one entity of the hierarchy, at one of four levels, and is
active or not; a document or a file may be flagged as one whose vectors are to be computed again.
What a row keeps of a vector does not matter here.
-/

set_option autoImplicit false
set_option relaxedAutoImplicit false

namespace DocStore

open Foundation

/-- The components of a vector. -/
abbrev Vector := List ℚ

/-- `entity_type`. -/
inductive VectorEntity where
  | semanticChunk
  | paragraph
  | document
  | file
deriving DecidableEq, Repr

instance : LawfulBEq (VectorEntity × Uuid) := inferInstance

/-- A row of `semantic_chunk_embeddings`. -/
structure EmbeddingRow (ν : Type) where
  entityType : VectorEntity := .semanticChunk
  entityId : Uuid
  chunkUuid : Option Uuid
  chunkVersionId : Option Uuid := none
  vector : ν
  model : Text
  dimension : ℕ
  provider : Text
  modelVersion : Text
  active : Bool := true

/-- The entity that an embedding stands for. -/
def EmbeddingRow.entity {ν : Type} (row : EmbeddingRow ν) : VectorEntity × Uuid :=
  (row.entityType, row.entityId)

/-- The tables with the embeddings. The rows with `needs_revectorize` and `needs_rechunk` are named
by their UUIDs. -/
structure VectorDb (ν : Type) extends Db where
  embeddings : List (EmbeddingRow ν) := []
  documentsToRevectorize : List Uuid := []
  filesToRevectorize : List Uuid := []
  filesToRechunk : List Uuid := []

variable {ν : Type}

/-! ### Statements -/

/-- `UPDATE semantic_chunk_embeddings SET active = FALSE`. -/
def deactivate (selected : EmbeddingRow ν → Bool) (embeddings : List (EmbeddingRow ν)) :
    List (EmbeddingRow ν) :=
  updateWhere selected (fun row ↦ { row with active := false }) embeddings

/-- Sets a flag on the selected ones of some rows. -/
def setFlag (selected : Uuid → Bool) (rows flagged : List Uuid) : List Uuid :=
  flagged ++ rows.filter selected

/-- Clears a flag on the selected rows. -/
def clearFlag (selected : Uuid → Bool) (flagged : List Uuid) : List Uuid :=
  flagged.filter fun id ↦ !selected id

@[simp] theorem mem_setFlag {selected : Uuid → Bool} {rows flagged : List Uuid} {id : Uuid} :
    id ∈ setFlag selected rows flagged ↔ id ∈ flagged ∨ id ∈ rows ∧ selected id = true := by
  simp [setFlag]

@[simp] theorem mem_clearFlag {selected : Uuid → Bool} {flagged : List Uuid} {id : Uuid} :
    id ∈ clearFlag selected flagged ↔ id ∈ flagged ∧ selected id = false := by
  simp [clearFlag]

/-- What is active after a deactivation was active before and is not selected. -/
theorem mem_deactivate_active {selected : EmbeddingRow ν → Bool}
    {embeddings : List (EmbeddingRow ν)} {row : EmbeddingRow ν} :
    row ∈ deactivate selected embeddings ∧ row.active = true ↔
      row ∈ embeddings ∧ row.active = true ∧ selected row = false := by
  constructor
  · rintro ⟨hmem, hactive⟩
    obtain ⟨old, hold, rfl⟩ := mem_updateWhere.mp hmem
    cases hselected : selected old with
    | true =>
      rw [hselected, if_pos rfl] at hactive
      cases hactive
    | false =>
      rw [hselected, if_neg Bool.false_ne_true] at hactive
      simpa [hselected] using ⟨hold, hactive⟩
  · rintro ⟨hmem, hactive, hnot⟩
    exact ⟨mem_updateWhere_of_not hmem hnot, hactive⟩

/-! ### The hierarchy above a text -/

namespace Db

variable (db : Db)

/-- The owners of the documents with a UUID. -/
def documentOwners (documentId : Uuid) : List Uuid :=
  (db.documents.filter fun row ↦ row.id = documentId).filterMap fun row ↦ row.ownerId

/-- The document with a UUID and its file. -/
def documentScope (documentId : Uuid) : List (VectorEntity × Uuid) :=
  (.document, documentId) :: (db.documentOwners documentId).map (Prod.mk .file)

/-- The paragraph, the document and the file above the chunk with a UUID. -/
def aboveChunk (chunkUuid : Uuid) : List (VectorEntity × Uuid) :=
  (db.semanticChunks.filter fun row ↦ row.id = chunkUuid).flatMap fun row ↦
    (.paragraph, row.paragraphId) :: db.documentScope row.documentId

/-- A chunk with what is above it. -/
def chunkScope (chunkUuid : Uuid) : List (VectorEntity × Uuid) :=
  (.semanticChunk, chunkUuid) :: db.aboveChunk chunkUuid

/-- A paragraph with its document and its file. -/
def paragraphScope (paragraphId : Uuid) : List (VectorEntity × Uuid) :=
  (.paragraph, paragraphId) :: (db.paragraphs.filter fun row ↦ row.id = paragraphId).flatMap
    fun row ↦ db.documentScope row.documentId

end Db

/-- Nothing that was computed from a text in a scope is in use: no embedding of an entity of the
scope is active, and the documents and the files of the scope are flagged. -/
structure Invalidated (scope : List (VectorEntity × Uuid)) (store : VectorDb ν) : Prop where
  embeddings : ∀ row ∈ store.embeddings, row.active = true → row.entity ∉ scope
  documents : ∀ row ∈ store.documents, (.document, row.id) ∈ scope →
    row.id ∈ store.documentsToRevectorize
  files : ∀ row ∈ store.files, (.file, row.id) ∈ scope → row.id ∈ store.filesToRevectorize

instance (scope : List (VectorEntity × Uuid)) (store : VectorDb ν) :
    Decidable (Invalidated scope store) :=
  decidable_of_iff ((∀ row ∈ store.embeddings, row.active = true → row.entity ∉ scope) ∧
      (∀ row ∈ store.documents, (.document, row.id) ∈ scope →
        row.id ∈ store.documentsToRevectorize) ∧
      ∀ row ∈ store.files, (.file, row.id) ∈ scope → row.id ∈ store.filesToRevectorize)
    ⟨fun ⟨hembeddings, hdocuments, hfiles⟩ ↦ ⟨hembeddings, hdocuments, hfiles⟩,
      fun ⟨hembeddings, hdocuments, hfiles⟩ ↦ ⟨hembeddings, hdocuments, hfiles⟩⟩

end DocStore
