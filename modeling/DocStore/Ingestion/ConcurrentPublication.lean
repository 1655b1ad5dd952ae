import DocStore.Domain.Embeddings
import DocStore.Foundation.ReadCommitted
import DocStore.Ingestion.RoundTrip
import Mathlib.Data.Fintype.Basic

/-!
# Concurrent publications of a document

Publications of one document that run at the same time meet in the rows of the hierarchy that was
there. The chunks, the paragraphs and the chapters are marked as deleted by three statements, each
with a snapshot of its own, and the new chapter takes the place of the old one in the document. So
two publications exclude each other by the place of the chapter, unless one of them commits while
the other one is between the statements: then the later ones see the new paragraphs and the new
chapter, and mark them, while the new chunks stay. `written_by_one_publication` says that nothing
else goes wrong.

Versions, pointers, dictionary entries, metrics, tokens and tags of the new chunks are left out: no
other publication touches them.
-/

set_option autoImplicit false
set_option relaxedAutoImplicit false

namespace DocStore

open Foundation ReadCommitted

/-! ### Rows -/

/-- The key of a row of the hierarchy. -/
inductive StoredKey where
  | file (id : Uuid)
  | document (id : Uuid)
  | chapter (id : Uuid)
  | paragraph (id : Uuid)
  | chunk (id : Uuid)
  | text (chunkUuid : Uuid)
  | embedding (entityType : VectorEntity) (entityId : Uuid) (model provider modelVersion : Text)
    (dimension : ℕ)
deriving DecidableEq

/-- A row of the hierarchy. -/
inductive StoredRow (ν : Type) where
  | file (row : FileRow)
  | document (row : DocumentRow)
  | chapter (row : ChapterRow)
  | paragraph (row : ParagraphRow)
  | chunk (row : SemanticChunkRow)
  | text (row : SemanticChunkText)
  | embedding (row : EmbeddingRow ν)

section Rows

variable {ν : Type}

/-- The key of a row. -/
def StoredRow.key : StoredRow ν → StoredKey
  | file row => .file row.id
  | document row => .document row.id
  | chapter row => .chapter row.id
  | paragraph row => .paragraph row.id
  | chunk row => .chunk row.id
  | text row => .text row.chunkUuid
  | embedding row => .embedding row.entityType row.entityId row.model row.provider row.modelVersion
      row.dimension

/-- The UUID under which a row is registered as an entity. -/
def StoredRow.entityId : StoredRow ν → Option Uuid
  | file row => some row.id
  | document row => some row.id
  | chapter row => some row.id
  | paragraph row => some row.id
  | chunk row => some row.id
  | text _ | embedding _ => none

/-- Whether the constraints refuse a row beside an old one: because of the registry, or because the
order index is taken. -/
def StoredRow.clashes (row old : StoredRow ν) : Bool :=
  (row.entityId.isSome && row.entityId = old.entityId) ||
    match row, old with
    | chapter row, chapter old =>
      old.documentId = row.documentId && old.orderIndex = row.orderIndex
    | paragraph row, paragraph old =>
      old.chapterId = row.chapterId && old.orderIndex = row.orderIndex
    | chunk row, chunk old =>
      old.paragraphId = row.paragraphId && old.orderIndex = row.orderIndex
    | _, _ => false

/-- The tables that a snapshot shows. -/
def snapshotDb (snapshot : Snapshot StoredKey (StoredRow ν)) : Db :=
  let rows := snapshot.keys.filterMap snapshot.row
  { files := rows.filterMap fun | .file row => some row | _ => none
    documents := rows.filterMap fun | .document row => some row | _ => none
    chapters := rows.filterMap fun | .chapter row => some row | _ => none
    paragraphs := rows.filterMap fun | .paragraph row => some row | _ => none
    semanticChunks := rows.filterMap fun | .chunk row => some row | _ => none
    semanticChunkTexts := rows.filterMap fun | .text row => some row | _ => none }

/-! ### What the statements do to a row -/

/-- `SET active = FALSE` for the embeddings of some chunks. -/
def deactivatedEmbedding (chunkIds : List Uuid) : StoredRow ν → Option (StoredRow ν)
  | .embedding row =>
    if row.chunkUuid.any chunkIds.contains then some (.embedding { row with active := false })
    else none
  | _ => none

/-- `SET is_deleted = TRUE, deleted_at = now()` for a chunk of a document. -/
def deletedChunk (now : Instant) (documentId : Uuid) : StoredRow ν → Option (StoredRow ν)
  | .chunk row =>
    if row.documentId = documentId && row.deletedAt.isNone then
      some (.chunk { row with toLifecycle := .deletedNow now })
    else none
  | _ => none

/-- The same for a paragraph. -/
def deletedParagraph (now : Instant) (documentId : Uuid) : StoredRow ν → Option (StoredRow ν)
  | .paragraph row =>
    if row.documentId = documentId && row.deletedAt.isNone then
      some (.paragraph { row with toLifecycle := .deletedNow now })
    else none
  | _ => none

/-- The same for a chapter. -/
def deletedChapter (now : Instant) (documentId : Uuid) : StoredRow ν → Option (StoredRow ν)
  | .chapter row =>
    if row.documentId = documentId && row.deletedAt.isNone then
      some (.chapter { row with toLifecycle := .deletedNow now })
    else none
  | _ => none

/-- The move of a deleted chapter. -/
def shiftedChapter (documentId : Uuid) (offset : ℕ) : StoredRow ν → Option (StoredRow ν)
  | .chapter row =>
    if row.documentId = documentId && row.isDeleted then
      some (.chapter { row with orderIndex := row.orderIndex + offset })
    else none
  | _ => none

/-- `_retire_previous_files` for a file. -/
def retiredFile (now : Instant) (documentId : Uuid) (ownerId : Option Uuid) :
    StoredRow ν → Option (StoredRow ν)
  | .file row =>
    if row.ownerId = some documentId || some row.id = ownerId then
      some (.file { row with toLifecycle := .deletedNow now })
    else none
  | _ => none

/-- `ON CONFLICT (id) DO UPDATE` of `_write_file`. -/
def rewrittenFile (written : FileRow) : StoredRow ν → StoredRow ν
  | .file old =>
    .file { written with ownerId := old.ownerId, primarySourceId := old.primarySourceId }
  | other => other

/-- `ON CONFLICT (id) DO UPDATE` of `_write_document`. -/
def rewrittenDocument (written : DocumentRow) : StoredRow ν → StoredRow ν
  | .document old => .document { written with isDeleted := old.isDeleted }
  | other => other

end Rows

/-! ### A publication -/

/-- A call of `_publish`, with its exact plan and the original that is committed before. -/
structure PublicationCall where
  ids : PublicationIds
  request : NormalizedRequest
  primarySourceId : Uuid
  paragraphs : List PlannedParagraph

/-- The statement with which a publication goes on. The verdict is reached between the last
insertion and the end of the transaction. -/
inductive PublicationPhase where
  | begun
  | markEmbeddings (chunkIds : List Uuid)
  | markChunks
  | markParagraphs
  | markChapters
  | shiftChapters
  | retireFiles
  | writeFile
  | writeDocument
  | writeRows (count : ℕ)
  | matched
  | differing
  | published
  | abandoned
deriving DecidableEq

section Publication

variable (ν : Type) (host : Host) (call : PublicationCall)

/-- The plan of a call. -/
def PublicationCall.plan : PersistencePlan := mapPlan host call.request

/-- The rows of a paragraph and of its sentences, in the order in which they are inserted. -/
def paragraphEntries (orderIndex : ℕ) (planned : PlannedParagraph) : List (StoredRow ν) :=
  .paragraph (paragraphRow host call.ids (call.plan host) orderIndex planned.1) ::
    planned.2.flatMap fun entry ↦
      let rows := sentenceRows host call.ids (call.plan host) orderIndex planned.1 entry
      [.chunk rows.chunk, .text rows.text]

/-- The rows of all paragraphs. -/
def hierarchyEntries : ℕ → List PlannedParagraph → List (StoredRow ν)
  | _, [] => []
  | orderIndex, planned :: rest =>
    paragraphEntries ν host call orderIndex planned ++ hierarchyEntries (orderIndex + 1) rest

/-- The rows that a publication inserts: the chapter, then what it holds. -/
def publicationEntries : List (StoredRow ν) :=
  .chapter (chapterRow call.ids (call.plan host)) :: hierarchyEntries ν host call 0 call.paragraphs

variable {ν}

/-- The verdict on what a transaction reads back. -/
def publicationVerdict (snapshot : Snapshot StoredKey (StoredRow ν)) : PublicationPhase :=
  match reconstructedScopeText host (snapshotDb snapshot) call.request.documentId with
  | .error _ => .differing
  | .ok reconstructed =>
    if (integrityVerdict call.request.textValue reconstructed).1 = .matching then .matched
    else .differing

/-- The second transaction of `_publish`, statement by statement. -/
def publicationStatement (snapshot : Snapshot StoredKey (StoredRow ν)) :
    PublicationPhase → Statement StoredKey (StoredRow ν) PublicationPhase
  | .begun =>
    .execute [] (.markEmbeddings (((snapshotDb snapshot).semanticChunks.filter fun row ↦
      row.documentId = call.request.documentId && row.deletedAt.isNone).map fun row ↦ row.id))
  | .markEmbeddings chunkIds =>
    .execute (snapshot.update (deactivatedEmbedding chunkIds)) .markChunks
  | .markChunks =>
    .execute (snapshot.update (deletedChunk call.ids.now call.request.documentId)) .markParagraphs
  | .markParagraphs =>
    .execute (snapshot.update (deletedParagraph call.ids.now call.request.documentId)) .markChapters
  | .markChapters =>
    .execute (snapshot.update (deletedChapter call.ids.now call.request.documentId)) .shiftChapters
  | .shiftChapters =>
    match DocStore.shiftChapters call.request.documentId (snapshotDb snapshot) with
    | .error _ => .rollback .abandoned
    | .ok _ =>
      .execute (snapshot.update (shiftedChapter call.request.documentId
        (nextChapterOrder call.request.documentId (snapshotDb snapshot)))) .retireFiles
  | .retireFiles =>
    let ownerId := (lookup (fun row : DocumentRow ↦ row.id) call.request.documentId
      (snapshotDb snapshot).documents).bind fun row ↦ row.ownerId
    .execute (snapshot.update (retiredFile call.ids.now call.request.documentId ownerId)) .writeFile
  | .writeFile =>
    let row := fileRow (call.plan host) call.primarySourceId
    .execute [.upsert (.file row.id) (.file row) (rewrittenFile row)] .writeDocument
  | .writeDocument =>
    let row := documentRow (call.plan host)
    .execute [.upsert (.document row.id) (.document row) (rewrittenDocument row)] (.writeRows 0)
  | .writeRows count =>
    match (publicationEntries ν host call)[count]? with
    | some row => .execute [.insert row.key row row.clashes] (.writeRows (count + 1))
    | none => .execute [] (publicationVerdict host call snapshot)
  | .matched => .commit .published
  | .differing => .rollback .abandoned
  | .published | .abandoned => .finished

variable (ν) in
/-- The publications with some indices. -/
def publicationProtocol {ι : Type} (calls : ι → PublicationCall) :
    Protocol ι StoredKey (StoredRow ν) PublicationPhase where
  statement index phase snapshot := publicationStatement host (calls index) snapshot phase
  abandoned := .abandoned

end Publication

/-! ### The condition -/

/-- Whether a publication has started to mark the chunks of its document and has not started to mark
the chapters. -/
def PublicationPhase.isMarking : PublicationPhase → Bool
  | markParagraphs | markChapters => true
  | _ => false

section Condition

variable {ι ν : Type}

/-- Publications that work on the rows. -/
abbrev Publications (ι ν : Type) := ReadCommitted.System ι StoredKey (StoredRow ν) PublicationPhase

/-- The condition on a step: no publication commits while another one is between the start of its
update of the chunks and the start of its update of the chapters. -/
def CommitsApart (system : Publications ι ν) : ReadCommitted.Action ι → Prop
  | .run index => (system.session index).phase = .matched →
      ∀ other, other ≠ index → (system.session other).phase.isMarking = false
  | .abort _ => True

instance [Fintype ι] [DecidableEq ι] (system : Publications ι ν) :
    ∀ action, Decidable (CommitsApart system action)
  | .run index => inferInstanceAs (Decidable ((system.session index).phase = .matched →
      ∀ other, other ≠ index → (system.session other).phase.isMarking = false))
  | .abort _ => inferInstanceAs (Decidable True)

/-- The undeleted chunks of a document were all written by one publication, and so were the
paragraphs and the chapters that they name, which are live. -/
def WrittenBy (documentId : Uuid) (entries : List (StoredRow ν))
    (row : StoredKey → Option (StoredRow ν)) : Prop :=
  ∀ id chunk, row (.chunk id) = some (.chunk chunk) → chunk.documentId = documentId →
    chunk.deletedAt = none →
    .chunk chunk ∈ entries ∧
      (∃ paragraph, row (.paragraph chunk.paragraphId) = some (.paragraph paragraph) ∧
        .paragraph paragraph ∈ entries ∧ paragraph.isLive = true) ∧
      ∃ chapter, row (.chapter chunk.chapterId) = some (.chapter chapter) ∧
        .chapter chapter ∈ entries ∧ chapter.isLive = true

end Condition

/-! ### Where a publication stands -/

section Standing

variable {ν : Type}

/-- A publication at a statement. -/
abbrev Publisher (ν : Type) := ReadCommitted.Session StoredKey (StoredRow ν) PublicationPhase

/-- The rows that a publication has inserted. -/
def Publisher.inserted (publisher : Publisher ν) (entries : List (StoredRow ν)) :
    List (StoredRow ν) :=
  match publisher.phase with
  | .writeRows count => entries.take (count - publisher.operations.length)
  | .matched => entries
  | _ => []

/-- Whether a publication has marked everything and has not inserted its chapter. -/
def Publisher.isMarked (publisher : Publisher ν) : Bool :=
  match publisher.phase with
  | .shiftChapters | .retireFiles | .writeFile | .writeDocument => true
  | .writeRows count => count ≤ publisher.operations.length
  | _ => false

/-- Whether a publication has inserted its chapter. -/
def Publisher.isHolding (publisher : Publisher ν) : Bool :=
  match publisher.phase with
  | .writeRows count => publisher.operations.length < count
  | .matched => true
  | _ => false

/-- What the operations of a publication do to chunks and chapters: an update leaves no undeleted
chunk, and an insertion adds a row of the publication. -/
def Harmless (documentId : Uuid) (entries : List (StoredRow ν)) :
    Operation StoredKey (StoredRow ν) → Prop
  | .update _ change => ∀ row chunk, change row = some (.chunk chunk) →
      chunk.documentId = documentId → chunk.deletedAt ≠ none
  | .upsert key _ _ => (∀ id, key ≠ .chunk id) ∧ ∀ id, key ≠ .chapter id
  | .insert _ row _ => row ∈ entries

/-- Every undeleted chunk of the document that is committed has been marked by the publication, or
is about to be. -/
def Clean (now : Instant) (documentId : Uuid) (publisher : Publisher ν)
    (own committed : StoredKey → Option (StoredRow ν)) : Prop :=
  ∀ id chunk, committed (.chunk id) = some (.chunk chunk) → chunk.documentId = documentId →
    chunk.deletedAt = none →
    own (.chunk id) ≠ none ∨
      Operation.update (.chunk id) (deletedChunk now documentId) ∈ publisher.operations

/-- A chapter that the publication does not touch takes the place of its chapter. -/
def Doomed (documentId : Uuid) (publisher : Publisher ν)
    (own committed : StoredKey → Option (StoredRow ν)) : Prop :=
  ∃ id chapter, committed (.chapter id) = some (.chapter chapter) ∧
    chapter.documentId = documentId ∧ chapter.orderIndex = 0 ∧ chapter.isDeleted = false ∧
    own (.chapter id) = none ∧
    ∀ change, Operation.update (.chapter id) change ∉ publisher.operations

/-- What holds of a publication at every moment. -/
structure Standing (host : Host) (call : PublicationCall) (publisher : Publisher ν)
    (own committed : StoredKey → Option (StoredRow ν)) : Prop where
  inserted : ∀ row ∈ publisher.inserted (publicationEntries ν host call), own row.key = some row
  operations : ∀ operation ∈ publisher.operations,
    Harmless call.request.documentId (publicationEntries ν host call) operation
  insertion : match publisher.phase with
    | .writeRows (count + 1) => publisher.operations = [] ∨
        ∃ row, (publicationEntries ν host call)[count]? = some row ∧
          publisher.operations = [.insert row.key row row.clashes]
    | .matched => publisher.operations = []
    | _ => True
  chunks : ∀ id chunk, own (.chunk id) = some (.chunk chunk) →
    chunk.documentId = call.request.documentId → chunk.deletedAt = none →
    .chunk chunk ∈ publicationEntries ν host call
  targets : ∀ key change, .update key change ∈ publisher.operations →
    ((own key).or (committed key)).isSome
  unseen : publisher.isHolding = true → committed (.chapter call.ids.chapterId) = none
  clean : publisher.phase.isMarking || publisher.isHolding →
    Clean call.ids.now call.request.documentId publisher own committed
  marked : publisher.isMarked = true →
    Clean call.ids.now call.request.documentId publisher own committed ∨
      Doomed call.request.documentId publisher own committed

variable {host : Host} {call : PublicationCall} {publisher : Publisher ν}
  {own committed : StoredKey → Option (StoredRow ν)}

/-! ### The rows of a publication -/

theorem hierarchy_of_chunk_mem_hierarchyEntries {orderIndex : ℕ}
    {paragraphs : List PlannedParagraph} {chunk : SemanticChunkRow}
    (hmem : .chunk chunk ∈ hierarchyEntries ν host call orderIndex paragraphs) :
    (∃ paragraph, .paragraph paragraph ∈ hierarchyEntries ν host call orderIndex paragraphs ∧
        paragraph.id = chunk.paragraphId ∧ paragraph.isLive = true) ∧
      chunk.chapterId = call.ids.chapterId := by
  induction paragraphs generalizing orderIndex with
  | nil => cases hmem
  | cons planned rest ih =>
    rcases List.mem_append.mp hmem with hmem | hmem
    · rcases List.mem_cons.mp hmem with hrow | hmem
      · cases hrow
      · obtain ⟨entry, -, hrow⟩ := List.mem_flatMap.mp hmem
        simp only [List.mem_cons, StoredRow.chunk.injEq, reduceCtorEq, List.not_mem_nil,
          or_false] at hrow
        rw [hrow]
        exact ⟨⟨paragraphRow host call.ids (call.plan host) orderIndex planned.1,
          List.mem_append_left _ List.mem_cons_self, rfl, rfl⟩, rfl⟩
    · obtain ⟨⟨paragraph, hparagraph, hnamed⟩, hchapter⟩ := ih hmem
      exact ⟨⟨paragraph, List.mem_append_right _ hparagraph, hnamed⟩, hchapter⟩

/-- A chunk of a publication names a paragraph of the publication and its chapter, which are
live. -/
theorem hierarchy_of_chunk_mem {chunk : SemanticChunkRow}
    (hmem : .chunk chunk ∈ publicationEntries ν host call) :
    (∃ paragraph, .paragraph paragraph ∈ publicationEntries ν host call ∧
        paragraph.id = chunk.paragraphId ∧ paragraph.isLive = true) ∧
      chunk.chapterId = call.ids.chapterId := by
  rcases List.mem_cons.mp hmem with hrow | hmem
  · cases hrow
  · obtain ⟨⟨paragraph, hparagraph, hnamed⟩, hchapter⟩ :=
      hierarchy_of_chunk_mem_hierarchyEntries hmem
    exact ⟨⟨paragraph, List.mem_cons_of_mem _ hparagraph, hnamed⟩, hchapter⟩

/-- A publication that has inserted its chapter has it. -/
theorem Standing.chapter (hstanding : Standing host call publisher own committed)
    (hholding : publisher.isHolding = true) :
    own (.chapter call.ids.chapterId) = some (.chapter (chapterRow call.ids (call.plan host))) := by
  refine hstanding.inserted (.chapter (chapterRow call.ids (call.plan host))) ?_
  obtain ⟨phase, operations⟩ := publisher
  cases phase with
  | writeRows count =>
    have hlt : operations.length < count := of_decide_eq_true hholding
    show _ ∈ (publicationEntries ν host call).take (count - operations.length)
    rw [← Nat.succ_pred_eq_of_pos (Nat.sub_pos_of_lt hlt)]
    exact List.mem_cons_self
  | matched =>
    show _ ∈ publicationEntries ν host call
    exact List.mem_cons_self
  | _ => cases hholding

/-! ### What a publication keeps -/

/-- A publication that has not begun or is over has nothing to keep. -/
theorem standing_of_idle {phase : PublicationPhase}
    (hphase : phase = .begun ∨ phase = .published ∨ phase = .abandoned)
    (committed : StoredKey → Option (StoredRow ν)) :
    Standing host call { phase } (fun _ ↦ none) committed := by
  rcases hphase with rfl | rfl | rfl <;> constructor <;>
    simp [Publisher.inserted, Publisher.isMarked, Publisher.isHolding, PublicationPhase.isMarking]

/-- The updates of a snapshot have rows that the publication sees as targets. -/
theorem targets_of_update {ι : Type} [DecidableEq ι] {tables : Tables ι StoredKey (StoredRow ν)}
    {index : ι} {changing : StoredRow ν → Option (StoredRow ν)} {key : StoredKey}
    {change : StoredRow ν → Option (StoredRow ν)}
    (hmem : .update key change ∈ (tables.snapshot index).update changing) :
    ((tables.own index key).or (tables.committed key)).isSome := by
  obtain ⟨_, row, hrow, -, hoperation⟩ := Tables.mem_update.mp hmem
  cases hoperation
  exact Option.isSome_iff_exists.mpr ⟨row, hrow⟩

/-- An update that makes nothing but embeddings, paragraphs, chapters and files is harmless. -/
theorem harmless_of_update {ι : Type} [DecidableEq ι] {tables : Tables ι StoredKey (StoredRow ν)}
    {index : ι} {documentId : Uuid} {entries : List (StoredRow ν)}
    {change : StoredRow ν → Option (StoredRow ν)}
    (hchange : ∀ row chunk, change row = some (.chunk chunk) → chunk.deletedAt ≠ none) :
    ∀ operation ∈ (tables.snapshot index).update change,
      Harmless documentId entries operation := by
  intro operation hmem
  obtain ⟨key, row, -, -, rfl⟩ := Tables.mem_update.mp hmem
  exact fun row chunk hrow _ ↦ hchange row chunk hrow

theorem deletedAt_of_deletedChunk {now : Instant} {documentId : Uuid} {row : StoredRow ν}
    {chunk : SemanticChunkRow} (hrow : deletedChunk now documentId row = some (.chunk chunk)) :
    chunk.deletedAt ≠ none := by
  unfold deletedChunk at hrow
  split at hrow
  · split at hrow
    · cases hrow
      exact nofun
    · cases hrow
  · cases hrow

/-- What is marked stays marked with the next statement. -/
theorem Clean.next {now : Instant} {documentId : Uuid} {phase : PublicationPhase}
    (hclean : Clean now documentId ({ phase } : Publisher ν) own committed)
    (publisher : Publisher ν) : Clean now documentId publisher own committed :=
  fun id chunk hchunk hdocument hlive ↦
    Or.inl ((hclean id chunk hchunk hdocument hlive).resolve_right List.not_mem_nil)

section Start

variable {ι : Type} [DecidableEq ι] {tables : Tables ι StoredKey (StoredRow ν)} {index : ι}
  {phase next : PublicationPhase} {operations : List (Operation StoredKey (StoredRow ν))}
  {now : Instant} {documentId : Uuid}

/-- The update of the chunks marks every undeleted chunk that the publication sees. -/
theorem clean_of_markChunks (phase : PublicationPhase) :
    Clean now documentId
      { phase, operations := (tables.snapshot index).update (deletedChunk now documentId) }
      (tables.own index) tables.committed := by
  intro id chunk hchunk hdocument hlive
  by_cases hown : tables.own index (.chunk id) = none
  · refine Or.inr (Tables.mem_update.mpr ⟨.chunk id, .chunk chunk, ?_, ?_, rfl⟩)
    · rw [Tables.view, hown, Option.none_or, hchunk]
    · simp [deletedChunk, hdocument, hlive]
  · exact Or.inl hown

/-- An update that leaves undeleted chapters alone does not save a publication. -/
theorem Doomed.update {change : StoredRow ν → Option (StoredRow ν)}
    (hdoomed : Doomed documentId { phase } (tables.own index) tables.committed)
    (hchange : ∀ chapter : ChapterRow, chapter.isDeleted = false → change (.chapter chapter) = none)
    (next : PublicationPhase) :
    Doomed documentId { phase := next, operations := (tables.snapshot index).update change }
      (tables.own index) tables.committed := by
  obtain ⟨id, chapter, hchapter, hdocument, horder, hlive, hown, -⟩ := hdoomed
  refine ⟨id, chapter, hchapter, hdocument, horder, hlive, hown, fun other hmem ↦ ?_⟩
  obtain ⟨_, row, hrow, hchanged, hoperation⟩ := Tables.mem_update.mp hmem
  cases hoperation
  rw [Tables.view, hown, Option.none_or, hchapter] at hrow
  cases hrow
  rw [hchange chapter hlive] at hchanged
  cases hchanged

/-- Insertions do not save a publication. -/
theorem Doomed.insertion
    (hdoomed : Doomed documentId ({ phase } : Publisher ν) own committed)
    (hoperations : ∀ key change, .update key change ∉ operations) (next : PublicationPhase) :
    Doomed documentId { phase := next, operations } own committed := by
  obtain ⟨id, chapter, hchapter, hdocument, horder, hlive, hown, -⟩ := hdoomed
  exact ⟨id, chapter, hchapter, hdocument, horder, hlive, hown, hoperations (.chapter id)⟩

/-- A statement in front of the insertions. -/
theorem Standing.proceed
    (hstanding : Standing host call { phase } (tables.own index) tables.committed)
    (hrows : ∀ count, next ≠ .writeRows count) (hmatched : next ≠ .matched)
    (hoperations : ∀ operation ∈ operations,
      Harmless call.request.documentId (publicationEntries ν host call) operation)
    (htargets : ∀ key change, .update key change ∈ operations →
      ((tables.own index key).or (tables.committed key)).isSome)
    (hclean : next.isMarking = true → Clean call.ids.now call.request.documentId
      { phase := next, operations } (tables.own index) tables.committed)
    (hmarked : @Publisher.isMarked ν { phase := next } = true →
      Clean call.ids.now call.request.documentId { phase := next, operations } (tables.own index)
          tables.committed ∨
        Doomed call.request.documentId { phase := next, operations } (tables.own index)
          tables.committed) :
    Standing host call { phase := next, operations } (tables.own index) tables.committed := by
  have hchunks := hstanding.chunks
  cases next with
  | writeRows count => exact absurd rfl (hrows count)
  | matched => exact absurd rfl hmatched
  | _ =>
    exact
      { inserted := fun _ hmem ↦ absurd hmem List.not_mem_nil
        operations := hoperations
        insertion := trivial
        chunks := hchunks
        targets := htargets
        unseen := fun hholding ↦ absurd hholding Bool.false_ne_true
        clean := fun hmarking ↦ hclean (by simpa [Publisher.isHolding] using hmarking)
        marked := hmarked }

/-- A statement that updates rows other than chunks. -/
theorem Standing.update {change : StoredRow ν → Option (StoredRow ν)}
    (hstanding : Standing host call { phase } (tables.own index) tables.committed)
    (hrows : ∀ count, next ≠ .writeRows count) (hmatched : next ≠ .matched)
    (hchange : ∀ row chunk, change row ≠ some (.chunk chunk))
    (hclean : next.isMarking = true → Clean call.ids.now call.request.documentId { phase }
      (tables.own index) tables.committed)
    (hmarked : @Publisher.isMarked ν { phase := next } = true →
      Clean call.ids.now call.request.documentId { phase } (tables.own index) tables.committed ∨
        Doomed call.request.documentId { phase } (tables.own index) tables.committed ∧
          ∀ chapter : ChapterRow, chapter.isDeleted = false → change (.chapter chapter) = none) :
    Standing host call { phase := next, operations := (tables.snapshot index).update change }
      (tables.own index) tables.committed := by
  refine hstanding.proceed hrows hmatched
    (harmless_of_update fun row chunk hrow ↦ absurd hrow (hchange row chunk))
    (fun _ _ hmem ↦ targets_of_update hmem) (fun hmarking ↦ (hclean hmarking).next _)
    fun hismarked ↦ ?_
  rcases hmarked hismarked with hdone | ⟨hdoomed, hskips⟩
  · exact Or.inl (hdone.next _)
  · exact Or.inr (hdoomed.update hskips next)

/-- The statement in front of the first insertion. -/
theorem Standing.writeDocument
    (hstanding : Standing host call ({ phase := .writeDocument } : Publisher ν) own committed)
    {key : StoredKey} {row : StoredRow ν} {change : StoredRow ν → StoredRow ν}
    (hkey : (∀ id, key ≠ .chunk id) ∧ ∀ id, key ≠ .chapter id) :
    Standing host call { phase := .writeRows 0, operations := [.upsert key row change] } own
      committed where
  inserted := fun _ hmem ↦ absurd hmem List.not_mem_nil
  operations := List.forall_mem_singleton.mpr hkey
  insertion := trivial
  chunks := hstanding.chunks
  targets := fun _ _ hmem ↦ absurd (List.mem_singleton.mp hmem) nofun
  unseen := nofun
  clean := nofun
  marked := fun _ ↦ (hstanding.marked rfl).imp (fun hclean ↦ hclean.next _) fun hdoomed ↦
    hdoomed.insertion (by simp) _

/-- The start of an insertion. -/
theorem Standing.writeRow {count : ℕ} {row : StoredRow ν}
    (hstanding : Standing host call { phase := .writeRows count } own committed)
    (hrow : (publicationEntries ν host call)[count]? = some row) :
    Standing host call
      { phase := .writeRows (count + 1), operations := [.insert row.key row row.clashes] } own
      committed where
  inserted := hstanding.inserted
  operations := List.forall_mem_singleton.mpr (List.mem_of_getElem? hrow)
  insertion := Or.inr ⟨row, hrow, rfl⟩
  chunks := hstanding.chunks
  targets := fun _ _ hmem ↦ absurd (List.mem_singleton.mp hmem) nofun
  unseen := fun hholding ↦ hstanding.unseen (by simpa [Publisher.isHolding] using hholding)
  clean := fun hholding ↦ by
    refine Clean.next (hstanding.clean ?_) _
    simpa [Publisher.isHolding, PublicationPhase.isMarking] using hholding
  marked := fun hmarked ↦ by
    have hbefore : @Publisher.isMarked ν { phase := .writeRows count } = true := by
      simpa [Publisher.isMarked] using hmarked
    refine (hstanding.marked hbefore).imp (fun hclean ↦ hclean.next _) fun hdoomed ↦ ?_
    exact hdoomed.insertion (by simp) _

theorem publicationVerdict_eq (snapshot : Snapshot StoredKey (StoredRow ν)) :
    publicationVerdict host call snapshot = .matched ∨
      publicationVerdict host call snapshot = .differing := by
  unfold publicationVerdict
  split
  · exact Or.inr rfl
  · split
    · exact Or.inl rfl
    · exact Or.inr rfl

/-- The verdict. -/
theorem Standing.verdict {count : ℕ}
    (hstanding : Standing host call { phase := .writeRows count } own committed)
    (hnone : (publicationEntries ν host call)[count]? = none)
    (snapshot : Snapshot StoredKey (StoredRow ν)) :
    Standing host call { phase := publicationVerdict host call snapshot } own committed := by
  have hlength := List.getElem?_eq_none_iff.mp hnone
  have hcount : @Publisher.isHolding ν { phase := .writeRows count } = true := by
    have hpos : 0 < count := lt_of_lt_of_le (Nat.zero_lt_succ _) hlength
    simpa [Publisher.isHolding] using hpos
  have hall : (publicationEntries ν host call).take count = publicationEntries ν host call :=
    List.take_of_length_le hlength
  rcases publicationVerdict_eq snapshot with hmatched | hdiffering
  · rw [hmatched]
    exact
      { inserted := fun row hmem ↦ hstanding.inserted row (by
          show row ∈ (publicationEntries ν host call).take (count - 0)
          rw [Nat.sub_zero, hall]
          exact hmem)
        operations := List.forall_mem_nil _
        insertion := rfl
        chunks := hstanding.chunks
        targets := fun _ _ hmem ↦ absurd hmem List.not_mem_nil
        unseen := fun _ ↦ hstanding.unseen hcount
        clean := fun _ ↦ (hstanding.clean (by simp [hcount])).next _
        marked := nofun }
  · rw [hdiffering]
    exact
      { inserted := fun _ hmem ↦ absurd hmem List.not_mem_nil
        operations := List.forall_mem_nil _
        insertion := trivial
        chunks := hstanding.chunks
        targets := fun _ _ hmem ↦ absurd hmem List.not_mem_nil
        unseen := nofun
        clean := nofun
        marked := nofun }

/-- **What the start of a statement keeps.** -/
theorem Standing.start (hstanding : Standing host call { phase } (tables.own index) tables.committed)
    (hstatement : publicationStatement host call (tables.snapshot index) phase =
      .execute operations next) :
    Standing host call { phase := next, operations } (tables.own index) tables.committed := by
  cases phase with
  | begun =>
    cases hstatement
    exact hstanding.proceed (by simp) (by simp) (List.forall_mem_nil _)
      (fun _ _ hmem ↦ absurd hmem List.not_mem_nil) (by rintro ⟨⟩) (by rintro ⟨⟩)
  | markEmbeddings chunkIds =>
    cases hstatement
    refine hstanding.update (by simp) (by simp) ?_ (by rintro ⟨⟩) (by rintro ⟨⟩)
    rintro (_ | _ | _ | _ | _ | _ | _) chunk <;> simp [deactivatedEmbedding]
  | markChunks =>
    cases hstatement
    exact hstanding.proceed (by simp) (by simp)
      (harmless_of_update fun _ _ ↦ deletedAt_of_deletedChunk)
      (fun _ _ hmem ↦ targets_of_update hmem) (fun _ ↦ clean_of_markChunks _) (by rintro ⟨⟩)
  | markParagraphs =>
    cases hstatement
    refine hstanding.update (by simp) (by simp) ?_ (fun _ ↦ hstanding.clean rfl) (by rintro ⟨⟩)
    rintro (_ | _ | _ | _ | _ | _ | _) chunk <;> simp [deletedParagraph]
  | markChapters =>
    cases hstatement
    refine hstanding.update (by simp) (by simp) ?_ (by rintro ⟨⟩)
      (fun _ ↦ Or.inl (hstanding.clean rfl))
    rintro (_ | _ | _ | _ | _ | _ | _) chunk <;> simp [deletedChapter]
  | shiftChapters =>
    rw [publicationStatement] at hstatement
    split at hstatement
    · cases hstatement
    · cases hstatement
      refine hstanding.update (by simp) (by simp) ?_ (by rintro ⟨⟩) fun _ ↦
        (hstanding.marked rfl).imp_right fun hdoomed ↦ ⟨hdoomed, fun chapter hlive ↦ ?_⟩
      · rintro (_ | _ | _ | _ | _ | _ | _) chunk <;> simp [shiftedChapter]
      · simp [shiftedChapter, hlive]
  | retireFiles =>
    cases hstatement
    refine hstanding.update (by simp) (by simp) ?_ (by rintro ⟨⟩) fun _ ↦
      (hstanding.marked rfl).imp_right fun hdoomed ↦ ⟨hdoomed, fun _ _ ↦ rfl⟩
    rintro (_ | _ | _ | _ | _ | _ | _) chunk <;> simp [retiredFile]
  | writeFile =>
    cases hstatement
    refine hstanding.proceed (by simp) (by simp)
      (List.forall_mem_singleton.mpr ⟨by rintro _ ⟨⟩, by rintro _ ⟨⟩⟩)
      (fun _ _ hmem ↦ absurd (List.mem_singleton.mp hmem) (by simp)) (by rintro ⟨⟩) fun _ ↦ ?_
    refine (hstanding.marked rfl).imp (fun hclean ↦ hclean.next _) fun hdoomed ↦ ?_
    exact hdoomed.insertion (by simp) _
  | writeDocument =>
    cases hstatement
    exact hstanding.writeDocument ⟨by rintro _ ⟨⟩, by rintro _ ⟨⟩⟩
  | writeRows count =>
    rw [publicationStatement] at hstatement
    split at hstatement
    next row hrow =>
      cases hstatement
      exact hstanding.writeRow hrow
    next hnone =>
      cases hstatement
      exact hstanding.verdict hnone _
  | matched => cases hstatement
  | differing => cases hstatement
  | published => cases hstatement
  | abandoned => cases hstatement

end Start

section Perform

variable {ι : Type} [DecidableEq ι] {tables : Tables ι StoredKey (StoredRow ν)} {index : ι}
  {phase : PublicationPhase} {operation : Operation StoredKey (StoredRow ν)}
  {rest : List (Operation StoredKey (StoredRow ν))} {now : Instant} {documentId : Uuid}
  {entries : List (StoredRow ν)}

/-- Whatever a publication writes, what it has marked stays marked. -/
theorem Clean.perform
    (hclean : Clean now documentId { phase, operations := operation :: rest } (tables.own index)
      tables.committed) :
    Clean now documentId { phase, operations := rest }
      ((tables.written index operation).own index) tables.committed := by
  intro id chunk hchunk hdocument hlive
  by_cases hown : tables.own index (.chunk id) = none
  · rcases List.mem_cons.mp ((hclean id chunk hchunk hdocument hlive).resolve_left
      (not_not_intro hown)) with hoperation | hmem
    · left
      have hview : tables.view index (.chunk id) = some (.chunk chunk) := by
        rw [Tables.view, hown, Option.none_or, hchunk]
      have hresult : operation.result (tables.view index) =
          some (.chunk { chunk with toLifecycle := .deletedNow now }) := by
        rw [← hoperation, Operation.result, hview, Option.bind_some]
        simp [deletedChunk, hdocument, hlive]
      have hkey : operation.key = .chunk id := hoperation ▸ rfl
      rw [← hkey, Tables.own_written_key hresult]
      exact Option.some_ne_none _
    · exact Or.inr hmem
  · exact Or.inl (Tables.own_written_ne_none hown)

/-- Nothing that a publication writes touches the chapter that takes its place. -/
theorem Doomed.perform
    (hdoomed : Doomed documentId { phase, operations := operation :: rest } (tables.own index)
      tables.committed)
    (hharmless : Harmless documentId entries operation)
    (hblocks : tables.blocks index operation = false)
    (hrefuses : tables.refuses index operation = false) :
    Doomed documentId { phase, operations := rest } ((tables.written index operation).own index)
      tables.committed := by
  obtain ⟨id, chapter, hchapter, hdocument, horder, hlive, hown, hspared⟩ := hdoomed
  have hkey : StoredKey.chapter id ≠ operation.key := by
    cases operation with
    | update key change =>
      rintro rfl
      exact hspared change List.mem_cons_self
    | upsert key row change => exact (hharmless.2 id).symm
    | insert key row clashes =>
      exact (Tables.not_clashes_of_insert hblocks hrefuses (Or.inl ⟨hchapter, hown⟩)).1
  refine ⟨id, chapter, hchapter, hdocument, horder, hlive, ?_, fun change hmem ↦ ?_⟩
  · rw [Tables.own_written_of_key_ne hkey, hown]
  · exact hspared change (List.mem_cons_of_mem _ hmem)

/-- The undeleted chunks that a publication writes are its own. -/
theorem mem_of_own_written
    (hchunks : ∀ id chunk, tables.own index (.chunk id) = some (.chunk chunk) →
      chunk.documentId = documentId → chunk.deletedAt = none → .chunk chunk ∈ entries)
    (hharmless : Harmless documentId entries operation) (id : Uuid) (chunk : SemanticChunkRow)
    (hown : (tables.written index operation).own index (.chunk id) = some (.chunk chunk))
    (hdocument : chunk.documentId = documentId) (hlive : chunk.deletedAt = none) :
    .chunk chunk ∈ entries := by
  rcases Tables.own_written_eq_some hown with hown | ⟨hkey, hresult⟩
  · exact hchunks id chunk hown hdocument hlive
  · cases operation with
    | update key change =>
      obtain ⟨row, -, hrow⟩ := Option.bind_eq_some_iff.mp hresult
      exact absurd hlive (hharmless row chunk hrow hdocument)
    | upsert key row change => exact absurd hkey.symm (hharmless.1 id)
    | insert key row clashes =>
      have hrow : row = .chunk chunk := Option.some.inj hresult
      exact hrow ▸ hharmless

/-- A write in front of the insertions, or of a row that is there already. -/
theorem Standing.perform_of_not_inserting
    (hstanding : Standing host call { phase, operations := operation :: rest } (tables.own index)
      tables.committed)
    (hrows : ∀ count, phase ≠ .writeRows (count + 1)) (hmatched : phase ≠ .matched)
    (hblocks : tables.blocks index operation = false)
    (hrefuses : tables.refuses index operation = false) :
    Standing host call { phase, operations := rest } ((tables.written index operation).own index)
      tables.committed := by
  have hharmless := hstanding.operations operation List.mem_cons_self
  have hidle : ∀ operations : List (Operation StoredKey (StoredRow ν)),
      @Publisher.inserted ν { phase, operations } (publicationEntries ν host call) = [] ∧
        @Publisher.isHolding ν { phase, operations } = false ∧
        @Publisher.isMarked ν { phase, operations } =
          @Publisher.isMarked ν { phase, operations := operation :: rest } := by
    intro operations
    cases phase with
    | writeRows count =>
      cases count with
      | zero => simp [Publisher.inserted, Publisher.isHolding, Publisher.isMarked]
      | succ count => exact absurd rfl (hrows count)
    | matched => exact absurd rfl hmatched
    | _ => exact ⟨rfl, rfl, rfl⟩
  obtain ⟨hinserted, hholding, hmarked⟩ := hidle rest
  constructor
  case inserted =>
    rw [hinserted]
    exact List.forall_mem_nil _
  case operations => exact fun other hmem ↦ hstanding.operations other (List.mem_cons_of_mem _ hmem)
  case insertion =>
    cases phase with
    | writeRows count =>
      cases count with
      | zero => trivial
      | succ count => exact absurd rfl (hrows count)
    | matched => exact absurd rfl hmatched
    | _ => trivial
  case chunks => exact mem_of_own_written hstanding.chunks hharmless
  case targets =>
    intro key change hmem
    have hbefore := hstanding.targets key change (List.mem_cons_of_mem _ hmem)
    by_cases hown : tables.own index key = none
    · rw [hown, Option.none_or] at hbefore
      obtain ⟨row, hrow⟩ := Option.isSome_iff_exists.mp hbefore
      rw [hrow]
      rw [Option.isSome_or, Option.isSome_some, Bool.or_true]
    · have hkept : (tables.written index operation).own index key ≠ none :=
        Tables.own_written_ne_none hown
      obtain ⟨row, hrow⟩ := Option.ne_none_iff_exists'.mp hkept
      rw [hrow]
      rfl
  case unseen => exact fun hinserts ↦ absurd hinserts (Bool.eq_false_iff.mp hholding)
  case clean =>
    rw [hholding, Bool.or_false]
    exact fun hmarking ↦ (hstanding.clean (by rw [hmarking, Bool.true_or])).perform
  case marked =>
    rw [hmarked]
    exact fun hismarked ↦ (hstanding.marked hismarked).imp (fun hclean ↦ hclean.perform)
      fun hdoomed ↦ hdoomed.perform hharmless hblocks hrefuses

/-- The insertion of a row. -/
theorem Standing.insert {count : ℕ} {row : StoredRow ν}
    (hstanding : Standing host call
      { phase := .writeRows (count + 1), operations := [.insert row.key row row.clashes] }
      (tables.own index) tables.committed)
    (hrow : (publicationEntries ν host call)[count]? = some row)
    (hblocks : tables.blocks index (.insert row.key row row.clashes) = false)
    (hrefuses : tables.refuses index (.insert row.key row row.clashes) = false) :
    Standing host call { phase := .writeRows (count + 1), operations := [] }
      ((tables.written index (.insert row.key row row.clashes)).own index) tables.committed := by
  have hfirst : count = 0 → row = .chapter (chapterRow call.ids (call.plan host)) := by
    rintro rfl
    exact (Option.some.inj hrow).symm
  have hlater : count ≠ 0 → @Publisher.isHolding ν
      { phase := .writeRows (count + 1), operations := [.insert row.key row row.clashes] } = true :=
    fun hcount ↦ decide_eq_true (Nat.succ_lt_succ (Nat.pos_of_ne_zero hcount))
  constructor
  case inserted =>
    intro other hmem
    have hmem : other ∈ (publicationEntries ν host call).take (count + 1) := hmem
    rw [List.take_add_one, hrow, List.mem_append, Option.toList_some, List.mem_singleton] at hmem
    rcases hmem with hbefore | rfl
    · have hown : tables.own index other.key = some other := hstanding.inserted other hbefore
      have hkey : other.key ≠ row.key :=
        (Tables.not_clashes_of_insert hblocks hrefuses (Or.inr ⟨index, hown⟩)).1
      rw [Tables.own_written_of_key_ne hkey, hown]
    · exact Tables.own_written_key rfl
  case operations => exact List.forall_mem_nil _
  case insertion => exact Or.inl rfl
  case chunks =>
    exact mem_of_own_written hstanding.chunks (hstanding.operations _ List.mem_cons_self)
  case targets => exact fun _ _ hmem ↦ absurd hmem List.not_mem_nil
  case unseen =>
    intro _
    by_cases hcount : count = 0
    · by_contra hthere
      obtain ⟨old, hold⟩ := Option.ne_none_iff_exists'.mp hthere
      have hkey : row.key = .chapter call.ids.chapterId := by
        rw [hfirst hcount]
        rfl
      by_cases hown : tables.own index (.chapter call.ids.chapterId) = none
      · exact (Tables.not_clashes_of_insert hblocks hrefuses (Or.inl ⟨hold, hown⟩)).1 hkey.symm
      · obtain ⟨mine, hmine⟩ := Option.ne_none_iff_exists'.mp hown
        exact (Tables.not_clashes_of_insert hblocks hrefuses (Or.inr ⟨index, hmine⟩)).1 hkey.symm
    · exact hstanding.unseen (hlater hcount)
  case clean =>
    intro _
    by_cases hcount : count = 0
    · have hmarked : @Publisher.isMarked ν
          { phase := .writeRows (count + 1), operations := [.insert row.key row row.clashes] } =
            true :=
        decide_eq_true (Nat.succ_le_succ (Nat.le_of_eq hcount))
      rcases hstanding.marked hmarked with hclean | hdoomed
      · exact hclean.perform
      · obtain ⟨id, chapter, hchapter, hdocument, horder, -, hown, -⟩ := hdoomed
        have hapart :=
          (Tables.not_clashes_of_insert hblocks hrefuses (Or.inl ⟨hchapter, hown⟩)).2
        rw [hfirst hcount] at hapart
        have hplace : (chapterRow call.ids (call.plan host)).documentId =
            call.request.documentId ∧ (chapterRow call.ids (call.plan host)).orderIndex = 0 :=
          ⟨rfl, rfl⟩
        simp [StoredRow.clashes, hdocument, horder, hplace] at hapart
    · exact (hstanding.clean (by rw [hlater hcount, Bool.or_true])).perform
  case marked =>
    intro hmarked
    have hdone : count + 1 ≤ 0 := of_decide_eq_true hmarked
    exact absurd hdone (Nat.not_succ_le_zero count)

/-- **What a write keeps.** -/
theorem Standing.perform
    (hstanding : Standing host call { phase, operations := operation :: rest } (tables.own index)
      tables.committed)
    (hblocks : tables.blocks index operation = false)
    (hrefuses : tables.refuses index operation = false) :
    Standing host call { phase, operations := rest } ((tables.written index operation).own index)
      tables.committed := by
  by_cases hinserting : ∃ count, phase = .writeRows (count + 1)
  · obtain ⟨count, rfl⟩ := hinserting
    rcases hstanding.insertion with hnone | ⟨row, hrow, hoperations⟩
    · cases hnone
    · cases hoperations
      exact hstanding.insert hrow hblocks hrefuses
  · by_cases hmatched : phase = .matched
    · rw [hmatched] at hstanding
      exact absurd hstanding.insertion (List.cons_ne_nil _ _)
    · exact hstanding.perform_of_not_inserting (fun count hphase ↦ hinserting ⟨count, hphase⟩)
        hmatched hblocks hrefuses

end Perform

/-! ### Publications of one document -/

section Together

variable {ι : Type} [DecidableEq ι] {documentId : Uuid} {calls : ι → PublicationCall}
  {system next : Publications ι ν} {index : ι}

/-- What holds of all publications at every moment: where each of them stands, that no two of them
have inserted a chapter, and that what is visible was written by one of them once one is
published. -/
structure Orderly (host : Host) (documentId : Uuid) (calls : ι → PublicationCall)
    (system : Publications ι ν) : Prop where
  standing : ∀ index, Standing host (calls index) (system.session index)
    (system.tables.own index) system.tables.committed
  alone : ∀ index other, Publisher.isHolding (system.session index) = true →
    Publisher.isHolding (system.session other) = true → index = other
  ended : ∀ index, (system.session index).phase = .published →
    (system.session index).operations = []
  written : (∃ index, (system.session index).phase = .published) →
    ∃ index, (system.session index).phase = .published ∧
      WrittenBy documentId (publicationEntries ν host (calls index)) system.tables.committed

/-- A publication that commits has reached its verdict, and is published then. -/
theorem matched_of_commit {phase next : PublicationPhase} {snapshot : Snapshot StoredKey (StoredRow ν)}
    (hstatement : publicationStatement host call snapshot phase = .commit next) :
    phase = .matched ∧ next = .published := by
  cases phase with
  | matched =>
    cases hstatement
    exact ⟨rfl, rfl⟩
  | shiftChapters =>
    rw [publicationStatement] at hstatement
    split at hstatement <;> cases hstatement
  | writeRows count =>
    rw [publicationStatement] at hstatement
    split at hstatement <;> cases hstatement
  | _ => cases hstatement

/-- A publication that is rolled back is abandoned. -/
theorem abandoned_of_rollback {phase next : PublicationPhase}
    {snapshot : Snapshot StoredKey (StoredRow ν)}
    (hstatement : publicationStatement host call snapshot phase = .rollback next) :
    phase ≠ .published ∧ next = .abandoned := by
  cases phase with
  | differing =>
    cases hstatement
    exact ⟨nofun, rfl⟩
  | shiftChapters =>
    rw [publicationStatement] at hstatement
    split at hstatement <;> cases hstatement
    exact ⟨nofun, rfl⟩
  | writeRows count =>
    rw [publicationStatement] at hstatement
    split at hstatement <;> cases hstatement
  | _ => cases hstatement

/-- A statement does not publish, and holds the place of the chapter only when it was held before. -/
theorem holding_of_start {phase next : PublicationPhase} {snapshot : Snapshot StoredKey (StoredRow ν)}
    {operations : List (Operation StoredKey (StoredRow ν))}
    (hstatement : publicationStatement host call snapshot phase = .execute operations next) :
    phase ≠ .published ∧ next ≠ .published ∧
      (@Publisher.isHolding ν { phase := next, operations } = true →
        @Publisher.isHolding ν { phase } = true) := by
  cases phase with
  | shiftChapters =>
    rw [publicationStatement] at hstatement
    split at hstatement <;> cases hstatement
    exact ⟨nofun, nofun, nofun⟩
  | writeRows count =>
    refine ⟨nofun, ?_⟩
    rw [publicationStatement] at hstatement
    split at hstatement
    next row hrow =>
      cases hstatement
      exact ⟨nofun, fun hholding ↦ by simpa [Publisher.isHolding] using hholding⟩
    next hnone =>
      have hpos : 0 < count :=
        lt_of_lt_of_le (Nat.zero_lt_succ _) (List.getElem?_eq_none_iff.mp hnone)
      cases hstatement
      refine ⟨?_, fun _ ↦ by simpa [Publisher.isHolding] using hpos⟩
      rcases publicationVerdict_eq snapshot with hverdict | hverdict <;> rw [hverdict] <;> exact nofun
  | matched => cases hstatement
  | differing => cases hstatement
  | published => cases hstatement
  | abandoned => cases hstatement
  | _ =>
    cases hstatement
    exact ⟨nofun, nofun, nofun⟩

/-- A write holds the place of the chapter when it was held before, or when it is the insertion of
the chapter. -/
theorem Standing.holding_of_perform {phase : PublicationPhase}
    {operation : Operation StoredKey (StoredRow ν)} {rest : List (Operation StoredKey (StoredRow ν))}
    (hstanding : Standing host call { phase, operations := operation :: rest } own committed)
    (hholding : @Publisher.isHolding ν { phase, operations := rest } = true) :
    @Publisher.isHolding ν { phase, operations := operation :: rest } = true ∨
      operation = .insert (.chapter call.ids.chapterId)
        (.chapter (chapterRow call.ids (call.plan host)))
        (StoredRow.clashes (.chapter (chapterRow call.ids (call.plan host)))) := by
  cases phase with
  | writeRows count =>
    have hlt : rest.length < count := of_decide_eq_true hholding
    by_cases hbefore : (operation :: rest).length < count
    · exact Or.inl (decide_eq_true hbefore)
    · obtain ⟨done, rfl⟩ := Nat.exists_eq_succ_of_ne_zero (Nat.ne_zero_of_lt hlt)
      rcases hstanding.insertion with hnone | ⟨row, hrow, hoperations⟩
      · cases hnone
      · cases hoperations
        have hdone : done = 0 := Nat.le_zero.mp (Nat.le_of_succ_le_succ (Nat.le_of_not_lt hbefore))
        rw [hdone] at hrow
        cases hrow
        exact Or.inr rfl
  | matched => exact Or.inl rfl
  | _ => cases hholding

/-- The insertion of a chapter waits for a publication of the document that has inserted its
chapter. -/
theorem not_holding_of_insert {calls : ι → PublicationCall} {other : ι}
    {publisher : Publisher ν}
    (hdocuments : ∀ index, (calls index).request.documentId = documentId)
    (hstanding : Standing host (calls other) publisher (system.tables.own other)
      system.tables.committed)
    (hblocks : system.tables.blocks index
      (.insert (.chapter (calls index).ids.chapterId)
        (.chapter (chapterRow (calls index).ids ((calls index).plan host)))
        (StoredRow.clashes (.chapter (chapterRow (calls index).ids ((calls index).plan host))))) =
      false)
    (hrefuses : system.tables.refuses index
      (.insert (.chapter (calls index).ids.chapterId)
        (.chapter (chapterRow (calls index).ids ((calls index).plan host)))
        (StoredRow.clashes (.chapter (chapterRow (calls index).ids ((calls index).plan host))))) =
      false) :
    publisher.isHolding ≠ true := by
  intro hholding
  have hapart := (Tables.not_clashes_of_insert hblocks hrefuses
    (Or.inr ⟨other, hstanding.chapter hholding⟩)).2
  have hplace : ∀ index, (chapterRow (calls index).ids ((calls index).plan host)).documentId =
      documentId := fun index ↦ hdocuments index
  have horder : ∀ index, (chapterRow (calls index).ids ((calls index).plan host)).orderIndex = 0 :=
    fun _ ↦ rfl
  simp [StoredRow.clashes, hplace, horder] at hapart

/-- **What a commit makes visible.** -/
theorem Standing.written_of_commit {publisher : Publisher ν}
    (hstanding : Standing host call publisher (system.tables.own index) system.tables.committed)
    (hphase : publisher.phase = .matched) (hcomplete : publisher.operations = []) :
    WrittenBy call.request.documentId (publicationEntries ν host call)
      (system.tables.view index) := by
  obtain ⟨phase, operations⟩ := publisher
  cases hphase
  cases hcomplete
  have hentries : ∀ row ∈ publicationEntries ν host call,
      system.tables.view index row.key = some row :=
    fun row hmem ↦ Tables.view_of_own (hstanding.inserted row hmem)
  intro id chunk hchunk hdocument hlive
  have hown : system.tables.own index (.chunk id) = some (.chunk chunk) := by
    rcases Option.or_eq_some_iff.mp hchunk with hown | ⟨hnone, hcommitted⟩
    · exact hown
    · rcases hstanding.clean rfl id chunk hcommitted hdocument hlive with hwritten | hmem
      · exact absurd hnone hwritten
      · exact absurd hmem List.not_mem_nil
  have hmem := hstanding.chunks id chunk hown hdocument hlive
  obtain ⟨⟨paragraph, hparagraph, hid, hparagraphLive⟩, hchapter⟩ := hierarchy_of_chunk_mem hmem
  refine ⟨hmem, ⟨paragraph, ?_, hparagraph, hparagraphLive⟩, chapterRow call.ids (call.plan host),
    ?_, List.mem_cons_self, rfl⟩
  · exact hid ▸ hentries _ hparagraph
  · rw [hchapter]
    exact hentries _ List.mem_cons_self

/-- **What the commit of another publication keeps.** -/
theorem Orderly.standing_of_commit (hsystem : Orderly host documentId calls system)
    (hdocuments : ∀ index, (calls index).request.documentId = documentId)
    (hphase : (system.session index).phase = .matched)
    (hapart : ∀ other, other ≠ index → (system.session other).phase.isMarking = false) {other : ι}
    (hne : other ≠ index) :
    Standing host (calls other) (system.session other) (system.tables.own other)
      (system.tables.view index) := by
  have hstanding := hsystem.standing other
  have hholding : Publisher.isHolding (system.session index) = true := by
    rw [Publisher.isHolding, hphase]
  have hwaiting : Publisher.isHolding (system.session other) ≠ true :=
    fun hother ↦ hne (hsystem.alone other index hother hholding)
  exact
    { inserted := hstanding.inserted
      operations := hstanding.operations
      insertion := hstanding.insertion
      chunks := hstanding.chunks
      targets := by
        intro key change hmem
        have hbefore := hstanding.targets key change hmem
        rw [Option.isSome_or] at hbefore ⊢
        rw [Tables.view, Option.isSome_or]
        rcases Bool.or_eq_true_iff.mp hbefore with hown | hcommitted
        · rw [hown, Bool.true_or]
        · rw [hcommitted, Bool.or_true, Bool.or_true]
      unseen := fun hother ↦ absurd hother hwaiting
      clean := by
        rw [hapart other hne, Bool.false_or]
        exact fun hother ↦ absurd hother hwaiting
      marked := by
        intro _
        right
        have hown := (hsystem.standing index).chapter hholding
        refine ⟨_, _, Tables.view_of_own hown, ?_, rfl, rfl, Tables.own_eq_none hown hne, ?_⟩
        · exact (hdocuments index).trans (hdocuments other).symm
        · intro change hmem
          have htarget := hstanding.targets _ change hmem
          rw [Tables.own_eq_none hown hne, (hsystem.standing index).unseen hholding] at htarget
          cases htarget }

/-- What a step of one publication keeps of what holds of the publications, when it commits
nothing. -/
theorem Orderly.of_uncommitted (hsystem : Orderly host documentId calls system)
    (hcommitted : next.tables.committed = system.tables.committed)
    (hframe : ∀ other, other ≠ index → next.session other = system.session other ∧
      next.tables.own other = system.tables.own other)
    (hstanding : Standing host (calls index) (next.session index) (next.tables.own index)
      system.tables.committed)
    (hholding : Publisher.isHolding (next.session index) = true →
      Publisher.isHolding (system.session index) = true ∨ ∀ other, other ≠ index →
        Publisher.isHolding (system.session other) ≠ true)
    (hphase : (next.session index).phase = .published ↔
      (system.session index).phase = .published)
    (hover : (next.session index).phase = .published → (next.session index).operations = []) :
    Orderly host documentId calls next := by
  have hphases : ∀ other, (next.session other).phase = .published ↔
      (system.session other).phase = .published := by
    intro other
    by_cases hother : other = index
    · rw [hother, hphase]
    · rw [(hframe other hother).1]
  have halone : ∀ other, other ≠ index → Publisher.isHolding (next.session index) = true →
      Publisher.isHolding (next.session other) ≠ true := by
    intro other hother hmine
    rw [(hframe other hother).1]
    rcases hholding hmine with hbefore | hwaiting
    · exact fun hheld ↦ hother (hsystem.alone other index hheld hbefore)
    · exact hwaiting other hother
  constructor
  case standing =>
    intro other
    rw [hcommitted]
    by_cases hother : other = index
    · exact hother ▸ hstanding
    · rw [(hframe other hother).1, (hframe other hother).2]
      exact hsystem.standing other
  case alone =>
    intro first second hfirst hsecond
    by_cases hone : first = index
    · by_contra hne
      exact halone second (fun htwo ↦ hne (hone.trans htwo.symm)) (hone ▸ hfirst) hsecond
    · by_cases htwo : second = index
      · exact absurd hfirst (halone first hone (htwo ▸ hsecond))
      · rw [(hframe first hone).1] at hfirst
        rw [(hframe second htwo).1] at hsecond
        exact hsystem.alone first second hfirst hsecond
  case ended =>
    intro other hpublished
    by_cases hother : other = index
    · rw [hother] at hpublished ⊢
      exact hover hpublished
    · rw [(hframe other hother).1] at hpublished ⊢
      exact hsystem.ended other hpublished
  case written =>
    rintro ⟨other, hpublished⟩
    obtain ⟨writer, hwriter, hwritten⟩ :=
      hsystem.written ⟨other, (hphases other).mp hpublished⟩
    exact ⟨writer, (hphases writer).mpr hwriter, hcommitted ▸ hwritten⟩

/-- What a commit keeps of what holds of the publications. -/
theorem Orderly.commit (hsystem : Orderly host documentId calls system)
    (hdocuments : ∀ index, (calls index).request.documentId = documentId)
    (hphase : (system.session index).phase = .matched)
    (hcomplete : (system.session index).operations = [])
    (hapart : ∀ other, other ≠ index → (system.session other).phase.isMarking = false) :
    Orderly host documentId calls
      { tables := system.tables.commit index
        session := Function.update system.session index { phase := .published } } where
  standing := by
    intro other
    by_cases hother : other = index
    · subst hother
      simp only [Function.update_self, Tables.own_commit]
      exact standing_of_idle (Or.inr (Or.inl rfl)) _
    · simp only [Function.update_of_ne hother, Tables.own_commit_of_ne hother]
      exact hsystem.standing_of_commit hdocuments hphase hapart hother
  alone := by
    have hidle : ∀ other, Publisher.isHolding (Function.update system.session index
        ({ phase := .published } : Publisher ν) other) = true →
          other ≠ index ∧ Publisher.isHolding (system.session other) = true := by
      intro other hholding
      by_cases hother : other = index
      · rw [hother, Function.update_self] at hholding
        cases hholding
      · rw [Function.update_of_ne hother] at hholding
        exact ⟨hother, hholding⟩
    exact fun first second hfirst hsecond ↦
      hsystem.alone first second (hidle first hfirst).2 (hidle second hsecond).2
  ended := by
    intro other hpublished
    by_cases hother : other = index
    · simp only [hother, Function.update_self]
    · simp only [Function.update_of_ne hother] at hpublished ⊢
      exact hsystem.ended other hpublished
  written := fun _ ↦ by
    refine ⟨index, by simp only [Function.update_self], ?_⟩
    rw [← hdocuments index]
    exact (hsystem.standing index).written_of_commit hphase hcomplete

/-- **What one step keeps of what holds of the publications.** -/
theorem Orderly.of_step {action : ReadCommitted.Action ι}
    (hsystem : Orderly host documentId calls system)
    (hdocuments : ∀ index, (calls index).request.documentId = documentId)
    (hallowed : CommitsApart system action)
    (hstep : (publicationProtocol ν host calls).step system action = some next) :
    Orderly host documentId calls next := by
  have hprogress := Protocol.progress_of_step hstep
  have hframe : ∀ other, other ≠ action.index → next.session other = system.session other ∧
      next.tables.own other = system.tables.own other := fun other ↦ hprogress.frame
  have hstanding := hsystem.standing action.index
  have hsession : ∀ {operations}, (system.session action.index).operations = operations →
      system.session action.index =
        { phase := (system.session action.index).phase, operations } :=
    fun hoperations ↦ hoperations ▸ rfl
  cases hprogress with
  | abandon hunfinished =>
    have hunpublished : (system.session action.index).phase ≠ .published := by
      intro hpublished
      have hfinished : (publicationProtocol ν host calls).isFinished system action.index = true := by
        simp [Protocol.isFinished, Protocol.next, publicationProtocol, publicationStatement,
          hpublished, hsystem.ended _ hpublished]
      exact absurd hfinished (Bool.eq_false_iff.mp hunfinished)
    refine hsystem.of_uncommitted rfl hframe ?_ ?_ ?_ ?_
    · simp only [Protocol.abandon, Function.update_self, Tables.own_rollback]
      exact standing_of_idle (Or.inr (Or.inr rfl)) _
    · simp [Protocol.abandon, publicationProtocol, Publisher.isHolding]
    · simpa [Protocol.abandon, publicationProtocol] using hunpublished
    · simp [Protocol.abandon, publicationProtocol]
  | @perform operation rest hoperations hblocks hrefuses =>
    rw [hsession hoperations] at hstanding
    refine hsystem.of_uncommitted (Tables.committed_written _) hframe ?_ ?_ ?_ ?_
    · simp only [Function.update_self]
      exact hstanding.perform hblocks hrefuses
    · simp only [Function.update_self]
      intro hholding
      rcases hstanding.holding_of_perform hholding with hbefore | rfl
      · left
        rw [hsession hoperations]
        exact hbefore
      · exact Or.inr fun other _ ↦
          not_holding_of_insert hdocuments (hsystem.standing other) hblocks hrefuses
    · simp only [Function.update_self]
    · simp only [Function.update_self]
      intro hpublished
      exact absurd (hoperations.symm.trans (hsystem.ended _ hpublished)) (List.cons_ne_nil _ _)
  | @start operations phase hcomplete hstatement =>
    rw [hsession hcomplete] at hstanding
    obtain ⟨hbefore, hafter, hholding⟩ := holding_of_start hstatement
    refine hsystem.of_uncommitted rfl hframe ?_ ?_ ?_ ?_
    · simp only [Function.update_self]
      exact hstanding.start hstatement
    · simp only [Function.update_self]
      intro hheld
      left
      rw [hsession hcomplete]
      exact hholding hheld
    · simp only [Function.update_self]
      exact ⟨fun hpublished ↦ absurd hpublished hafter, fun hpublished ↦ absurd hpublished hbefore⟩
    · simp only [Function.update_self]
      exact fun hpublished ↦ absurd hpublished hafter
  | @commit phase hcomplete hstatement =>
    obtain ⟨hmatched, rfl⟩ := matched_of_commit hstatement
    refine hsystem.commit hdocuments hmatched hcomplete ?_
    cases action with
    | run index => exact hallowed hmatched
    | abort index =>
      have hphase := congrArg (fun system ↦ (ReadCommitted.System.session system index).phase)
        (Protocol.eq_abandon_of_abort hstep)
      simp [Protocol.abandon, publicationProtocol, Action.index] at hphase
  | @rollback phase hcomplete hstatement =>
    obtain ⟨hbefore, rfl⟩ := abandoned_of_rollback hstatement
    refine hsystem.of_uncommitted rfl hframe ?_ ?_ ?_ ?_
    · simp only [Function.update_self, Tables.own_rollback]
      exact standing_of_idle (Or.inr (Or.inr rfl)) _
    · simp [Publisher.isHolding]
    · simpa using hbefore
    · simp

end Together

/-! ### Runs -/

/-- **Concurrent publications of a document leave one hierarchy**, when none of them commits while
another one is between its updates: as soon as some are published, one of those has written all
undeleted chunks of the document, with the paragraphs and the chapters that they name. -/
theorem written_by_one_publication (host : Host) {ι : Type} [DecidableEq ι] (documentId : Uuid)
    (calls : ι → PublicationCall) (initial final : Publications ι ν)
    (hdocuments : ∀ index, (calls index).request.documentId = documentId)
    (hsessions : ∀ index, initial.session index = { phase := .begun })
    (hpending : ∀ key, initial.tables.pending key = none)
    (hrun : Steps (publicationProtocol ν host calls).step CommitsApart initial final)
    (hpublished : ∃ index, (final.session index).phase = .published) :
    ∃ index, (final.session index).phase = .published ∧
      WrittenBy documentId (publicationEntries ν host (calls index)) final.tables.committed := by
  have hinitial : Orderly host documentId calls initial := by
    constructor
    case standing =>
      intro index
      have hown : initial.tables.own index = fun _ ↦ none := by
        funext key
        rw [Tables.own, hpending key, Option.bind_none]
      rw [hsessions index, hown]
      exact standing_of_idle (Or.inl rfl) _
    case alone =>
      intro index other hholding
      rw [hsessions index] at hholding
      cases hholding
    case ended =>
      intro index hphase
      rw [hsessions index] at hphase
      cases hphase
    case written =>
      rintro ⟨index, hphase⟩
      rw [hsessions index] at hphase
      cases hphase
  have hfinal : Orderly host documentId calls final :=
    hrun.invariant hinitial fun _ _ _ hsystem hallowed hstep ↦
      hsystem.of_step hdocuments hallowed hstep
  exact hfinal.written hpublished

end Standing

/-! ### Two publications of a letter -/

/-- A publication of a document with one sentence. -/
def letterCall (number : Fin 2) : PublicationCall :=
  let request := { sampleRequest with textValue := lit "d" }
  let chunks (uuid : ℕ) :=
    (toOption (validateRuntimeChunks (.items [sampleItem uuid (lit "d") 0 1 0]) (lit "d")
      (sampleUuid 1))).getD []
  { ids := sampleIds (number.val + 1)
    request
    primarySourceId := sampleUuid 9
    paragraphs := (toOption (exactSentencePlan request.textValue (chunks (10 * number.val + 11))
      ((toOption (sentenceChunksFromParagraphBatch (chunks (10 * number.val + 11)) (sampleUuid 1)
        (.batches [.items [sampleItem (10 * number.val + 12) (lit "d") 0 1 0]]))).getD []))).getD [] }

/-- No document is there yet, and two publications begin. -/
def letterSystem : Publications (Fin 2) ℕ where
  tables :=
    { keys := []
      committed := fun _ ↦ none
      pending := fun _ ↦ none
      covers := by simp }
  session _ := { phase := .begun }

/-- The first publication runs up to its verdict, the second one takes some steps; then the first
one commits, and the second one goes on. -/
def letterActions (before after : ℕ) : List (ReadCommitted.Action (Fin 2)) :=
  List.replicate 20 (.run 0) ++ List.replicate before (.run 1) ++ .run 0 ::
    List.replicate after (.run 1)

/-- What the publications leave, when the second one has started one statement before the first one
commits. -/
def letterApart : Publications (Fin 2) ℕ :=
  (replay (guarded (publicationProtocol ℕ sampleHost letterCall).step CommitsApart) letterSystem
    (letterActions 2 24)).getD letterSystem

/-- What they leave, when the second one has started its update of the chunks. -/
def letterTogether : Publications (Fin 2) ℕ :=
  (replay (guarded (publicationProtocol ℕ sampleHost letterCall).step fun _ _ ↦ True) letterSystem
    (letterActions 3 22)).getD letterSystem

theorem written_by_one_publication_letter :
    (∀ index, (letterApart.session index).phase = .published) ∧
      ∃ index, (letterApart.session index).phase = .published ∧
        WrittenBy sampleRequest.documentId (publicationEntries ℕ sampleHost (letterCall index))
          letterApart.tables.committed := by
  have hpublished : ∀ index, (letterApart.session index).phase = .published := by decide +kernel
  have hrun : Steps (publicationProtocol ℕ sampleHost letterCall).step CommitsApart letterSystem
      letterApart := steps_of_replay (by decide +kernel)
  exact ⟨hpublished, written_by_one_publication sampleHost sampleRequest.documentId letterCall
    letterSystem letterApart (fun _ ↦ rfl) (fun _ ↦ rfl) (fun _ ↦ rfl) hrun ⟨0, hpublished 0⟩⟩

/-- Whether a chunk of a document is stored and not deleted. -/
def hasLiveChunk {ν : Type} (documentId id : Uuid) (row : StoredKey → Option (StoredRow ν)) : Bool :=
  match row (.chunk id) with
  | some (.chunk chunk) => chunk.id = id && chunk.documentId = documentId && chunk.deletedAt.isNone
  | _ => false

theorem not_writtenBy_of_hasLiveChunk {ν : Type} {documentId id : Uuid}
    {entries : List (StoredRow ν)} {row : StoredKey → Option (StoredRow ν)}
    (hlive : hasLiveChunk documentId id row = true)
    (hentries : .chunk id ∉ entries.map StoredRow.key) : ¬WrittenBy documentId entries row := by
  intro hwritten
  unfold hasLiveChunk at hlive
  split at hlive
  next chunk hchunk =>
    simp only [Bool.and_eq_true, decide_eq_true_eq, Option.isNone_iff_eq_none] at hlive
    obtain ⟨⟨hid, hdocument⟩, hdeleted⟩ := hlive
    obtain ⟨hmem, -⟩ := hwritten id chunk hchunk hdocument hdeleted
    exact hentries (List.mem_map.mpr ⟨_, hmem, congrArg StoredKey.chunk hid⟩)
  next => cases hlive

/-- Two publications with different chunks that both commit and leave the chunks of both. -/
theorem exists_mixed_hierarchy : ∃ final : Publications (Fin 2) ℕ,
    Steps (publicationProtocol ℕ sampleHost letterCall).step (fun _ _ ↦ True) letterSystem final ∧
      (∀ index, (final.session index).phase = .published) ∧
      ¬∃ index, WrittenBy sampleRequest.documentId
        (publicationEntries ℕ sampleHost (letterCall index)) final.tables.committed := by
  refine ⟨letterTogether, steps_of_replay (by decide +kernel), by decide +kernel, ?_⟩
  have hfirst : hasLiveChunk sampleRequest.documentId (sampleUuid 12)
      letterTogether.tables.committed = true := by decide +kernel
  have hsecond : hasLiveChunk sampleRequest.documentId (sampleUuid 22)
      letterTogether.tables.committed = true := by decide +kernel
  rintro ⟨index, hwritten⟩
  by_cases hindex : index = 0
  · exact not_writtenBy_of_hasLiveChunk hsecond (by rw [hindex]; decide +kernel) hwritten
  · obtain rfl : index = 1 := by omega
    exact not_writtenBy_of_hasLiveChunk hfirst (by decide +kernel) hwritten

end DocStore
