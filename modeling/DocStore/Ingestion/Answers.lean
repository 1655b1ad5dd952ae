import DocStore.Foundation.Ranking
import DocStore.Ingestion.Replay

/-!
# Answers of the ingestion boundary

The boundary answers with a source version, a chunking strategy and the UUIDs of chunks. A
publication that is executed reports what it has written. A replay takes the source version from the
request, and from the tables the chunks by their `order_index`, whatever chapter and paragraph they
stand in; one that waits for its vectors is even reported as committed. `truthful_iff_repliesTruly`
says for which requests the answer is what the tables hold.
-/

set_option autoImplicit false
set_option relaxedAutoImplicit false

namespace DocStore

open Foundation

variable {ν : Type}

/-! ### The boundary -/

/-- `status` of an answer that is not a failure. -/
inductive AnswerStatus where
  | committed
  | idempotentReplay
deriving DecidableEq, Repr

/-- What an executed publication reports besides its references. -/
structure PublicationReport where
  chapterIds : List Uuid
  paragraphIds : List Uuid
  primarySourceId : Uuid
  processingRunId : Uuid
  sourceStateAssertionId : Uuid

/-- An answer of the boundary. -/
structure BoundaryAnswer where
  status : AnswerStatus
  idempotent : Bool
  reason : Option ReplayReason
  documentId : Uuid
  sourceVersionId : Text
  sourceVersion : ℕ
  chunkIds : List Uuid
  chunkingStrategy : Text
  report : Option PublicationReport

/-- The answer with the references of a replay. -/
def ReplayReference.answer (reference : ReplayReference) : BoundaryAnswer where
  status := if reference.idempotent then .idempotentReplay else .committed
  idempotent := reference.idempotent
  reason := some reference.reason
  documentId := reference.documentId
  sourceVersionId := reference.sourceVersionId
  sourceVersion := reference.sourceVersion
  chunkIds := reference.chunkIds
  chunkingStrategy := reference.chunkingStrategy
  report := none

/-- The answer with the references of an executed publication. -/
def publishedAnswer (ids : PublicationIds) (plan : PersistencePlan) (primarySourceId : Uuid)
    (paragraphs : List PlannedParagraph) : BoundaryAnswer where
  status := .committed
  idempotent := false
  reason := none
  documentId := plan.documentId
  sourceVersionId := plan.sourceVersionId
  sourceVersion := plan.sourceVersion
  chunkIds := (plannedSentences paragraphs).map fun entry ↦ entry.1.uuid
  chunkingStrategy := plan.chunkingStrategy
  report := some
    { chapterIds := [ids.chapterId]
      paragraphIds := (List.range paragraphs.length).map ids.paragraphId
      primarySourceId
      processingRunId := ids.runId
      sourceStateAssertionId := ids.assertionId }

/-- A request that has been normalized, with what the chunker returns and what is drawn on the way. -/
structure SourceCall where
  ids : PublicationIds
  request : NormalizedRequest
  rawParagraphs : RawResponse
  rawBatches : RawBatches

/-- `_persist_source` and the status with which `__call__` and `_rechunk_existing` return: the answer,
or none for a publication that is refused, and the tables that are left. -/
def persistSource (host : Host) (call : SourceCall) (store : VectorDb ν) :
    Except Failure (Option BoundaryAnswer × VectorDb ν) := do
  let plan := mapPlan host call.request
  let paragraphChunks ←
    validateRuntimeChunks call.rawParagraphs call.request.textValue call.request.documentId
  let sentenceChunks ←
    sentenceChunksFromParagraphBatch paragraphChunks call.request.documentId call.rawBatches
  match replayReference host plan store with
  | some reference => return (some reference.answer, store)
  | none => do
    let publication ← publish host call.ids call.request paragraphChunks sentenceChunks store.toDb
    let paragraphs ← exactSentencePlan plan.textValue paragraphChunks sentenceChunks
    return if publication.integrityOutcome = .matching then
      (some (publishedAnswer call.ids plan (resolvePrimarySource host plan store.toDb) paragraphs),
        store.published plan publication.db)
      else (none, { store with toDb := publication.db })

/-! ### What the tables hold -/

/-- The chunks of a document that readers find, in the order in which they find them. -/
def liveChunkIds (host : Host) (db : Db) (documentId : Uuid) : List Uuid :=
  (joinedRows host db documentId).map fun row ↦ row.chunkId

/-- A document has a live chapter that was not there. -/
def WroteHierarchy (documentId : Uuid) (db next : Db) : Prop :=
  ∃ chapter ∈ next.chapters, chapter.documentId = documentId ∧ chapter.isLive = true ∧
    chapter.id ∉ db.chapters.map fun row ↦ row.id

/-- An answer says what the tables hold, and that it is committed only if a hierarchy was written. -/
structure Truthful (host : Host) (store next : Db) (answer : BoundaryAnswer) : Prop where
  document : ∃ document,
    lookup (fun row : DocumentRow ↦ row.id) answer.documentId next.documents = some document ∧
      document.sourceVersion = answer.sourceVersion ∧
      jsonText host document.blockMeta "source_version_id" = some answer.sourceVersionId ∧
      jsonText host document.blockMeta "chunking_strategy" = some answer.chunkingStrategy
  chunks : answer.chunkIds = liveChunkIds host next answer.documentId
  written : answer.status = .committed → WroteHierarchy answer.documentId store next

/-! ### The condition -/

/-- The request is answered because the file of the document carries one of its digests. -/
def AnsweredByDigest (plan : PersistencePlan) (store : VectorDb ν) : Prop :=
  plan.command ≠ lit "document_chunk" ∧ ∃ state,
    loadDocumentFileState plan.documentId store = some state ∧ plan.filename.isSome = true ∧
      state.quiescent = true ∧ (state.fileContentSha256 = some plan.contentSha256 ∨
        state.fileBodySha256 = some plan.bodySha256)

/-- A document that is not deleted carries the source version of the request. -/
def CarriesVersion (host : Host) (plan : PersistencePlan) (db : Db) : Prop :=
  ∃ document ∈ undeletedDocument db plan.documentId,
    jsonText host document.blockMeta "source_version_id" = some plan.sourceVersionId

/-- The request is answered because the document carries its source version. -/
def AnsweredByVersion (host : Host) (plan : PersistencePlan) (store : VectorDb ν) : Prop :=
  plan.command ≠ lit "document_chunk" ∧ ¬AnsweredByDigest plan store ∧
    CarriesVersion host plan store.toDb ∧ ∃ state,
      loadDocumentFileState plan.documentId store = some state ∧ state.quiescent = true

/-- The request is answered although the document, which carries its source version, waits for its
vectors. -/
def AnsweredPending (host : Host) (plan : PersistencePlan) (store : VectorDb ν) : Prop :=
  plan.command ≠ lit "document_chunk" ∧ CarriesVersion host plan store.toDb ∧ ∃ state,
    loadDocumentFileState plan.documentId store = some state ∧ state.quiescent = false ∧
      state.fileNeedsRechunk = false

/-- The chunks of a document without a deletion time. -/
def undeletedChunks (db : Db) (documentId : Uuid) : List SemanticChunkRow :=
  db.semanticChunks.filter fun row ↦ row.documentId = documentId && row.deletedAt.isNone

/-- The place of a chunk in the order of publication. -/
def publishedKey (host : Host) (db : Db) (chunk : SemanticChunkRow) : OrderKey :=
  ((joinChunk host db chunk).map Prod.fst).getD (0, 0, 0, 0)

/-- The chunks without a deletion time are the ones that readers find, and of two of them the one with
the smaller `order_index`, or of equal ones the one that stands first, is read first. -/
structure ChunksInOrder (host : Host) (db : Db) (documentId : Uuid) : Prop where
  found : ∀ chunk ∈ undeletedChunks db documentId, (joinChunk host db chunk).isSome = true
  ordered : (undeletedChunks db documentId).Pairwise fun first second ↦
    (first.orderIndex ≤ second.orderIndex ↔
      (publishedKey host db first).before (publishedKey host db second) = true)

/-- A request gets a true answer: the document carries what a replay takes from the request, its
chunks are in order, and nothing waits for its vectors. -/
structure RepliesTruly (host : Host) (plan : PersistencePlan) (store : VectorDb ν) : Prop where
  digest : AnsweredByDigest plan store → ∃ document ∈ undeletedDocument store.toDb plan.documentId,
    document.sourceVersion = plan.sourceVersion ∧
      jsonText host document.blockMeta "source_version_id" = some plan.sourceVersionId ∧
      jsonText host document.blockMeta "chunking_strategy" = some plan.chunkingStrategy
  version : AnsweredByVersion host plan store →
    ∃ document ∈ undeletedDocument store.toDb plan.documentId,
      document.sourceVersion = plan.sourceVersion ∧ ∃ chunkingStrategy,
        jsonText host document.blockMeta "chunking_strategy" = some chunkingStrategy ∧
          (chunkingStrategy = [] → plan.chunkingStrategy = [])
  chunks : AnsweredByDigest plan store ∨ AnsweredByVersion host plan store →
    ChunksInOrder host store.toDb plan.documentId
  notPending : ¬AnsweredPending host plan store

/-! ### The order of the chunks -/

section Order

variable {host : Host} {db : Db} {documentId : Uuid}

theorem OrderKey.before_iff {first second : OrderKey} : first.before second = true ↔
    first.1 < second.1 ∨ first.1 = second.1 ∧ (first.2.1 < second.2.1 ∨ first.2.1 = second.2.1 ∧
      (first.2.2.1 < second.2.2.1 ∨ first.2.2.1 = second.2.2.1 ∧ first.2.2.2 ≤ second.2.2.2)) := by
  simp [OrderKey.before]

instance {α : Type} (key : α → OrderKey) :
    Std.Total fun first second ↦ (key first).before (key second) = true where
  total first second := by
    simp only [OrderKey.before_iff]
    omega

instance {α : Type} (key : α → OrderKey) :
    IsTrans α fun first second ↦ (key first).before (key second) = true where
  trans first second third := by
    simp only [OrderKey.before_iff]
    omega

/-- The readers pass over the chunks with a deletion time. -/
theorem filterMap_joinChunk (host : Host) (db : Db) (documentId : Uuid) :
    (db.semanticChunks.filter fun chunk ↦ chunk.documentId = documentId).filterMap
      (joinChunk host db) = (undeletedChunks db documentId).filterMap (joinChunk host db) := by
  rw [undeletedChunks, List.filterMap_filter, List.filterMap_filter]
  refine List.filterMap_congr fun chunk _ ↦ ?_
  by_cases hdocument : chunk.documentId = documentId
  · cases hdeleted : chunk.deletedAt with
    | none => simp [hdocument]
    | some _ =>
      rw [joinChunk_eq_none host db (by rw [hdeleted, Option.isSome_some]), ite_self, ite_self]
  · simp [hdocument]

/-- Chunks that are all found are read in the order of publication. -/
theorem liveChunkIds_of_found
    (hfound : ∀ chunk ∈ undeletedChunks db documentId, (joinChunk host db chunk).isSome = true) :
    liveChunkIds host db documentId = ((undeletedChunks db documentId).insertionSort
      fun first second ↦ (publishedKey host db first).before (publishedKey host db second) = true).map
        fun chunk ↦ chunk.id := by
  set chunks := undeletedChunks db documentId with hchunks
  set joined := chunks.filterMap (joinChunk host db) with hjoined
  have hpairs : joined.map (fun entry ↦ (entry.1, entry.2.chunkId)) =
      chunks.map fun chunk ↦ (publishedKey host db chunk, chunk.id) := by
    rw [hjoined, List.map_filterMap, ← List.filterMap_eq_map]
    refine List.filterMap_congr fun chunk hchunk ↦ ?_
    obtain ⟨entry, hentry⟩ := Option.isSome_iff_exists.mp (hfound chunk hchunk)
    simp only [Function.comp_apply, publishedKey, hentry, Option.map_some, Option.getD_some,
      chunkId_of_joinChunk hentry]
  have hread : ((joined.insertionSort fun first second ↦ first.1.before second.1 = true).map
      fun entry ↦ (entry.1, entry.2.chunkId)) = (joined.map fun entry ↦
        (entry.1, entry.2.chunkId)).insertionSort fun first second ↦
          first.1.before second.1 = true :=
    List.map_insertionSort _ _ _ _ fun _ _ _ _ ↦ Iff.rfl
  have hsorted : ((chunks.insertionSort fun first second ↦
      (publishedKey host db first).before (publishedKey host db second) = true).map fun chunk ↦
        (publishedKey host db chunk, chunk.id)) = (chunks.map fun chunk ↦
          (publishedKey host db chunk, chunk.id)).insertionSort fun first second ↦
            first.1.before second.1 = true :=
    List.map_insertionSort _ _ _ _ fun _ _ _ _ ↦ Iff.rfl
  rw [hpairs, ← hsorted] at hread
  have hids := congrArg (List.map Prod.snd) hread
  rw [List.map_map, List.map_map] at hids
  rw [liveChunkIds, joinedRows, filterMap_joinChunk, List.map_map]
  exact hids

/-- `_existing_references` finds the chunks that are read, in their order, exactly when they are in
order. -/
theorem existingChunks_eq_liveChunkIds_iff
    (hkeys : (db.semanticChunks.map fun row ↦ row.id).Nodup) :
    existingChunks db documentId = liveChunkIds host db documentId ↔
      ChunksInOrder host db documentId := by
  have hinj : ∀ first ∈ undeletedChunks db documentId, ∀ second ∈ undeletedChunks db documentId,
      first.id = second.id → first = second := fun first hfirst second hsecond hid ↦
    List.inj_on_of_nodup_map hkeys (List.mem_of_mem_filter hfirst) (List.mem_of_mem_filter hsecond)
      hid
  have : Std.Total fun first second : SemanticChunkRow ↦ first.orderIndex ≤ second.orderIndex :=
    ⟨fun first second ↦ le_total first.orderIndex second.orderIndex⟩
  have : IsTrans SemanticChunkRow fun first second ↦ first.orderIndex ≤ second.orderIndex :=
    ⟨fun _ _ _ hfirst hsecond ↦ hfirst.trans hsecond⟩
  have hordered := @insertionSort_eq_insertionSort_iff SemanticChunkRow
    (fun first second ↦ first.orderIndex ≤ second.orderIndex)
    (fun first second ↦ (publishedKey host db first).before (publishedKey host db second) = true)
    _ _ _ _ _ _ (undeletedChunks db documentId)
  constructor
  · intro hsame
    have hfound : ∀ chunk ∈ undeletedChunks db documentId,
        (joinChunk host db chunk).isSome = true := by
      intro chunk hchunk
      have hmem : chunk.id ∈ existingChunks db documentId :=
        List.mem_map_of_mem ((List.mem_insertionSort _).mpr hchunk)
      rw [hsame, liveChunkIds, joinedRows, filterMap_joinChunk, List.map_map] at hmem
      obtain ⟨entry, hentry, hid⟩ := List.mem_map.mp hmem
      obtain ⟨other, hother, hjoin⟩ := List.mem_filterMap.mp ((List.mem_insertionSort _).mp hentry)
      rw [hinj chunk hchunk other hother (hid.symm.trans (chunkId_of_joinChunk hjoin)), hjoin]
      rfl
    refine ⟨hfound, hordered.mp (eq_of_map_eq (fun first hfirst second hsecond ↦ ?_)
      (hsame.trans (liveChunkIds_of_found hfound)))⟩
    exact hinj first ((List.mem_insertionSort _).mp hfirst) second
      ((List.mem_insertionSort _).mp hsecond)
  · intro hinOrder
    rw [liveChunkIds_of_found hinOrder.found, ← hordered.mpr hinOrder.ordered]
    rfl

end Order

/-! ### The branches -/

section Branches

variable {host : Host} {plan : PersistencePlan} {store : VectorDb ν}

/-- The branches of `_replay_reference`, each with what it returns. -/
inductive Replies (host : Host) (plan : PersistencePlan) (store : VectorDb ν) :
    Option ReplayReference → Prop where
  | nothing (hdigest : ¬AnsweredByDigest plan store) (hversion : ¬AnsweredByVersion host plan store)
    (hpending : ¬AnsweredPending host plan store) : Replies host plan store none
  | digest (hdigest : AnsweredByDigest plan store) :
    Replies host plan store
      (some (existingReferences plan store plan.chunkingStrategy true .fileChecksumMatch))
  | version (hversion : AnsweredByVersion host plan store) (document : DocumentRow)
    (hdocument : document ∈ undeletedDocument store.toDb plan.documentId)
    (hcarries : jsonText host document.blockMeta "source_version_id" = some plan.sourceVersionId) :
    Replies host plan store (some (existingReferences plan store
      ((nonempty (jsonText host document.blockMeta "chunking_strategy")).getD plan.chunkingStrategy)
      true .sourceVersionMatch))
  | pending (hpending : AnsweredPending host plan store) (chunkingStrategy : Text) :
    Replies host plan store
      (some (existingReferences plan store chunkingStrategy false .revectorizationPending))

/-- The row that carries the source version, of a document that is not deleted. -/
theorem committedDocumentRow_of_undeleted {document : DocumentRow}
    (hdocument : document ∈ undeletedDocument store.toDb plan.documentId) :
    committedDocumentRow host plan store.toDb =
      if jsonText host document.blockMeta "source_version_id" = some plan.sourceVersionId then
        some ((nonempty (jsonText host document.blockMeta "chunking_strategy")).getD
          plan.chunkingStrategy)
      else none := by
  obtain ⟨hlookup, -⟩ := Option.filter_eq_some_iff.mp hdocument
  rw [committedDocumentRow, hlookup]
  by_cases hversion : jsonText host document.blockMeta "source_version_id" =
      some plan.sourceVersionId <;> simp [hversion]

theorem replies_replayReference (host : Host) (plan : PersistencePlan) (store : VectorDb ν) :
    Replies host plan store (replayReference host plan store) := by
  unfold replayReference
  split
  next hcommand =>
    exact .nothing (fun h ↦ h.1 hcommand) (fun h ↦ h.1 hcommand) fun h ↦ h.1 hcommand
  next hcommand =>
    cases hstate : loadDocumentFileState plan.documentId store with
    | none =>
      refine .nothing ?_ ?_ ?_
      · rintro ⟨-, state, hsome, -⟩
        cases hstate.symm.trans hsome
      · rintro ⟨-, -, -, state, hsome, -⟩
        cases hstate.symm.trans hsome
      · rintro ⟨-, -, state, hsome, -⟩
        cases hstate.symm.trans hsome
    | some state =>
      obtain ⟨document, hdocument, -⟩ := Option.map_eq_some_iff.mp hstate
      have hdigest : AnsweredByDigest plan store ↔ (plan.filename.isSome && state.quiescent &&
          (state.fileContentSha256 = some plan.contentSha256 ||
            state.fileBodySha256 = some plan.bodySha256)) = true := by
        simp only [AnsweredByDigest, hstate, Option.some.injEq, exists_eq_left', Bool.and_eq_true,
          Bool.or_eq_true, decide_eq_true_eq, and_assoc]
        exact and_iff_right hcommand
      have hcarries : CarriesVersion host plan store.toDb ↔
          jsonText host document.blockMeta "source_version_id" = some plan.sourceVersionId := by
        constructor
        · rintro ⟨other, hother, hversion⟩
          rwa [Option.some.inj (hdocument.symm.trans hother)]
        · exact fun hversion ↦ ⟨document, hdocument, hversion⟩
      dsimp only
      split
      next hmatches => exact .digest (hdigest.mpr hmatches)
      next hnot =>
        have hdigest := fun hdigested ↦ hnot (hdigest.mp hdigested)
        rw [committedDocumentRow_of_undeleted hdocument]
        by_cases hversion : jsonText host document.blockMeta "source_version_id" =
            some plan.sourceVersionId
        · rw [if_pos hversion]
          dsimp only
          split
          next hquiescent =>
            exact .version ⟨hcommand, hdigest, hcarries.mpr hversion, state, hstate, hquiescent⟩
              document hdocument hversion
          next hwaits =>
            have hquiescent := Bool.eq_false_iff.mpr hwaits
            split
            next hflags =>
              exact .pending ⟨hcommand, hcarries.mpr hversion, state, hstate, hquiescent, by
                simpa using (Bool.and_eq_true_iff.mp hflags).1⟩ _
            next hflags =>
              refine .nothing hdigest ?_ ?_
              · rintro ⟨-, -, -, other, hother, hstill⟩
                obtain rfl := Option.some.inj (hstate.symm.trans hother)
                exact hwaits hstill
              · rintro ⟨-, -, other, hother, -, hrechunk⟩
                obtain rfl := Option.some.inj (hstate.symm.trans hother)
                refine hflags ?_
                rw [DocumentFileState.quiescent] at hquiescent
                revert hquiescent
                cases state.fileNeedsRevectorize <;> cases state.documentNeedsRevectorize <;>
                  simp [hrechunk]
        · rw [if_neg hversion]
          exact .nothing hdigest (fun h ↦ hversion (hcarries.mp h.2.2.1))
            fun h ↦ hversion (hcarries.mp h.2.1)

end Branches

/-! ### An executed publication -/

section Executed

variable {host : Host} {ids : PublicationIds} {plan : PersistencePlan} {primarySourceId : Uuid}
  {paragraphs : List PlannedParagraph} {db next : Db}

/-- The chapter of a publication is new. -/
theorem chapterId_notMem_of_writeHierarchy (hdb : db.Consistent)
    (hwrite : writeHierarchy host ids plan primarySourceId paragraphs db = .ok next) :
    ids.chapterId ∉ db.chapters.map fun row ↦ row.id := by
  obtain ⟨prepared, hprepare, -⟩ := bind_eq_ok.mp hwrite
  obtain ⟨shifted, hshift, hprepare⟩ := bind_eq_ok.mp hprepare
  obtain ⟨filed, hfile, hprepare⟩ := bind_eq_ok.mp hprepare
  obtain ⟨documented, hdocument, hchapter⟩ := bind_eq_ok.mp hprepare
  obtain ⟨hfresh, -, -⟩ := Db.insertChapter_eq_ok.mp hchapter
  have hshifted := (hdb.markHierarchy ids.now plan.documentId).shiftChapters hshift
  have hfiled := (writeFile_spec (hshifted.retirePreviousFiles ids.now plan.documentId) hfile).1
  have hdocumented := (writeDocument_spec hfiled hdocument).1
  have hids : documented.chapters.map (fun row ↦ row.id) = db.chapters.map fun row ↦ row.id := by
    obtain ⟨-, hshift⟩ := raiseIf_bind_eq_ok.mp hshift
    cases hshift
    obtain ⟨_, _, rfl⟩ := exists_of_writeFile hfile
    obtain ⟨_, _, rfl⟩ := exists_of_writeDocument hdocument
    exact (map_updateWhere (by intro _; rfl) _).trans (map_updateWhere (by intro _; rfl) _)
  intro hmem
  rw [← hids] at hmem
  obtain ⟨row, hrow, hid⟩ := List.mem_map.mp hmem
  have hregistered := hdocumented.chapters row hrow
  rw [hid] at hregistered
  exact hfresh hregistered

/-- A written hierarchy has a live chapter that was not there. -/
theorem wroteHierarchy_of_writeHierarchy (hdb : db.Consistent)
    (hwrite : writeHierarchy host ids plan primarySourceId paragraphs db = .ok next) :
    WroteHierarchy plan.documentId db next := by
  have hnew := chapterId_notMem_of_writeHierarchy hdb hwrite
  obtain ⟨middle, hprepare, hwrite⟩ := bind_eq_ok.mp hwrite
  have hmiddle := prepared_of_prepareHierarchy hdb hprepare
  obtain ⟨-, hgrown⟩ := grown_of_writeParagraphs hmiddle.consistent hmiddle.registered hwrite
  refine ⟨chapterRow ids plan, ?_, rfl, rfl, hnew⟩
  rw [hgrown.chapters]
  exact (mem_of_lookup hmiddle.chapter).1

/-- A written plan has sentences with distinct UUIDs. -/
theorem nodup_uuids_of_writeHierarchy (hdb : db.Consistent)
    (hwrite : writeHierarchy host ids plan primarySourceId paragraphs db = .ok next) :
    ((plannedSentences paragraphs).map fun entry ↦ entry.1.uuid).Nodup := by
  obtain ⟨middle, hprepare, hwrite⟩ := bind_eq_ok.mp hwrite
  have hmiddle := prepared_of_prepareHierarchy hdb hprepare
  obtain ⟨hnext, hgrown⟩ := grown_of_writeParagraphs hmiddle.consistent hmiddle.registered hwrite
  obtain ⟨-, hnew, -⟩ := List.nodup_append.mp (hgrown.registered.nodup_iff.mp hnext.registry)
  obtain ⟨-, hsentences, -⟩ := List.nodup_append.mp hnew
  rw [hierarchySentences, List.map_map] at hsentences
  rw [← map_entry_placedSentences 0, List.map_map]
  exact hsentences

/-- The chunks that readers find in a written hierarchy are the sentences of the plan. -/
theorem liveChunkIds_of_writeHierarchy (hdb : db.Consistent)
    (hlive : documentDeleted db plan.documentId = false)
    (hplan : ExactPlan plan.textValue paragraphs)
    (hwrite : writeHierarchy host ids plan primarySourceId paragraphs db = .ok next) :
    liveChunkIds host next plan.documentId =
      (plannedSentences paragraphs).map fun entry ↦ entry.1.uuid := by
  obtain ⟨middle, hprepare, hwrite⟩ := bind_eq_ok.mp hwrite
  have hmiddle := prepared_of_prepareHierarchy hdb hprepare
  obtain ⟨hnext, hgrown⟩ := grown_of_writeParagraphs hmiddle.consistent hmiddle.registered hwrite
  have hrows := congrArg (List.map ScopeRow.chunkId)
    (joinedRows_of_grown hmiddle hgrown hnext hlive hplan)
  rw [List.map_map, hierarchySentences, List.map_map, List.map_map] at hrows
  rw [← map_entry_placedSentences 0, List.map_map]
  exact hrows

/-- A document whose text can be read back was not flagged as deleted. -/
theorem documentDeleted_of_currentText {text : Text}
    (hwrite : writeHierarchy host ids plan primarySourceId paragraphs db = .ok next)
    (hread : currentText host next plan.documentId = some text) :
    documentDeleted db plan.documentId = false := by
  obtain ⟨document, hdocument, hlive⟩ := isLive_of_currentText hread
  have hwritten := (lookup_document_of_writeHierarchy hwrite plan.documentId).symm.trans hdocument
  rw [if_pos rfl] at hwritten
  obtain rfl := Option.some.inj hwritten
  simpa [Lifecycle.isLive, documentRow, documentDeleted] using hlive

/-- A text with an accepted paragraph is not empty. -/
theorem ne_nil_of_validateRuntimeChunks {rawParagraphs : RawResponse} {text : Text}
    {sourceId : Uuid} {paragraphChunks : List RuntimeChunk}
    (hparagraphs : validateRuntimeChunks rawParagraphs text sourceId = .ok paragraphChunks) :
    text ≠ [] := by
  obtain ⟨hlocated, hne⟩ := validateRuntimeChunks_located hparagraphs
  obtain ⟨chunk, hchunk⟩ := List.exists_mem_of_ne_nil _ hne
  have hbounds := hlocated.ordered.mem_bounds (List.mem_map_of_mem (f := RuntimeChunk.range) hchunk)
  have hrange := hlocated.nonempty chunk hchunk
  rintro rfl
  simp only [RuntimeChunk.range, List.length_nil] at hbounds
  omega

end Executed

/-! ### True answers -/

section Answers

variable {host : Host} {call : SourceCall} {store next : VectorDb ν} {answer : BoundaryAnswer}

/-- What an executed publication answers is what it has written. -/
theorem truthful_publishedAnswer (hdb : store.Consistent)
    {paragraphChunks sentenceChunks : List RuntimeChunk} {publication : Publication}
    {paragraphs : List PlannedParagraph}
    (hparagraphs : validateRuntimeChunks call.rawParagraphs call.request.textValue
      call.request.documentId = .ok paragraphChunks)
    (hsentences : sentenceChunksFromParagraphBatch paragraphChunks call.request.documentId
      call.rawBatches = .ok sentenceChunks)
    (hpublish : publish host call.ids call.request paragraphChunks sentenceChunks store.toDb =
      .ok publication)
    (hmatch : publication.integrityOutcome = .matching)
    (hplan : exactSentencePlan call.request.textValue paragraphChunks sentenceChunks =
      .ok paragraphs) (primarySourceId : Uuid) :
    Truthful host store.toDb publication.db
      (publishedAnswer call.ids (mapPlan host call.request) primarySourceId paragraphs) := by
  obtain ⟨planned, hierarchy, runs, assertions, hplanned, hwrite, htables, hread⟩ :=
    written_of_publish hdb hpublish hmatch (ne_nil_of_validateRuntimeChunks hparagraphs)
  obtain rfl := Except.ok.inj (hplan.symm.trans hplanned)
  obtain ⟨groups, rfl, rfl, hnested, -, -⟩ := nested_of_chunking hparagraphs hsentences
  obtain ⟨grouped, hgrouped, hdeal⟩ := bind_eq_ok.mp hplan
  obtain rfl := Except.ok.inj (hgrouped.symm.trans (mapM_groupSentences_of_nested hnested))
  obtain ⟨pieces, -, hdealt⟩ := bind_eq_ok.mp hdeal
  have huuids := nodup_uuids_of_writeHierarchy hdb hwrite
  have hnodup : ((grouped.flatMap Prod.snd).map RuntimeChunk.uuid).Nodup := by
    rw [← sentences_of_mapM_dealPieces hdealt, List.map_map]
    exact huuids
  obtain ⟨exact, hexact, -, -, hexactPlan⟩ := exactSentencePlan_eq_ok hparagraphs hsentences hnodup
  obtain rfl := Except.ok.inj (hplan.symm.trans hexact)
  have hdocument := (lookup_document_of_writeHierarchy hwrite call.request.documentId).trans
    (if_pos rfl)
  have hwrote := wroteHierarchy_of_writeHierarchy hdb hwrite
  rw [htables]
  refine ⟨⟨_, hdocument, rfl, jsonText_docMeta host call.request _ _,
    jsonText_docMeta_strategy host call.request _ _⟩, ?_, fun _ ↦ hwrote⟩
  exact (liveChunkIds_of_writeHierarchy hdb (documentDeleted_of_currentText hwrite hread) hexactPlan
    hwrite).symm

/-- Nothing is written where nothing changes. -/
theorem not_wroteHierarchy_self (documentId : Uuid) (db : Db) : ¬WroteHierarchy documentId db db :=
  fun ⟨_, hchapter, _, _, hnew⟩ ↦ hnew (List.mem_map_of_mem hchapter)

/-- The row of a document with a state is not deleted. -/
theorem lookup_eq_some_iff_of_state {documentId : Uuid} {state : DocumentFileState}
    (hstate : loadDocumentFileState documentId store = some state) {document : DocumentRow} :
    lookup (fun row : DocumentRow ↦ row.id) documentId store.documents = some document ↔
      document ∈ undeletedDocument store.toDb documentId := by
  obtain ⟨found, hfound, -⟩ := Option.map_eq_some_iff.mp hstate
  obtain ⟨hlookup, -⟩ := Option.filter_eq_some_iff.mp hfound
  rw [hlookup, hfound, Option.some.injEq, Option.mem_some]

/-- A digest and a wait for vectors exclude each other. -/
theorem AnsweredByDigest.not_pending {plan : PersistencePlan} (hdigest : AnsweredByDigest plan store) :
    ¬AnsweredPending host plan store := by
  rintro ⟨-, -, state, hstate, hwaits, -⟩
  obtain ⟨-, other, hother, -, hquiescent, -⟩ := hdigest
  obtain rfl := Option.some.inj (hstate.symm.trans hother)
  exact Bool.false_ne_true (hwaits.symm.trans hquiescent)

theorem AnsweredByVersion.not_pending {plan : PersistencePlan}
    (hversion : AnsweredByVersion host plan store) : ¬AnsweredPending host plan store := by
  rintro ⟨-, -, state, hstate, hwaits, -⟩
  obtain ⟨-, -, -, other, hother, hquiescent⟩ := hversion
  obtain rfl := Option.some.inj (hstate.symm.trans hother)
  exact Bool.false_ne_true (hwaits.symm.trans hquiescent)

/-- A stored text is what is shown of it, unless it is empty and something else is there. -/
theorem eq_some_getD_nonempty_iff {stored : Option Text} {fallback : Text} :
    stored = some ((nonempty stored).getD fallback) ↔
      ∃ text, stored = some text ∧ (text = [] → fallback = []) := by
  cases stored with
  | none => simp
  | some text =>
    cases text with
    | nil =>
      have hshown : (nonempty (some [])).getD fallback = fallback := rfl
      rw [hshown, Option.some.injEq, eq_comm]
      exact ⟨fun hempty ↦ ⟨[], rfl, fun _ ↦ hempty⟩, fun ⟨_, htext, hempty⟩ ↦
        hempty (Option.some.inj htext).symm⟩
    | cons character rest =>
      exact iff_of_true rfl ⟨character :: rest, rfl, nofun⟩

/-- A replay is answered truly exactly when the request gets a true answer. -/
theorem truthful_replayReference (hkeys : (store.semanticChunks.map fun row ↦ row.id).Nodup)
    {plan : PersistencePlan} {reference : ReplayReference}
    (hreply : replayReference host plan store = some reference) :
    Truthful host store.toDb store.toDb reference.answer ↔ RepliesTruly host plan store := by
  have hchunks : existingChunks store.toDb plan.documentId =
      liveChunkIds host store.toDb plan.documentId ↔ ChunksInOrder host store.toDb plan.documentId :=
    existingChunks_eq_liveChunkIds_iff hkeys
  have hbranch := replies_replayReference host plan store
  rw [hreply] at hbranch
  cases hbranch with
  | digest hdigest =>
    obtain ⟨-, state, hstate, -⟩ := id hdigest
    constructor
    · rintro ⟨⟨document, hdocument, hfields⟩, hlive, -⟩
      exact
        { digest := fun _ ↦ ⟨document, (lookup_eq_some_iff_of_state hstate).mp hdocument, hfields⟩
          version := fun hversion ↦ absurd hdigest hversion.2.1
          chunks := fun _ ↦ hchunks.mp hlive
          notPending := hdigest.not_pending }
    · intro htruly
      obtain ⟨document, hdocument, hfields⟩ := htruly.digest hdigest
      exact
        { document := ⟨document, (lookup_eq_some_iff_of_state hstate).mpr hdocument, hfields⟩
          chunks := hchunks.mpr (htruly.chunks (.inl hdigest))
          written := nofun }
  | version hversion document hdocument hcarries =>
    obtain ⟨-, hdigest, -, state, hstate, -⟩ := id hversion
    have hlookup := (lookup_eq_some_iff_of_state hstate).mpr hdocument
    constructor
    · rintro ⟨⟨other, hother, hnumber, -, hshown⟩, hlive, -⟩
      obtain rfl := Option.some.inj (hlookup.symm.trans hother)
      exact
        { digest := fun h ↦ absurd h hdigest
          version := fun _ ↦ ⟨document, hdocument, hnumber, eq_some_getD_nonempty_iff.mp hshown⟩
          chunks := fun _ ↦ hchunks.mp hlive
          notPending := hversion.not_pending }
    · intro htruly
      obtain ⟨other, hother, hnumber, hshown⟩ := htruly.version hversion
      obtain rfl := Option.some.inj (hdocument.symm.trans hother)
      exact
        { document := ⟨document, hlookup, hnumber, hcarries, eq_some_getD_nonempty_iff.mpr hshown⟩
          chunks := hchunks.mpr (htruly.chunks (.inr hversion))
          written := nofun }
  | pending hpending chunkingStrategy =>
    refine iff_of_false (fun htrue ↦ ?_) fun htruly ↦ htruly.notPending hpending
    exact not_wroteHierarchy_self _ _ (htrue.written rfl)

/-- A request with accepted chunks gets the references of its replay. -/
theorem persistSource_of_replies {paragraphChunks sentenceChunks : List RuntimeChunk}
    {reference : ReplayReference}
    (hparagraphs : validateRuntimeChunks call.rawParagraphs call.request.textValue
      call.request.documentId = .ok paragraphChunks)
    (hsentences : sentenceChunksFromParagraphBatch paragraphChunks call.request.documentId
      call.rawBatches = .ok sentenceChunks)
    (hreply : replayReference host (mapPlan host call.request) store = some reference) :
    persistSource host call store = .ok (some reference.answer, store) := by
  refine bind_eq_ok.mpr ⟨paragraphChunks, hparagraphs, bind_eq_ok.mpr ⟨sentenceChunks, hsentences, ?_⟩⟩
  rw [hreply]
  rfl

/-- **When an answer is true.** In all consistent tables, an answer that is not a failure says what the
tables hold, and that it is committed only if a hierarchy was written, if and only if the request gets
a true answer. -/
theorem truthful_iff_repliesTruly (hdb : store.Consistent)
    (hkeys : (store.semanticChunks.map fun row ↦ row.id).Nodup)
    (hanswer : persistSource host call store = .ok (some answer, next)) :
    Truthful host store.toDb next.toDb answer ↔
      RepliesTruly host (mapPlan host call.request) store := by
  obtain ⟨paragraphChunks, hparagraphs, hanswer⟩ := bind_eq_ok.mp hanswer
  obtain ⟨sentenceChunks, hsentences, hanswer⟩ := bind_eq_ok.mp hanswer
  split at hanswer
  next reference hreply =>
    cases hanswer
    exact truthful_replayReference hkeys hreply
  next hreply =>
    obtain ⟨publication, hpublish, hanswer⟩ := bind_eq_ok.mp hanswer
    obtain ⟨paragraphs, hplan, hanswer⟩ := bind_eq_ok.mp hanswer
    by_cases hmatch : publication.integrityOutcome = .matching
    · rw [if_pos hmatch] at hanswer
      cases hanswer
      have hbranch := replies_replayReference host (mapPlan host call.request) store
      rw [hreply] at hbranch
      cases hbranch with
      | nothing hdigest hversion hpending =>
        refine iff_of_true (truthful_publishedAnswer hdb hparagraphs hsentences hpublish hmatch hplan _)
          ⟨fun h ↦ absurd h hdigest, fun h ↦ absurd h hversion, ?_, hpending⟩
        rintro (h | h)
        · exact absurd h hdigest
        · exact absurd h hversion
    · rw [if_neg hmatch] at hanswer
      cases hanswer

end Answers

/-! ### The small document -/

section Sample

/-- The request for the small document. -/
def sampleSourceCall : SourceCall where
  ids := sampleIds 10
  request := sampleRequest
  rawParagraphs := .items [sampleItem 3 (lit "Ab c") 1 5 0, sampleItem 4 (lit "d") 7 8 1]
  rawBatches := .batches [.items [sampleItem 5 (lit "Ab") 0 2 0, sampleItem 6 (lit "c") 3 4 1],
    .items [sampleItem 7 (lit "d") 0 1 0]]

/-- The store that waits for the vectors of the small document. -/
def waitingStore : VectorDb ℕ :=
  ((toOption (persistSource sampleHost sampleSourceCall {})).map Prod.snd).getD {}

/-- The first request for the small document gets an answer in the empty store. -/
theorem truthful_iff_repliesTruly_sample :
    ∃ answer, ∃ next : VectorDb ℕ,
      persistSource sampleHost sampleSourceCall {} = .ok (some answer, next) ∧
        (Truthful sampleHost {} next.toDb answer ↔
          RepliesTruly sampleHost (mapPlan sampleHost sampleSourceCall.request)
            ({} : VectorDb ℕ)) := by
  obtain ⟨answer, hanswer⟩ := Option.isSome_iff_exists.mp (show ((toOption (persistSource sampleHost
    sampleSourceCall ({} : VectorDb ℕ))).bind Prod.fst).isSome = true by decide +kernel)
  obtain ⟨⟨_, next⟩, hresult, rfl⟩ := Option.bind_eq_some_iff.mp hanswer
  have hpersist := toOption_eq_some.mp hresult
  have hkeys : (({} : VectorDb ℕ).semanticChunks.map fun row ↦ row.id).Nodup := List.nodup_nil
  exact ⟨answer, next, hpersist, truthful_iff_repliesTruly Db.consistent_empty hkeys hpersist⟩

/-- The same request once more is reported as committed, and writes nothing. -/
theorem exists_untrue_answer :
    ∃ answer, ∃ next : VectorDb ℕ,
      persistSource sampleHost sampleSourceCall waitingStore = .ok (some answer, next) ∧
        ¬Truthful sampleHost waitingStore.toDb next.toDb answer := by
  have hparagraphs : validateRuntimeChunks sampleSourceCall.rawParagraphs
      sampleSourceCall.request.textValue sampleSourceCall.request.documentId =
        .ok sampleParagraphChunks :=
    eq_ok_of_succeeds (by decide +kernel)
  have hsentences : sentenceChunksFromParagraphBatch sampleParagraphChunks
      sampleSourceCall.request.documentId sampleSourceCall.rawBatches = .ok sampleSentenceChunks :=
    eq_ok_of_succeeds (by decide +kernel)
  have hwaits : (replayReference sampleHost (mapPlan sampleHost sampleSourceCall.request)
      waitingStore).map ReplayReference.idempotent = some false := by
    decide +kernel
  obtain ⟨reference, hreply, hidempotent⟩ := Option.map_eq_some_iff.mp hwaits
  refine ⟨_, _, persistSource_of_replies hparagraphs hsentences hreply, fun htrue ↦ ?_⟩
  refine not_wroteHierarchy_self _ _ (htrue.written ?_)
  rw [ReplayReference.answer, hidempotent]
  rfl

end Sample

end DocStore
