import DocStore.Foundation.Connection
import DocStore.Ingestion.Publication

/-!
# A publication as statements

`publishAttempt` is `_publish` as the statements that it executes: a transaction for the original,
then one that writes the hierarchy behind a savepoint and ends with the run of the verdict. Any
statement may fail. When an attempt reports a result it did what `publish` does, and it does so
whenever no statement fails; whatever happens, the hierarchy changes on a match only and
the runs say how the attempt ended.

What a span says about the difference is left out but its position.
-/

set_option autoImplicit false
set_option relaxedAutoImplicit false

namespace DocStore

open Foundation

/-! ### The store -/

/-- A row of `primary_sources`. -/
structure PrimarySource where
  id : Uuid
  sourceLocator : Text
  originalSha256 : Text

/-- A row of `source_spans`. -/
structure SourceSpan where
  spanId : Uuid
  producedByRunId : Uuid
  documentId : Option Uuid
  chapterId : Option Uuid
  byteOffset : Option ℕ
  lengthBoundary : Option ℕ

/-- The tables with the originals and the evidence about refused texts. -/
structure EvidenceDb extends Db where
  primarySources : List PrimarySource := []
  sourceSpans : List SourceSpan := []

/-- A statement about the other tables. -/
def onDb (effect : Db → Except Failure Db) (store : EvidenceDb) : Except Failure EvidenceDb :=
  (effect store.toDb).map fun db ↦ { store with toDb := db }

/-- Everything that a publication makes visible. -/
def EvidenceDb.hierarchy (store : EvidenceDb) : Db := { store.toDb with processingRuns := [] }

instance : Inhabited Failure := ⟨.integrity "current transaction is aborted"⟩

/-! ### The statements of the hierarchy -/

section Statements

variable (host : Host) (ids : PublicationIds) (plan : PersistencePlan)

/-- The update of `semantic_chunks` in `_mark_existing_hierarchy_deleted`. -/
def markChunks (now : Instant) (documentId : Uuid) (db : Db) : Db :=
  { db with
    semanticChunks := updateWhere
      (fun row ↦ row.documentId = documentId && row.deletedAt.isNone)
      (fun row ↦ { row with toLifecycle := .deletedNow now }) db.semanticChunks }

/-- The update of `paragraphs`. -/
def markParagraphs (now : Instant) (documentId : Uuid) (db : Db) : Db :=
  { db with
    paragraphs := updateWhere
      (fun row ↦ row.documentId = documentId && row.deletedAt.isNone)
      (fun row ↦ { row with toLifecycle := .deletedNow now }) db.paragraphs }

/-- The update of `chapters`. -/
def markChapters (now : Instant) (documentId : Uuid) (db : Db) : Db :=
  { db with
    chapters := updateWhere
      (fun row ↦ row.documentId = documentId && row.deletedAt.isNone)
      (fun row ↦ { row with toLifecycle := .deletedNow now }) db.chapters }

/-- The statements in front of the paragraphs. -/
def prepareStatements (primarySourceId : Uuid) : List (Db → Except Failure Db) :=
  [fun db ↦ .ok (markChunks ids.now plan.documentId db),
    fun db ↦ .ok (markParagraphs ids.now plan.documentId db),
    fun db ↦ .ok (markChapters ids.now plan.documentId db),
    shiftChapters plan.documentId,
    fun db ↦ .ok (retirePreviousFiles ids.now plan.documentId db),
    writeFile plan primarySourceId,
    writeDocument plan,
    fun db ↦ db.insertChapter (chapterRow ids plan)]

/-- The statements of a sentence. -/
def sentenceStatements (orderIndex : ℕ) (paragraph : RuntimeChunk)
    (entry : RuntimeChunk × ExactReconstructionPiece) : List (Db → Except Failure Db) :=
  let rows := sentenceRows host ids plan orderIndex paragraph entry
  [fun db ↦ (semanticClassifierValues (sentenceFeatures host plan entry.1)).mapM
      (fun value ↦ dictionaryDescr value.2) >>= fun _ ↦ .ok db,
    fun db ↦ db.insertSemanticChunk rows.chunk,
    fun db ↦ db.insertText rows.text,
    insertInitialVersion rows.version]

/-- The statements of the paragraphs. -/
def paragraphStatements : ℕ → List PlannedParagraph → List (Db → Except Failure Db)
  | _, [] => []
  | orderIndex, (paragraph, sentences) :: rest =>
    (fun db ↦ db.insertParagraph (paragraphRow host ids plan orderIndex paragraph)) ::
      sentences.flatMap (sentenceStatements host ids plan orderIndex paragraph) ++
        paragraphStatements (orderIndex + 1) rest

/-- The statements of the hierarchy. -/
def hierarchyStatements (primarySourceId : Uuid) (paragraphs : List PlannedParagraph) :
    List (Db → Except Failure Db) :=
  prepareStatements ids plan primarySourceId ++ paragraphStatements host ids plan 0 paragraphs

end Statements

/-! ### The attempt -/

/-- What comes with a call of `_publish`, with the UUID of the span of a refusal. -/
structure AttemptIds extends PublicationIds where
  spanId : Uuid

/-- How an attempt ends that does not fail: with a reply, or with an `IntegrityRefused`. -/
inductive AttemptResult where
  | published (primarySourceId runId : Uuid)
  | refused (spanId : Uuid) (sourceSha256 reconstructionSha256 : Text)

/-- `_source_locator`. -/
def sourceLocator (plan : PersistencePlan) : Text :=
  (((nonempty plan.filename).or (nonempty plan.sourceName)).getD
    (lit "doc-store:document:" ++ uuidText plan.documentId ++ lit ":" ++
      plan.sourceVersionId)).take 2048

section Attempt

variable (host : Host) (ids : AttemptIds) (plan : PersistencePlan)

/-- The row of an original. -/
def primarySourceRow : PrimarySource where
  id := host.stableUuid4 (lit "doc-store:primary-source:" ++ uuidText plan.fileId ++ lit ":" ++
    plan.contentSha256)
  sourceLocator := sourceLocator plan
  originalSha256 := plan.contentSha256

/-- `_resolve_primary_source`, which leaves an original alone that is there. -/
def EvidenceDb.resolvePrimarySource (store : EvidenceDb) : EvidenceDb × Uuid :=
  let sourceId := DocStore.resolvePrimarySource host plan store.toDb
  if hasKey (fun row : FileRow ↦ row.id) plan.fileId store.files then (store, sourceId)
  else
    ({ store with
      primarySources := upsert PrimarySource.id (primarySourceRow host plan) id
        store.primarySources }, sourceId)

/-- `_append_source_state`. -/
def appendState (db : Db) : Except Failure Db := do
  let (_, temporalAssertions) ← (appendSourceState db.objects
    { now := ids.now, uuid4 := fun _ ↦ ids.assertionId } plan.documentId
    { acceptedBy := some host.runActor
      acceptedVia := some plan.command
      operationId := some plan.operationId }).run db.temporalAssertions
  return { db with temporalAssertions }

/-- The span of a refusal. -/
def sourceSpan (reconstructed : Text) : SourceSpan :=
  let verdict := integrityVerdict plan.textValue reconstructed
  { spanId := ids.spanId
    producedByRunId := ids.runId
    documentId := some plan.documentId
    chapterId := some ids.chapterId
    byteOffset := if verdict.1 = .mismatch then verdict.2 else none
    lengthBoundary := if verdict.1 = .lengthBoundary then verdict.2 else none }

/-- `_insert_source_span`. -/
def insertSourceSpan (row : SourceSpan) (store : EvidenceDb) :
    Except Failure (EvidenceDb × Unit) := do
  raiseIf (store.sourceSpans.any fun old ↦ old.spanId = row.spanId)
    (.integrity "pk_source_spans")
  return ({ store with sourceSpans := store.sourceSpans ++ [row] }, ())

/-- `_write_refusal_evidence`. -/
def writeRefusalEvidence (primarySourceId : Uuid) (reconstructed : Text) :
    Script EvidenceDb Failure Unit := do
  Script.execute ([fun db ↦ db.insertProcessingRun
    (publicationRun host ids.toPublicationIds plan primarySourceId reconstructed none)].map onDb)
  Script.nested (Script.statement (insertSourceSpan (sourceSpan ids plan reconstructed)))

/-- How an attempt ends with a verdict. -/
def attemptResult (primarySourceId : Uuid) (reconstructed : Text) : AttemptResult :=
  if (integrityVerdict plan.textValue reconstructed).1 = .matching then
    .published primarySourceId ids.runId
  else .refused ids.spanId plan.bodySha256 (host.hexdigest reconstructed)

/-- What follows the verdict: on a match the savepoint is released and the run and the source state
are written, otherwise the hierarchy is rolled back and the evidence is written. -/
def concludeAttempt (primarySourceId : Uuid) (hierarchy : EvidenceDb) (reconstructed : Text) :
    Script EvidenceDb Failure AttemptResult :=
  let run := publicationRun host ids.toPublicationIds plan primarySourceId reconstructed
  if (integrityVerdict plan.textValue reconstructed).1 = .matching then do
    Script.release
    Script.execute ([fun db ↦ db.insertProcessingRun (run (some (plan.documentId, ids.chapterId))),
      appendState host ids plan].map onDb)
    return attemptResult host ids plan primarySourceId reconstructed
  else do
    Script.rollbackTo hierarchy
    writeRefusalEvidence host ids plan primarySourceId reconstructed
    return attemptResult host ids plan primarySourceId reconstructed

/-- The transaction of `_publish` that holds both endings. -/
def publishHierarchy (primarySourceId : Uuid) (paragraphs : List PlannedParagraph) :
    Script EvidenceDb Failure AttemptResult := do
  let hierarchy ← Script.savepoint
  Script.execute
    ((hierarchyStatements host ids.toPublicationIds plan primarySourceId paragraphs).map onDb)
  let rows ← Script.statement fun store ↦
    .ok (store, joinedRows host store.toDb plan.documentId)
  let reconstructed ← Script.lift (scopeText (rows.map ChunkTextRow.toScopeRow))
  concludeAttempt host ids plan primarySourceId hierarchy reconstructed

/-- The checks of `_publish`, and the plan of the sentences. -/
def plannedParagraphs (request : NormalizedRequest)
    (paragraphChunks sentenceChunks : List RuntimeChunk) :
    Except Failure (List PlannedParagraph) := do
  raiseIf paragraphChunks.isEmpty (.value "chunker returned no paragraph chunks")
  raiseIf sentenceChunks.isEmpty (.value "chunker returned no sentence chunks")
  exactSentencePlan (mapPlan host request).textValue paragraphChunks sentenceChunks

/-- `_publish`. -/
def publishAttempt (request : NormalizedRequest)
    (paragraphChunks sentenceChunks : List RuntimeChunk) :
    Script EvidenceDb Failure AttemptResult := do
  let paragraphs ← Script.lift (plannedParagraphs host request paragraphChunks sentenceChunks)
  let plan := mapPlan host request
  let primarySourceId ← Script.transaction
    (Script.statement fun store ↦ .ok (store.resolvePrimarySource host plan))
  Script.transaction (publishHierarchy host ids plan primarySourceId paragraphs)

end Attempt

/-! ### The statements write the hierarchy -/

section Refinement

variable {host : Host} {ids : AttemptIds} {plan : PersistencePlan} {request : NormalizedRequest}
  {paragraphChunks sentenceChunks : List RuntimeChunk}

/-- The effects of statements in a row. -/
abbrev performAll {σ : Type} (effects : List (σ → Except Failure σ)) (state : σ) :
    Except Failure σ :=
  effects.foldlM (fun state effect ↦ effect state) state

theorem performAll_prepareStatements (ids : PublicationIds) (primarySourceId : Uuid) (db : Db) :
    performAll (prepareStatements ids plan primarySourceId) db =
      prepareHierarchy ids plan primarySourceId db := by
  simp only [performAll, prepareStatements, List.foldlM_cons, List.foldlM_nil, bind_pure]
  rfl

theorem performAll_sentenceStatements (ids : PublicationIds) (orderIndex : ℕ)
    (paragraph : RuntimeChunk) (entry : RuntimeChunk × ExactReconstructionPiece) (db : Db) :
    performAll (sentenceStatements host ids plan orderIndex paragraph entry) db =
      writeSemanticChunk host ids plan orderIndex paragraph entry db := by
  simp only [performAll, sentenceStatements, List.foldlM_cons, List.foldlM_nil, bind_assoc,
    writeSemanticChunk, writeSentenceRows, bind_pure]
  rfl

theorem performAll_sentences (ids : PublicationIds) (orderIndex : ℕ) (paragraph : RuntimeChunk)
    (entries : List (RuntimeChunk × ExactReconstructionPiece)) (db : Db) :
    performAll (entries.flatMap (sentenceStatements host ids plan orderIndex paragraph)) db =
      writeSentences host ids plan orderIndex paragraph entries db := by
  induction entries generalizing db with
  | nil => rfl
  | cons entry entries ih =>
    rw [List.flatMap_cons, performAll, List.foldlM_append, writeSentences,
      ← performAll_sentenceStatements]
    exact congrArg _ (funext ih)

theorem performAll_paragraphStatements (ids : PublicationIds) (orderIndex : ℕ)
    (paragraphs : List PlannedParagraph) (db : Db) :
    performAll (paragraphStatements host ids plan orderIndex paragraphs) db =
      writeParagraphs host ids plan orderIndex paragraphs db := by
  induction paragraphs generalizing orderIndex db with
  | nil => rfl
  | cons planned rest ih =>
    obtain ⟨paragraph, sentences⟩ := planned
    rw [paragraphStatements, performAll, List.cons_append, List.foldlM_cons, writeParagraphs]
    refine congrArg _ (funext fun inserted ↦ ?_)
    rw [List.foldlM_append, ← performAll_sentences]
    exact congrArg _ (funext (ih (orderIndex + 1)))

/-- The statements write what `writeHierarchy` writes. -/
theorem performAll_hierarchyStatements (ids : PublicationIds) (primarySourceId : Uuid)
    (paragraphs : List PlannedParagraph) (db : Db) :
    performAll (hierarchyStatements host ids plan primarySourceId paragraphs) db =
      writeHierarchy host ids plan primarySourceId paragraphs db := by
  rw [hierarchyStatements, performAll, List.foldlM_append, writeHierarchy,
    ← performAll_prepareStatements]
  exact congrArg _ (funext (performAll_paragraphStatements ids 0 paragraphs))

/-- Statements about the other tables leave the originals and the spans alone. -/
theorem performAll_onDb_eq_ok {effects : List (Db → Except Failure Db)} {store next : EvidenceDb} :
    performAll (effects.map onDb) store = .ok next ↔
      ∃ db, performAll effects store.toDb = .ok db ∧ next = { store with toDb := db } := by
  induction effects generalizing store with
  | nil =>
    show Except.ok store = Except.ok next ↔ ∃ db, Except.ok store.toDb = Except.ok db ∧ _
    simp [eq_comm]
  | cons effect effects ih =>
    rw [List.map_cons, performAll, List.foldlM_cons, performAll, List.foldlM_cons]
    cases heffect : effect store.toDb with
    | error failure => simp [onDb, heffect, Except.map, bind, Except.bind]
    | ok db =>
      have hfirst : onDb effect store = .ok { store with toDb := db } := by
        simp [onDb, heffect, Except.map]
      rw [hfirst]
      exact ih

/-! ### What an attempt has done -/

/-- The statements that follow a match are those of `acceptHierarchy`. -/
theorem performAll_accept (run : ProcessingRun) (db : Db) :
    performAll [fun db ↦ db.insertProcessingRun run, appendState host ids plan] db =
      acceptHierarchy host ids.toPublicationIds plan run db := by
  simp only [performAll, List.foldlM_cons, List.foldlM_nil, bind_pure]
  rfl

/-- The span of a refusal is written to the spans alone. -/
theorem insertSourceSpan_eq_ok {row : SourceSpan} {store next : EvidenceDb} {result : Unit} :
    insertSourceSpan row store = .ok (next, result) ↔
      (∀ old ∈ store.sourceSpans, old.spanId ≠ row.spanId) ∧
        next = { store with sourceSpans := store.sourceSpans ++ [row] } := by
  rw [insertSourceSpan, raiseIf_bind_eq_ok, pure_eq_ok]
  simp

theorem sound_writeRefusalEvidence (primarySourceId : Uuid) (reconstructed : Text) :
    (writeRefusalEvidence host ids plan primarySourceId reconstructed).Sound fun before after _ ↦
      before.insertProcessingRun (publicationRun host ids.toPublicationIds plan primarySourceId
        reconstructed none) = .ok after.toDb ∧ after.primarySources = before.primarySources := by
  refine ((Script.sound_execute _).bind fun _ ↦ (Script.sound_statement _).nested).mono ?_
  rintro before after - ⟨middle, ⟨⟩, hrun, hspan⟩
  obtain ⟨db, hinsert, rfl⟩ := performAll_onDb_eq_ok.mp hrun
  obtain ⟨hsame, hsources⟩ : after.toDb = db ∧ after.primarySources = before.primarySources := by
    rcases hspan with rfl | hspan
    · exact ⟨rfl, rfl⟩
    · rw [(insertSourceSpan_eq_ok.mp hspan).2]
      exact ⟨rfl, rfl⟩
  rw [hsame]
  exact ⟨by simpa [performAll] using hinsert, hsources⟩

/-- When an attempt reports how it ended, the verdict is recorded. -/
theorem sound_concludeAttempt (primarySourceId : Uuid) (store : EvidenceDb)
    (reconstructed : Text) :
    (concludeAttempt host ids plan primarySourceId store reconstructed).Sound
      fun before after result ↦
        recordVerdict host ids.toPublicationIds plan primarySourceId store.toDb before.toDb
            reconstructed = .ok after.toDb ∧
          (before.primarySources = store.primarySources →
            after.primarySources = store.primarySources) ∧
          result = attemptResult host ids plan primarySourceId reconstructed := by
  unfold concludeAttempt recordVerdict
  by_cases hverdict : (integrityVerdict plan.textValue reconstructed).1 = .matching
  · simp only [if_pos hverdict]
    refine (Script.sound_release.bind fun _ ↦
      (Script.sound_execute _).bind fun _ ↦ Script.sound_pure _).mono ?_
    rintro before after result ⟨middle, ⟨⟩, rfl, last, ⟨⟩, hrun, rfl, rfl⟩
    obtain ⟨db, haccept, rfl⟩ := performAll_onDb_eq_ok.mp hrun
    exact ⟨(performAll_accept _ _).symm.trans haccept, id, rfl⟩
  · simp only [if_neg hverdict]
    refine ((Script.sound_rollbackTo store).bind fun _ ↦
      (sound_writeRefusalEvidence primarySourceId reconstructed).bind fun _ ↦
        Script.sound_pure _).mono ?_
    rintro before after result ⟨middle, ⟨⟩, rfl, last, ⟨⟩, ⟨hrun, hsources⟩, rfl, rfl⟩
    exact ⟨hrun, fun _ ↦ hsources, rfl⟩

/-- When the transaction of a publication reports a result, it did what `publish` does. -/
theorem sound_publishHierarchy (host : Host) (ids : AttemptIds) (plan : PersistencePlan)
    (primarySourceId : Uuid) (paragraphs : List PlannedParagraph) :
    (publishHierarchy host ids plan primarySourceId paragraphs).Sound fun before after result ↦
      ∃ hierarchy reconstructed,
        writeHierarchy host ids.toPublicationIds plan primarySourceId paragraphs before.toDb =
          .ok hierarchy ∧
        reconstructedScopeText host hierarchy plan.documentId = .ok reconstructed ∧
        recordVerdict host ids.toPublicationIds plan primarySourceId before.toDb hierarchy
          reconstructed = .ok after.toDb ∧
        after.primarySources = before.primarySources ∧
        result = attemptResult host ids plan primarySourceId reconstructed := by
  refine (Script.sound_savepoint.bind fun store ↦ (Script.sound_execute _).bind fun _ ↦
    (Script.sound_statement _).bind fun rows ↦ (Script.sound_lift _).bind fun reconstructed ↦
      sound_concludeAttempt primarySourceId store reconstructed).mono ?_
  rintro before after result ⟨_, store, ⟨rfl, rfl⟩, written, ⟨⟩, hwrite, _, rows, hrows, _,
    reconstructed, ⟨rfl, hreconstructed⟩, hrecord, hsources, hresult⟩
  obtain ⟨hierarchy, hwritten, rfl⟩ := performAll_onDb_eq_ok.mp hwrite
  cases hrows
  rw [performAll_hierarchyStatements] at hwritten
  exact ⟨hierarchy, reconstructed, hwritten, hreconstructed, hrecord, hsources rfl, hresult⟩

/-- What a transaction that records a verdict leaves. -/
def concludedStore (ids : AttemptIds) (plan : PersistencePlan) (store : EvidenceDb)
    (reconstructed : Text) (db : Db) : EvidenceDb :=
  if (integrityVerdict plan.textValue reconstructed).1 = .matching then
    { store with toDb := db }
  else
    { store with
      toDb := db
      sourceSpans := store.sourceSpans ++ [sourceSpan ids plan reconstructed] }

theorem toDb_concludedStore (store : EvidenceDb) (reconstructed : Text) (db : Db) :
    (concludedStore ids plan store reconstructed db).toDb = db := by
  unfold concludedStore
  split <;> rfl

theorem completes_concludeAttempt (primarySourceId : Uuid) (store : EvidenceDb)
    (reconstructed : Text) :
    (concludeAttempt host ids plan primarySourceId store reconstructed).Completes
      fun before after result ↦ ∃ hierarchy db,
        (∀ old ∈ store.sourceSpans, old.spanId ≠ ids.spanId) ∧
        before = { store with toDb := hierarchy } ∧
        recordVerdict host ids.toPublicationIds plan primarySourceId store.toDb hierarchy
          reconstructed = .ok db ∧
        after = concludedStore ids plan store reconstructed db ∧
        result = attemptResult host ids plan primarySourceId reconstructed := by
  unfold concludeAttempt recordVerdict concludedStore
  intro committed before after commits result
  by_cases hverdict : (integrityVerdict plan.textValue reconstructed).1 = .matching
  · simp only [if_pos hverdict]
    rintro ⟨hierarchy, db, -, rfl, haccept, rfl, rfl⟩
    refine (Script.completes_release.bind fun _ ↦
      (Script.completes_execute _).bind fun _ ↦ Script.completes_pure _) committed _ _ commits _ ?_
    rw [← performAll_accept] at haccept
    exact ⟨_, (), rfl, _, (), performAll_onDb_eq_ok.mpr ⟨db, haccept, rfl⟩, rfl, rfl⟩
  · simp only [if_neg hverdict]
    rintro ⟨hierarchy, db, hspan, rfl, hinsert, rfl, rfl⟩
    refine ((Script.completes_rollbackTo store).bind fun _ ↦
      ((Script.completes_execute _).bind fun _ ↦ (Script.completes_statement _).nested).bind
        fun _ ↦ Script.completes_pure _) committed _ _ commits _ ?_
    have hrun : performAll [fun db ↦ db.insertProcessingRun (publicationRun host
        ids.toPublicationIds plan primarySourceId reconstructed none)] store.toDb = .ok db := by
      simpa [performAll] using hinsert
    exact ⟨_, (), rfl, _, (), ⟨_, (), performAll_onDb_eq_ok.mpr ⟨db, hrun, rfl⟩,
      insertSourceSpan_eq_ok.mpr ⟨hspan, rfl⟩⟩, rfl, rfl⟩

/-- The transaction of a publication reports a result when nothing fails. -/
theorem completes_publishHierarchy (primarySourceId : Uuid) (paragraphs : List PlannedParagraph) :
    (publishHierarchy host ids plan primarySourceId paragraphs).Completes
      fun before after result ↦ ∃ hierarchy reconstructed db,
        (∀ old ∈ before.sourceSpans, old.spanId ≠ ids.spanId) ∧
        writeHierarchy host ids.toPublicationIds plan primarySourceId paragraphs before.toDb =
          .ok hierarchy ∧
        reconstructedScopeText host hierarchy plan.documentId = .ok reconstructed ∧
        recordVerdict host ids.toPublicationIds plan primarySourceId before.toDb hierarchy
          reconstructed = .ok db ∧
        after = concludedStore ids plan before reconstructed db ∧
        result = attemptResult host ids plan primarySourceId reconstructed := by
  rintro committed before after commits result
    ⟨hierarchy, reconstructed, db, hspan, hwrite, hreconstructed, hrecord, hafter, hresult⟩
  refine (Script.completes_savepoint.bind fun store ↦ (Script.completes_execute _).bind fun _ ↦
    (Script.completes_statement _).bind fun rows ↦ (Script.completes_lift _).bind
      fun reconstructed ↦ completes_concludeAttempt primarySourceId store reconstructed)
    committed before after commits result ?_
  rw [← performAll_hierarchyStatements] at hwrite
  have hexecuted := performAll_onDb_eq_ok.mpr ⟨hierarchy, hwrite, rfl⟩
  exact ⟨before, before, ⟨rfl, rfl⟩, _, (), hexecuted, _, _, rfl, _, reconstructed,
    ⟨rfl, hreconstructed⟩, hierarchy, db, hspan, rfl, hrecord, hafter, hresult⟩

/-! ### The runs -/

/-- What every statement keeps is kept by all of them. -/
theorem performAll_invariant {σ : Type} {effects : List (σ → Except Failure σ)} {motive : σ → Prop}
    (hkeep : ∀ effect ∈ effects, ∀ state next, effect state = .ok next → motive state → motive next)
    {state next : σ} (hperform : performAll effects state = .ok next) (hstate : motive state) :
    motive next := by
  induction effects generalizing state with
  | nil =>
    cases hperform
    exact hstate
  | cons effect effects ih =>
    obtain ⟨middle, hfirst, hrest⟩ := bind_eq_ok.mp hperform
    have hmiddle := hkeep effect List.mem_cons_self state middle hfirst hstate
    exact ih (fun other hother ↦ hkeep other (List.mem_cons_of_mem _ hother)) hrest hmiddle

/-- A statement leaves what is read of the tables alone. -/
def Keeps {β : Type} (read : Db → β) (effect : Db → Except Failure Db) : Prop :=
  ∀ db next, effect db = .ok next → read next = read db

/-- Statements that all leave it alone do so in a row. -/
theorem keeps_performAll {β : Type} {read : Db → β} {effects : List (Db → Except Failure Db)}
    (hkeeps : ∀ effect ∈ effects, Keeps read effect) : Keeps read (performAll effects) := by
  intro db next hperform
  refine performAll_invariant (motive := fun state ↦ read state = read db)
    (fun effect hmem state later heffect hstate ↦ ?_) hperform rfl
  exact (hkeeps effect hmem state later heffect).trans hstate

/-- The tables that the paragraphs leave alone. -/
abbrev filedTables (db : Db) : List FileRow × List DocumentRow × List ProcessingRun :=
  (db.files, db.documents, db.processingRuns)

theorem keeps_writeFile (primarySourceId : Uuid) :
    Keeps Db.processingRuns (writeFile plan primarySourceId) := by
  intro db next hwrite
  unfold writeFile at hwrite
  split at hwrite
  · cases hwrite
    rfl
  · obtain ⟨-, hwrite⟩ := Db.register_bind_eq_ok.mp hwrite
    obtain ⟨-, hnext⟩ := raiseIf_bind_eq_ok.mp hwrite
    cases hnext
    rfl

theorem keeps_writeDocument : Keeps Db.processingRuns (writeDocument plan) := by
  intro db next hwrite
  obtain ⟨-, hwrite⟩ := raiseIf_bind_eq_ok.mp hwrite
  split at hwrite
  · cases hwrite
    rfl
  · obtain ⟨-, hnext⟩ := Db.register_bind_eq_ok.mp hwrite
    cases hnext
    rfl

theorem keeps_insertInitialVersion (version : SemanticChunkVersion) :
    Keeps filedTables (insertInitialVersion version) := by
  intro db next hinsert
  unfold insertInitialVersion at hinsert
  split at hinsert
  · rw [(Db.setCurrent_eq_ok.mp hinsert).2]
  · obtain ⟨middle, hversion, hcurrent⟩ := bind_eq_ok.mp hinsert
    rw [(Db.setCurrent_eq_ok.mp hcurrent).2, (Db.insertVersion_eq_ok.mp hversion).2]

theorem keeps_prepareStatements (ids : PublicationIds) (primarySourceId : Uuid) :
    ∀ effect ∈ prepareStatements ids plan primarySourceId, Keeps Db.processingRuns effect := by
  unfold prepareStatements
  simp only [List.forall_mem_cons, List.not_mem_nil, false_imp_iff, implies_true, and_true]
  refine ⟨?_, ?_, ?_, ?_, ?_, keeps_writeFile primarySourceId, keeps_writeDocument, ?_⟩
  · rintro db next ⟨⟩
    rfl
  · rintro db next ⟨⟩
    rfl
  · rintro db next ⟨⟩
    rfl
  · intro db next hshift
    obtain ⟨-, hnext⟩ := raiseIf_bind_eq_ok.mp hshift
    cases hnext
    rfl
  · rintro db next ⟨⟩
    rfl
  · intro db next hinsert
    rw [(Db.insertChapter_eq_ok.mp hinsert).2.2]

theorem keeps_paragraphStatements (ids : PublicationIds) (orderIndex : ℕ)
    (paragraphs : List PlannedParagraph) :
    ∀ effect ∈ paragraphStatements host ids plan orderIndex paragraphs,
      Keeps filedTables effect := by
  induction paragraphs generalizing orderIndex with
  | nil => simp [paragraphStatements]
  | cons planned rest ih =>
    obtain ⟨paragraph, sentences⟩ := planned
    intro effect hmem
    rw [paragraphStatements, List.cons_append, List.mem_cons, List.mem_append,
      List.mem_flatMap] at hmem
    rcases hmem with rfl | ⟨entry, -, hsentence⟩ | hrest
    · intro db next hinsert
      rw [(Db.insertParagraph_eq_ok.mp hinsert).2.2]
    · simp only [sentenceStatements, List.mem_cons, List.not_mem_nil, or_false] at hsentence
      rcases hsentence with rfl | rfl | rfl | rfl
      · intro db next hcheck
        obtain ⟨_, -, hnext⟩ := bind_eq_ok.mp hcheck
        cases hnext
        rfl
      · intro db next hinsert
        rw [(Db.insertSemanticChunk_eq_ok.mp hinsert).2.2.2]
      · intro db next hinsert
        rw [(Db.insertText_eq_ok.mp hinsert).2]
      · exact keeps_insertInitialVersion _
    · exact ih (orderIndex + 1) effect hrest

/-- The paragraphs are written into other tables. -/
theorem filedTables_of_writeParagraphs {ids : PublicationIds} {orderIndex : ℕ}
    {paragraphs : List PlannedParagraph} {db next : Db}
    (hwrite : writeParagraphs host ids plan orderIndex paragraphs db = .ok next) :
    filedTables next = filedTables db := by
  rw [← performAll_paragraphStatements] at hwrite
  exact keeps_performAll (keeps_paragraphStatements ids orderIndex paragraphs) db next hwrite

/-- The hierarchy is written without a run. -/
theorem processingRuns_of_writeHierarchy {ids : PublicationIds} {primarySourceId : Uuid}
    {paragraphs : List PlannedParagraph} {db next : Db}
    (hwrite : writeHierarchy host ids plan primarySourceId paragraphs db = .ok next) :
    next.processingRuns = db.processingRuns := by
  obtain ⟨prepared, hprepare, hparagraphs⟩ := bind_eq_ok.mp hwrite
  rw [← performAll_prepareStatements] at hprepare
  calc next.processingRuns
      = prepared.processingRuns :=
        congrArg (fun tables ↦ tables.2.2) (filedTables_of_writeParagraphs hparagraphs)
    _ = db.processingRuns :=
        keeps_performAll (keeps_prepareStatements ids primarySourceId) db prepared hprepare

/-- What is recorded with a verdict: one run, and the hierarchy on a match only. -/
theorem recordVerdict_eq_ok {ids : PublicationIds} {primarySourceId : Uuid}
    {db hierarchy next : Db} {reconstructed : Text}
    (hruns : hierarchy.processingRuns = db.processingRuns)
    (hrecord : recordVerdict host ids plan primarySourceId db hierarchy reconstructed = .ok next) :
    ∃ produced, next.processingRuns = db.processingRuns ++
        [publicationRun host ids plan primarySourceId reconstructed produced] ∧
      ((integrityVerdict plan.textValue reconstructed).1 = .matching ∧ produced.isSome = true ∧
          next.files = hierarchy.files ∧ next.documents = hierarchy.documents ∨
        (integrityVerdict plan.textValue reconstructed).1 ≠ .matching ∧ produced = none ∧
          next = { db with processingRuns := next.processingRuns }) := by
  dsimp only [recordVerdict] at hrecord
  split at hrecord
  next hmatch =>
    obtain ⟨recorded, hinsert, haccept⟩ := bind_eq_ok.mp hrecord
    obtain ⟨-, -, rfl⟩ := Db.insertProcessingRun_eq_ok.mp hinsert
    obtain ⟨result, -, hnext⟩ := bind_eq_ok.mp haccept
    cases hnext
    exact ⟨_, congrArg (· ++ _) hruns, Or.inl ⟨hmatch, rfl, rfl, rfl⟩⟩
  next hnot =>
    obtain ⟨-, -, rfl⟩ := Db.insertProcessingRun_eq_ok.mp hrecord
    exact ⟨none, rfl, Or.inr ⟨hnot, rfl, rfl⟩⟩

/-! ### How an attempt ends -/

/-- The prologue of a publication changes the originals alone. -/
theorem toDb_resolvePrimarySource (host : Host) (plan : PersistencePlan) (store : EvidenceDb) :
    (store.resolvePrimarySource host plan).1.toDb = store.toDb := by
  dsimp only [EvidenceDb.resolvePrimarySource]
  split <;> rfl

theorem snd_resolvePrimarySource (host : Host) (plan : PersistencePlan) (store : EvidenceDb) :
    (store.resolvePrimarySource host plan).2 = resolvePrimarySource host plan store.toDb := by
  dsimp only [EvidenceDb.resolvePrimarySource]
  split <;> rfl

/-- How an attempt may end: it fails and leaves at most the original, or its transaction commits
what `publish` computes, whether or not that is reported. -/
inductive AttemptOutcome (host : Host) (ids : AttemptIds) (request : NormalizedRequest)
    (paragraphChunks sentenceChunks : List RuntimeChunk) (before : EvidenceDb)
    (result : Except Failure AttemptResult) (after : EvidenceDb) : ℕ → Prop where
  | failed {commits : ℕ} (hdb : after.toDb = before.toDb)
    (hsources : after.primarySources = before.primarySources ∨ after.primarySources =
      (before.resolvePrimarySource host (mapPlan host request)).1.primarySources)
    (hcommits : commits < 2) (herror : ∃ failure, result = .error failure) :
    AttemptOutcome host ids request paragraphChunks sentenceChunks before result after commits
  | recorded {paragraphs : List PlannedParagraph} {hierarchy : Db} {reconstructed : Text}
    (hplanned : plannedParagraphs host request paragraphChunks sentenceChunks = .ok paragraphs)
    (hwrite : writeHierarchy host ids.toPublicationIds (mapPlan host request)
      (resolvePrimarySource host (mapPlan host request) before.toDb) paragraphs before.toDb =
        .ok hierarchy)
    (hreconstructed : reconstructedScopeText host hierarchy request.documentId = .ok reconstructed)
    (hrecord : recordVerdict host ids.toPublicationIds (mapPlan host request)
      (resolvePrimarySource host (mapPlan host request) before.toDb) before.toDb hierarchy
        reconstructed = .ok after.toDb)
    (hsources : after.primarySources =
      (before.resolvePrimarySource host (mapPlan host request)).1.primarySources)
    (hresult : result = .ok (attemptResult host ids (mapPlan host request)
      (resolvePrimarySource host (mapPlan host request) before.toDb) reconstructed) ∨
        ∃ failure, result = .error failure) :
    AttemptOutcome host ids request paragraphChunks sentenceChunks before result after 2

/-- Every attempt ends in one of these ways. -/
theorem publishAttempt_outcome (host : Host) (ids : AttemptIds) (request : NormalizedRequest)
    (paragraphChunks sentenceChunks : List RuntimeChunk)
    (connection : Connection EvidenceDb Failure) :
    let attempt := publishAttempt host ids request paragraphChunks sentenceChunks connection
    ∃ commits, attempt.2.commits = connection.commits + commits ∧
      AttemptOutcome host ids request paragraphChunks sentenceChunks connection.committed attempt.1
        attempt.2.committed commits := by
  intro attempt
  rcases Script.bind_cases (Script.lift (plannedParagraphs host request paragraphChunks
    sentenceChunks)) _ connection with ⟨failure, -, hattempt⟩ | ⟨paragraphs, hplanned, hattempt⟩
  · rw [show attempt = (.error failure, connection) from hattempt]
    exact ⟨0, rfl, .failed rfl (Or.inl rfl) (by decide) ⟨failure, rfl⟩⟩
  set plan := mapPlan host request with hplan
  have hprologue := Script.transaction_cases (Script.sound_statement fun store : EvidenceDb ↦
    (.ok (store.resolvePrimarySource host plan) : Except Failure _)) connection
  rcases Script.bind_cases (Script.transaction (Script.statement fun store : EvidenceDb ↦
    (.ok (store.resolvePrimarySource host plan) : Except Failure _)))
    (fun primarySourceId ↦ Script.transaction
      (publishHierarchy host ids plan primarySourceId paragraphs)) connection with
    ⟨failure, hfirst, hsecond⟩ | ⟨primarySourceId, hfirst, hsecond⟩
  · have hresult : attempt = (.error failure, _) := hattempt.trans hsecond
    rw [hresult]
    rcases hprologue with ⟨hcommitted, hcommits, -⟩ | ⟨value, heffect, hcommits, -⟩
    · refine ⟨0, hcommits, .failed (congrArg EvidenceDb.toDb hcommitted) (Or.inl ?_) (by decide)
        ⟨failure, rfl⟩⟩
      exact congrArg EvidenceDb.primarySources hcommitted
    · have hresolved := congrArg Prod.fst (Except.ok.inj heffect)
      refine ⟨1, hcommits, .failed ?_ (Or.inr ?_) (by decide) ⟨failure, rfl⟩⟩
      · exact (congrArg EvidenceDb.toDb hresolved).symm.trans (toDb_resolvePrimarySource _ _ _)
      · exact (congrArg EvidenceDb.primarySources hresolved).symm
  · have hresult : attempt = Script.transaction
        (publishHierarchy host ids plan primarySourceId paragraphs) _ := hattempt.trans hsecond
    rw [hresult]
    rcases hprologue with ⟨-, -, failure, hfailure⟩ | ⟨value, heffect, hcommits, hvalue⟩
    · rw [hfirst] at hfailure
      cases hfailure
    obtain rfl : primarySourceId = value := by
      rcases hvalue with hvalue | ⟨failure, hfailure⟩
      · rw [hfirst] at hvalue
        exact Except.ok.inj hvalue
      · rw [hfirst] at hfailure
        cases hfailure
    set prepared := (Script.transaction (Script.statement fun store : EvidenceDb ↦
      (.ok (store.resolvePrimarySource host plan) : Except Failure _)) connection).2
    have hresolved : connection.committed.resolvePrimarySource host plan =
        (prepared.committed, primarySourceId) := Except.ok.inj heffect
    have hdb : prepared.committed.toDb = connection.committed.toDb := by
      rw [← toDb_resolvePrimarySource host plan connection.committed, hresolved]
    obtain rfl : primarySourceId = resolvePrimarySource host plan connection.committed.toDb := by
      rw [← snd_resolvePrimarySource, hresolved]
    have hsources : prepared.committed.primarySources =
        (connection.committed.resolvePrimarySource host plan).1.primarySources := by
      rw [hresolved]
    have hpublished := Script.transaction_cases
      (sound_publishHierarchy host ids plan
        (resolvePrimarySource host plan connection.committed.toDb) paragraphs) prepared
    rcases hpublished with ⟨hcommitted, hstill, hfailure⟩ | ⟨result, heffect, hlater, hreport⟩
    · refine ⟨1, by rw [hstill, hcommits], .failed ?_ (Or.inr ?_) (by decide) hfailure⟩
      · rw [hcommitted, hdb]
      · rw [hcommitted, hsources]
    · obtain ⟨hierarchy, reconstructed, hwrite, hreconstructed, hrecord, hkept, rfl⟩ := heffect
      rw [hdb] at hwrite hrecord
      exact ⟨2, by rw [hlater, hcommits], .recorded hplanned hwrite hreconstructed hrecord
        (hkept.trans hsources) hreport⟩

/-! ### The evidence of an attempt -/

/-- The verdict that an attempt measures, unless a statement fails before. -/
def measuredVerdict (host : Host) (ids : PublicationIds) (request : NormalizedRequest)
    (paragraphChunks sentenceChunks : List RuntimeChunk) (db : Db) : Option IntegrityOutcome :=
  toOption do
    let paragraphs ← plannedParagraphs host request paragraphChunks sentenceChunks
    let plan := mapPlan host request
    let hierarchy ← writeHierarchy host ids plan (resolvePrimarySource host plan db) paragraphs db
    let reconstructed ← reconstructedScopeText host hierarchy plan.documentId
    return (integrityVerdict plan.textValue reconstructed).1

theorem measuredVerdict_eq_some {ids : PublicationIds} {paragraphs : List PlannedParagraph}
    {db hierarchy : Db} {reconstructed : Text}
    (hplanned : plannedParagraphs host request paragraphChunks sentenceChunks = .ok paragraphs)
    (hwrite : writeHierarchy host ids (mapPlan host request)
      (resolvePrimarySource host (mapPlan host request) db) paragraphs db = .ok hierarchy)
    (hreconstructed : reconstructedScopeText host hierarchy (mapPlan host request).documentId =
      .ok reconstructed) :
    measuredVerdict host ids request paragraphChunks sentenceChunks db =
      some (integrityVerdict (mapPlan host request).textValue reconstructed).1 := by
  refine toOption_eq_some.mpr (bind_eq_ok.mpr ⟨paragraphs, hplanned, ?_⟩)
  exact bind_eq_ok.mpr ⟨hierarchy, hwrite, bind_eq_ok.mpr ⟨reconstructed, hreconstructed, rfl⟩⟩

/-- What an attempt with a verdict leaves: the hierarchy that was there unless it matched and was
committed, a succeeded run exactly then, and one failed run behind a refusal. -/
structure Evidenced (ids : AttemptIds) (verdict : Option IntegrityOutcome) (isCommitted : Prop)
    (before after : EvidenceDb) (result : Except Failure AttemptResult) : Prop where
  hierarchy : after.hierarchy = before.hierarchy ∨ verdict = some .matching ∧ isCommitted
  runs : ∃ runs, after.processingRuns = before.processingRuns ++ runs ∧
    (∀ run ∈ runs, run.runId = ids.runId) ∧
    ((∃ run ∈ runs, run.succeeded = true) ↔ verdict = some .matching ∧ isCommitted) ∧
    ∀ spanId sourceSha256 reconstructionSha256,
      result = .ok (.refused spanId sourceSha256 reconstructionSha256) →
      ∃ run, runs = [run] ∧ run.succeeded = false

/-- An attempt that fails before it commits a hierarchy leaves no evidence. -/
theorem evidenced_of_error {verdict : Option IntegrityOutcome} {isCommitted : Prop}
    {before after : EvidenceDb} {result : Except Failure AttemptResult}
    (hdb : after.toDb = before.toDb) (hnot : ¬isCommitted)
    (herror : ∃ failure, result = .error failure) :
    Evidenced ids verdict isCommitted before after result where
  hierarchy := Or.inl (by rw [EvidenceDb.hierarchy, hdb, EvidenceDb.hierarchy])
  runs := by
    obtain ⟨failure, rfl⟩ := herror
    refine ⟨[], by rw [hdb, List.append_nil], by simp, ?_, by simp⟩
    exact iff_of_false (by simp) fun hmatched ↦ hnot hmatched.2

/-- A committed verdict is evidenced by its run. -/
theorem evidenced_of_record {ids : AttemptIds} {plan : PersistencePlan} {primarySourceId : Uuid}
    {before after : EvidenceDb} {hierarchy : Db} {reconstructed : Text} {isCommitted : Prop}
    {result : Except Failure AttemptResult} (hcommitted : isCommitted)
    (hruns : hierarchy.processingRuns = before.processingRuns)
    (hrecord : recordVerdict host ids.toPublicationIds plan primarySourceId before.toDb hierarchy
      reconstructed = .ok after.toDb)
    (hresult : result = .ok (attemptResult host ids plan primarySourceId reconstructed) ∨
      ∃ failure, result = .error failure) :
    Evidenced ids (some (integrityVerdict plan.textValue reconstructed).1) isCommitted before after
      result := by
  obtain ⟨produced, hafter, hverdict⟩ := recordVerdict_eq_ok hruns hrecord
  have hsucceeded : produced.isSome = true ↔
      (integrityVerdict plan.textValue reconstructed).1 = .matching := by
    rcases hverdict with ⟨hmatch, hproduced, -⟩ | ⟨hnot, rfl, -⟩
    · exact iff_of_true hproduced hmatch
    · exact iff_of_false (by simp) hnot
  constructor
  · rcases hverdict with ⟨hmatch, -⟩ | ⟨-, -, hsame⟩
    · exact Or.inr ⟨congrArg some hmatch, hcommitted⟩
    · exact Or.inl (by rw [EvidenceDb.hierarchy, hsame, EvidenceDb.hierarchy])
  · refine ⟨_, hafter, by simp [publicationRun], ?_, ?_⟩
    · simp only [List.mem_singleton, exists_eq_left, publicationRun, hsucceeded, Option.some.injEq,
        hcommitted, and_true]
    · rintro spanId sourceSha256 reconstructionSha256 rfl
      refine ⟨_, rfl, Bool.eq_false_iff.mpr fun hsuccess ↦ ?_⟩
      rcases hresult with hresult | ⟨failure, hfailure⟩
      · rw [attemptResult, if_pos (hsucceeded.mp hsuccess)] at hresult
        cases hresult
      · cases hfailure

/-- An attempt without failures does what `publish` does. -/
theorem publishAttempt_of_publish {store : EvidenceDb} {publication : Publication}
    (hpublish : publish host ids.toPublicationIds request paragraphChunks sentenceChunks
      store.toDb = .ok publication)
    (hspan : ∀ old ∈ store.sourceSpans, old.spanId ≠ ids.spanId) (working : EvidenceDb)
    (commits : ℕ) :
    ∃ next result, publishAttempt host ids request paragraphChunks sentenceChunks
        (Script.calm store working commits) = (.ok result, Script.calm next next (commits + 2)) ∧
      next.toDb = publication.db := by
  obtain ⟨hparagraphs, hpublish⟩ := raiseIf_bind_eq_ok.mp hpublish
  obtain ⟨hsentences, hpublish⟩ := raiseIf_bind_eq_ok.mp hpublish
  obtain ⟨paragraphs, hplan, hpublish⟩ := bind_eq_ok.mp hpublish
  obtain ⟨hierarchy, hwrite, hpublish⟩ := bind_eq_ok.mp hpublish
  obtain ⟨reconstructed, hreconstructed, hconclude⟩ := bind_eq_ok.mp hpublish
  obtain ⟨db, hrecord, hpublication⟩ := bind_eq_ok.mp hconclude
  cases hpublication
  have hplanned : plannedParagraphs host request paragraphChunks sentenceChunks = .ok paragraphs :=
    raiseIf_bind_eq_ok.mpr ⟨hparagraphs, raiseIf_bind_eq_ok.mpr ⟨hsentences, hplan⟩⟩
  set plan := mapPlan host request
  rcases hresolved : store.resolvePrimarySource host plan with ⟨prepared, primarySourceId⟩
  obtain ⟨hdb, hspans, rfl⟩ : prepared.toDb = store.toDb ∧
      prepared.sourceSpans = store.sourceSpans ∧
      primarySourceId = resolvePrimarySource host plan store.toDb := by
    dsimp only [EvidenceDb.resolvePrimarySource] at hresolved
    split at hresolved <;> cases hresolved <;> exact ⟨rfl, rfl, rfl⟩
  have hprologue := (Script.completes_statement fun store : EvidenceDb ↦
    (.ok (store.resolvePrimarySource host plan) : Except Failure _)).transaction
      (congrArg Except.ok hresolved) working commits
  rw [← hdb] at hrecord hwrite
  have hwritten := (completes_publishHierarchy _ paragraphs).transaction
    ⟨hierarchy, reconstructed, db, hspans ▸ hspan, hwrite, hreconstructed, hrecord, rfl, rfl⟩
    prepared (commits + 1)
  have hconcluded : (concludedStore ids plan prepared reconstructed db).toDb = db :=
    toDb_concludedStore prepared reconstructed db
  refine ⟨_, attemptResult host ids plan (resolvePrimarySource host plan store.toDb) reconstructed,
    ?_, hconcluded⟩
  refine (Script.bind_of_ok (show (Script.lift _ _).1 = _ from hplanned)).trans ?_
  refine (Script.bind_of_ok (congrArg Prod.fst hprologue)).trans ?_
  show Script.transaction _ (Script.transaction _ (Script.calm store working commits)).2 = _
  rw [hprologue]
  rw [hdb] at hwritten
  exact hwritten

/-- Whatever statement of a publication fails: nothing of the attempted hierarchy is visible and the
hierarchy before it is unchanged, unless the verdict was a match and the transaction committed; a
succeeded run of the attempt is there exactly then; and a refusal comes with exactly one failed
run. -/
theorem evidenced_publishAttempt (host : Host) (ids : AttemptIds) (request : NormalizedRequest)
    (paragraphChunks sentenceChunks : List RuntimeChunk)
    (connection : Connection EvidenceDb Failure) :
    let attempt := publishAttempt host ids request paragraphChunks sentenceChunks connection
    Evidenced ids
      (measuredVerdict host ids.toPublicationIds request paragraphChunks sentenceChunks
        connection.committed.toDb)
      (attempt.2.commits = connection.commits + 2) connection.committed attempt.2.committed
      attempt.1 := by
  intro attempt
  obtain ⟨commits, hcommits, houtcome⟩ :=
    publishAttempt_outcome host ids request paragraphChunks sentenceChunks connection
  have hiff : attempt.2.commits = connection.commits + 2 ↔ commits = 2 := by
    rw [hcommits, Nat.add_right_inj]
  cases houtcome with
  | failed hdb _ hfew herror =>
    exact evidenced_of_error hdb (fun htwo ↦ hfew.ne (hiff.mp htwo)) herror
  | recorded hplanned hwrite hreconstructed hrecord _ hresult =>
    rw [measuredVerdict_eq_some hplanned hwrite hreconstructed]
    exact evidenced_of_record (hiff.mpr rfl) (processingRuns_of_writeHierarchy hwrite) hrecord
      hresult

end Refinement

end DocStore
