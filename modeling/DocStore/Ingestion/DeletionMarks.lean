import DocStore.Ingestion.Provenance
import DocStore.Ingestion.RechunkedText

/-!
# Deletion marks and publications

Two columns of a row say that it is deleted, and a publication writes them in several places: the
old hierarchy and the old files get both, the file and all new rows get neither, and a document that
is there loses `deleted_at` and keeps `is_deleted`. So a written hierarchy has the columns of every
row agree exactly when the document was not flagged (`paired_writeHierarchy_iff`).

A flagged document stays invisible in its new hierarchy: nothing is read back, and the integrity
gate lets only an empty text pass (`matching_iff_of_documentDeleted`). Hence a publication that
succeeds keeps the columns of all rows in agreement unless it publishes an empty text to a flagged
document (`paired_publish_iff`).
-/

set_option autoImplicit false
set_option relaxedAutoImplicit false

namespace DocStore

open Foundation

variable {host : Host} {ids : PublicationIds} {plan : PersistencePlan} {db next : Db}

/-! ### Rows whose columns agree -/

/-- The deletion columns of every row agree. -/
structure Db.Paired (db : Db) : Prop where
  projects : ∀ row ∈ db.projects, row.Paired
  files : ∀ row ∈ db.files, row.Paired
  documents : ∀ row ∈ db.documents, row.Paired
  chapters : ∀ row ∈ db.chapters, row.Paired
  paragraphs : ∀ row ∈ db.paragraphs, row.Paired
  chunks : ∀ row ∈ db.semanticChunks, row.Paired

theorem Db.paired_empty : ({} : Db).Paired := by
  constructor <;> simp

/-- A flag without a time is a row whose columns disagree. -/
theorem Lifecycle.paired_iff_of_deletedAt {row : Lifecycle} (hnone : row.deletedAt = none) :
    row.Paired ↔ row.isDeleted = false := by
  rw [Lifecycle.Paired, hnone, Option.isSome_none]

/-! ### Writing the hierarchy -/

theorem Db.Paired.markHierarchy (hpaired : db.Paired) (now : Instant) (documentId : Uuid) :
    (markHierarchy now documentId db).Paired :=
  { hpaired with
    chapters := forall_mem_updateWhere (fun _ _ ↦ Lifecycle.paired_deletedNow now) hpaired.chapters
    paragraphs :=
      forall_mem_updateWhere (fun _ _ ↦ Lifecycle.paired_deletedNow now) hpaired.paragraphs
    chunks := forall_mem_updateWhere (fun _ _ ↦ Lifecycle.paired_deletedNow now) hpaired.chunks }

theorem Db.Paired.markExisting (hpaired : db.Paired) {now : Instant} {documentId : Uuid}
    (hmark : markExistingHierarchyDeleted now documentId db = .ok next) : next.Paired := by
  have hmarked := hpaired.markHierarchy now documentId
  obtain ⟨-, hnext⟩ := raiseIf_bind_eq_ok.mp hmark
  cases hnext
  exact { hmarked with
    chapters := forall_mem_updateWhere (fun _ hrow ↦ hrow) hmarked.chapters }

theorem Db.Paired.retirePreviousFiles (hpaired : db.Paired) (now : Instant) (documentId : Uuid) :
    (retirePreviousFiles now documentId db).Paired :=
  { hpaired with
    files := forall_mem_updateWhere (fun _ _ ↦ Lifecycle.paired_deletedNow now) hpaired.files }

/-- The written file is undeleted in both columns. -/
theorem Db.Paired.writeFile (hpaired : db.Paired) {primarySourceId : Uuid}
    (hwrite : writeFile plan primarySourceId db = .ok next) : next.Paired := by
  unfold DocStore.writeFile at hwrite
  split at hwrite
  · cases hwrite
    exact { hpaired with
      files := forall_mem_updateWhere (fun _ _ ↦ Lifecycle.paired_default) hpaired.files }
  · obtain ⟨-, hwrite⟩ := Db.register_bind_eq_ok.mp hwrite
    obtain ⟨-, hnext⟩ := raiseIf_bind_eq_ok.mp hwrite
    cases hnext
    exact { hpaired with
      files := List.forall_mem_append.mpr
        ⟨hpaired.files, List.forall_mem_singleton.mpr Lifecycle.paired_default⟩ }

/-- The written document is undeleted in one column only. -/
theorem Db.Paired.writeDocument (hpaired : db.Paired)
    (hlive : ∀ old ∈ db.documents, old.id = plan.documentId → old.isDeleted = false)
    (hwrite : writeDocument plan db = .ok next) : next.Paired := by
  obtain ⟨-, hwrite⟩ := raiseIf_bind_eq_ok.mp hwrite
  split at hwrite
  · cases hwrite
    refine { hpaired with
      documents := (forall_mem_updateWhere_iff hpaired.documents).mpr fun old hold hselected ↦ ?_ }
    exact (Lifecycle.paired_iff_of_deletedAt rfl).mpr (hlive old hold (of_decide_eq_true hselected))
  · obtain ⟨-, hnext⟩ := Db.register_bind_eq_ok.mp hwrite
    cases hnext
    exact { hpaired with
      documents := List.forall_mem_append.mpr
        ⟨hpaired.documents, List.forall_mem_singleton.mpr Lifecycle.paired_default⟩ }

theorem Db.Paired.insertChapter (hpaired : db.Paired) {row : ChapterRow} (hrow : row.Paired)
    (hinsert : db.insertChapter row = .ok next) : next.Paired := by
  obtain ⟨-, -, rfl⟩ := Db.insertChapter_eq_ok.mp hinsert
  exact { hpaired with
    chapters := List.forall_mem_append.mpr
      ⟨hpaired.chapters, List.forall_mem_singleton.mpr hrow⟩ }

theorem Db.Paired.insertParagraph (hpaired : db.Paired) {row : ParagraphRow} (hrow : row.Paired)
    (hinsert : db.insertParagraph row = .ok next) : next.Paired := by
  obtain ⟨-, -, rfl⟩ := Db.insertParagraph_eq_ok.mp hinsert
  exact { hpaired with
    paragraphs := List.forall_mem_append.mpr
      ⟨hpaired.paragraphs, List.forall_mem_singleton.mpr hrow⟩ }

theorem Db.Paired.insertInitialVersion (hpaired : db.Paired) {version : SemanticChunkVersion}
    (hinsert : insertInitialVersion version db = .ok next) : next.Paired := by
  unfold DocStore.insertInitialVersion at hinsert
  split at hinsert
  · obtain ⟨-, rfl⟩ := Db.setCurrent_eq_ok.mp hinsert
    exact { hpaired with }
  · obtain ⟨inserted, hversion, hpointer⟩ := bind_eq_ok.mp hinsert
    obtain ⟨-, rfl⟩ := Db.insertVersion_eq_ok.mp hversion
    obtain ⟨-, rfl⟩ := Db.setCurrent_eq_ok.mp hpointer
    exact { hpaired with }

theorem Db.Paired.writeSentenceRows (hpaired : db.Paired) {rows : SentenceRows}
    (hrow : rows.chunk.Paired) (hwrite : writeSentenceRows rows db = .ok next) : next.Paired := by
  obtain ⟨chunked, hchunk, hwrite⟩ := bind_eq_ok.mp hwrite
  obtain ⟨texted, htext, hversion⟩ := bind_eq_ok.mp hwrite
  obtain ⟨-, -, -, rfl⟩ := Db.insertSemanticChunk_eq_ok.mp hchunk
  obtain ⟨-, rfl⟩ := Db.insertText_eq_ok.mp htext
  refine Db.Paired.insertInitialVersion ?_ hversion
  exact { hpaired with
    chunks := List.forall_mem_append.mpr ⟨hpaired.chunks, List.forall_mem_singleton.mpr hrow⟩ }

/-- The sentence loop writes undeleted chunks. -/
theorem Db.Paired.writeSentences {orderIndex : ℕ} {paragraph : RuntimeChunk}
    {entries : List (RuntimeChunk × ExactReconstructionPiece)} (hpaired : db.Paired)
    (hwrite : writeSentences host ids plan orderIndex paragraph entries db = .ok next) :
    next.Paired := by
  induction entries generalizing db with
  | nil =>
    cases hwrite
    exact hpaired
  | cons entry entries ih =>
    obtain ⟨middle, hfirst, hrest⟩ := bind_eq_ok.mp hwrite
    obtain ⟨_, -, hrows⟩ := bind_eq_ok.mp hfirst
    exact ih (hpaired.writeSentenceRows Lifecycle.paired_default hrows) hrest

/-- The paragraph loop writes undeleted paragraphs. -/
theorem Db.Paired.writeParagraphs {orderIndex : ℕ} {paragraphs : List PlannedParagraph}
    (hpaired : db.Paired)
    (hwrite : writeParagraphs host ids plan orderIndex paragraphs db = .ok next) :
    next.Paired := by
  induction paragraphs generalizing db orderIndex with
  | nil =>
    cases hwrite
    exact hpaired
  | cons planned rest ih =>
    obtain ⟨paragraph, entries⟩ := planned
    obtain ⟨inserted, hparagraph, hwrite⟩ := bind_eq_ok.mp hwrite
    obtain ⟨written, hsentences, hrest⟩ := bind_eq_ok.mp hwrite
    have hinserted := hpaired.insertParagraph Lifecycle.paired_default hparagraph
    exact ih (hinserted.writeSentences hsentences) hrest

/-- A flag is found under the UUID of its document. -/
theorem documentDeleted_eq_false_iff {documentId : Uuid}
    (hnodup : (db.documents.map fun row ↦ row.id).Nodup) :
    documentDeleted db documentId = false ↔
      ∀ old ∈ db.documents, old.id = documentId → old.isDeleted = false := by
  simp only [documentDeleted, Option.any_eq_false, lookup_eq_some hnodup, and_imp]

/-- **A written hierarchy has the columns of every row agree exactly when the document was not
flagged as deleted.** -/
theorem paired_writeHierarchy_iff (hpaired : db.Paired)
    (hnodup : (db.documents.map fun row ↦ row.id).Nodup) {primarySourceId : Uuid}
    {paragraphs : List PlannedParagraph}
    (hwrite : writeHierarchy host ids plan primarySourceId paragraphs db = .ok next) :
    next.Paired ↔ documentDeleted db plan.documentId = false := by
  constructor
  · intro hnext
    have hlookup := lookup_document_of_writeHierarchy hwrite plan.documentId
    rw [if_pos rfl] at hlookup
    exact (Lifecycle.paired_iff_of_deletedAt rfl).mp
      (hnext.documents _ (mem_of_lookup hlookup).1)
  · intro hlive
    obtain ⟨prepared, hprepare, hparagraphs⟩ := bind_eq_ok.mp hwrite
    obtain ⟨marked, hmark, hprepare⟩ := bind_eq_ok.mp hprepare
    obtain ⟨filed, hfile, hprepare⟩ := bind_eq_ok.mp hprepare
    obtain ⟨documented, hdocument, hchapter⟩ := bind_eq_ok.mp hprepare
    have hfiled : filed.documents = db.documents := by
      obtain ⟨-, hmark⟩ := raiseIf_bind_eq_ok.mp hmark
      cases hmark
      rw [documents_of_writeFile hfile]
      rfl
    have hdocumented : documented.Paired := by
      refine Db.Paired.writeDocument
        (((hpaired.markExisting hmark).retirePreviousFiles _ _).writeFile hfile) ?_ hdocument
      rw [hfiled]
      exact (documentDeleted_eq_false_iff hnodup).mp hlive
    exact (hdocumented.insertChapter Lifecycle.paired_default hchapter).writeParagraphs hparagraphs

/-! ### Reading back -/

/-- Nothing is read of a document that is flagged as deleted. -/
theorem joinedRows_of_isDeleted {documentId : Uuid} {document : DocumentRow}
    (hlookup : lookup (fun row : DocumentRow ↦ row.id) documentId db.documents = some document)
    (hdeleted : document.isDeleted = true) : joinedRows host db documentId = [] := by
  have hnone : (db.semanticChunks.filter fun chunk ↦ chunk.documentId = documentId).filterMap
      (joinChunk host db) = [] := by
    refine List.filterMap_eq_nil_iff.mpr fun chunk hmem ↦ ?_
    have hdocument : chunk.documentId = documentId :=
      of_decide_eq_true (List.mem_filter.mp hmem).2
    have hnot : document.isLive = false := by simp [Lifecycle.isLive, hdeleted]
    simp [joinChunk, hdocument, hlookup, hnot]
  rw [joinedRows, hnone]
  rfl

/-- Of a flagged document nothing is read back, whatever was written. -/
theorem reconstructedScopeText_of_documentDeleted {primarySourceId : Uuid}
    {paragraphs : List PlannedParagraph}
    (hwrite : writeHierarchy host ids plan primarySourceId paragraphs db = .ok next)
    (hdeleted : documentDeleted db plan.documentId = true) :
    reconstructedScopeText host next plan.documentId = .ok [] := by
  have hlookup := lookup_document_of_writeHierarchy hwrite plan.documentId
  rw [if_pos rfl] at hlookup
  rw [reconstructedScopeText, joinedRows_of_isDeleted hlookup hdeleted]
  rfl

/-! ### Publications -/

/-- A publication and the hierarchy that it wrote, with what was read back of it. -/
theorem exists_hierarchy_of_publish {request : NormalizedRequest}
    {paragraphChunks sentenceChunks : List RuntimeChunk} {publication : Publication}
    (hpublish : publish host ids request paragraphChunks sentenceChunks db = .ok publication) :
    ∃ paragraphs hierarchy reconstructed kept,
      writeHierarchy host ids (mapPlan host request)
        (resolvePrimarySource host (mapPlan host request) db) paragraphs db = .ok hierarchy ∧
      reconstructedScopeText host hierarchy request.documentId = .ok reconstructed ∧
      publication.integrityOutcome = (integrityVerdict request.textValue reconstructed).1 ∧
      (∃ processingRuns temporalAssertions,
        publication.db = { kept with processingRuns, temporalAssertions }) ∧
      (publication.integrityOutcome = .matching ∧ kept = hierarchy ∨
        publication.integrityOutcome ≠ .matching ∧ kept = db) := by
  obtain ⟨-, hpublish⟩ := raiseIf_bind_eq_ok.mp hpublish
  obtain ⟨-, hpublish⟩ := raiseIf_bind_eq_ok.mp hpublish
  obtain ⟨paragraphs, -, hpublish⟩ := bind_eq_ok.mp hpublish
  obtain ⟨hierarchy, hwrite, hpublish⟩ := bind_eq_ok.mp hpublish
  obtain ⟨reconstructed, hread, hconclude⟩ := bind_eq_ok.mp hpublish
  obtain ⟨recorded, hrecord, hconclude⟩ := bind_eq_ok.mp hconclude
  cases hconclude
  obtain ⟨kept, processingRuns, temporalAssertions, hnext, hkept⟩ := tables_of_recordVerdict hrecord
  exact ⟨paragraphs, hierarchy, reconstructed, kept, hwrite, hread, rfl,
    ⟨processingRuns, temporalAssertions, hnext⟩, hkept⟩

/-- **To a flagged document only the empty text is published.** -/
theorem matching_iff_of_documentDeleted {request : NormalizedRequest}
    {paragraphChunks sentenceChunks : List RuntimeChunk} {publication : Publication}
    (hpublish : publish host ids request paragraphChunks sentenceChunks db = .ok publication)
    (hdeleted : documentDeleted db request.documentId = true) :
    publication.integrityOutcome = .matching ↔ request.textValue = [] := by
  obtain ⟨paragraphs, hierarchy, reconstructed, kept, hwrite, hread, houtcome, -, -⟩ :=
    exists_hierarchy_of_publish hpublish
  have hempty : reconstructed = [] :=
    Except.ok.inj (hread.symm.trans (reconstructedScopeText_of_documentDeleted hwrite hdeleted))
  rw [houtcome, hempty]
  exact ⟨eq_of_integrityVerdict, fun htext ↦ by rw [htext]; rfl⟩

/-- What a publication records says nothing about deletions. -/
theorem Db.paired_withEvidence {processingRuns : List ProcessingRun}
    {temporalAssertions : History} :
    ({ db with processingRuns, temporalAssertions } : Db).Paired ↔ db.Paired :=
  ⟨fun hpaired ↦ { hpaired with }, fun hpaired ↦ { hpaired with }⟩

/-- **A publication keeps the columns of all rows in agreement, unless it publishes an empty text to
a document that is flagged as deleted.** -/
theorem paired_publish_iff (hpaired : db.Paired)
    (hnodup : (db.documents.map fun row ↦ row.id).Nodup) {request : NormalizedRequest}
    {paragraphChunks sentenceChunks : List RuntimeChunk} {publication : Publication}
    (hpublish : publish host ids request paragraphChunks sentenceChunks db = .ok publication) :
    publication.db.Paired ↔
      (documentDeleted db request.documentId = true → request.textValue ≠ []) := by
  have hgate := matching_iff_of_documentDeleted hpublish
  obtain ⟨paragraphs, hierarchy, reconstructed, kept, hwrite, -, -, hnext, hkept⟩ :=
    exists_hierarchy_of_publish hpublish
  obtain ⟨processingRuns, temporalAssertions, hnext⟩ := hnext
  rw [hnext, Db.paired_withEvidence]
  rcases hkept with ⟨hmatch, rfl⟩ | ⟨hrefused, rfl⟩
  · refine (paired_writeHierarchy_iff hpaired hnodup hwrite).trans ?_
    constructor
    · intro hlive hdeleted
      exact absurd hdeleted (Bool.eq_false_iff.mp hlive)
    · intro hallowed
      refine Bool.eq_false_iff.mpr fun hdeleted ↦ hallowed hdeleted ?_
      exact (hgate hdeleted).mp hmatch
  · exact ⟨fun _ hdeleted htext ↦ hrefused ((hgate hdeleted).mpr htext), fun _ ↦ hpaired⟩

end DocStore
