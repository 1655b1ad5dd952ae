import DocStore.Ingestion.Rechunk

/-!
# What a rechunking keeps of a text

The text that a reader gets for a document comes from its chunk rows, with every gap as it was in
the source. The text that a rechunking publishes comes from its paragraph rows, which know no gaps
and are not rewritten when a chunk is edited: it is what the integrity gate compares the new rows
with. So a rechunking that is reported leaves the joined paragraphs as the text of the document, and
the text survives exactly when it consists of the stored paragraphs with one blank line between
them.
-/

set_option autoImplicit false
set_option relaxedAutoImplicit false

namespace DocStore

open Foundation

/-! ### Consistency along a publication -/

section Consistency

variable {host : Host} {ids : PublicationIds} {plan : PersistencePlan} {primarySourceId : Uuid}
  {paragraphs : List PlannedParagraph} {db hierarchy next : Db}

/-- The tables stay consistent when a hierarchy is written. -/
theorem Db.Consistent.writeHierarchy (hdb : db.Consistent)
    (hwrite : writeHierarchy host ids plan primarySourceId paragraphs db = .ok next) :
    next.Consistent := by
  obtain ⟨middle, hprepare, hparagraphs⟩ := bind_eq_ok.mp hwrite
  have hmiddle := prepared_of_prepareHierarchy hdb hprepare
  exact (grown_of_writeParagraphs hmiddle.consistent hmiddle.registered hparagraphs).1

/-- A recorded verdict leaves the written hierarchy on a match and the old one otherwise, with other
runs and assertions. -/
theorem tables_of_recordVerdict {reconstructed : Text}
    (hrecord : recordVerdict host ids plan primarySourceId db hierarchy reconstructed = .ok next) :
    ∃ kept processingRuns temporalAssertions,
      next = { kept with processingRuns, temporalAssertions } ∧
      ((integrityVerdict plan.textValue reconstructed).1 = .matching ∧ kept = hierarchy ∨
        (integrityVerdict plan.textValue reconstructed).1 ≠ .matching ∧ kept = db) := by
  dsimp only [recordVerdict] at hrecord
  split at hrecord
  next hmatch =>
    obtain ⟨recorded, hinsert, haccept⟩ := bind_eq_ok.mp hrecord
    obtain ⟨-, -, rfl⟩ := Db.insertProcessingRun_eq_ok.mp hinsert
    obtain ⟨result, -, hnext⟩ := bind_eq_ok.mp haccept
    cases hnext
    exact ⟨hierarchy, _, _, rfl, Or.inl ⟨hmatch, rfl⟩⟩
  next hnot =>
    obtain ⟨-, -, rfl⟩ := Db.insertProcessingRun_eq_ok.mp hrecord
    exact ⟨db, _, _, rfl, Or.inr ⟨hnot, rfl⟩⟩

/-- What a publication leaves: the hierarchy that it has written, when it reads as the source, and
otherwise the tables as they were, each with what is recorded about the publication. -/
theorem tables_of_publish {request : NormalizedRequest}
    {paragraphChunks sentenceChunks : List RuntimeChunk} {publication : Publication}
    (hpublish : publish host ids request paragraphChunks sentenceChunks db = .ok publication) :
    ∃ paragraphs hierarchy kept processingRuns temporalAssertions,
      exactSentencePlan request.textValue paragraphChunks sentenceChunks = .ok paragraphs ∧
        writeHierarchy host ids (mapPlan host request)
          (resolvePrimarySource host (mapPlan host request) db) paragraphs db = .ok hierarchy ∧
        publication.db = { kept with processingRuns, temporalAssertions } ∧
        (publication.integrityOutcome = .matching ∧ kept = hierarchy ∨
          publication.integrityOutcome ≠ .matching ∧ kept = db) := by
  obtain ⟨-, hpublish⟩ := raiseIf_bind_eq_ok.mp hpublish
  obtain ⟨-, hpublish⟩ := raiseIf_bind_eq_ok.mp hpublish
  obtain ⟨paragraphs, hplan, hpublish⟩ := bind_eq_ok.mp hpublish
  obtain ⟨hierarchy, hwrite, hpublish⟩ := bind_eq_ok.mp hpublish
  obtain ⟨reconstructed, -, hconclude⟩ := bind_eq_ok.mp hpublish
  obtain ⟨recorded, hrecord, hconclude⟩ := bind_eq_ok.mp hconclude
  cases hconclude
  obtain ⟨kept, processingRuns, temporalAssertions, hnext, hkept⟩ := tables_of_recordVerdict hrecord
  exact ⟨paragraphs, hierarchy, kept, processingRuns, temporalAssertions, hplan, hwrite, hnext,
    hkept⟩

/-- The gate lets a hierarchy pass only when it reads as the source. -/
theorem eq_of_integrityVerdict {sourceText reconstructed : Text}
    (hmatch : (integrityVerdict sourceText reconstructed).1 = .matching) :
    sourceText = reconstructed := by
  by_contra hne
  rw [integrityVerdict, if_neg hne] at hmatch
  dsimp only at hmatch
  split at hmatch <;> cases hmatch

/-- The tables are consistent whatever the runs and the assertions are. -/
theorem Db.Consistent.withEvidence (hdb : db.Consistent) (processingRuns : List ProcessingRun)
    (temporalAssertions : History) :
    ({ db with processingRuns, temporalAssertions } : Db).Consistent :=
  { hdb with }

/-- The tables stay consistent when a document is published, however the attempt ends. -/
theorem Db.Consistent.publishIn {store : EvidenceDb} (hdb : store.Consistent) (ids : AttemptIds)
    (request : NormalizedRequest) (paragraphChunks sentenceChunks : List RuntimeChunk)
    (faults : ℕ → Option (Fault Failure)) :
    (publishIn host ids request paragraphChunks sentenceChunks faults store).2.Consistent := by
  obtain ⟨commits, houtcome⟩ :=
    publishIn_outcome host ids request paragraphChunks sentenceChunks faults store
  cases houtcome with
  | failed hsame => exact hsame ▸ hdb
  | recorded _ hwrite _ hrecord =>
    obtain ⟨kept, runs, assertions, hnext, hkept⟩ := tables_of_recordVerdict hrecord
    rw [hnext]
    rcases hkept with ⟨-, rfl⟩ | ⟨-, rfl⟩
    · exact (hdb.writeHierarchy hwrite).withEvidence runs assertions
    · exact hdb.withEvidence runs assertions

end Consistency

/-! ### The text of a document -/

/-- The text that `reconstruct_source_file` returns for a document when nothing is cut off. -/
def currentText (host : Host) (db : Db) (documentId : Uuid) : Option Text :=
  (toOption (reconstructSourceFile host db documentId 0
    (joinedRows host db documentId).length)).map Assembly.text

section Reading

variable {host : Host} {ids : PublicationIds} {plan : PersistencePlan} {primarySourceId : Uuid}
  {paragraphs : List PlannedParagraph} {db next : Db} {documentId : Uuid} {text : Text}

/-- The text of a document depends on its hierarchy only. -/
theorem currentText_withEvidence (processingRuns : List ProcessingRun)
    (temporalAssertions : History) :
    currentText host { db with processingRuns, temporalAssertions } documentId =
      currentText host db documentId :=
  rfl

/-- What the integrity reader returns for distinct rows, unless there is none, is the text of the
document. -/
theorem currentText_of_reconstructedScopeText
    (hnodup : ((joinedRows host db documentId).map fun row ↦ row.chunkId).Nodup)
    (hread : reconstructedScopeText host db documentId = .ok text) (hne : text ≠ []) :
    currentText host db documentId = some text := by
  obtain ⟨assembly, hassemble, rfl⟩ := assemble_of_scopeText host hnodup hread
  have hrows : (joinedRows host db documentId).isEmpty = false := by
    rw [Bool.eq_false_iff]
    intro hempty
    rw [reconstructedScopeText, List.isEmpty_iff.mp hempty] at hread
    exact hne (Except.ok.inj hread).symm
  have hall : reconstructSourceFile host db documentId 0 (joinedRows host db documentId).length =
      .ok assembly := by
    refine raiseIf_bind_eq_ok.mpr ⟨?_, ?_⟩ <;> rw [List.take_length]
    · exact hrows
    · exact hassemble
  rw [currentText, hall, toOption_ok, Option.map_some]

/-- A joined row is the row of its chunk. -/
theorem chunkId_of_joinChunk {chunk : SemanticChunkRow} {joined : OrderKey × ChunkTextRow}
    (hjoin : joinChunk host db chunk = some joined) : joined.2.chunkId = chunk.id := by
  simp only [joinChunk, Option.bind_eq_bind, Option.bind_eq_some_iff] at hjoin
  obtain ⟨_, -, _, -, _, -, _, -, hjoin⟩ := hjoin
  split at hjoin
  next => exact Option.some.inj hjoin ▸ rfl
  next => cases hjoin

/-- The readers find distinct chunks in a hierarchy that was just written. -/
theorem nodup_joinedRows_of_writeHierarchy (hdb : db.Consistent)
    (hwrite : writeHierarchy host ids plan primarySourceId paragraphs db = .ok next) :
    ((joinedRows host next plan.documentId).map fun row ↦ row.chunkId).Nodup := by
  obtain ⟨middle, hprepare, hparagraphs⟩ := bind_eq_ok.mp hwrite
  have hmiddle := prepared_of_prepareHierarchy hdb hprepare
  obtain ⟨hnext, hgrown⟩ :=
    grown_of_writeParagraphs hmiddle.consistent hmiddle.registered hparagraphs
  obtain ⟨-, hnew, -⟩ := List.nodup_append.mp (hgrown.registered.nodup_iff.mp hnext.registry)
  obtain ⟨-, hsentences, -⟩ := List.nodup_append.mp hnew
  have hold : (middle.semanticChunks.filter fun chunk ↦
      chunk.documentId = plan.documentId).filterMap (joinChunk host next) = [] := by
    refine List.filterMap_eq_nil_iff.mpr fun chunk hmem ↦ ?_
    obtain ⟨hchunk, hdocument⟩ := List.mem_filter.mp hmem
    exact joinChunk_eq_none host next (hmiddle.chunks chunk hchunk (of_decide_eq_true hdocument))
  have hperm : ((joinedRows host next plan.documentId).map fun row ↦ row.chunkId).Perm
      ((((hierarchySentences host ids plan 0 paragraphs).map SentenceRows.chunk).filter fun chunk ↦
        chunk.documentId = plan.documentId).filterMap (joinChunk host next) |>.map
          fun joined ↦ joined.2.chunkId) := by
    rw [joinedRows, List.map_map, hgrown.chunks, List.filter_append, List.filterMap_append, hold,
      List.nil_append]
    exact (List.perm_insertionSort _ _).map _
  refine hperm.nodup_iff.mpr ((map_filterMap_sublist chunkId_of_joinChunk _).nodup ?_)
  refine (List.filter_sublist.map _).nodup ?_
  rw [List.map_map]
  exact hsentences

end Reading

/-! ### Paragraphs with a blank line between them -/

/-- A text consists of paragraphs with exactly one blank line between neighbours, and of nothing
else. -/
inductive BlankLineApart : List Text → Text → Prop
  | none : BlankLineApart [] []
  | single (paragraph : Text) : BlankLineApart [paragraph] paragraph
  | next (paragraph : Text) {following : Text} {rest : List Text} {text : Text}
    (hrest : BlankLineApart (following :: rest) text) :
    BlankLineApart (paragraph :: following :: rest) (paragraph ++ lit "\n\n" ++ text)

/-- Such a text is what the paragraphs are joined to. -/
theorem blankLineApart_iff {paragraphs : List Text} {text : Text} :
    BlankLineApart paragraphs text ↔ joinTexts (lit "\n\n") paragraphs = text := by
  constructor
  · intro hapart
    induction hapart with
    | none => rfl
    | single paragraph => exact List.intercalate_singleton
    | next paragraph _ ih =>
      rw [joinTexts, List.intercalate_cons_cons, ← ih]
      rfl
  · rintro rfl
    induction paragraphs with
    | nil => exact .none
    | cons paragraph rest ih =>
      cases rest with
      | nil =>
        rw [joinTexts, List.intercalate_singleton]
        exact .single paragraph
      | cons following rest =>
        rw [joinTexts, List.intercalate_cons_cons]
        exact .next paragraph ih

/-! ### The text of a rechunked document -/

section Rechunking

variable {host : Host} {documentId : Uuid} {call : RechunkCall} {request : NormalizedRequest}
  {store : EvidenceDb}

/-- A document without a stored text is not rechunked. -/
theorem storedText_ne_nil {db : Db}
    (hrequest : rechunkRequest host documentId call db = .ok request) :
    storedText db documentId ≠ [] := by
  obtain ⟨source, hsource, -⟩ := bind_eq_ok.mp hrequest
  unfold loadExistingDocumentSource at hsource
  split at hsource
  next => cases hsource
  next => exact List.isEmpty_eq_false_iff.mp (raiseIf_bind_eq_ok.mp hsource).1

/-- A rechunking that is reported leaves the joined paragraphs as the text of the document. -/
theorem currentText_of_isPublished (hdb : store.Consistent)
    (hrequest : rechunkRequest host documentId call store.toDb = .ok request)
    (hpublished : isPublished (publishIn host call.ids request call.paragraphChunks
      call.sentenceChunks call.faults store).1 = true) :
    currentText host (rechunkExisting host documentId call store).toDb documentId =
      some (storedText store.toDb documentId) := by
  obtain ⟨hdocument, htext, -⟩ := rechunkRequest_eq_ok hrequest
  have hne := storedText_ne_nil hrequest
  have hstep : rechunkExisting host documentId call store = (publishIn host call.ids request
      call.paragraphChunks call.sentenceChunks call.faults store).2 := by
    rw [rechunkExisting, hrequest]
  obtain ⟨paragraphs, hierarchy, reconstructed, hwrite, hreconstructed, hrecord, -, hmatch⟩ :=
    matching_of_isPublished hpublished
  obtain ⟨kept, runs, assertions, hnext, ⟨-, rfl⟩ | ⟨hnot, -⟩⟩ := tables_of_recordVerdict hrecord
  · rw [← eq_of_integrityVerdict hmatch, htext, hdocument] at hreconstructed
    have hnodup := nodup_joinedRows_of_writeHierarchy hdb hwrite
    rw [show (mapPlan host request).documentId = documentId from hdocument] at hnodup
    rw [hstep, hnext, currentText_withEvidence]
    exact currentText_of_reconstructedScopeText hnodup hreconstructed hne
  · exact absurd hmatch hnot

/-- The texts of the paragraphs of a document that are not deleted, in order and without the empty
ones. -/
def paragraphTexts (db : Db) (documentId : Uuid) : List Text :=
  ((storedParagraphs db documentId).map fun row ↦ row.text).filter fun text ↦ !text.isEmpty

/-- **What survives a rechunking.** In all consistent tables, a rechunking that is reported leaves a
document with the text that it had if and only if that text consists of the stored paragraphs with
exactly one blank line between them. -/
theorem currentText_rechunkExisting_iff (hdb : store.Consistent) {text : Text}
    (hrequest : rechunkRequest host documentId call store.toDb = .ok request)
    (hpublished : isPublished (publishIn host call.ids request call.paragraphChunks
      call.sentenceChunks call.faults store).1 = true)
    (hbefore : currentText host store.toDb documentId = some text) :
    currentText host (rechunkExisting host documentId call store).toDb documentId =
        currentText host store.toDb documentId ↔
      BlankLineApart (paragraphTexts store.toDb documentId) text := by
  rw [hbefore, currentText_of_isPublished hdb hrequest hpublished, blankLineApart_iff,
    Option.some.injEq]
  rfl

end Rechunking

/-- A text with one blank line between its paragraphs survives. -/
theorem currentText_rechunkExisting_plain :
    currentText sampleHost (rechunkExisting sampleHost plainRequest.documentId sampleRechunk
        plainFirst.2).toDb plainRequest.documentId =
      currentText sampleHost plainFirst.2.toDb plainRequest.documentId := by
  have hconsistent : plainFirst.2.Consistent := Db.consistent_empty.publishIn _ _ _ _ _
  have hrequest : rechunkRequest sampleHost plainRequest.documentId sampleRechunk
      plainFirst.2.toDb = .ok plainRechunked := by
    rw [plainRechunked]
    exact eq_ok_of_succeeds (by decide +kernel)
  have hbefore : currentText sampleHost plainFirst.2.toDb plainRequest.documentId =
      some sampleStoredText := by
    decide +kernel
  refine (currentText_rechunkExisting_iff hconsistent hrequest ?_ hbefore).mpr
    (blankLineApart_iff.mpr ?_) <;> decide +kernel

/-- White space around the text is lost with the first rechunking. -/
theorem currentText_rechunkExisting_sample :
    currentText sampleHost sampleFirst.2.toDb sampleRequest.documentId =
        some (lit " Ab c\n\nd ") ∧
      isPublished (publishIn sampleHost sampleRechunk.ids sampleRechunked
        sampleRechunk.paragraphChunks sampleRechunk.sentenceChunks sampleRechunk.faults
        sampleFirst.2).1 = true ∧
      currentText sampleHost (rechunkExisting sampleHost sampleRequest.documentId sampleRechunk
        sampleFirst.2).toDb sampleRequest.documentId = some (lit "Ab c\n\nd") := by
  refine ⟨?_, ?_, ?_⟩ <;> decide +kernel

end DocStore
