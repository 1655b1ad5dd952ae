import DocStore.Runtime.ClosedRows
import DocStore.Runtime.EditedText

/-!
# The store as a shelf of texts

Whatever chunks a publication is offered, it goes through only when its document is read as the text
of the request, and the other documents keep their rows. So after any publications, each document is
read as the text of the last one of it that matched (`currentText_of_publications`): the tables of
the hierarchy, with their marked rows, shifted chapters and joins, behave like one text for each
document.
-/

set_option autoImplicit false
set_option relaxedAutoImplicit false

namespace DocStore

open Foundation

/-! ### The rows above a chunk -/

/-- The paragraph and the chapter of a chunk are there, and belong to its document. -/
structure Db.Hangs (db : Db) (chunk : SemanticChunkRow) : Prop where
  paragraph : ∃ row, lookup (fun row : ParagraphRow ↦ row.id) chunk.paragraphId db.paragraphs =
    some row ∧ row.documentId = chunk.documentId
  chapter : ∃ row, lookup (fun row : ChapterRow ↦ row.id) chunk.chapterId db.chapters =
    some row ∧ row.documentId = chunk.documentId

/-- A row belongs to the document it belonged to, and was changed only if that is the one that is
written. -/
def StaysWith {ρ : Type} (document : ρ → Uuid) (documentId : Uuid) (row later : ρ) : Prop :=
  document later = document row ∧ (document row ≠ documentId → later = row)

section Staying

variable {ρ : Type} {key document : ρ → Uuid} {documentId id : Uuid} {rows : List ρ} {row : ρ}

theorem StaysWith.refl (row : ρ) : StaysWith document documentId row row := ⟨rfl, fun _ ↦ rfl⟩

theorem StaysWith.trans {middle later : ρ} (hfirst : StaysWith document documentId row middle)
    (hsecond : StaysWith document documentId middle later) :
    StaysWith document documentId row later := by
  refine ⟨hsecond.1.trans hfirst.1, fun hne ↦ ?_⟩
  rw [hsecond.2 (hfirst.1 ▸ hne), hfirst.2 hne]

/-- A row that is found is found again when rows of one document are updated. -/
theorem lookup_updateWhere_staysWith {selected : ρ → Bool} {change : ρ → ρ}
    (hselected : ∀ row, selected row = true → document row = documentId)
    (hkey : ∀ row, key (change row) = key row)
    (hdocument : ∀ row, document (change row) = document row)
    (hfound : lookup key id rows = some row) :
    ∃ later, lookup key id (updateWhere selected change rows) = some later ∧
      StaysWith document documentId row later := by
  refine ⟨_, by rw [lookup_updateWhere hkey, hfound, Option.map_some], ?_⟩
  split
  next hrow => exact ⟨hdocument row, fun hne ↦ absurd (hselected row hrow) hne⟩
  next => exact StaysWith.refl row

end Staying

section Writing

variable {host : Host} {ids : PublicationIds} {plan : PersistencePlan} {db middle next : Db}
  {paragraphs : List PlannedParagraph} {primarySourceId : Uuid}

/-- What stands in front of the paragraphs: the marked hierarchy with a new chapter. -/
theorem tables_of_prepareHierarchy
    (hprepare : prepareHierarchy ids plan primarySourceId db = .ok next) :
    ∃ shifted, shiftChapters plan.documentId (markHierarchy ids.now plan.documentId db) =
        .ok shifted ∧
      next.chapters = shifted.chapters ++ [chapterRow ids plan] ∧
      next.paragraphs = (markHierarchy ids.now plan.documentId db).paragraphs ∧
      next.semanticChunks = (markHierarchy ids.now plan.documentId db).semanticChunks := by
  obtain ⟨shifted, hshift, hprepare⟩ := bind_eq_ok.mp hprepare
  obtain ⟨filed, hfile, hprepare⟩ := bind_eq_ok.mp hprepare
  obtain ⟨documented, hdocument, hchapter⟩ := bind_eq_ok.mp hprepare
  obtain ⟨-, -, rfl⟩ := Db.insertChapter_eq_ok.mp hchapter
  obtain ⟨_, _, rfl⟩ := exists_of_writeFile hfile
  obtain ⟨_, _, rfl⟩ := exists_of_writeDocument hdocument
  refine ⟨shifted, hshift, rfl, ?_, ?_⟩
  all_goals
    obtain ⟨-, hshifted⟩ := raiseIf_bind_eq_ok.mp hshift
    cases hshifted
    rfl

/-- The paragraph and the chapter of a row are found again when a plan is written. -/
theorem lookup_of_writeHierarchy (hdb : db.Consistent)
    (hwrite : writeHierarchy host ids plan primarySourceId paragraphs db = .ok next) :
    (∀ id row, lookup (fun row : ParagraphRow ↦ row.id) id db.paragraphs = some row →
      ∃ later, lookup (fun row : ParagraphRow ↦ row.id) id next.paragraphs = some later ∧
        StaysWith ParagraphRow.documentId plan.documentId row later) ∧
      ∀ id row, lookup (fun row : ChapterRow ↦ row.id) id db.chapters = some row →
        ∃ later, lookup (fun row : ChapterRow ↦ row.id) id next.chapters = some later ∧
          StaysWith ChapterRow.documentId plan.documentId row later := by
  obtain ⟨middle, hprepare, hwrite⟩ := bind_eq_ok.mp hwrite
  have hmiddle := prepared_of_prepareHierarchy hdb hprepare
  obtain ⟨-, hgrown⟩ := grown_of_writeParagraphs hmiddle.consistent hmiddle.registered hwrite
  obtain ⟨shifted, hshift, hchapters, hparagraphs, -⟩ := tables_of_prepareHierarchy hprepare
  have hmarked : ∀ rowDocument : Uuid, ∀ deletedAt : Option Instant,
      (decide (rowDocument = plan.documentId) && deletedAt.isNone) = true →
        rowDocument = plan.documentId :=
    fun _ _ hrow ↦ of_decide_eq_true (Bool.and_eq_true_iff.mp hrow).1
  constructor
  · intro id row hfound
    obtain ⟨later, hlater, hstays⟩ : ∃ later, lookup (fun row : ParagraphRow ↦ row.id) id
        (markHierarchy ids.now plan.documentId db).paragraphs = some later ∧
          StaysWith ParagraphRow.documentId plan.documentId row later :=
      lookup_updateWhere_staysWith (fun row ↦ hmarked row.documentId row.deletedAt)
        (fun _ ↦ rfl) (fun _ ↦ rfl) hfound
    refine ⟨later, ?_, hstays⟩
    rw [hgrown.paragraphs, hparagraphs, lookup_append, hlater, Option.some_or]
  · intro id row hfound
    obtain ⟨moved, hmoved, hfirst⟩ : ∃ moved, lookup (fun row : ChapterRow ↦ row.id) id
        (markHierarchy ids.now plan.documentId db).chapters = some moved ∧
          StaysWith ChapterRow.documentId plan.documentId row moved :=
      lookup_updateWhere_staysWith (fun row ↦ hmarked row.documentId row.deletedAt)
        (fun _ ↦ rfl) (fun _ ↦ rfl) hfound
    obtain ⟨later, hlater, hsecond⟩ : ∃ later, lookup (fun row : ChapterRow ↦ row.id) id
        shifted.chapters = some later ∧
          StaysWith ChapterRow.documentId plan.documentId moved later := by
      obtain ⟨-, hshifted⟩ := raiseIf_bind_eq_ok.mp hshift
      cases hshifted
      exact lookup_updateWhere_staysWith
        (fun row hrow ↦ of_decide_eq_true (Bool.and_eq_true_iff.mp hrow).1)
        (fun _ ↦ rfl) (fun _ ↦ rfl) hmoved
    refine ⟨later, ?_, hfirst.trans hsecond⟩
    rw [hgrown.chapters, hchapters, lookup_append, hlater, Option.some_or]

/-- The chunks hang in a hierarchy that was written. -/
theorem hangs_of_writeHierarchy (hdb : db.Consistent)
    (hhangs : ∀ chunk ∈ db.semanticChunks, db.Hangs chunk)
    (hwrite : writeHierarchy host ids plan primarySourceId paragraphs db = .ok next) :
    ∀ chunk ∈ next.semanticChunks, next.Hangs chunk := by
  obtain ⟨hparagraphs, hchapters⟩ := lookup_of_writeHierarchy hdb hwrite
  obtain ⟨middle, hprepare, hwrite⟩ := bind_eq_ok.mp hwrite
  have hmiddle := prepared_of_prepareHierarchy hdb hprepare
  obtain ⟨hnext, hgrown⟩ := grown_of_writeParagraphs hmiddle.consistent hmiddle.registered hwrite
  obtain ⟨-, -, -, -, hchunks⟩ := tables_of_prepareHierarchy hprepare
  intro chunk hchunk
  rw [hgrown.chunks, hierarchySentences, List.map_map] at hchunk
  rcases List.mem_append.mp hchunk with hold | hnew
  · rw [hchunks] at hold
    obtain ⟨old, hmem, hchange⟩ := mem_updateWhere.mp hold
    obtain ⟨⟨paragraph, hparagraph, hparagraphDocument⟩, chapter, hchapter, hchapterDocument⟩ :=
      hhangs old hmem
    have hsame : chunk.paragraphId = old.paragraphId ∧ chunk.chapterId = old.chapterId ∧
        chunk.documentId = old.documentId := by
      rw [hchange]
      split <;> exact ⟨rfl, rfl, rfl⟩
    obtain ⟨hparagraphId, hchapterId, hdocumentId⟩ := hsame
    obtain ⟨later, hlater, hstays⟩ := hparagraphs _ _ hparagraph
    obtain ⟨moved, hmoved, hmovedStays⟩ := hchapters _ _ hchapter
    refine ⟨⟨later, hparagraphId ▸ hlater, ?_⟩, moved, hchapterId ▸ hmoved, ?_⟩
    · rw [hstays.1, hparagraphDocument, hdocumentId]
    · rw [hmovedStays.1, hchapterDocument, hdocumentId]
  · obtain ⟨placed, hplaced, rfl⟩ := List.mem_map.mp hnew
    obtain ⟨-, hrows, hfresh⟩ :=
      List.nodup_append.mp (hgrown.registered.nodup_iff.mp hnext.registry)
    have hrow := @paragraphRow_mem_hierarchyParagraphs host ids plan _ _ _ hplaced
    refine ⟨⟨paragraphRow host ids plan placed.orderIndex placed.paragraph, ?_, rfl⟩,
      chapterRow ids plan, hgrown.chapters ▸ hmiddle.chapter, rfl⟩
    rw [hgrown.paragraphs]
    refine lookup_append_of_mem (List.nodup_append.mp hrows).1 hrow fun old hold ↦ ?_
    exact hfresh _ (hmiddle.consistent.paragraphs old hold).1 _
      (List.mem_append_left _ (List.mem_map_of_mem hrow))

/-- The joins find the same for the chunks of another document. -/
theorem joinChunk_of_writeHierarchy (hdb : db.Consistent) {chunk : SemanticChunkRow}
    (hchunk : chunk ∈ db.semanticChunks) (hhangs : db.Hangs chunk)
    (hne : chunk.documentId ≠ plan.documentId)
    (hwrite : writeHierarchy host ids plan primarySourceId paragraphs db = .ok next) :
    joinChunk host next chunk = joinChunk host db chunk := by
  have hdocument := lookup_document_of_writeHierarchy hwrite chunk.documentId
  rw [if_neg hne] at hdocument
  have htexts := (writesOnly_of_writeHierarchy hwrite).texts chunk.id
  obtain ⟨hparagraphs, hchapters⟩ := lookup_of_writeHierarchy hdb hwrite
  obtain ⟨paragraph, hparagraph, hparagraphDocument⟩ := hhangs.paragraph
  obtain ⟨chapter, hchapter, hchapterDocument⟩ := hhangs.chapter
  obtain ⟨later, hlater, hstays⟩ := hparagraphs _ _ hparagraph
  obtain ⟨moved, hmoved, hmovedStays⟩ := hchapters _ _ hchapter
  obtain rfl := hstays.2 (hparagraphDocument.trans_ne hne)
  obtain rfl := hmovedStays.2 (hchapterDocument.trans_ne hne)
  have htext : lookup SemanticChunkText.chunkUuid chunk.id next.semanticChunkTexts =
      lookup SemanticChunkText.chunkUuid chunk.id db.semanticChunkTexts := by
    have hfresh : chunk.id ∉ (plannedSentences paragraphs).map fun entry ↦ entry.1.uuid := by
      obtain ⟨middle, hprepare, hwrite⟩ := bind_eq_ok.mp hwrite
      have hmiddle := prepared_of_prepareHierarchy hdb hprepare
      obtain ⟨hnext, hgrown⟩ :=
        grown_of_writeParagraphs hmiddle.consistent hmiddle.registered hwrite
      obtain ⟨-, -, -, -, hchunks⟩ := tables_of_prepareHierarchy hprepare
      have hkept : chunk ∈ middle.semanticChunks := by
        rw [hchunks]
        exact mem_updateWhere_of_not hchunk (by simp [hne])
      rw [← map_entry_placedSentences 0, List.map_map]
      intro hmem
      obtain ⟨placed, hplaced, hid⟩ := List.mem_map.mp hmem
      refine (uuids_of_grown hgrown hnext).2 placed hplaced ?_
      rw [show placed.entry.1.uuid = chunk.id from hid]
      exact (hmiddle.consistent.chunks chunk hkept).1
    have hfilter := congrArg List.head? (htexts hfresh)
    rwa [List.head?_filter, List.head?_filter] at hfilter
  simp only [joinChunk, htext, hdocument, hlater, hparagraph, hmoved, hchapter]

/-- A publication leaves the rows that the readers find of another document. -/
theorem joinedRows_of_writeHierarchy (hdb : db.Consistent)
    (hhangs : ∀ chunk ∈ db.semanticChunks, db.Hangs chunk)
    (hwrite : writeHierarchy host ids plan primarySourceId paragraphs db = .ok next) {other : Uuid}
    (hne : other ≠ plan.documentId) : joinedRows host next other = joinedRows host db other := by
  rw [joinedRows, joinedRows, (writesOnly_of_writeHierarchy hwrite).chunks other hne]
  refine congrArg (fun joined ↦ List.map Prod.snd (List.insertionSort _ joined))
    (List.filterMap_congr fun chunk hmem ↦ ?_)
  obtain ⟨hchunk, hdocument⟩ := List.mem_filter.mp hmem
  exact joinChunk_of_writeHierarchy hdb hchunk (hhangs chunk hchunk)
    ((of_decide_eq_true hdocument).trans_ne hne) hwrite

/-- The rows that are read of a written document come from its plan. -/
theorem exists_placed_of_joinChunk (hdb : db.Consistent)
    (hwrite : writeHierarchy host ids plan primarySourceId paragraphs db = .ok next)
    {chunk : SemanticChunkRow} (hchunk : chunk ∈ next.semanticChunks)
    (hdocument : chunk.documentId = plan.documentId) {joined : OrderKey × ChunkTextRow}
    (hjoin : joinChunk host next chunk = some joined) :
    ∃ placed ∈ placedSentences 0 paragraphs, chunk = (placed.rows host ids plan).chunk ∧
      joined.2.toScopeRow = (placed.rows host ids plan).scopeRow := by
  obtain ⟨middle, hprepare, hwrite⟩ := bind_eq_ok.mp hwrite
  have hmiddle := prepared_of_prepareHierarchy hdb hprepare
  obtain ⟨hnext, hgrown⟩ := grown_of_writeParagraphs hmiddle.consistent hmiddle.registered hwrite
  have hlive : documentDeleted db plan.documentId = false := by
    obtain ⟨row, hrow, -, hflag⟩ := hmiddle.document
    have hfound : lookup (fun row : DocumentRow ↦ row.id) chunk.documentId next.documents =
        some row := by
      rw [hgrown.documents, hdocument, hrow]
    simp only [joinChunk, Option.bind_eq_bind, Option.bind_eq_some_iff] at hjoin
    obtain ⟨_, -, _, -, _, -, document, hread, hjoin⟩ := hjoin
    obtain rfl := Option.some.inj (hread.symm.trans hfound)
    split at hjoin
    next hall =>
      simp only [Bool.and_eq_true, Lifecycle.isLive, Bool.not_eq_true'] at hall
      exact hflag.symm.trans hall.1.1.1.2
    next => cases hjoin
  rw [hgrown.chunks, hierarchySentences, List.map_map] at hchunk
  rcases List.mem_append.mp hchunk with hold | hnew
  · rw [joinChunk_eq_none host next (hmiddle.chunks chunk hold hdocument)] at hjoin
    cases hjoin
  · obtain ⟨placed, hplaced, rfl⟩ := List.mem_map.mp hnew
    obtain ⟨found, hfound, hread⟩ :=
      Option.map_eq_some_iff.mp (joinChunk_of_grown hmiddle hgrown hnext hlive hplaced)
    obtain rfl := Option.some.inj (hjoin.symm.trans hfound)
    exact ⟨placed, hplaced, rfl, congrArg Prod.snd hread⟩

/-- All rows of a written document have pieces. -/
theorem hasPiece_of_writeHierarchy (hdb : db.Consistent)
    (hmeta : getKey plan.docMeta exactReconstructionKey = none)
    (hwrite : writeHierarchy host ids plan primarySourceId paragraphs db = .ok next) :
    ∀ row ∈ joinedRows host next plan.documentId, row.toScopeRow.HasPiece := by
  intro row hrow
  obtain ⟨joined, hmem, rfl⟩ := List.mem_map.mp hrow
  rw [List.mem_insertionSort] at hmem
  obtain ⟨chunk, hchunk, hjoin⟩ := List.mem_filterMap.mp hmem
  obtain ⟨hchunk, hdocument⟩ := List.mem_filter.mp hchunk
  obtain ⟨placed, -, -, hscope⟩ :=
    exists_placed_of_joinChunk hdb hwrite hchunk (of_decide_eq_true hdocument) hjoin
  exact ⟨placed.entry.2, hscope ▸ selected_scopeRow hmeta placed⟩

end Writing

/-! ### Publications -/

/-- What a document is read as: nothing, when it has no rows, or a text, when its rows have pieces
that spell it. -/
inductive ReadAs (host : Host) (db : Db) (documentId : Uuid) : Option Text → Prop
  | nothing (hrows : joinedRows host db documentId = []) : ReadAs host db documentId none
  | text {text : Text} (hne : text ≠ [])
    (hpieces : ∀ row ∈ joinedRows host db documentId, row.toScopeRow.HasPiece)
    (hscope : scopeText ((joinedRows host db documentId).map ChunkTextRow.toScopeRow) = .ok text) :
    ReadAs host db documentId (some text)

/-- The text of each document. -/
abbrev Texts := Uuid → Option Text

/-- The store holds the texts. -/
structure Shelved (host : Host) (db : Db) (texts : Texts) : Prop where
  consistent : db.Consistent
  keys : (db.semanticChunks.map fun row ↦ row.id).Nodup
  hangs : ∀ chunk ∈ db.semanticChunks, db.Hangs chunk
  reads : ∀ documentId, ReadAs host db documentId (texts documentId)

/-- A publication, and what it says of its document if it matches. -/
def publishText (host : Host) (state : Db × Texts) (call : PublishCall) : Option (Db × Texts) :=
  (toOption (publish host call.ids call.request call.paragraphChunks call.sentenceChunks
    state.1)).map fun publication ↦
      (publication.db,
        if publication.integrityOutcome = .matching then
          Function.update state.2 call.request.documentId (some call.request.textValue)
        else state.2)

section Publishing

variable {host : Host} {db next : Db} {texts : Texts} {documentId : Uuid}

/-- What a document is read as depends on its rows only. -/
theorem ReadAs.of_joinedRows {text : Option Text} (hreads : ReadAs host db documentId text)
    (hrows : joinedRows host next documentId = joinedRows host db documentId) :
    ReadAs host next documentId text := by
  cases hreads with
  | nothing hnone => exact .nothing (hrows.trans hnone)
  | text hne hpieces hscope => exact .text hne (hrows ▸ hpieces) (hrows ▸ hscope)

theorem ReadAs.currentText_eq {text : Option Text}
    (hkeys : (db.semanticChunks.map fun row ↦ row.id).Nodup)
    (hreads : ReadAs host db documentId text) : currentText host db documentId = text := by
  cases hreads with
  | nothing hrows =>
    rw [currentText, reconstructSourceFile, hrows]
    rfl
  | text hne _ hscope =>
    refine currentText_of_scopeText hkeys (fun hrows ↦ ?_) hscope
    rw [hrows] at hscope
    exact hne (Except.ok.inj hscope).symm

/-- What a publication leaves: the hierarchy that it has written, which is read as the text of the
request, when it matches, and otherwise the tables as they were. -/
theorem hierarchy_or_same_of_publish {call : PublishCall} {publication : Publication}
    (hpublish : publish host call.ids call.request call.paragraphChunks call.sentenceChunks db =
      .ok publication) :
    ∃ kept processingRuns temporalAssertions,
      publication.db = { kept with processingRuns, temporalAssertions } ∧
      ((publication.integrityOutcome = .matching ∧
          reconstructedScopeText host kept call.request.documentId = .ok call.request.textValue ∧
          ∃ paragraphs, writeHierarchy host call.ids (mapPlan host call.request)
            (resolvePrimarySource host (mapPlan host call.request) db) paragraphs db = .ok kept) ∨
        publication.integrityOutcome ≠ .matching ∧ kept = db) := by
  obtain ⟨-, hpublish⟩ := raiseIf_bind_eq_ok.mp hpublish
  obtain ⟨-, hpublish⟩ := raiseIf_bind_eq_ok.mp hpublish
  obtain ⟨paragraphs, -, hpublish⟩ := bind_eq_ok.mp hpublish
  obtain ⟨hierarchy, hwrite, hpublish⟩ := bind_eq_ok.mp hpublish
  obtain ⟨reconstructed, hreconstructed, hconclude⟩ := bind_eq_ok.mp hpublish
  obtain ⟨recorded, hrecord, hconclude⟩ := bind_eq_ok.mp hconclude
  cases hconclude
  obtain ⟨kept, runs, assertions, hnext, ⟨hmatch, rfl⟩ | ⟨hnot, rfl⟩⟩ :=
    tables_of_recordVerdict hrecord
  · refine ⟨kept, runs, assertions, hnext, .inl ⟨hmatch, ?_, paragraphs, hwrite⟩⟩
    rw [← eq_of_integrityVerdict hmatch] at hreconstructed
    exact hreconstructed
  · exact ⟨kept, runs, assertions, hnext, .inr ⟨hnot, rfl⟩⟩

theorem Shelved.withEvidence (hshelved : Shelved host db texts)
    (processingRuns : List ProcessingRun) (temporalAssertions : History) :
    Shelved host { db with processingRuns, temporalAssertions } texts where
  consistent := hshelved.consistent.withEvidence _ _
  keys := hshelved.keys
  hangs chunk hchunk :=
    ⟨(hshelved.hangs chunk hchunk).paragraph, (hshelved.hangs chunk hchunk).chapter⟩
  reads documentId := (hshelved.reads documentId).of_joinedRows rfl

/-- Writing a plan that is read as a text puts it on the shelf. -/
theorem Shelved.of_writeHierarchy (hshelved : Shelved host db texts) {ids : PublicationIds}
    {request : NormalizedRequest} {primarySourceId : Uuid} {paragraphs : List PlannedParagraph}
    (hne : request.textValue ≠ [])
    (hwrite : writeHierarchy host ids (mapPlan host request) primarySourceId paragraphs db =
      .ok next)
    (hread : reconstructedScopeText host next request.documentId = .ok request.textValue) :
    Shelved host next (Function.update texts request.documentId (some request.textValue)) where
  consistent := hshelved.consistent.writeHierarchy hwrite
  keys := nodup_chunkIds_of_writeHierarchy hshelved.consistent hshelved.keys hwrite
  hangs := hangs_of_writeHierarchy hshelved.consistent hshelved.hangs hwrite
  reads documentId := by
    by_cases hdocument : documentId = request.documentId
    · subst hdocument
      rw [Function.update_self]
      exact .text hne (hasPiece_of_writeHierarchy hshelved.consistent
        (getKey_docMeta host request _ _) hwrite) hread
    · rw [Function.update_of_ne hdocument]
      exact (hshelved.reads documentId).of_joinedRows
        (joinedRows_of_writeHierarchy hshelved.consistent hshelved.hangs hwrite hdocument)

/-- A publication keeps the store and the texts together. -/
theorem Shelved.of_publishText {texts later : Texts} (hshelved : Shelved host db texts)
    {call : PublishCall} (hne : call.request.textValue ≠ [])
    (hstep : publishText host (db, texts) call = some (next, later)) :
    Shelved host next later := by
  obtain ⟨publication, hpublish, hnext⟩ := Option.map_eq_some_iff.mp hstep
  obtain ⟨rfl, rfl⟩ := Prod.mk.inj hnext
  obtain ⟨kept, runs, assertions, hdb, ⟨hmatch, hread, paragraphs, hwrite⟩ | ⟨hnot, rfl⟩⟩ :=
    hierarchy_or_same_of_publish (toOption_eq_some.mp hpublish)
  · rw [if_pos hmatch, hdb]
    exact (hshelved.of_writeHierarchy hne hwrite hread).withEvidence runs assertions
  · rw [if_neg hnot, hdb]
    exact hshelved.withEvidence runs assertions

theorem shelved_empty (host : Host) : Shelved host {} fun _ ↦ none where
  consistent := Db.consistent_empty
  keys := List.nodup_nil
  hangs _ hchunk := absurd hchunk List.not_mem_nil
  reads _ := .nothing rfl

/-- After publications the store holds the texts. -/
theorem shelved_of_publications {state : Db × Texts}
    (hrun : Steps (publishText host) (fun _ call ↦ call.request.textValue ≠ [])
      ({}, fun _ ↦ none) state) : Shelved host state.1 state.2 :=
  hrun.invariant (motive := fun state ↦ Shelved host state.1 state.2) (shelved_empty host)
    fun _ _ _ hshelved hne hstep ↦ hshelved.of_publishText hne hstep

/-- **The store is a shelf of texts.** After whatever publications of non-empty texts, with whatever
chunks, each document is read as the text of the last publication of it that matched, and a document
without any is not read. -/
theorem currentText_of_publications {state : Db × Texts}
    (hrun : Steps (publishText host) (fun _ call ↦ call.request.textValue ≠ [])
      ({}, fun _ ↦ none) state) (documentId : Uuid) :
    currentText host state.1 documentId = state.2 documentId :=
  have hshelved := shelved_of_publications hrun
  (hshelved.reads documentId).currentText_eq hshelved.keys

end Publishing

/-- The publication of the small document. -/
def samplePublishCall : PublishCall where
  ids := sampleIds 1
  request := sampleRequest
  paragraphChunks := sampleParagraphChunks
  sentenceChunks := sampleSentenceChunks

/-- The texts with that of the small document. -/
def sampleTexts : Texts :=
  Function.update (fun _ ↦ none) sampleRequest.documentId (some sampleRequest.textValue)

theorem steps_samplePublication : Steps (publishText sampleHost)
    (fun _ call ↦ call.request.textValue ≠ []) ({}, fun _ ↦ none)
      (samplePublication.db, sampleTexts) := by
  refine Steps.single samplePublishCall (by decide) ?_
  have hmatch : samplePublication.integrityOutcome = .matching := by decide +kernel
  have hpublish : publish sampleHost samplePublishCall.ids samplePublishCall.request
      samplePublishCall.paragraphChunks samplePublishCall.sentenceChunks {} =
        .ok samplePublication := publish_samplePublication
  rw [publishText, hpublish, toOption_ok, Option.map_some, if_pos hmatch]
  rfl

/-- The small document is read as it was published, and another document is not read. -/
theorem currentText_of_publications_sample :
    currentText sampleHost samplePublication.db sampleRequest.documentId =
        some (lit " Ab c\n\nd ") ∧
      currentText sampleHost samplePublication.db (sampleUuid 9) = none := by
  have hreads := currentText_of_publications steps_samplePublication
  dsimp only at hreads
  rw [hreads, hreads]
  exact ⟨by decide +kernel, by decide +kernel⟩

end DocStore
