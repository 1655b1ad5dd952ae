import DocStore.Ingestion.Hierarchy

/-!
# The publication round trip

What a publication writes is read back as the source. `ExactPlan.scopeText_eq_ok` says so of any
rows that carry the texts and the pieces of an exact plan, and `joinedRows_of_grown` that these are
the rows which the readers find in the written tables: the chunks that were there before are deleted,
and the new ones come in the order of the plan. Together they give
`reconstructedScopeText_of_writeHierarchy`.
-/

set_option autoImplicit false
set_option relaxedAutoImplicit false

namespace DocStore

open Foundation

/-! ### Rows with the pieces of an exact plan -/

/-- Rows with the texts and the pieces of an exact plan are read as the source. -/
theorem ExactPlan.scopeText_eq_ok {textValue : Text} {plan : List PlannedParagraph}
    (hplan : ExactPlan textValue plan) {rows : List ScopeRow}
    (hnodup : (rows.map ScopeRow.chunkId).Nodup)
    (htexts : rows.map ScopeRow.text = (plannedSentences plan).map fun entry ↦ entry.1.text)
    (hselected : rows.map ScopeRow.selected =
      (plannedSentences plan).map fun entry ↦ .ok (some entry.2)) :
    scopeText rows = .ok textValue := by
  set inputs := (plannedSentences plan).map fun entry ↦ entry.1.exactInput with hinputs
  have hranges : (plannedSentences plan).map (fun entry ↦ entry.1.range) = inputs.map Prod.snd := by
    rw [hinputs, List.map_map]
    rfl
  have hordered := hplan.ordered
  have hpieces := hplan.pieces
  rw [hranges] at hordered hpieces
  rw [← hinputs] at hpieces
  have hne : exactPieces textValue 0 inputs ≠ [] := by
    rw [← List.length_pos_iff, length_exactPieces, hinputs, List.length_map, List.length_pos_iff]
    exact hplan.nonempty
  set suffix := slice textValue (lastStop 0 (inputs.map Prod.snd)) textValue.length with hsuffix
  have hsealed := sealLast_eq_append hne suffix
  have hrows := @scopeText_of_exact rows _ _ suffix hnodup (by
    rw [hselected, ← hsealed, ← hpieces, List.map_map]
    rfl) (fun piece hmem ↦ suffixAfter_of_mem_exactPieces (List.dropLast_subset _ hmem)) rfl
  have hemitted : List.zipWith (fun row piece ↦ ExactReconstructionPiece.emit piece row.text) rows
      (exactPieces textValue 0 inputs) = List.zipWith (fun chunk piece ↦ piece.emit chunk.1) inputs
        (exactPieces textValue 0 inputs) := by
    have hread : rows.map ScopeRow.text = inputs.map Prod.fst := by
      rw [htexts, hinputs, List.map_map]
      rfl
    have := congrArg (fun texts ↦ List.zipWith (fun text piece ↦
      ExactReconstructionPiece.emit piece text) texts (exactPieces textValue 0 inputs)) hread
    simpa only [List.zipWith_map_left] using this
  rw [hrows, ← hsealed, zipWith_emit_sealLast, hemitted, flatten_exactPieces, hsuffix,
    cover_append_slice_lastStop _ hordered, slice_zero_length]

/-! ### The rows that a reader finds -/

/-- What the integrity reader takes from the rows of a sentence. -/
def SentenceRows.scopeRow (rows : SentenceRows) : ScopeRow where
  chunkId := rows.chunk.id
  paragraphId := rows.chunk.paragraphId
  text := rows.text.text
  chunkBlockMeta := rows.chunk.blockMeta
  textBlockMeta := rows.text.blockMeta

/-- The place of a sentence in the order of publication. -/
def PlacedSentence.orderKey (placed : PlacedSentence) : OrderKey :=
  (0, placed.orderIndex, placed.entry.1.ordinal, placed.entry.1.uuid.toNat)

/-- A chunk that has a deletion time is not joined. -/
theorem joinChunk_eq_none (host : Host) (db : Db) {chunk : SemanticChunkRow}
    (hdeleted : chunk.deletedAt.isSome = true) : joinChunk host db chunk = none := by
  have hnot : chunk.isLive = false := by simp [Lifecycle.isLive, Option.isSome_iff_ne_none.mp hdeleted]
  simp [joinChunk, hnot]

section Reading

variable {host : Host} {ids : PublicationIds} {plan : PersistencePlan} {db middle next : Db}
  {paragraphs : List PlannedParagraph}

theorem le_orderIndex_of_mem_placedSentences {orderIndex : ℕ} {placed : PlacedSentence}
    (hmem : placed ∈ placedSentences orderIndex paragraphs) : orderIndex ≤ placed.orderIndex := by
  induction paragraphs generalizing orderIndex with
  | nil => cases hmem
  | cons planned rest ih =>
    rcases List.mem_append.mp hmem with hmem | hmem
    · obtain ⟨entry, -, rfl⟩ := List.mem_map.mp hmem
      exact le_rfl
    · exact (Nat.le_succ _).trans (ih hmem)

/-- The paragraph of a sentence of the plan is among the written ones. -/
theorem paragraphRow_mem_hierarchyParagraphs {orderIndex : ℕ} {placed : PlacedSentence}
    (hmem : placed ∈ placedSentences orderIndex paragraphs) :
    paragraphRow host ids plan placed.orderIndex placed.paragraph ∈
      hierarchyParagraphs host ids plan orderIndex paragraphs := by
  induction paragraphs generalizing orderIndex with
  | nil => cases hmem
  | cons planned rest ih =>
    rcases List.mem_append.mp hmem with hmem | hmem
    · obtain ⟨entry, -, rfl⟩ := List.mem_map.mp hmem
      exact List.mem_cons_self
    · exact List.mem_cons_of_mem _ (ih hmem)

theorem pairwise_orderIndex_placedSentences (orderIndex : ℕ) (paragraphs : List PlannedParagraph) :
    (placedSentences orderIndex paragraphs).Pairwise fun first second ↦
      first.orderIndex ≤ second.orderIndex := by
  induction paragraphs generalizing orderIndex with
  | nil => exact List.Pairwise.nil
  | cons planned rest ih =>
    refine List.pairwise_append.mpr ⟨?_, ih _, fun first hfirst second hsecond ↦ ?_⟩
    · rw [placedIn, List.pairwise_map]
      exact List.pairwise_of_forall fun _ _ ↦ le_rfl
    · obtain ⟨entry, -, rfl⟩ := List.mem_map.mp hfirst
      exact (Nat.le_succ _).trans (le_orderIndex_of_mem_placedSentences hsecond)

/-- The sentences of an exact plan come in the order of publication. -/
theorem ExactPlan.pairwise_before {textValue : Text} (hplan : ExactPlan textValue paragraphs) :
    (placedSentences 0 paragraphs).Pairwise fun first second ↦
      first.orderKey.before second.orderKey = true := by
  have hordinals := hplan.ordinals
  rw [← map_entry_placedSentences 0, List.map_map, List.pairwise_map] at hordinals
  refine (pairwise_orderIndex_placedSentences 0 paragraphs).imp₂ ?_ hordinals
  intro first second horder hordinal
  rcases horder.lt_or_eq with hlt | heq
  · simp [PlacedSentence.orderKey, OrderKey.before, hlt]
  · simp only [Function.comp_apply] at hordinal
    simp [PlacedSentence.orderKey, OrderKey.before, heq, hordinal]

/-- A written sentence is joined with what stands above it. -/
theorem joinChunk_of_grown (hmiddle : Prepared ids plan db middle)
    (hgrown : Grown middle next (hierarchyParagraphs host ids plan 0 paragraphs)
      (hierarchySentences host ids plan 0 paragraphs)) (hnext : next.Consistent)
    (hlive : documentDeleted db plan.documentId = false) {placed : PlacedSentence}
    (hmem : placed ∈ placedSentences 0 paragraphs) :
    (joinChunk host next (placed.rows host ids plan).chunk).map
        (fun joined ↦ (joined.1, joined.2.toScopeRow)) =
      some (placed.orderKey, (placed.rows host ids plan).scopeRow) := by
  obtain ⟨-, hnew, hfresh⟩ := List.nodup_append.mp (hgrown.registered.nodup_iff.mp hnext.registry)
  obtain ⟨hparagraphs, hsentences, -⟩ := List.nodup_append.mp hnew
  have hrows : placed.rows host ids plan ∈ hierarchySentences host ids plan 0 paragraphs :=
    List.mem_map_of_mem hmem
  have hrow : paragraphRow host ids plan placed.orderIndex placed.paragraph ∈
      hierarchyParagraphs host ids plan 0 paragraphs := paragraphRow_mem_hierarchyParagraphs hmem
  have htexts : ((hierarchySentences host ids plan 0 paragraphs).map SentenceRows.text).map
      SemanticChunkText.chunkUuid =
      (hierarchySentences host ids plan 0 paragraphs).map fun rows ↦ rows.chunk.id := by
    simp only [hierarchySentences, List.map_map]
    rfl
  have htext : lookup SemanticChunkText.chunkUuid (placed.rows host ids plan).chunk.id
      next.semanticChunkTexts = some (placed.rows host ids plan).text := by
    rw [hgrown.texts]
    refine lookup_append_of_mem (htexts ▸ hsentences) (List.mem_map_of_mem hrows) fun old hold ↦ ?_
    exact hfresh _ (hmiddle.consistent.texts old hold) _
      (List.mem_append_right _ (List.mem_map_of_mem hrows))
  have hparagraph : lookup (fun row : ParagraphRow ↦ row.id)
      (placed.rows host ids plan).chunk.paragraphId next.paragraphs =
        some (paragraphRow host ids plan placed.orderIndex placed.paragraph) := by
    rw [hgrown.paragraphs]
    refine lookup_append_of_mem hparagraphs hrow fun old hold ↦ ?_
    exact hfresh _ (hmiddle.consistent.paragraphs old hold).1 _
      (List.mem_append_left _ (List.mem_map_of_mem hrow))
  have hchapter : lookup (fun row : ChapterRow ↦ row.id)
      (placed.rows host ids plan).chunk.chapterId next.chapters = some (chapterRow ids plan) :=
    hgrown.chapters ▸ hmiddle.chapter
  obtain ⟨document, hdocument, hdeletedAt, hisDeleted⟩ := hmiddle.document
  have hdocument : lookup (fun row : DocumentRow ↦ row.id)
      (placed.rows host ids plan).chunk.documentId next.documents = some document :=
    hgrown.documents ▸ hdocument
  have hall : (document.isLive && (chapterRow ids plan).isLive &&
      (paragraphRow host ids plan placed.orderIndex placed.paragraph).isLive &&
      (placed.rows host ids plan).chunk.isLive) = true := by
    simp only [Lifecycle.isLive, hdeletedAt, hisDeleted, hlive]
    rfl
  simp only [joinChunk, htext, hparagraph, hchapter, hdocument, Option.bind_eq_bind,
    Option.bind_some, hall, if_true, Option.map_some]
  rfl

/-- **The readers find exactly the rows just written, in the order of the plan.** -/
theorem joinedRows_of_grown (hmiddle : Prepared ids plan db middle)
    (hgrown : Grown middle next (hierarchyParagraphs host ids plan 0 paragraphs)
      (hierarchySentences host ids plan 0 paragraphs)) (hnext : next.Consistent)
    (hlive : documentDeleted db plan.documentId = false) {textValue : Text}
    (hplan : ExactPlan textValue paragraphs) :
    (joinedRows host next plan.documentId).map ChunkTextRow.toScopeRow =
      (hierarchySentences host ids plan 0 paragraphs).map SentenceRows.scopeRow := by
  set joined := (next.semanticChunks.filter fun chunk ↦
    chunk.documentId = plan.documentId).filterMap (joinChunk host next) with hjoined
  have hold : (middle.semanticChunks.filter fun chunk ↦
      chunk.documentId = plan.documentId).filterMap (joinChunk host next) = [] := by
    refine List.filterMap_eq_nil_iff.mpr fun chunk hmem ↦ ?_
    obtain ⟨hchunk, hdocument⟩ := List.mem_filter.mp hmem
    exact joinChunk_eq_none host next (hmiddle.chunks chunk hchunk (of_decide_eq_true hdocument))
  have hnew : ((hierarchySentences host ids plan 0 paragraphs).map SentenceRows.chunk).filter
      (fun chunk ↦ chunk.documentId = plan.documentId) =
        (placedSentences 0 paragraphs).map fun placed ↦ (placed.rows host ids plan).chunk := by
    rw [hierarchySentences, List.map_map]
    refine List.filter_eq_self.mpr fun chunk hmem ↦ ?_
    obtain ⟨placed, -, rfl⟩ := List.mem_map.mp hmem
    exact decide_eq_true rfl
  have hread : joined.map (fun entry ↦ (entry.1, entry.2.toScopeRow)) =
      (placedSentences 0 paragraphs).map fun placed ↦
        (placed.orderKey, (placed.rows host ids plan).scopeRow) := by
    rw [hjoined, hgrown.chunks, List.filter_append, List.filterMap_append, hold, List.nil_append,
      hnew, List.map_filterMap, List.filterMap_map, ← List.filterMap_eq_map]
    exact List.filterMap_congr fun placed hmem ↦
      joinChunk_of_grown hmiddle hgrown hnext hlive hmem
  have hkeys : joined.map Prod.fst = (placedSentences 0 paragraphs).map PlacedSentence.orderKey := by
    have := congrArg (List.map Prod.fst) hread
    rwa [List.map_map, List.map_map] at this
  have hsorted : joined.insertionSort (fun first second ↦ first.1.before second.1 = true) =
      joined := by
    refine List.Pairwise.insertionSort_eq (List.pairwise_map.mp (?_ : (joined.map Prod.fst).Pairwise
      fun first second ↦ first.before second = true))
    rw [hkeys, List.pairwise_map]
    exact hplan.pairwise_before
  have hrows := congrArg (List.map Prod.snd) hread
  rw [List.map_map, List.map_map] at hrows
  rw [joinedRows, ← hjoined, hsorted, List.map_map, hierarchySentences, List.map_map]
  exact hrows

/-- The piece of a sentence is what its rows are read with. -/
theorem selected_scopeRow (hmeta : getKey plan.docMeta exactReconstructionKey = none)
    (placed : PlacedSentence) :
    (placed.rows host ids plan).scopeRow.selected = .ok (some placed.entry.2) := by
  have habsent := @getKey_chunkMeta host plan _
    (getKey_paragraphMeta host hmeta placed.orderIndex placed.paragraph) ids.chapterId
    (ids.paragraphId placed.orderIndex) placed.entry.1
  dsimp only [ScopeRow.selected, SentenceRows.scopeRow, PlacedSentence.rows, sentenceRows]
  exact selectExactReconstructionPiece_merge habsent _ placed.entry.2

/-- What a written exact plan is read back as. -/
theorem reconstructedScopeText_of_writeHierarchy (hdb : db.Consistent)
    (hlive : documentDeleted db plan.documentId = false)
    (hmeta : getKey plan.docMeta exactReconstructionKey = none)
    (hplan : ExactPlan plan.textValue paragraphs) {primarySourceId : Uuid}
    (hwrite : writeHierarchy host ids plan primarySourceId paragraphs db = .ok next) :
    reconstructedScopeText host next plan.documentId = .ok plan.textValue := by
  obtain ⟨middle, hprepare, hwrite⟩ := bind_eq_ok.mp hwrite
  have hmiddle := prepared_of_prepareHierarchy hdb hprepare
  obtain ⟨hnext, hgrown⟩ := grown_of_writeParagraphs hmiddle.consistent hmiddle.registered hwrite
  obtain ⟨-, hnew, -⟩ := List.nodup_append.mp (hgrown.registered.nodup_iff.mp hnext.registry)
  obtain ⟨-, hsentences, -⟩ := List.nodup_append.mp hnew
  rw [reconstructedScopeText, joinedRows_of_grown hmiddle hgrown hnext hlive hplan]
  refine hplan.scopeText_eq_ok ?_ ?_ ?_
  · rw [List.map_map]
    exact hsentences
  · rw [← map_entry_placedSentences 0, hierarchySentences, List.map_map, List.map_map,
      List.map_map]
    rfl
  · rw [← map_entry_placedSentences 0, hierarchySentences, List.map_map, List.map_map,
      List.map_map]
    exact List.map_congr_left fun placed _ ↦ selected_scopeRow hmeta placed

end Reading

/-! ### The verdict on what is read back -/

@[simp] theorem integrityVerdict_self (text : Text) : integrityVerdict text text = (.matching, none) := by
  simp [integrityVerdict]

theorem integrityOutcome_of_concludePublication {host : Host} {ids : PublicationIds}
    {plan : PersistencePlan} {primarySourceId : Uuid} {db hierarchy : Db} {reconstructed : Text}
    {publication : Publication}
    (hconclude : concludePublication host ids plan primarySourceId db hierarchy reconstructed =
      .ok publication) :
    publication.integrityOutcome = (integrityVerdict plan.textValue reconstructed).1 := by
  obtain ⟨_, -, hconclude⟩ := bind_eq_ok.mp hconclude
  cases hconclude
  rfl

/-! ### A small document -/

/-- The version 4 UUID with a number in its last digits. -/
def sampleUuid (number : ℕ) : Uuid :=
  0x00000000000040008000000000000000#128 ||| BitVec.ofNat 128 number

/-- An item that states its range and its ordinal. -/
def sampleItem (number : ℕ) (text : Text) (start stop ordinal : ℤ) : RawItem :=
  .chunk []
    { uuid := some (sampleUuid number)
      sourceId := some (uuidText (sampleUuid 1))
      body := some text
      text := some text
      start := some start
      stop := some stop
      ordinal := some ordinal }

/-- A text with white space in front of, between and behind its paragraphs. -/
def sampleRequest : NormalizedRequest where
  documentId := sampleUuid 1
  sourceVersionId := lit "v1"
  normalizedSourceVersionId := lit "v1"
  operationId := sampleUuid 2
  command := lit "file_write"
  textValue := lit " Ab c\n\nd "
  filename := some (lit "a.txt")
  contentSha256 := lit "00"
  chunkingStrategy := lit "svo"

/-- Its paragraphs. -/
def sampleParagraphChunks : List RuntimeChunk :=
  (toOption (validateRuntimeChunks
    (.items [sampleItem 3 (lit "Ab c") 1 5 0, sampleItem 4 (lit "d") 7 8 1])
    sampleRequest.textValue (sampleUuid 1))).getD []

/-- Its sentences. -/
def sampleSentenceChunks : List RuntimeChunk :=
  (toOption (sentenceChunksFromParagraphBatch sampleParagraphChunks (sampleUuid 1)
    (.batches [.items [sampleItem 5 (lit "Ab") 0 2 0, sampleItem 6 (lit "c") 3 4 1],
      .items [sampleItem 7 (lit "d") 0 1 0]]))).getD []

/-- What comes with the numbered publication of the document. -/
def sampleIds (number : ℕ) : PublicationIds where
  now := number
  runId := sampleUuid (100 * number)
  chapterId := sampleUuid (100 * number + 1)
  paragraphId orderIndex := sampleUuid (100 * number + 10 + orderIndex)
  versionId chunkUuid := chunkUuid + 0x10000
  assertionId := sampleUuid (100 * number + 2)

/-- **The publication round trip.** For every source text and every accepted chunker output with
distinct sentence UUIDs there is an exact plan; once it is written into a document that is new or not
flagged as deleted, the source is read back, and a publication that gets to its verdict matches. -/
theorem publication_round_trip (host : Host) (ids : PublicationIds) (request : NormalizedRequest)
    {db : Db} (hdb : db.Consistent) (hlive : documentDeleted db request.documentId = false)
    {sourceId : Uuid} {rawParagraphs : RawResponse} {rawBatches : RawBatches}
    {paragraphChunks sentenceChunks : List RuntimeChunk}
    (hparagraphs : validateRuntimeChunks rawParagraphs request.textValue sourceId =
      .ok paragraphChunks)
    (hsentences : sentenceChunksFromParagraphBatch paragraphChunks sourceId rawBatches =
      .ok sentenceChunks)
    (hnodup : (sentenceChunks.map RuntimeChunk.uuid).Nodup) :
    (∃ paragraphs, exactSentencePlan request.textValue paragraphChunks sentenceChunks =
        .ok paragraphs ∧
      ∀ primarySourceId hierarchy,
        writeHierarchy host ids (mapPlan host request) primarySourceId paragraphs db =
          .ok hierarchy →
        reconstructedScopeText host hierarchy request.documentId = .ok request.textValue) ∧
    ∀ publication, publish host ids request paragraphChunks sentenceChunks db = .ok publication →
      publication.integrityOutcome = .matching := by
  obtain ⟨paragraphs, hplan, -, -, hexact⟩ :=
    exactSentencePlan_eq_ok hparagraphs hsentences hnodup
  have hread : ∀ primarySourceId hierarchy,
      writeHierarchy host ids (mapPlan host request) primarySourceId paragraphs db =
        .ok hierarchy →
      reconstructedScopeText host hierarchy request.documentId = .ok request.textValue :=
    fun _ _ hwrite ↦ reconstructedScopeText_of_writeHierarchy hdb hlive
      (getKey_docMeta host request _ _) hexact hwrite
  refine ⟨⟨paragraphs, hplan, hread⟩, fun publication hpublish ↦ ?_⟩
  obtain ⟨-, hpublish⟩ := raiseIf_bind_eq_ok.mp hpublish
  obtain ⟨-, hpublish⟩ := raiseIf_bind_eq_ok.mp hpublish
  obtain ⟨planned, hplanned, hpublish⟩ := bind_eq_ok.mp hpublish
  obtain ⟨hierarchy, hwrite, hpublish⟩ := bind_eq_ok.mp hpublish
  obtain ⟨reconstructed, hreconstructed, hconclude⟩ := bind_eq_ok.mp hpublish
  obtain rfl : paragraphs = planned := Except.ok.inj (hplan.symm.trans hplanned)
  obtain rfl : request.textValue = reconstructed :=
    Except.ok.inj ((hread _ _ hwrite).symm.trans hreconstructed)
  rw [integrityOutcome_of_concludePublication hconclude]
  exact congrArg Prod.fst (integrityVerdict_self request.textValue)

/-- The small document is published, and matches. -/
theorem publication_round_trip_sample : ∃ publication,
    publish sampleHost (sampleIds 1) sampleRequest sampleParagraphChunks sampleSentenceChunks {} =
      .ok publication ∧ publication.integrityOutcome = .matching := by
  obtain ⟨publication, hpublish⟩ : ∃ publication, publish sampleHost (sampleIds 1) sampleRequest
      sampleParagraphChunks sampleSentenceChunks {} = .ok publication :=
    exists_of_succeeds (by decide +kernel)
  refine ⟨publication, hpublish, (publication_round_trip sampleHost (sampleIds 1) sampleRequest
    Db.consistent_empty rfl (eq_ok_of_succeeds ?_) (eq_ok_of_succeeds ?_) ?_).2 publication hpublish⟩
  all_goals decide +kernel

end DocStore
