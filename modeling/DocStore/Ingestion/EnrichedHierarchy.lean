import DocStore.Foundation.Batches
import DocStore.Ingestion.HierarchyAcceptance
import DocStore.Ingestion.RoundTrip

/-!
# Enriched hierarchies

What the two loops and the check at the end accept is a well-formed hierarchy in which nothing is
empty (`accepts_iff_wellFormed`): the ranges of paragraphs are in order within a chapter when they
are in order in the whole, and so are those of chunks within a paragraph. The aggregate that is
returned lists the chunks under the paragraphs that own them, and its trace has exactly the produced
identifiers (`Represents`).

A hierarchy with an empty chapter behind its last one is well-formed and is refused, as is every
other one that is not filled.
-/

set_option autoImplicit false
set_option relaxedAutoImplicit false

namespace DocStore.Enrichment

open Foundation

variable {κ : Type}

/-! ### The loops and the whole hierarchy -/

/-- What the two loops and the check at the end accept. -/
structure Accepted (chapters : List ChapterInput) (chunks : List ChunkFields) : Prop where
  anyChunk : chunks ≠ []
  anyChapter : chapters ≠ []
  chaptersFit : ∀ chapter ∈ chapters, ChapterFits chunks chapter
  chaptersFollow : Follows (-1) (chapters.map ChapterInput.span)
  indexes : indexesOf (paragraphsOf chapters) = (List.range chunks.length).map Int.ofNat

section Whole

variable {chapters : List ChapterInput} {chunks : List ChunkFields}

theorem spanAt_eq {index : ℤ} {chunk : ChunkFields} (hchunk : chunks[index.toNat]? = some chunk) :
    spanAt chunks index = chunk.span := by
  rw [spanAt, hchunk]
  rfl

/-- The spans of the chunks, read by their indexes. -/
theorem map_spanAt_indexes
    (hindexes : indexesOf (paragraphsOf chapters) = (List.range chunks.length).map Int.ofNat) :
    (paragraphsOf chapters).flatMap (fun paragraph ↦ paragraph.chunkIndexes.map (spanAt chunks)) =
      chunks.map ChunkFields.span := by
  rw [← List.map_flatMap, ← indexesOf, hindexes, List.map_map]
  refine List.ext_getElem (by simp) fun position hleft hright ↦ ?_
  have hless : position < chunks.length := by simpa using hright
  rw [List.getElem_map, List.getElem_map, List.getElem_range, Function.comp_apply]
  exact spanAt_eq (List.getElem?_eq_getElem hless)

/-- A chunk of the hierarchy is named by a paragraph. -/
theorem exists_owner
    (hindexes : indexesOf (paragraphsOf chapters) = (List.range chunks.length).map Int.ofNat)
    {chunk : ChunkFields} (hmem : chunk ∈ chunks) :
    ∃ paragraph ∈ paragraphsOf chapters, ∃ index ∈ paragraph.chunkIndexes,
      chunks[index.toNat]? = some chunk := by
  obtain ⟨position, hless, hchunk⟩ := List.mem_iff_getElem.mp hmem
  have hindex : (position : ℤ) ∈ indexesOf (paragraphsOf chapters) := by
    rw [hindexes]
    exact List.mem_map.mpr ⟨position, List.mem_range.mpr hless, rfl⟩
  obtain ⟨paragraph, hparagraph, hindex⟩ := List.mem_flatMap.mp hindex
  exact ⟨paragraph, hparagraph, position, hindex, by
    rw [Int.toNat_natCast, List.getElem?_eq_getElem hless, hchunk]⟩

theorem mem_paragraphsOf {paragraph : ParagraphInput} :
    paragraph ∈ paragraphsOf chapters ↔ ∃ chapter ∈ chapters, paragraph ∈ chapter.paragraphs :=
  List.mem_flatMap

/-- What is accepted is well-formed. -/
theorem Accepted.wellFormed (haccepted : Accepted chapters chunks) :
    WellFormed chapters chunks ∧ Filled chapters chunks := by
  have hfits : ∀ paragraph ∈ paragraphsOf chapters, ∃ chapter ∈ chapters,
      ParagraphFits chunks chapter paragraph := by
    intro paragraph hmem
    obtain ⟨chapter, hchapter, hparagraph⟩ := mem_paragraphsOf.mp hmem
    exact ⟨chapter, hchapter, (haccepted.chaptersFit chapter hchapter).paragraphsFit _ hparagraph⟩
  have hchunk : ∀ chunk ∈ chunks, chunk.Located ∧ chunk.body ≠ some [] := by
    intro chunk hmem
    obtain ⟨paragraph, hparagraph, index, hindex, hat⟩ := exists_owner haccepted.indexes hmem
    obtain ⟨_, _, hparagraphFits⟩ := hfits paragraph hparagraph
    obtain ⟨hlocated, hbody, -⟩ := hparagraphFits.chunksFit index hindex chunk hat
    exact ⟨hlocated, hbody⟩
  have hchapterOrder := (follows_iff.mp haccepted.chaptersFollow).2
  have hparagraphsWithin : ∀ chapter ∈ chapters, ∀ paragraph ∈ chapter.paragraphs,
      paragraph.span.Within chapter.span := fun chapter hchapter paragraph hparagraph ↦
    ((haccepted.chaptersFit chapter hchapter).paragraphsFit paragraph hparagraph).within
  have hparagraphOrder : InOrder ((paragraphsOf chapters).map ParagraphInput.span) := by
    rw [paragraphsOf, List.map_flatMap]
    refine (inOrder_flatMap (fun chapter hchapter span hspan ↦ ?_) hchapterOrder).mpr
      fun chapter hchapter ↦ (follows_iff.mp (haccepted.chaptersFit chapter hchapter).paragraphsFollow).2
    obtain ⟨paragraph, hparagraph, rfl⟩ := List.mem_map.mp hspan
    exact hparagraphsWithin chapter hchapter paragraph hparagraph
  have hchunksWithin : ∀ paragraph ∈ paragraphsOf chapters, ∀ index ∈ paragraph.chunkIndexes,
      ∀ chunk, chunks[index.toNat]? = some chunk → chunk.span.Within paragraph.span := by
    intro paragraph hparagraph index hindex chunk hat
    obtain ⟨_, _, hparagraphFits⟩ := hfits paragraph hparagraph
    exact (hparagraphFits.chunksFit index hindex chunk hat).2.2.2
  have hchunkOrder : InOrder (chunks.map ChunkFields.span) := by
    rw [← map_spanAt_indexes haccepted.indexes]
    refine (inOrder_flatMap (fun paragraph hparagraph span hspan ↦ ?_) hparagraphOrder).mpr
      fun paragraph hparagraph ↦ ?_
    · obtain ⟨index, hindex, rfl⟩ := List.mem_map.mp hspan
      obtain ⟨_, _, hparagraphFits⟩ := hfits paragraph hparagraph
      have hbounds := hparagraphFits.inRange index hindex
      have hat := List.getElem?_eq_getElem (l := chunks) (i := index.toNat) (by omega)
      rw [spanAt_eq hat]
      exact hchunksWithin paragraph hparagraph index hindex _ hat
    · obtain ⟨_, _, hparagraphFits⟩ := hfits paragraph hparagraph
      exact (follows_iff.mp hparagraphFits.chunksFollow).2
  refine ⟨⟨haccepted.indexes, fun chunk hmem ↦ (hchunk chunk hmem).1.2, hchapterOrder,
    hparagraphOrder, hchunkOrder, hparagraphsWithin, hchunksWithin⟩,
    ⟨haccepted.anyChunk, haccepted.anyChapter,
      fun chapter hchapter ↦ (haccepted.chaptersFit chapter hchapter).paragraphs,
      fun paragraph hparagraph ↦ ?_, fun paragraph hparagraph ↦ ?_,
      fun chunk hmem ↦ ⟨(hchunk chunk hmem).1.1, (hchunk chunk hmem).2⟩,
      fun chapter hchapter ↦ (haccepted.chaptersFit chapter hchapter).start⟩⟩
  · obtain ⟨_, _, hparagraphFits⟩ := hfits paragraph hparagraph
    exact hparagraphFits.text
  · obtain ⟨_, _, hparagraphFits⟩ := hfits paragraph hparagraph
    exact hparagraphFits.owners

/-- The indexes of a paragraph of a well-formed hierarchy grow. -/
theorem WellFormed.indexes_lt (hwellFormed : WellFormed chapters chunks)
    {paragraph : ParagraphInput} (hparagraph : paragraph ∈ paragraphsOf chapters) :
    paragraph.chunkIndexes.Pairwise (· < ·) := by
  have hall : (indexesOf (paragraphsOf chapters)).Pairwise (· < ·) := by
    rw [hwellFormed.indexes, List.pairwise_map]
    exact List.pairwise_lt_range.imp fun hless ↦ Int.ofNat_lt.mpr hless
  exact (List.pairwise_flatMap.mp hall).1 paragraph hparagraph

theorem WellFormed.inRange (hwellFormed : WellFormed chapters chunks) {paragraph : ParagraphInput}
    (hparagraph : paragraph ∈ paragraphsOf chapters) {index : ℤ}
    (hindex : index ∈ paragraph.chunkIndexes) : 0 ≤ index ∧ index < chunks.length := by
  have hmem : index ∈ indexesOf (paragraphsOf chapters) :=
    List.mem_flatMap.mpr ⟨paragraph, hparagraph, hindex⟩
  rw [hwellFormed.indexes] at hmem
  obtain ⟨position, hposition, rfl⟩ := List.mem_map.mp hmem
  exact ⟨Int.natCast_nonneg _, Int.ofNat_lt.mpr (List.mem_range.mp hposition)⟩

theorem WellFormed.exists_chunk (hwellFormed : WellFormed chapters chunks)
    {paragraph : ParagraphInput} (hparagraph : paragraph ∈ paragraphsOf chapters) {index : ℤ}
    (hindex : index ∈ paragraph.chunkIndexes) : ∃ chunk, chunks[index.toNat]? = some chunk := by
  have hbounds := hwellFormed.inRange hparagraph hindex
  exact ⟨_, List.getElem?_eq_getElem (by omega)⟩

/-- What is well-formed and filled is accepted. -/
theorem accepted_of_wellFormed (hwellFormed : WellFormed chapters chunks)
    (hfilled : Filled chapters chunks) : Accepted chapters chunks := by
  have hnonneg : ∀ chapter ∈ chapters, ∀ paragraph ∈ chapter.paragraphs, 0 ≤ paragraph.start :=
    fun chapter hchapter paragraph hparagraph ↦ (hfilled.starts chapter hchapter).trans
      (hwellFormed.paragraphsWithin chapter hchapter paragraph hparagraph).1
  have hchapterParagraphs : ∀ chapter ∈ chapters,
      InOrder (chapter.paragraphs.map ParagraphInput.span) := by
    have horder := hwellFormed.paragraphOrder
    rw [paragraphsOf, List.map_flatMap] at horder
    refine (inOrder_flatMap (fun chapter hchapter span hspan ↦ ?_) hwellFormed.chapterOrder).mp horder
    obtain ⟨paragraph, hparagraph, rfl⟩ := List.mem_map.mp hspan
    exact hwellFormed.paragraphsWithin chapter hchapter paragraph hparagraph
  have hparagraphChunks : ∀ paragraph ∈ paragraphsOf chapters,
      InOrder (paragraph.chunkIndexes.map (spanAt chunks)) := by
    have horder := hwellFormed.chunkOrder
    rw [← map_spanAt_indexes hwellFormed.indexes] at horder
    refine (inOrder_flatMap (fun paragraph hparagraph span hspan ↦ ?_)
      hwellFormed.paragraphOrder).mp horder
    obtain ⟨index, hindex, rfl⟩ := List.mem_map.mp hspan
    obtain ⟨chunk, hat⟩ := hwellFormed.exists_chunk hparagraph hindex
    rw [spanAt_eq hat]
    exact hwellFormed.chunksWithin paragraph hparagraph index hindex chunk hat
  refine ⟨hfilled.anyChunk, hfilled.anyChapter, fun chapter hchapter ↦ ?_, ?_, hwellFormed.indexes⟩
  · refine ⟨hfilled.starts chapter hchapter, hfilled.paragraphs chapter hchapter,
      fun paragraph hparagraph ↦ ?_, ?_⟩
    · have hmem : paragraph ∈ paragraphsOf chapters :=
        mem_paragraphsOf.mpr ⟨chapter, hchapter, hparagraph⟩
      have hless := hwellFormed.indexes_lt hmem
      have hstart := hnonneg chapter hchapter paragraph hparagraph
      refine ⟨hstart, hwellFormed.paragraphsWithin chapter hchapter paragraph hparagraph,
        hfilled.texts paragraph hmem, hfilled.owners paragraph hmem, ⟨?_, ?_⟩,
        fun index hindex ↦ hwellFormed.inRange hmem hindex, fun index hindex chunk hat ↦ ?_, ?_⟩
      · exact (List.Pairwise.insertionSort_eq (hless.imp le_of_lt)).symm
      · rw [eraseDups_eq_self (hless.imp ne_of_lt)]
      · have hchunk : chunk ∈ chunks := List.mem_of_getElem? hat
        have hwithin := hwellFormed.chunksWithin paragraph hmem index hindex chunk hat
        exact ⟨⟨(hfilled.bodies chunk hchunk).1, hwellFormed.located chunk hchunk⟩,
          (hfilled.bodies chunk hchunk).2, hstart.trans hwithin.1, hwithin⟩
      · refine follows_iff.mpr ⟨fun span hspan ↦ ?_, hparagraphChunks paragraph hmem⟩
        obtain ⟨index, hindex, rfl⟩ := List.mem_map.mp hspan
        obtain ⟨chunk, hat⟩ := hwellFormed.exists_chunk hmem hindex
        have hwithin := (hwellFormed.chunksWithin paragraph hmem index hindex chunk hat).1
        have hparagraphStart : paragraph.span.start = paragraph.start := rfl
        rw [spanAt_eq hat]
        omega
    · refine follows_iff.mpr ⟨fun span hspan ↦ ?_, hchapterParagraphs chapter hchapter⟩
      obtain ⟨paragraph, hparagraph, rfl⟩ := List.mem_map.mp hspan
      have hstart := hnonneg chapter hchapter paragraph hparagraph
      exact (by decide : (-1 : ℤ) ≤ 0).trans hstart
  · refine follows_iff.mpr ⟨fun span hspan ↦ ?_, hwellFormed.chapterOrder⟩
    obtain ⟨chapter, hchapter, rfl⟩ := List.mem_map.mp hspan
    exact (by decide : (-1 : ℤ) ≤ 0).trans (hfilled.starts chapter hchapter)

/-- **The checks accept the well-formed hierarchies in which nothing is empty.** -/
theorem accepted_iff : Accepted chapters chunks ↔
    WellFormed chapters chunks ∧ Filled chapters chunks :=
  ⟨Accepted.wellFormed, fun hboth ↦ accepted_of_wellFormed hboth.1 hboth.2⟩

end Whole

/-! ### What the aggregate shows of its outcomes -/

section Outcomes

variable {adapter : ChunkAdapter κ} {fresh : ℕ → Uuid} {chunks : List κ} {documentId chapterId : Uuid}

/-- A chunk that was constructed names its document, its paragraph and its chapter. -/
theorem of_mem_constructed {sourceId blockId chapterText : Text} {drawn index : ℕ}
    {views : List ChunkFields}
    (hconstructed : Constructed fresh sourceId blockId chapterText drawn index views)
    {view : ChunkFields} (hmem : view ∈ views) :
    view.sourceId = some sourceId ∧ view.blockId = some blockId ∧
      (view.blockMeta.bind fun fields ↦ getKey fields "chapter_id") = some (.str chapterText) := by
  induction views generalizing drawn index with
  | nil => cases hmem
  | cons first views ih =>
    obtain ⟨⟨-, hsource, hblock, hchapter, -⟩, hrest⟩ := hconstructed
    rcases List.mem_cons.mp hmem with rfl | hmem
    · exact ⟨hsource, hblock, hchapter⟩
    · exact ih hrest hmem

theorem map_uuid_constructed {sourceId blockId chapterText : Text} {drawn index : ℕ}
    {views : List ChunkFields}
    (hconstructed : Constructed fresh sourceId blockId chapterText drawn index views) :
    views.map ChunkFields.uuid =
      (List.range' drawn views.length).map fun number ↦ uuidText (fresh number) := by
  induction views generalizing drawn index with
  | nil => rfl
  | cons first views ih =>
    obtain ⟨⟨huuid, -⟩, hrest⟩ := hconstructed
    rw [List.map_cons, List.length_cons, List.range'_succ, List.map_cons, huuid, ih hrest]

/-- The outcomes of paragraphs, with the numbers of their identifiers. -/
theorem AllHold.numbers {number : ℕ} {outcomes : List (Outcome κ)}
    (hall : AllHold adapter fresh chunks documentId chapterId number outcomes) :
    ∃ paragraphNumbers chunkNumbers : List ℕ,
      outcomes.map (fun outcome ↦ outcome.paragraph.id) = paragraphNumbers.map fresh ∧
      (outcomes.flatMap Outcome.chunks).map (fun chunk ↦ (adapter.fields chunk).uuid) =
        chunkNumbers.map (fun number ↦ uuidText (fresh number)) ∧
      (paragraphNumbers ++ chunkNumbers).Perm
        (List.range' number (paragraphDraws (outcomes.map Outcome.input))) := by
  induction outcomes generalizing number with
  | nil => exact ⟨[], [], rfl, rfl, .refl _⟩
  | cons outcome outcomes ih =>
    obtain ⟨hholds, hrest⟩ := hall
    obtain ⟨paragraphNumbers, chunkNumbers, hparagraphs, hchunks, hperm⟩ := ih hrest
    have hlength : (outcome.chunks.map adapter.fields).length = outcome.input.chunkIndexes.length := by
      rw [List.length_map, hholds.places.length_eq]
    have huuids := map_uuid_constructed hholds.constructed
    rw [hlength, List.map_map] at huuids
    refine ⟨number :: paragraphNumbers,
      List.range' (number + 1) outcome.input.chunkIndexes.length ++ chunkNumbers, ?_, ?_, ?_⟩
    · rw [List.map_cons, List.map_cons, hparagraphs, hholds.paragraph]
    · rw [List.flatMap_cons, List.map_append, List.map_append, hchunks, ← huuids]
      rfl
    · have hrange : List.range' number (paragraphDraws ((outcome :: outcomes).map Outcome.input)) =
          number :: (List.range' (number + 1) outcome.input.chunkIndexes.length ++
            List.range' (number + 1 + outcome.input.chunkIndexes.length)
              (paragraphDraws (outcomes.map Outcome.input))) := by
        rw [List.map_cons, paragraphDraws_cons, Nat.add_assoc, Nat.add_comm 1, List.range'_succ,
          List.range'_append_1]
      rw [hrange, List.cons_append]
      refine List.Perm.cons _ ?_
      refine List.Perm.trans ?_ (hperm.append_left _)
      rw [← List.append_assoc, ← List.append_assoc]
      exact List.perm_append_comm.append_right _

/-- The outcomes of chapters, with the numbers of their identifiers. -/
theorem ChaptersHold.numbers {number : ℕ} {outcomes : List (ChapterOutcome κ)}
    (hall : ChaptersHold adapter fresh chunks documentId number outcomes) :
    ∃ chapterNumbers paragraphNumbers chunkNumbers : List ℕ,
      outcomes.map (fun outcome ↦ outcome.chapter.id) = chapterNumbers.map fresh ∧
      (outcomes.flatMap ChapterOutcome.paragraphs).map (fun outcome ↦ outcome.paragraph.id) =
        paragraphNumbers.map fresh ∧
      ((outcomes.flatMap ChapterOutcome.paragraphs).flatMap Outcome.chunks).map
          (fun chunk ↦ (adapter.fields chunk).uuid) =
        chunkNumbers.map (fun number ↦ uuidText (fresh number)) ∧
      (chapterNumbers ++ (paragraphNumbers ++ chunkNumbers)).Perm
        (List.range' number (draws (outcomes.map ChapterOutcome.input))) := by
  induction outcomes generalizing number with
  | nil => exact ⟨[], [], [], rfl, rfl, rfl, .refl _⟩
  | cons outcome outcomes ih =>
    obtain ⟨hholds, hrest⟩ := hall
    obtain ⟨chapterNumbers, paragraphNumbers, chunkNumbers, hchapters, hparagraphs, hchunks, hperm⟩ :=
      ih hrest
    obtain ⟨firstParagraphs, firstChunks, hfirstParagraphs, hfirstChunks, hfirstPerm⟩ :=
      hholds.paragraphs.numbers
    rw [hholds.inputs] at hfirstPerm
    refine ⟨number :: chapterNumbers, firstParagraphs ++ paragraphNumbers,
      firstChunks ++ chunkNumbers, ?_, ?_, ?_, ?_⟩
    · rw [List.map_cons, List.map_cons, hchapters, hholds.chapter]
    · rw [List.flatMap_cons, List.map_append, List.map_append, hparagraphs, hfirstParagraphs]
    · rw [List.flatMap_cons, List.flatMap_append, List.map_append, List.map_append, hchunks,
        hfirstChunks]
    · have hrange : List.range' number (draws ((outcome :: outcomes).map ChapterOutcome.input)) =
          number :: (List.range' (number + 1) (paragraphDraws outcome.input.paragraphs) ++
            List.range' (number + 1 + paragraphDraws outcome.input.paragraphs)
              (draws (outcomes.map ChapterOutcome.input))) := by
        rw [List.map_cons, draws_cons, Nat.add_assoc, Nat.add_comm 1, List.range'_succ,
          List.range'_append_1]
      rw [hrange, List.cons_append]
      refine List.Perm.cons _ (List.Perm.trans ?_ (hfirstPerm.append hperm))
      refine List.perm_iff_count.mpr fun value ↦ ?_
      simp only [List.count_append]
      omega

end Outcomes

/-! ### The source -/

/-- A source that is accepted: a version 4 upload, a version that is not blank or positive, and a
provenance that is stated whole or not at all. -/
structure Source.Valid (source : Source) : Prop where
  upload : uuidVersion source.uploadId = some 4
  version : match source.version with
    | .text value => strip value ≠ []
    | .number value => 0 < value
  provenance : (source.stateAssertionId = none ∧ source.processingRunId = none) ∨
    ∃ assertionId runId, source.stateAssertionId = some assertionId ∧
      source.processingRunId = some runId ∧ uuidVersion assertionId = some 4 ∧
      uuidVersion runId = some 4

theorem validateSource_eq_ok_iff {uploadId : Uuid} {version : SourceVersion} :
    validateSource uploadId version = .ok () ↔ uuidVersion uploadId = some 4 ∧
      match version with
        | .text value => strip value ≠ []
        | .number value => 0 < value := by
  unfold validateSource
  rw [raiseIf_bind_eq_ok, raiseIf_eq_ok]
  cases version <;> simp

theorem validateProvenance_eq_ok_iff {stateAssertionId processingRunId : Option Uuid} :
    validateProvenance stateAssertionId processingRunId = .ok () ↔
      (stateAssertionId = none ∧ processingRunId = none) ∨
        ∃ assertionId runId, stateAssertionId = some assertionId ∧ processingRunId = some runId ∧
          uuidVersion assertionId = some 4 ∧ uuidVersion runId = some 4 := by
  rw [validateProvenance, raiseIf_bind_eq_ok, bind_eq_ok]
  cases stateAssertionId <;> cases processingRunId <;> simp [validateProvenanceId]

theorem Source.valid_iff {source : Source} : source.Valid ↔
    validateSource source.uploadId source.version = .ok () ∧
      validateProvenance source.stateAssertionId source.processingRunId = .ok () := by
  rw [validateSource_eq_ok_iff, validateProvenance_eq_ok_iff]
  exact ⟨fun hvalid ↦ ⟨⟨hvalid.upload, hvalid.version⟩, hvalid.provenance⟩,
    fun hboth ↦ ⟨hboth.1.1, hboth.1.2, hboth.2⟩⟩

/-! ### The aggregate -/

/-- The identifiers of everything that was produced. -/
def CanonicalIngestionAggregate.producedIds (aggregate : CanonicalIngestionAggregate κ) :
    List Uuid :=
  [aggregate.document.id] ++ aggregate.chapters.map Chapter.id ++
    aggregate.paragraphs.map Paragraph.id ++ aggregate.traceability.chunkIds

/-- An aggregate that represents a hierarchy over chunks. -/
structure Represents (adapter : ChunkAdapter κ) (source : Source) (chapters : List ChapterInput)
    (chunks : List κ) (aggregate : CanonicalIngestionAggregate κ) : Prop where
  kept : aggregate.chunks.map (fun chunk ↦ (adapter.fields chunk).place) =
    chunks.map fun chunk ↦ (adapter.fields chunk).place
  nested : aggregate.document.chapters = aggregate.chapters ∧
    aggregate.paragraphs = aggregate.chapters.flatMap Chapter.paragraphs
  texts : aggregate.chapters.map (fun chapter ↦ chapter.paragraphs.map Paragraph.text) =
    chapters.map fun chapter ↦ chapter.paragraphs.map ParagraphInput.text
  belongs : ∀ chapter ∈ aggregate.chapters, chapter.document = aggregate.document.id ∧
    ∀ paragraph ∈ chapter.paragraphs, paragraph.chapter = chapter.id
  owned : ∀ pair ∈ (paragraphsOf chapters).zip aggregate.paragraphs,
    ∀ index ∈ pair.1.chunkIndexes, ∃ chunk, aggregate.chunks[index.toNat]? = some chunk ∧
      (adapter.fields chunk).sourceId = some (uuidText aggregate.document.id) ∧
      (adapter.fields chunk).blockId = some (uuidText pair.2.id) ∧
      ((adapter.fields chunk).blockMeta.bind fun fields ↦ getKey fields "chapter_id") =
        some (.str (uuidText pair.2.chapter))
  chunkIds : aggregate.chunks.map (fun chunk ↦ (adapter.fields chunk).uuid) =
    aggregate.traceability.chunkIds.map uuidText
  distinct : aggregate.producedIds.Nodup
  sources : ∀ id, getKey aggregate.traceability.entitySource id =
    if id ∈ aggregate.producedIds then some (source.uploadId, source.version) else none
  provenances : ∀ id, getKey aggregate.traceability.entityProvenance id =
    if id ∈ aggregate.producedIds then
      some ⟨source.uploadId, source.version, source.stateAssertionId, source.processingRunId⟩
    else none

/-- A dict that gives every key of a list the same value. -/
theorem getKey_updateKeys_const {υ : Type} (ids : List Uuid) (value : υ) (id : Uuid) :
    getKey (updateKeys [] (ids.map fun id ↦ (id, value))) id =
      if id ∈ ids then some value else none := by
  rw [getKey_updateKeys, getKey, Option.or_none, ← List.map_reverse]
  have hiff : id ∈ ids ↔ id ∈ ids.reverse := List.mem_reverse.symm
  rw [if_congr hiff rfl rfl]
  induction ids.reverse with
  | nil => rfl
  | cons first rest ih =>
    rw [List.map_cons, getKey, ih]
    by_cases heq : first = id
    · simp [heq]
    · simp [heq, Ne.symm heq]

section Aggregate

variable {adapter : ChunkAdapter κ} {fresh : ℕ → Uuid} {source : Source}
  {chapters : List ChapterInput} {chunks : List κ}

/-- The aggregate of what the loops have put together. -/
def assemble (source : Source) (documentId : Uuid) (built : Built κ) (chunkIds : List Uuid) :
    CanonicalIngestionAggregate κ where
  document := { id := documentId, chapters := built.chapters }
  chapters := built.chapters
  paragraphs := built.paragraphs
  chunks := built.chunks
  traceability :=
    { sourceUploadId := source.uploadId
      sourceVersion := source.version
      documentId := documentId
      chapterIds := built.chapters.map Chapter.id
      paragraphIds := built.paragraphs.map Paragraph.id
      chunkIds
      entitySource := updateKeys [] (([documentId] ++ built.chapters.map Chapter.id ++
        built.paragraphs.map Paragraph.id ++ chunkIds).map fun id ↦
          (id, (source.uploadId, source.version)))
      sourceStateAssertionId := source.stateAssertionId
      processingRunId := source.processingRunId
      entityProvenance := updateKeys [] (([documentId] ++ built.chapters.map Chapter.id ++
        built.paragraphs.map Paragraph.id ++ chunkIds).map fun id ↦
          (id, ⟨source.uploadId, source.version, source.stateAssertionId,
            source.processingRunId⟩)) }

/-- The steps of `enrichHierarchy`. -/
theorem enrichHierarchy_eq_ok_iff (hversion : uuidVersion (fresh 0) = some 4)
    {aggregate : CanonicalIngestionAggregate κ} :
    enrichHierarchy adapter fresh source chapters chunks = .ok aggregate ↔
      source.Valid ∧ chunks ≠ [] ∧ chapters ≠ [] ∧ ∃ last,
        chapters.foldlM (enrichChapter adapter fresh chunks ⟨fresh 0, []⟩)
          ⟨⟨1, [], [], [], []⟩, -1⟩ = .ok last ∧
        last.built.seenIndexes = (List.range chunks.length).map Int.ofNat ∧ ∃ chunkIds,
          last.built.chunks.mapM (fun chunk ↦ chunkUuid (adapter.fields chunk)) = .ok chunkIds ∧
          aggregate = assemble source (fresh 0) last.built chunkIds := by
  rw [Source.valid_iff]
  unfold enrichHierarchy newDocument
  simp only [bind_eq_ok, raiseIf_eq_ok, uuid4Text_of_version hversion, ok_bind, pure_eq_ok,
    List.isEmpty_eq_false_iff, decide_eq_false_iff_not, ne_eq, not_not]
  constructor
  · rintro ⟨_, hsource, _, hprovenance, _, hchunks, _, hchapters, _, rfl, last, hlast, _, hseen,
      chunkIds, hids, haggregate⟩
    exact ⟨⟨hsource, hprovenance⟩, hchunks, hchapters, last, hlast, hseen, chunkIds, hids, haggregate⟩
  · rintro ⟨⟨hsource, hprovenance⟩, hchunks, hchapters, last, hlast, hseen, chunkIds, hids,
      haggregate⟩
    exact ⟨(), hsource, (), hprovenance, (), hchunks, (), hchapters, _, rfl, last, hlast, (), hseen,
      chunkIds, hids, haggregate⟩

/-- The identifiers of chunks are parsed from their texts. -/
theorem mapM_chunkUuid {built : List κ} {numbers : List ℕ}
    (huuids : built.map (fun chunk ↦ (adapter.fields chunk).uuid) =
      numbers.map fun number ↦ uuidText (fresh number)) :
    built.mapM (fun chunk ↦ chunkUuid (adapter.fields chunk)) = .ok (numbers.map fresh) := by
  rw [mapM_eq_ok]
  induction built generalizing numbers with
  | nil =>
    rw [List.map_nil, eq_comm, List.map_eq_nil_iff] at huuids
    rw [huuids]
    exact .nil
  | cons chunk built ih =>
    cases numbers with
    | nil => cases huuids
    | cons number numbers =>
      rw [List.map_cons, List.map_cons, List.cons.injEq] at huuids
      refine .cons ?_ (ih huuids.2)
      rw [chunkUuid, huuids.1, parseUuid_uuidText]

/-- The loops begin in a state that is ready for all chapters. -/
theorem chaptersReady_initial (hfresh : Fresh fresh (1 + draws chapters)) :
    ChaptersReady fresh ⟨fresh 0, []⟩ (⟨⟨1, [], [], [], []⟩, -1⟩ : ChapterState κ) chapters :=
  ⟨hfresh.version 0 (by omega), hfresh⟩

/-- The paragraphs of the outcomes are those of the hierarchy. -/
theorem paragraphsOf_outcomes {number : ℕ} {documentId : Uuid} {outcomes : List (ChapterOutcome κ)}
    (hall : ChaptersHold adapter fresh chunks documentId number outcomes) :
    paragraphsOf (outcomes.map ChapterOutcome.input) =
      (outcomes.flatMap ChapterOutcome.paragraphs).map Outcome.input := by
  induction outcomes generalizing number with
  | nil => rfl
  | cons outcome outcomes ih =>
    obtain ⟨hholds, hrest⟩ := hall
    rw [List.map_cons, paragraphsOf, List.flatMap_cons, ← paragraphsOf, ih hrest,
      List.flatMap_cons, List.map_append, hholds.inputs]

/-- Every outcome of a paragraph holds with some number. -/
theorem AllHold.exists_number {number : ℕ} {documentId chapterId : Uuid}
    {outcomes : List (Outcome κ)}
    (hall : AllHold adapter fresh chunks documentId chapterId number outcomes) {outcome : Outcome κ}
    (hmem : outcome ∈ outcomes) :
    ∃ number, outcome.Holds adapter fresh chunks documentId chapterId number := by
  induction outcomes generalizing number with
  | nil => cases hmem
  | cons first outcomes ih =>
    rcases List.mem_cons.mp hmem with rfl | hmem
    · exact ⟨number, hall.1⟩
    · exact ih hall.2 hmem

theorem ChaptersHold.exists_number {number : ℕ} {documentId : Uuid}
    {outcomes : List (ChapterOutcome κ)}
    (hall : ChaptersHold adapter fresh chunks documentId number outcomes)
    {outcome : ChapterOutcome κ} (hmem : outcome ∈ outcomes) :
    ∃ number, outcome.Holds adapter fresh chunks documentId number := by
  induction outcomes generalizing number with
  | nil => cases hmem
  | cons first outcomes ih =>
    rcases List.mem_cons.mp hmem with rfl | hmem
    · exact ⟨number, hall.1⟩
    · exact ih hall.2 hmem

/-- Every outcome of a paragraph of a chapter holds. -/
theorem ChaptersHold.exists_holds {number : ℕ} {documentId : Uuid}
    {outcomes : List (ChapterOutcome κ)}
    (hall : ChaptersHold adapter fresh chunks documentId number outcomes) {outcome : Outcome κ}
    (hmem : outcome ∈ outcomes.flatMap ChapterOutcome.paragraphs) :
    ∃ chapterId number, outcome.Holds adapter fresh chunks documentId chapterId number := by
  obtain ⟨chapter, hchapter, hmem⟩ := List.mem_flatMap.mp hmem
  obtain ⟨first, hholds⟩ := hall.exists_number hchapter
  obtain ⟨number, houtcome⟩ := hholds.paragraphs.exists_number hmem
  exact ⟨_, number, houtcome⟩

/-- The chunks of outcomes that are numbered through are the source's, in their places. -/
theorem map_place_outcomes {documentId : Uuid} {outcomes : List (Outcome κ)}
    (hholds : ∀ outcome ∈ outcomes, ∃ chapterId number,
      Outcome.Holds adapter fresh chunks documentId chapterId number outcome)
    (hindexes : indexesOf (outcomes.map Outcome.input) =
      (List.range chunks.length).map Int.ofNat) :
    (outcomes.flatMap Outcome.chunks).map (fun chunk ↦ (adapter.fields chunk).place) =
      chunks.map fun chunk ↦ (adapter.fields chunk).place := by
  have hplaces : List.Forall₂ (fun index chunk ↦ ∃ source, chunks[index.toNat]? = some source ∧
      (adapter.fields chunk).place = (adapter.fields source).place)
      (indexesOf (outcomes.map Outcome.input)) (outcomes.flatMap Outcome.chunks) := by
    clear hindexes
    induction outcomes with
    | nil => exact .nil
    | cons outcome outcomes ih =>
      obtain ⟨⟨_, _, hfirst⟩, hrest⟩ := List.forall_mem_cons.mp hholds
      exact List.rel_append hfirst.places (ih hrest)
  rw [hindexes, List.forall₂_map_left_iff] at hplaces
  have hread : (outcomes.flatMap Outcome.chunks).map (fun chunk ↦ some (adapter.fields chunk).place) =
      (List.range chunks.length).map fun position ↦
        (chunks[position]?).map fun chunk ↦ (adapter.fields chunk).place := by
    refine map_eq_map_of_forall₂ hplaces ?_
    rintro position - chunk ⟨source, hsource, hplace⟩
    rw [Int.ofNat_eq_natCast, Int.toNat_natCast] at hsource
    rw [hsource, hplace]
    rfl
  have hrange : (List.range chunks.length).map (fun position ↦
      (chunks[position]?).map fun chunk ↦ (adapter.fields chunk).place) =
      chunks.map fun chunk ↦ some (adapter.fields chunk).place := by
    refine List.ext_getElem (by simp) fun position hleft hright ↦ ?_
    have hless : position < chunks.length := by simpa using hright
    rw [List.getElem_map, List.getElem_map, List.getElem_range, List.getElem?_eq_getElem hless]
    rfl
  refine List.map_injective_iff.mpr (Option.some_injective _) ?_
  rw [List.map_map, List.map_map]
  exact hread.trans hrange

/-- A chunk that an outcome's paragraph names stands at its index, under the paragraph. -/
theorem owned_of_outcomes {documentId : Uuid} {outcomes : List (Outcome κ)}
    (hholds : ∀ outcome ∈ outcomes, ∃ chapterId number,
      Outcome.Holds adapter fresh chunks documentId chapterId number outcome)
    (hindexes : indexesOf (outcomes.map Outcome.input) =
      (List.range chunks.length).map Int.ofNat) {outcome : Outcome κ} (hmem : outcome ∈ outcomes)
    {index : ℤ} (hindex : index ∈ outcome.input.chunkIndexes) :
    ∃ chunk, (outcomes.flatMap Outcome.chunks)[index.toNat]? = some chunk ∧
      (adapter.fields chunk).sourceId = some (uuidText documentId) ∧
      (adapter.fields chunk).blockId = some (uuidText outcome.paragraph.id) ∧
      ((adapter.fields chunk).blockMeta.bind fun fields ↦ getKey fields "chapter_id") =
        some (.str (uuidText outcome.paragraph.chapter)) := by
  have hlength : ∀ outcome ∈ outcomes,
      outcome.input.chunkIndexes.length = outcome.chunks.length := by
    intro outcome hmem
    obtain ⟨_, _, houtcome⟩ := hholds outcome hmem
    exact houtcome.places.length_eq
  obtain ⟨position, hless, hat⟩ := List.mem_iff_getElem.mp hindex
  have hinside : position < outcome.chunks.length := hlength outcome hmem ▸ hless
  have hpair : (index, outcome.chunks[position]) ∈
      outcome.input.chunkIndexes.zip outcome.chunks := by
    refine List.mem_iff_getElem.mpr ⟨position, ?_, ?_⟩
    · rw [List.length_zip, ← hlength outcome hmem, Nat.min_self]
      exact hless
    · rw [List.getElem_zip, hat]
  rw [indexesOf, List.flatMap_map] at hindexes
  obtain ⟨chapterId, number, houtcome⟩ := hholds outcome hmem
  have hview : adapter.fields outcome.chunks[position] ∈
      outcome.chunks.map adapter.fields := List.mem_map_of_mem (List.getElem_mem _)
  refine ⟨_, getElem?_flatMap_of_numbered hlength hindexes hmem hpair, ?_⟩
  rw [houtcome.paragraph]
  exact of_mem_constructed houtcome.constructed hview

/-- Everything that is produced has an identifier of its own. -/
theorem nodup_of_numbers (hfresh : Fresh fresh (1 + draws chapters)) {numbers : List ℕ}
    (hperm : numbers.Perm (List.range' 1 (draws chapters))) :
    (fresh 0 :: numbers.map fresh).Nodup := by
  have hbound : ∀ number ∈ 0 :: numbers, number < 1 + draws chapters := by
    intro number hmem
    rcases List.mem_cons.mp hmem with rfl | hmem
    · omega
    · exact (List.mem_range'_1.mp (hperm.mem_iff.mp hmem)).2
  have hnodup : (0 :: numbers).Nodup := by
    refine List.nodup_cons.mpr ⟨fun hmem ↦ ?_, hperm.nodup_iff.mpr List.nodup_range'⟩
    have hpositive := (List.mem_range'_1.mp (hperm.mem_iff.mp hmem)).1
    omega
  exact hnodup.map_on fun first hfirst second hsecond hsame ↦
    hfresh.distinct first (hbound first hfirst) second (hbound second hsecond) hsame

/-- **What the loops put together represents the hierarchy.** -/
theorem represents_of_outcomes (hfresh : Fresh fresh (1 + draws chapters))
    {outcomes : List (ChapterOutcome κ)} {built : Built κ}
    (hall : ChaptersHold adapter fresh chunks (fresh 0) 1 outcomes)
    (hinputs : outcomes.map ChapterOutcome.input = chapters)
    (hchapters : built.chapters = outcomes.map ChapterOutcome.chapter)
    (hparagraphs : built.paragraphs =
      (outcomes.flatMap ChapterOutcome.paragraphs).map Outcome.paragraph)
    (hchunks : built.chunks =
      (outcomes.flatMap ChapterOutcome.paragraphs).flatMap Outcome.chunks)
    (hindexes : indexesOf (paragraphsOf chapters) = (List.range chunks.length).map Int.ofNat) :
    ∃ chunkIds, built.chunks.mapM (fun chunk ↦ chunkUuid (adapter.fields chunk)) = .ok chunkIds ∧
      Represents adapter source chapters chunks (assemble source (fresh 0) built chunkIds) := by
  obtain ⟨chapterNumbers, paragraphNumbers, chunkNumbers, hchapterIds, hparagraphIds, huuids,
    hperm⟩ := hall.numbers
  rw [hinputs] at hperm
  rw [← hchunks] at huuids
  have hholds : ∀ outcome ∈ outcomes.flatMap ChapterOutcome.paragraphs, ∃ chapterId number,
      Outcome.Holds adapter fresh chunks (fresh 0) chapterId number outcome :=
    fun outcome hmem ↦ hall.exists_holds hmem
  have hparagraphInputs := paragraphsOf_outcomes hall
  rw [hinputs] at hparagraphInputs
  rw [hparagraphInputs] at hindexes
  refine ⟨chunkNumbers.map fresh, mapM_chunkUuid huuids, ?_⟩
  have hproduced : (assemble source (fresh 0) built (chunkNumbers.map fresh)).producedIds =
      fresh 0 :: (chapterNumbers ++ (paragraphNumbers ++ chunkNumbers)).map fresh := by
    have hchapterIds' : built.chapters.map Chapter.id = chapterNumbers.map fresh := by
      rw [hchapters, List.map_map, ← hchapterIds]
      rfl
    have hparagraphIds' : built.paragraphs.map Paragraph.id = paragraphNumbers.map fresh := by
      rw [hparagraphs, List.map_map, ← hparagraphIds]
      rfl
    show [fresh 0] ++ built.chapters.map Chapter.id ++ built.paragraphs.map Paragraph.id ++
      chunkNumbers.map fresh = _
    rw [hchapterIds', hparagraphIds', List.map_append, List.map_append, List.append_assoc,
      List.append_assoc]
    rfl
  constructor
  case kept =>
    show built.chunks.map _ = _
    rw [hchunks]
    exact map_place_outcomes hholds hindexes
  case nested =>
    refine ⟨rfl, ?_⟩
    show built.paragraphs = built.chapters.flatMap _
    rw [hparagraphs, hchapters, List.flatMap_map, List.map_flatMap]
    refine List.flatMap_congr fun outcome hmem ↦ ?_
    obtain ⟨number, houtcome⟩ := hall.exists_number hmem
    rw [houtcome.chapter]
  case texts =>
    show built.chapters.map _ = _
    rw [hchapters, ← hinputs, List.map_map, List.map_map]
    refine List.map_congr_left fun outcome hmem ↦ ?_
    obtain ⟨number, houtcome⟩ := hall.exists_number hmem
    rw [Function.comp_apply, Function.comp_apply, houtcome.chapter, ← houtcome.inputs, List.map_map,
      List.map_map]
    refine List.map_congr_left fun paragraph hparagraph ↦ ?_
    obtain ⟨_, hparagraphHolds⟩ := houtcome.paragraphs.exists_number hparagraph
    rw [Function.comp_apply, Function.comp_apply, hparagraphHolds.paragraph]
  case belongs =>
    show ∀ chapter ∈ built.chapters, _
    rw [hchapters, List.forall_mem_map]
    intro outcome hmem
    obtain ⟨number, houtcome⟩ := hall.exists_number hmem
    rw [houtcome.chapter]
    refine ⟨rfl, List.forall_mem_map.mpr fun paragraph hparagraph ↦ ?_⟩
    obtain ⟨_, hparagraphHolds⟩ := houtcome.paragraphs.exists_number hparagraph
    rw [hparagraphHolds.paragraph]
  case owned =>
    show ∀ pair ∈ (paragraphsOf chapters).zip built.paragraphs, ∀ index ∈ pair.1.chunkIndexes,
      ∃ chunk, built.chunks[index.toNat]? = some chunk ∧ _
    rw [hparagraphInputs, hparagraphs, hchunks, List.zip_map', List.forall_mem_map]
    exact fun outcome hmem index hindex ↦ owned_of_outcomes hholds hindexes hmem hindex
  case chunkIds =>
    show built.chunks.map _ = (chunkNumbers.map fresh).map uuidText
    rw [huuids, List.map_map]
    rfl
  case distinct =>
    rw [hproduced]
    exact nodup_of_numbers hfresh hperm
  case sources => exact fun id ↦ getKey_updateKeys_const _ _ id
  case provenances => exact fun id ↦ getKey_updateKeys_const _ _ id

section Returns

variable (hadapter : adapter.Documented) (hfresh : Fresh fresh (1 + draws chapters))
include hadapter hfresh

/-- What is behind the loops only depends on the indexes. -/
theorem behind_loops {last : ChapterState κ}
    (hlast : chapters.foldlM (enrichChapter adapter fresh chunks ⟨fresh 0, []⟩)
      ⟨⟨1, [], [], [], []⟩, -1⟩ = .ok last) :
    last.built.seenIndexes = indexesOf (paragraphsOf chapters) ∧
      (indexesOf (paragraphsOf chapters) = (List.range chunks.length).map Int.ofNat →
        ∃ chunkIds, last.built.chunks.mapM (fun chunk ↦ chunkUuid (adapter.fields chunk)) =
          .ok chunkIds ∧ Represents adapter source chapters chunks
            (assemble source (fresh 0) last.built chunkIds)) := by
  obtain ⟨outcomes, hall, hinputs, hbuilt⟩ :=
    of_foldlM_enrichChapter hadapter (chaptersReady_initial hfresh) hlast
  refine ⟨by rw [hbuilt]; rfl, fun hindexes ↦ ?_⟩
  exact represents_of_outcomes hfresh hall hinputs (by rw [hbuilt]; rfl) (by rw [hbuilt]; rfl)
    (by rw [hbuilt]; rfl) hindexes

theorem represents_of_enrichHierarchy {aggregate : CanonicalIngestionAggregate κ}
    (haggregate : enrichHierarchy adapter fresh source chapters chunks = .ok aggregate) :
    Represents adapter source chapters chunks aggregate := by
  obtain ⟨-, -, -, last, hlast, hseen, chunkIds, hchunkIds, rfl⟩ :=
    (enrichHierarchy_eq_ok_iff (hfresh.version 0 (by omega))).mp haggregate
  obtain ⟨hsame, hids⟩ := behind_loops hadapter hfresh hlast
  obtain ⟨others, hothers, hrepresents⟩ := hids (hsame.symm.trans hseen)
  rw [hchunkIds, Except.ok.injEq] at hothers
  exact hothers ▸ hrepresents

theorem exists_enrichHierarchy_iff (haccepts : ∀ chunk ∈ chunks, adapter.Accepts chunk) :
    (∃ aggregate, enrichHierarchy adapter fresh source chapters chunks = .ok aggregate) ↔
      source.Valid ∧ Accepted chapters (chunks.map adapter.fields) := by
  have hloop := exists_foldlM_enrichChapter_iff hadapter haccepts
    (@chaptersReady_initial κ fresh chapters hfresh)
  simp only [enrichHierarchy_eq_ok_iff (hfresh.version 0 (by omega))]
  constructor
  · rintro ⟨aggregate, hsource, hchunks, hchapters, last, hlast, hseen, -⟩
    obtain ⟨hfit, hfollow⟩ := hloop.mp ⟨last, hlast⟩
    refine ⟨hsource, by simpa using hchunks, hchapters, hfit, hfollow, ?_⟩
    rw [← (@behind_loops _ _ _ source _ _ hadapter hfresh _ hlast).1, hseen, List.length_map]
  · rintro ⟨hsource, haccepted⟩
    obtain ⟨last, hlast⟩ := hloop.mpr ⟨haccepted.chaptersFit, haccepted.chaptersFollow⟩
    have hindexes := haccepted.indexes
    rw [List.length_map] at hindexes
    obtain ⟨hseen, hids⟩ := @behind_loops _ _ _ source _ _ hadapter hfresh _ hlast
    obtain ⟨chunkIds, hchunkIds, -⟩ := hids hindexes
    exact ⟨_, hsource, by simpa using haccepted.anyChunk, haccepted.anyChapter, last, hlast,
      hseen.trans hindexes, chunkIds, hchunkIds, rfl⟩

end Returns

/-- **`enrichHierarchy` returns an aggregate exactly for a well-formed hierarchy in which nothing is
empty, and the aggregate represents it.** -/
theorem enrichHierarchy_returns_iff (hadapter : adapter.Documented)
    (haccepts : ∀ chunk ∈ chunks, adapter.Accepts chunk) (hfresh : Fresh fresh (1 + draws chapters)) :
    ((∃ aggregate, enrichHierarchy adapter fresh source chapters chunks = .ok aggregate) ↔
      source.Valid ∧ WellFormed chapters (chunks.map adapter.fields) ∧
        Filled chapters (chunks.map adapter.fields)) ∧
      ∀ aggregate, enrichHierarchy adapter fresh source chapters chunks = .ok aggregate →
        Represents adapter source chapters chunks aggregate := by
  rw [← accepted_iff]
  exact ⟨exists_enrichHierarchy_iff hadapter hfresh haccepts,
    fun aggregate haggregate ↦ represents_of_enrichHierarchy hadapter hfresh haggregate⟩

end Aggregate

/-! ### A chapter behind the others -/

/-- A well-formed hierarchy stays well-formed with an empty chapter behind it. -/
theorem WellFormed.append_empty {chapters : List ChapterInput} {chunks : List ChunkFields}
    (hwellFormed : WellFormed chapters chunks) {start stop : ℤ} (hproper : start < stop)
    (hbehind : ∀ chapter ∈ chapters, chapter.stop ≤ start) :
    WellFormed (chapters ++ [⟨[], start, stop⟩]) chunks := by
  have hparagraphs : paragraphsOf (chapters ++ [⟨[], start, stop⟩]) = paragraphsOf chapters := by
    rw [paragraphsOf, List.flatMap_append, ← paragraphsOf]
    exact List.append_nil _
  constructor
  case indexes => exact hparagraphs ▸ hwellFormed.indexes
  case located => exact hwellFormed.located
  case chapterOrder =>
    rw [List.map_append]
    refine ⟨fun span hspan ↦ ?_, List.pairwise_append.mpr ⟨hwellFormed.chapterOrder.apart, by simp,
      fun span hspan other hother ↦ ?_⟩⟩
    · rcases List.mem_append.mp hspan with hspan | hspan
      · exact hwellFormed.chapterOrder.proper span hspan
      · rw [List.mem_singleton.mp hspan]
        exact hproper
    · obtain ⟨chapter, hchapter, rfl⟩ := List.mem_map.mp hspan
      rw [List.mem_singleton.mp hother]
      exact hbehind chapter hchapter
  case paragraphOrder => exact hparagraphs ▸ hwellFormed.paragraphOrder
  case chunkOrder => exact hwellFormed.chunkOrder
  case paragraphsWithin =>
    intro chapter hchapter paragraph hparagraph
    rcases List.mem_append.mp hchapter with hchapter | hchapter
    · exact hwellFormed.paragraphsWithin chapter hchapter paragraph hparagraph
    · rw [List.mem_singleton.mp hchapter] at hparagraph
      cases hparagraph
  case chunksWithin => exact hparagraphs ▸ hwellFormed.chunksWithin

/-! ### A small hierarchy -/

/-- The fields of a chunk that is constructed from a payload. -/
def ChunkPayload.toFields (payload : ChunkPayload) : ChunkFields where
  uuid := payload.uuid
  sourceId := some payload.sourceId
  blockId := some payload.blockId
  body := some payload.body
  start := some payload.start
  stop := some payload.stop
  ordinal := some payload.ordinal
  blockIndex := some payload.blockIndex
  blockMeta := some payload.blockMeta

/-- An adapter package whose chunks are their fields. -/
def fieldsAdapter : ChunkAdapter ChunkFields where
  modelValidate := .ok
  modelDump := id
  fromDict payload :=
    if payload.body.isEmpty then .error (.adapter "body must not be empty")
    else .ok payload.toFields
  fields := id

theorem documented_fieldsAdapter : fieldsAdapter.Documented := by
  have hconstruct : ∀ payload : ChunkPayload, payload.WellFormed →
      fieldsAdapter.fromDict payload = .ok payload.toFields :=
    fun payload hpayload ↦ if_neg (by simpa using hpayload.body)
  refine ⟨fun _ ↦ rfl, fun chunk result hresult ↦ ?_, fun payload chunk hpayload _ _ ↦ ?_,
    fun payload result hpayload hresult ↦ ?_⟩
  · cases hresult
    rfl
  · exact ⟨_, hconstruct payload hpayload⟩
  · rw [hconstruct payload hpayload, Except.ok.injEq] at hresult
    subst hresult
    exact ⟨⟨rfl, rfl, rfl, rfl, rfl, rfl, rfl⟩, rfl⟩

/-- A public chunk. -/
def publicChunk (number : ℕ) (body : String) (start stop : ℤ) : ChunkFields where
  uuid := uuidText (sampleUuid number)
  sourceId := some (uuidText (sampleUuid 90))
  blockId := some (uuidText (sampleUuid 91))
  body := some (lit body)
  start := some start
  stop := some stop
  ordinal := some 0
  blockIndex := none
  blockMeta := some [("accepted", .bool true)]

/-- The chunks of two chapters. -/
def publicChunks : List ChunkFields :=
  [publicChunk 80 "first" 0 5, publicChunk 81 "chapter one" 5 16, publicChunk 82 "second" 16 22]

/-- Two chapters, one with two chunks in its paragraph. -/
def twoChapters : List ChapterInput :=
  [⟨[⟨lit "paragraph one", 0, 16, [0, 1]⟩], 0, 16⟩, ⟨[⟨lit "paragraph two", 16, 22, [2]⟩], 16, 22⟩]

/-- A source without a provenance. -/
def statedSource : Source := ⟨sampleUuid 70, .text (lit "content-version-7"), none, none⟩

theorem fresh_sampleUuid : Fresh sampleUuid 10 := by
  constructor <;> decide +kernel

theorem enrichHierarchy_returns_iff_twoChapters :
    (∃ aggregate, enrichHierarchy fieldsAdapter sampleUuid statedSource twoChapters publicChunks =
      .ok aggregate ∧ Represents fieldsAdapter statedSource twoChapters publicChunks aggregate) ∧
      WellFormed twoChapters (publicChunks.map fieldsAdapter.fields) := by
  have hreturns := @enrichHierarchy_returns_iff _ fieldsAdapter sampleUuid statedSource twoChapters
    publicChunks documented_fieldsAdapter (fun _ _ ↦ rfl) (fresh_sampleUuid.mono (by decide))
  obtain ⟨aggregate, haggregate⟩ : ∃ aggregate, enrichHierarchy fieldsAdapter sampleUuid statedSource
      twoChapters publicChunks = .ok aggregate := exists_of_succeeds (by decide +kernel)
  exact ⟨⟨aggregate, haggregate, hreturns.2 aggregate haggregate⟩,
    (hreturns.1.mp ⟨aggregate, haggregate⟩).2.1⟩

theorem wellFormed_twoChapters :
    WellFormed twoChapters (publicChunks.map fieldsAdapter.fields) ∧ statedSource.Valid := by
  have hreturns : ∃ aggregate, enrichHierarchy fieldsAdapter sampleUuid statedSource twoChapters
      publicChunks = .ok aggregate := exists_of_succeeds (by decide +kernel)
  obtain ⟨hvalid, haccepted⟩ := (exists_enrichHierarchy_iff documented_fieldsAdapter
    (fresh_sampleUuid.mono (by decide)) fun _ _ ↦ rfl).mp hreturns
  exact ⟨haccepted.wellFormed.1, hvalid⟩

/-- With an empty chapter behind its last one a well-formed hierarchy is refused. -/
theorem not_returns_emptyChapter :
    fieldsAdapter.Documented ∧ (∀ chunk ∈ publicChunks, fieldsAdapter.Accepts chunk) ∧
      Fresh sampleUuid 10 ∧ statedSource.Valid ∧
      WellFormed (twoChapters ++ [⟨[], 22, 30⟩]) (publicChunks.map fieldsAdapter.fields) ∧
      ¬ ∃ aggregate, enrichHierarchy fieldsAdapter sampleUuid statedSource
        (twoChapters ++ [⟨[], 22, 30⟩]) publicChunks = .ok aggregate := by
  refine ⟨documented_fieldsAdapter, fun _ _ ↦ rfl, fresh_sampleUuid, wellFormed_twoChapters.2,
    wellFormed_twoChapters.1.append_empty (by decide) (by decide), ?_⟩
  rintro ⟨aggregate, haggregate⟩
  have hfails : succeeds (enrichHierarchy fieldsAdapter sampleUuid statedSource
      (twoChapters ++ [⟨[], 22, 30⟩]) publicChunks) = false := by decide +kernel
  rw [haggregate] at hfails
  cases hfails

end DocStore.Enrichment
