import DocStore.Ingestion.Publication

/-!
# What publication writes

The writing half of a publication as one effect on the tables. `Grown` says that the tables have
grown by the rows of a list of paragraphs and of a list of sentences, and `grown_of_writeParagraphs`
that this is what the two loops do whenever they succeed.
-/

set_option autoImplicit false
set_option relaxedAutoImplicit false

namespace DocStore

open Foundation

/-! ### The metadata of a chunk has no exact reconstruction entry -/

section Metadata

variable (host : Host) {plan : PersistencePlan}

theorem getKey_sourceProperties (properties : SourceProperties) (defaultProject : Option Text) :
    getKey (properties.toDict defaultProject) exactReconstructionKey = none := by
  rw [getKey_eq_none, SourceProperties.toDict]
  cases properties.project.or defaultProject <;> simp [exactReconstructionKey]

theorem getKey_docMeta (request : NormalizedRequest) (bodySha256 : Text) (fileId : Uuid) :
    getKey (docMeta host request bodySha256 fileId) exactReconstructionKey = none := by
  rw [docMeta, getKey_updateKeys_of_forall_ne (getKey_eq_none.mp (getKey_sourceProperties _ _)),
    getKey_eq_none]
  simp [exactReconstructionKey]

theorem getKey_chunkMetadataFeatures (metadata : Dict) :
    getKey (chunkMetadataFeatures host metadata) exactReconstructionKey = none := by
  have hclassifiers : ∀ key ∈ ["type", "role", "status", "block_type", "language", "category"],
      key ≠ exactReconstructionKey := by decide
  have hothers : ∀ key ∈ ["chunking_version", "block_id", "block_index"],
      key ≠ exactReconstructionKey := by decide
  rw [getKey_eq_none]
  intro entry hmem
  rcases List.mem_append.mp hmem with hmem | hmem
  · obtain ⟨key, hkey, hentry⟩ := List.mem_filterMap.mp hmem
    obtain ⟨text, -, hentry⟩ := Option.bind_eq_some_iff.mp hentry
    split at hentry
    · cases hentry
    · cases hentry
      exact hclassifiers key hkey
  · obtain ⟨key, hkey, hentry⟩ := List.mem_filterMap.mp hmem
    obtain ⟨value, -, rfl⟩ := Option.map_eq_some_iff.mp hentry
    exact hothers key hkey

theorem getKey_chunkFeatureDict (sourceName : Option Text) (chunkingStrategy : Text)
    (chunk : RuntimeChunk) :
    getKey (chunkFeatureDict host sourceName chunkingStrategy chunk) exactReconstructionKey =
      none := by
  rw [chunkFeatureDict,
    getKey_updateKeys_of_forall_ne (getKey_eq_none.mp (getKey_chunkMetadataFeatures host _)),
    getKey_eq_none]
  simp [ChunkFeatures.toDict, exactReconstructionKey]

theorem getKey_paragraphMeta (hplan : getKey plan.docMeta exactReconstructionKey = none)
    (orderIndex : ℕ) (paragraph : RuntimeChunk) :
    getKey (paragraphMeta host plan orderIndex paragraph) exactReconstructionKey = none := by
  rw [paragraphMeta, getKey_foldl_updateKeys, hplan]
  simp only [List.forall_mem_cons, List.not_mem_nil, false_implies, implies_true, and_true]
  refine ⟨getKey_sourceProperties _ _, getKey_chunkFeatureDict host _ _ _, ?_⟩
  rw [getKey_eq_none]
  simp [exactReconstructionKey]

/-- **The metadata of a chunk has no exact reconstruction entry**, so its text's entry is the one
that is read. -/
theorem getKey_chunkMeta {inherited : Dict}
    (hinherited : getKey inherited exactReconstructionKey = none) (chapterId paragraphId : Uuid)
    (sentence : RuntimeChunk) :
    getKey (chunkMeta host plan chapterId paragraphId inherited sentence) exactReconstructionKey =
      none := by
  rw [chunkMeta, getKey_foldl_updateKeys, hinherited]
  simp only [List.forall_mem_cons, List.not_mem_nil, false_implies, implies_true, and_true]
  refine ⟨?_, ?_, ?_⟩
  · rw [sentenceFeatures, getKey_setKey_of_ne _ _ (by decide), getKey_chunkFeatureDict]
  · rw [getKey_eq_none]
    simp [exactReconstructionKey]
  · rw [getKey_eq_none]
    simp [semanticClassifierValues, semanticClassifierDefaults, exactReconstructionKey]

end Metadata

/-! ### One sentence -/

/-- The rows of a sentence belong to one chunk. -/
structure SentenceRows.Linked (rows : SentenceRows) : Prop where
  text : rows.text.chunkUuid = rows.chunk.id
  version : rows.version.chunkUuid = rows.chunk.id
  logical : rows.version.logicalChunkId = rows.chunk.id

/-- The pointer to the first version of a sentence. -/
def SentenceRows.current (rows : SentenceRows) : SemanticChunkCurrent where
  chunkUuid := rows.version.chunkUuid
  versionId := rows.version.id

/-- What the constraints ask of the rows of a sentence. -/
structure SentenceFits (db : Db) (rows : SentenceRows) : Prop where
  width : rows.chunk.chunkType.length ≤ Db.chunkTypeWidth
  fresh : rows.chunk.id ∉ db.registry
  order : ∀ old ∈ db.semanticChunks, old.paragraphId = rows.chunk.paragraphId →
    old.orderIndex ≠ rows.chunk.orderIndex
  version : ∀ old ∈ db.semanticChunkVersions, old.id ≠ rows.version.id

/-- The tables with the rows of a sentence. -/
def Db.addSentence (db : Db) (rows : SentenceRows) : Db :=
  { db with
    entityUuidRegistry := db.entityUuidRegistry ++ [(.semanticChunks, rows.chunk.id)]
    semanticChunks := db.semanticChunks ++ [rows.chunk]
    semanticChunkTexts := db.semanticChunkTexts ++ [rows.text]
    semanticChunkVersions := db.semanticChunkVersions ++ [rows.version]
    semanticChunkCurrent := db.semanticChunkCurrent ++ [rows.current] }

/-- The tables with a paragraph. -/
def Db.addParagraph (db : Db) (row : ParagraphRow) : Db :=
  { db with
    entityUuidRegistry := db.entityUuidRegistry ++ [(.paragraphs, row.id)]
    paragraphs := db.paragraphs ++ [row] }

variable {db next : Db}

/-- The first version of a chunk that has none yet, and no pointer. -/
theorem insertInitialVersion_eq_ok {version : SemanticChunkVersion}
    (hversions : ∀ old ∈ db.semanticChunkVersions,
      old.chunkUuid ≠ version.chunkUuid ∧ old.logicalChunkId ≠ version.logicalChunkId)
    (hpointers : ∀ old ∈ db.semanticChunkCurrent, old.chunkUuid ≠ version.chunkUuid ∧
      ∃ other ∈ db.semanticChunkVersions, other.id = old.versionId) :
    insertInitialVersion version db = .ok next ↔
      (∀ old ∈ db.semanticChunkVersions, old.id ≠ version.id) ∧
      next = { db with
        semanticChunkVersions := db.semanticChunkVersions ++ [version]
        semanticChunkCurrent := db.semanticChunkCurrent ++
          [{ chunkUuid := version.chunkUuid, versionId := version.id }] } := by
  have hnone : db.semanticChunkVersions.find? (fun old ↦
      old.chunkUuid = version.chunkUuid && old.versionNo = version.versionNo) = none :=
    List.find?_eq_none.mpr fun old hmem ↦ by simp [(hversions old hmem).1]
  have hkey : hasKey SemanticChunkCurrent.chunkUuid version.chunkUuid db.semanticChunkCurrent =
      false := hasKey_eq_false.mpr fun old hmem ↦ (hpointers old hmem).1
  have htaken : db.currentTaken version = false := by
    rw [Db.currentTaken, List.any_eq_false]
    intro old hmem
    simp [(hversions old hmem).2]
  rw [insertInitialVersion, hnone]
  simp only [bind_eq_ok, Db.insertVersion_eq_ok, Db.setCurrent_eq_ok]
  constructor
  · rintro ⟨_, ⟨hfits, rfl⟩, -, rfl⟩
    exact ⟨hfits.id, by simp [upsert, hkey]⟩
  · rintro ⟨hid, rfl⟩
    refine ⟨_, ⟨⟨hid, fun old hmem heq ↦ absurd heq (hversions old hmem).1,
      fun old hmem heq ↦ absurd heq (hversions old hmem).2, by simp [htaken]⟩, rfl⟩, ?_,
      by simp [upsert, hkey]⟩
    intro old hmem heq
    obtain ⟨-, other, hother, hnamed⟩ := hpointers old hmem
    exact absurd (hnamed.trans heq) (hid other hother)

/-- Writing the rows of a sentence succeeds exactly when they fit, and adds them. -/
theorem writeSentenceRows_eq_ok (hdb : db.Consistent) {rows : SentenceRows}
    (hlinked : rows.Linked) :
    writeSentenceRows rows db = .ok next ↔ SentenceFits db rows ∧ next = db.addSentence rows := by
  have htexts : rows.chunk.id ∉ db.registry →
      ∀ old ∈ db.semanticChunkTexts, old.chunkUuid ≠ rows.text.chunkUuid :=
    fun hfresh old hmem heq ↦ hfresh (hlinked.text ▸ heq ▸ hdb.texts old hmem)
  have hversions : rows.chunk.id ∉ db.registry → ∀ old ∈ db.semanticChunkVersions,
      old.chunkUuid ≠ rows.version.chunkUuid ∧ old.logicalChunkId ≠ rows.version.logicalChunkId :=
    fun hfresh old hmem ↦
      ⟨fun heq ↦ hfresh (hlinked.version ▸ heq ▸ (hdb.versions old hmem).1),
        fun heq ↦ hfresh (hlinked.logical ▸ heq ▸ (hdb.versions old hmem).2)⟩
  have hpointers : rows.chunk.id ∉ db.registry → ∀ old ∈ db.semanticChunkCurrent,
      old.chunkUuid ≠ rows.version.chunkUuid ∧
        ∃ other ∈ db.semanticChunkVersions, other.id = old.versionId :=
    fun hfresh old hmem ↦
      ⟨fun heq ↦ hfresh (hlinked.version ▸ heq ▸ (hdb.current old hmem).1),
        (hdb.current old hmem).2⟩
  simp only [writeSentenceRows, bind_eq_ok, Db.insertSemanticChunk_eq_ok, Db.insertText_eq_ok]
  constructor
  · rintro ⟨_, ⟨hwidth, hfresh, horder, rfl⟩, _, ⟨-, rfl⟩, hwrite⟩
    obtain ⟨hid, rfl⟩ :=
      (insertInitialVersion_eq_ok (by exact hversions hfresh) (by exact hpointers hfresh)).mp hwrite
    exact ⟨⟨hwidth, hfresh, horder, hid⟩, rfl⟩
  · rintro ⟨hfits, rfl⟩
    exact ⟨_, ⟨hfits.width, hfits.fresh, hfits.order, rfl⟩, _, ⟨htexts hfits.fresh, rfl⟩,
      (insertInitialVersion_eq_ok (by exact hversions hfits.fresh)
        (by exact hpointers hfits.fresh)).mpr ⟨hfits.version, rfl⟩⟩

/-- The tables stay consistent when a fresh paragraph of a registered chapter is added. -/
theorem Db.Consistent.addParagraph (hdb : db.Consistent) {row : ParagraphRow}
    (hfresh : row.id ∉ db.registry) (hchapter : row.chapterId ∈ db.registry) :
    (db.addParagraph row).Consistent :=
  { hdb.register hfresh .paragraphs with
    paragraphs := List.forall_mem_append.mpr ⟨(hdb.register hfresh .paragraphs).paragraphs,
      List.forall_mem_singleton.mpr ⟨Db.mem_registry_self rfl,
        Db.mem_registry_of_append rfl hchapter⟩⟩ }

/-- The tables stay consistent when a fitting sentence of a registered paragraph is added. -/
theorem Db.Consistent.addSentence (hdb : db.Consistent) {rows : SentenceRows}
    (hlinked : rows.Linked) (hfits : SentenceFits db rows)
    (hparagraph : rows.chunk.paragraphId ∈ db.registry) : (db.addSentence rows).Consistent := by
  have hself : rows.chunk.id ∈ (db.addSentence rows).registry := Db.mem_registry_self rfl
  have hversion : rows.version.chunkUuid ∈ (db.addSentence rows).registry :=
    hlinked.version ▸ hself
  have hregistered := hdb.register hfits.fresh .semanticChunks
  exact
    { hregistered with
      chunks := List.forall_mem_append.mpr ⟨hregistered.chunks,
        List.forall_mem_singleton.mpr ⟨hself, Db.mem_registry_of_append rfl hparagraph⟩⟩
      texts := List.forall_mem_append.mpr ⟨hregistered.texts,
        List.forall_mem_singleton.mpr (hlinked.text ▸ hself)⟩
      versions := List.forall_mem_append.mpr ⟨hregistered.versions,
        List.forall_mem_singleton.mpr ⟨hversion, hlinked.logical ▸ hself⟩⟩
      current := List.forall_mem_append.mpr
        ⟨fun row hmem ↦ (hregistered.current row hmem).imp_right fun ⟨version, hold, hid⟩ ↦
            ⟨version, List.mem_append_left _ hold, hid⟩,
          List.forall_mem_singleton.mpr ⟨hversion, rows.version,
            List.mem_append_right _ (List.mem_singleton_self _), rfl⟩⟩ }

/-! ### Both loops -/

/-- The tables have grown by paragraphs and sentences, and are otherwise the same. -/
structure Grown (db next : Db) (paragraphs : List ParagraphRow) (sentences : List SentenceRows) :
    Prop where
  registry : next.entityUuidRegistry.Perm (db.entityUuidRegistry ++
    (paragraphs.map (fun row ↦ (.paragraphs, row.id)) ++
      sentences.map fun rows ↦ (.semanticChunks, rows.chunk.id)))
  projects : next.projects = db.projects
  files : next.files = db.files
  documents : next.documents = db.documents
  chapters : next.chapters = db.chapters
  paragraphs : next.paragraphs = db.paragraphs ++ paragraphs
  chunks : next.semanticChunks = db.semanticChunks ++ sentences.map SentenceRows.chunk
  texts : next.semanticChunkTexts = db.semanticChunkTexts ++ sentences.map SentenceRows.text
  versions : next.semanticChunkVersions =
    db.semanticChunkVersions ++ sentences.map SentenceRows.version
  current : next.semanticChunkCurrent =
    db.semanticChunkCurrent ++ sentences.map SentenceRows.current
  runs : next.processingRuns = db.processingRuns
  assertions : next.temporalAssertions = db.temporalAssertions

theorem Grown.refl (db : Db) : Grown db db [] [] := by
  constructor <;> simp

theorem Grown.of_addParagraph (db : Db) (row : ParagraphRow) :
    Grown db (db.addParagraph row) [row] [] := by
  constructor <;> simp [Db.addParagraph]

theorem Grown.of_addSentence (db : Db) (rows : SentenceRows) :
    Grown db (db.addSentence rows) [] [rows] := by
  constructor <;> simp [Db.addSentence]

theorem Grown.trans {db middle next : Db} {paragraphs laterParagraphs : List ParagraphRow}
    {sentences laterSentences : List SentenceRows} (hfirst : Grown db middle paragraphs sentences)
    (hsecond : Grown middle next laterParagraphs laterSentences) :
    Grown db next (paragraphs ++ laterParagraphs) (sentences ++ laterSentences) where
  registry := by
    refine (hsecond.registry.trans (hfirst.registry.append_right _)).trans ?_
    rw [List.map_append, List.map_append, List.append_assoc]
    refine List.Perm.append_left _ ?_
    rw [List.append_assoc, List.append_assoc]
    refine List.Perm.append_left _ ?_
    rw [← List.append_assoc, ← List.append_assoc]
    exact List.perm_append_comm.append_right _
  projects := hsecond.projects.trans hfirst.projects
  files := hsecond.files.trans hfirst.files
  documents := hsecond.documents.trans hfirst.documents
  chapters := hsecond.chapters.trans hfirst.chapters
  paragraphs := by rw [hsecond.paragraphs, hfirst.paragraphs, List.append_assoc]
  chunks := by rw [hsecond.chunks, hfirst.chunks, List.map_append, List.append_assoc]
  texts := by rw [hsecond.texts, hfirst.texts, List.map_append, List.append_assoc]
  versions := by rw [hsecond.versions, hfirst.versions, List.map_append, List.append_assoc]
  current := by rw [hsecond.current, hfirst.current, List.map_append, List.append_assoc]
  runs := hsecond.runs.trans hfirst.runs
  assertions := hsecond.assertions.trans hfirst.assertions

/-- The registered UUIDs of grown tables. -/
theorem Grown.registered {paragraphs : List ParagraphRow} {sentences : List SentenceRows}
    (hgrown : Grown db next paragraphs sentences) :
    next.registry.Perm (db.registry ++ (paragraphs.map (fun row ↦ row.id) ++
      sentences.map fun rows ↦ rows.chunk.id)) := by
  simpa [Db.registry, Function.comp_def] using hgrown.registry.map Prod.snd

/-- Registered UUIDs stay registered. -/
theorem Grown.mem_registry {paragraphs : List ParagraphRow} {sentences : List SentenceRows}
    (hgrown : Grown db next paragraphs sentences) {id : Uuid} (hmem : id ∈ db.registry) :
    id ∈ next.registry :=
  hgrown.registered.mem_iff.mpr (List.mem_append_left _ hmem)

section Loops

variable (host : Host) (ids : PublicationIds) (plan : PersistencePlan)

/-- The paragraph rows of a plan, from an order index on. -/
def hierarchyParagraphs : ℕ → List PlannedParagraph → List ParagraphRow
  | _, [] => []
  | orderIndex, planned :: rest =>
    paragraphRow host ids plan orderIndex planned.1 :: hierarchyParagraphs (orderIndex + 1) rest

/-- A sentence of a plan with its piece, its paragraph and the order index of the paragraph. -/
structure PlacedSentence where
  orderIndex : ℕ
  paragraph : RuntimeChunk
  entry : RuntimeChunk × ExactReconstructionPiece

/-- The sentences of a paragraph. -/
def placedIn (orderIndex : ℕ) (planned : PlannedParagraph) : List PlacedSentence :=
  planned.2.map fun entry ↦ { orderIndex, paragraph := planned.1, entry }

/-- The sentences of a plan, from an order index on. -/
def placedSentences : ℕ → List PlannedParagraph → List PlacedSentence
  | _, [] => []
  | orderIndex, planned :: rest =>
    placedIn orderIndex planned ++ placedSentences (orderIndex + 1) rest

theorem map_entry_placedSentences (orderIndex : ℕ) (paragraphs : List PlannedParagraph) :
    (placedSentences orderIndex paragraphs).map PlacedSentence.entry =
      plannedSentences paragraphs := by
  induction paragraphs generalizing orderIndex with
  | nil => rfl
  | cons planned rest ih =>
    rw [placedSentences, List.map_append, ih, placedIn, List.map_map]
    exact congrArg (· ++ plannedSentences rest) (List.map_id planned.2)

/-- The rows of a sentence of a plan. -/
def PlacedSentence.rows (placed : PlacedSentence) : SentenceRows :=
  sentenceRows host ids plan placed.orderIndex placed.paragraph placed.entry

/-- The sentence rows of a plan, from an order index on. -/
def hierarchySentences (orderIndex : ℕ) (paragraphs : List PlannedParagraph) :
    List SentenceRows :=
  (placedSentences orderIndex paragraphs).map (PlacedSentence.rows host ids plan)

variable {host ids plan}

theorem linked_sentenceRows (orderIndex : ℕ) (paragraph : RuntimeChunk)
    (entry : RuntimeChunk × ExactReconstructionPiece) :
    (sentenceRows host ids plan orderIndex paragraph entry).Linked :=
  ⟨rfl, rfl, rfl⟩

theorem writeSemanticChunk_eq_ok (hdb : db.Consistent) {orderIndex : ℕ} {paragraph : RuntimeChunk}
    {entry : RuntimeChunk × ExactReconstructionPiece} :
    writeSemanticChunk host ids plan orderIndex paragraph entry db = .ok next ↔
      (∃ descrs, (semanticClassifierValues (sentenceFeatures host plan entry.1)).mapM
        (fun value ↦ dictionaryDescr value.2) = .ok descrs) ∧
      SentenceFits db (sentenceRows host ids plan orderIndex paragraph entry) ∧
      next = db.addSentence (sentenceRows host ids plan orderIndex paragraph entry) := by
  rw [writeSemanticChunk, bind_eq_ok]
  simp only [writeSentenceRows_eq_ok hdb (linked_sentenceRows _ _ _), exists_and_right]

/-- What the sentence loop does when it succeeds. -/
theorem grown_of_writeSentences {orderIndex : ℕ} {paragraph : RuntimeChunk}
    {entries : List (RuntimeChunk × ExactReconstructionPiece)} (hdb : db.Consistent)
    (hparagraph : ids.paragraphId orderIndex ∈ db.registry)
    (hwrite : writeSentences host ids plan orderIndex paragraph entries db = .ok next) :
    next.Consistent ∧
      Grown db next []
        ((placedIn orderIndex (paragraph, entries)).map (PlacedSentence.rows host ids plan)) := by
  induction entries generalizing db with
  | nil =>
    cases hwrite
    exact ⟨hdb, Grown.refl _⟩
  | cons entry entries ih =>
    obtain ⟨middle, hfirst, hrest⟩ := bind_eq_ok.mp hwrite
    obtain ⟨-, hfits, rfl⟩ := (writeSemanticChunk_eq_ok hdb).mp hfirst
    have hgrown := Grown.of_addSentence db (sentenceRows host ids plan orderIndex paragraph entry)
    obtain ⟨hnext, hlater⟩ := ih (hdb.addSentence (linked_sentenceRows _ _ _) hfits hparagraph)
      (hgrown.mem_registry hparagraph) hrest
    exact ⟨hnext, hgrown.trans hlater⟩

/-- **What the paragraph loop does when it succeeds**: the tables stay consistent and grow by the
rows of the plan. -/
theorem grown_of_writeParagraphs {orderIndex : ℕ} {paragraphs : List PlannedParagraph}
    (hdb : db.Consistent) (hchapter : ids.chapterId ∈ db.registry)
    (hwrite : writeParagraphs host ids plan orderIndex paragraphs db = .ok next) :
    next.Consistent ∧ Grown db next (hierarchyParagraphs host ids plan orderIndex paragraphs)
      (hierarchySentences host ids plan orderIndex paragraphs) := by
  induction paragraphs generalizing db orderIndex with
  | nil =>
    cases hwrite
    exact ⟨hdb, Grown.refl _⟩
  | cons planned rest ih =>
    obtain ⟨paragraph, entries⟩ := planned
    obtain ⟨middle, hparagraph, hwrite⟩ := bind_eq_ok.mp hwrite
    obtain ⟨written, hsentences, hrest⟩ := bind_eq_ok.mp hwrite
    obtain ⟨hfresh, -, rfl⟩ := Db.insertParagraph_eq_ok.mp hparagraph
    have hadded := Grown.of_addParagraph db (paragraphRow host ids plan orderIndex paragraph)
    obtain ⟨hwritten, hgrown⟩ := grown_of_writeSentences (hdb.addParagraph hfresh hchapter)
      (Db.mem_registry_self rfl) hsentences
    obtain ⟨hnext, hlater⟩ := ih hwritten (hgrown.mem_registry (hadded.mem_registry hchapter)) hrest
    rw [hierarchySentences, placedSentences, List.map_append]
    exact ⟨hnext, (hadded.trans hgrown).trans hlater⟩

end Loops

/-! ### In front of the paragraphs -/

section Preparation

variable {ids : PublicationIds} {plan : PersistencePlan}

/-- Whether a document is there and flagged as deleted. -/
def documentDeleted (db : Db) (documentId : Uuid) : Bool :=
  (lookup (fun row : DocumentRow ↦ row.id) documentId db.documents).any fun row ↦ row.isDeleted

/-- What the paragraphs find: consistent tables with the chapter and the document in them, and no
undeleted chunk of the document. -/
structure Prepared (ids : PublicationIds) (plan : PersistencePlan) (db next : Db) : Prop where
  consistent : next.Consistent
  registered : ids.chapterId ∈ next.registry
  chapter : lookup (fun row : ChapterRow ↦ row.id) ids.chapterId next.chapters =
    some (chapterRow ids plan)
  document : ∃ row, lookup (fun row : DocumentRow ↦ row.id) plan.documentId next.documents = some row ∧
    row.deletedAt = none ∧ row.isDeleted = documentDeleted db plan.documentId
  chunks : ∀ chunk ∈ next.semanticChunks, chunk.documentId = plan.documentId →
    chunk.deletedAt.isSome = true

theorem Db.Consistent.markHierarchy (hdb : db.Consistent) (now : Instant) (documentId : Uuid) :
    (markHierarchy now documentId db).Consistent :=
  { hdb with
    chapters := forall_mem_updateWhere (fun _ hrow ↦ hrow) hdb.chapters
    paragraphs := forall_mem_updateWhere (fun _ hrow ↦ hrow) hdb.paragraphs
    chunks := forall_mem_updateWhere (fun _ hrow ↦ hrow) hdb.chunks }

theorem Db.Consistent.retirePreviousFiles (hdb : db.Consistent) (now : Instant)
    (documentId : Uuid) : (retirePreviousFiles now documentId db).Consistent :=
  { hdb with files := forall_mem_updateWhere (fun _ hrow ↦ hrow) hdb.files }

theorem Db.Consistent.shiftChapters (hdb : db.Consistent) {documentId : Uuid}
    (hshift : shiftChapters documentId db = .ok next) : next.Consistent := by
  obtain ⟨-, hnext⟩ := raiseIf_bind_eq_ok.mp hshift
  cases hnext
  exact { hdb with chapters := forall_mem_updateWhere (fun _ hrow ↦ hrow) hdb.chapters }

/-- Writing the file touches the registry and the files only. -/
theorem exists_of_writeFile {primarySourceId : Uuid}
    (hwrite : writeFile plan primarySourceId db = .ok next) :
    ∃ entityUuidRegistry files, next = { db with entityUuidRegistry, files } := by
  unfold writeFile at hwrite
  split at hwrite
  · cases hwrite
    exact ⟨_, _, rfl⟩
  · obtain ⟨-, hwrite⟩ := Db.register_bind_eq_ok.mp hwrite
    obtain ⟨-, hnext⟩ := raiseIf_bind_eq_ok.mp hwrite
    cases hnext
    exact ⟨_, _, rfl⟩

/-- Writing the document touches the registry and the documents only. -/
theorem exists_of_writeDocument (hwrite : writeDocument plan db = .ok next) :
    ∃ entityUuidRegistry documents, next = { db with entityUuidRegistry, documents } := by
  obtain ⟨-, hwrite⟩ := raiseIf_bind_eq_ok.mp hwrite
  split at hwrite
  · cases hwrite
    exact ⟨_, _, rfl⟩
  · obtain ⟨-, hnext⟩ := Db.register_bind_eq_ok.mp hwrite
    cases hnext
    exact ⟨_, _, rfl⟩

/-- Writing the file keeps the tables consistent, and registered UUIDs registered. -/
theorem writeFile_spec (hdb : db.Consistent) {primarySourceId : Uuid}
    (hwrite : writeFile plan primarySourceId db = .ok next) :
    next.Consistent ∧ ∀ id ∈ db.registry, id ∈ next.registry := by
  unfold writeFile at hwrite
  split at hwrite
  next hthere =>
    cases hwrite
    obtain ⟨found, hfound, hkey⟩ := hasKey_eq_true.mp hthere
    have hregistered : plan.fileId ∈ db.registry := hkey ▸ hdb.files found hfound
    refine ⟨{ hdb with files := fun row hmem ↦ ?_ }, fun _ hid ↦ hid⟩
    obtain ⟨old, hold, rfl⟩ := mem_updateWhere.mp hmem
    split
    · exact hregistered
    · exact hdb.files old hold
  next =>
    obtain ⟨hfresh, hwrite⟩ := Db.register_bind_eq_ok.mp hwrite
    obtain ⟨-, hnext⟩ := raiseIf_bind_eq_ok.mp hwrite
    cases hnext
    have hregistered := hdb.register hfresh .files
    refine ⟨{ hregistered with files := List.forall_mem_append.mpr ⟨hregistered.files, ?_⟩ },
      fun _ hid ↦ Db.mem_registry_of_append rfl hid⟩
    exact List.forall_mem_singleton.mpr (Db.mem_registry_self rfl)

/-- Writing the document keeps the tables consistent; the document is there afterwards, without a
deletion time and with the flag it had. -/
theorem writeDocument_spec (hdb : db.Consistent) (hwrite : writeDocument plan db = .ok next) :
    next.Consistent ∧
      ∃ row, lookup (fun row : DocumentRow ↦ row.id) plan.documentId next.documents = some row ∧
        row.deletedAt = none ∧ row.isDeleted = documentDeleted db plan.documentId := by
  obtain ⟨-, hwrite⟩ := raiseIf_bind_eq_ok.mp hwrite
  split at hwrite
  next hthere =>
    cases hwrite
    obtain ⟨found, hfound, hkey⟩ := hasKey_eq_true.mp hthere
    have hregistered : plan.documentId ∈ db.registry := hkey ▸ hdb.documents found hfound
    refine ⟨{ hdb with documents := fun row hmem ↦ ?_ }, ?_⟩
    · obtain ⟨old, hold, rfl⟩ := mem_updateWhere.mp hmem
      split
      · exact hregistered
      · exact hdb.documents old hold
    · cases hlookup : lookup (fun row : DocumentRow ↦ row.id) plan.documentId db.documents with
      | none => exact absurd hkey (lookup_eq_none.mp hlookup found hfound)
      | some old =>
        refine ⟨{ documentRow plan with isDeleted := old.isDeleted }, ?_, rfl,
          by simp [documentDeleted, hlookup]⟩
        exact lookup_updateWhere_self (fun _ _ ↦ rfl) hlookup
  next habsent =>
    obtain ⟨hfresh, hnext⟩ := Db.register_bind_eq_ok.mp hwrite
    cases hnext
    have hregistered := hdb.register hfresh .documents
    have hnone : lookup (fun row : DocumentRow ↦ row.id) plan.documentId db.documents = none :=
      lookup_eq_none.mpr (hasKey_eq_false.mp (Bool.eq_false_iff.mpr habsent))
    refine ⟨{ hregistered with
      documents := List.forall_mem_append.mpr ⟨hregistered.documents, ?_⟩ },
      documentRow plan, ?_, rfl, by simp [documentDeleted, hnone, documentRow]⟩
    · exact List.forall_mem_singleton.mpr (Db.mem_registry_self rfl)
    · rw [lookup_append, hnone, Option.none_or]
      simp [lookup, documentRow]

/-- What stands in front of the paragraphs once it is written. -/
theorem prepared_of_prepareHierarchy (hdb : db.Consistent) {primarySourceId : Uuid}
    (hwrite : prepareHierarchy ids plan primarySourceId db = .ok next) :
    Prepared ids plan db next := by
  obtain ⟨shifted, hshift, hwrite⟩ := bind_eq_ok.mp hwrite
  obtain ⟨filed, hfile, hwrite⟩ := bind_eq_ok.mp hwrite
  obtain ⟨documented, hdocument, hchapter⟩ := bind_eq_ok.mp hwrite
  obtain ⟨hfresh, -, rfl⟩ := Db.insertChapter_eq_ok.mp hchapter
  have hshifted := (hdb.markHierarchy ids.now plan.documentId).shiftChapters hshift
  obtain ⟨-, hshift⟩ := raiseIf_bind_eq_ok.mp hshift
  cases hshift
  obtain ⟨hfiled, -⟩ :=
    writeFile_spec (hshifted.retirePreviousFiles ids.now plan.documentId) hfile
  obtain ⟨_, _, rfl⟩ := exists_of_writeFile hfile
  obtain ⟨hdocumented, row, hrow, hdeletedAt, hisDeleted⟩ := writeDocument_spec hfiled hdocument
  obtain ⟨_, _, rfl⟩ := exists_of_writeDocument hdocument
  have hregistered := hdocumented.register hfresh .chapters
  refine ⟨{ hregistered with chapters := List.forall_mem_append.mpr ⟨hregistered.chapters, ?_⟩ },
    ?_, ?_, ⟨row, hrow, hdeletedAt, hisDeleted⟩, ?_⟩
  · exact List.forall_mem_singleton.mpr (Db.mem_registry_self rfl)
  · exact Db.mem_registry_self rfl
  · have hother : ∀ old ∈ _, (fun row : ChapterRow ↦ row.id) old ≠ ids.chapterId :=
      fun old hmem ↦ ne_of_mem_of_not_mem (hdocumented.chapters old hmem) hfresh
    exact (lookup_append_of_forall_ne hother).trans (by simp [lookup, chapterRow])
  · intro chunk hmem hchunk
    obtain ⟨old, -, rfl⟩ := mem_updateWhere.mp hmem
    split
    · rfl
    next hnot =>
      rw [if_neg hnot] at hchunk
      simpa [hchunk, Option.isSome_iff_ne_none] using hnot

end Preparation

end DocStore
