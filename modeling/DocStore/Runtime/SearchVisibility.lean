import DocStore.Query.Executors
import DocStore.Query.Retrieval
import DocStore.Query.SemanticWindows
import DocStore.Runtime.PublicationFrame

/-!
# What search finds and retrieval reads

A search asks of the deletion columns only that the chunk has no deletion time, while
`get_paragraph`, `get_chapter` and `get_document` ask the same of the rows above it. They agree as
long as every live chunk stands under live rows (`Db.Upright`). A publication marks and writes a
hierarchy as a whole, and a soft deletion takes along what hangs below a row, so both keep tables
upright. An undeletion works downwards as well, but what it brings back may hang below a row that
stays deleted: it keeps tables upright exactly when no chunk that it brings back does
(`upright_undelete_iff`). Runs whose undeletions are all of this kind reach only tables in which
whatever search finds can be read (`reads_of_finds`).
-/

set_option autoImplicit false
set_option relaxedAutoImplicit false

namespace DocStore

open Foundation

/-! ### Steps -/

/-- A call of `document_chunk` with the new entries of the dictionaries. -/
structure RechunkIngestion extends RechunkCall where
  entryId : DictionaryTable → Text → Uuid

/-- What brings hierarchies, and what deletes and undeletes entities. -/
inductive VisibilityAction where
  | ingest (call : IngestionCall)
  | rechunk (documentId : Uuid) (call : RechunkIngestion)
  | softDelete (now : Instant) (table : EntityTable) (ids : List Uuid)
  | undelete (now : Instant) (table : EntityTable) (ids : List Uuid)

/-- `_rechunk_existing`: the publication of the stored text with other chunks. -/
def EntityDb.rechunk (host : Host) (documentId : Uuid) (call : RechunkIngestion) (db : EntityDb) :
    Except Failure EntityDb := do
  let request ← rechunkRequest host documentId call.toRechunkCall db.toDb
  db.ingest host
    { ids := call.ids.toPublicationIds
      request
      paragraphChunks := call.paragraphChunks
      sentenceChunks := call.sentenceChunks
      entryId := call.entryId }

/-- What an action leaves when it succeeds. -/
def VisibilityAction.apply (host : Host) (db : EntityDb) :
    VisibilityAction → Except Failure EntityDb
  | .ingest call => db.ingest host call
  | .rechunk documentId call => db.rechunk host documentId call
  | .softDelete now table ids => .ok (db.softDelete host now table ids)
  | .undelete now table ids => .ok (db.undelete host now table ids)

/-- One action. -/
def visibilityStep (host : Host) (db : EntityDb) (action : VisibilityAction) : Option EntityDb :=
  toOption (action.apply host db)

/-! ### Finding and reading -/

/-- A search returns a chunk: the full-text, the structured, or one of the flat semantic searches. -/
inductive SearchDb.Finds {ν : Type} (store : SearchDb ν) (chunkUuid : Uuid) : Prop where
  | fullText (host : TextHost ν) (plan : ExecutionPlan) (results : List FullTextResult)
      (hresults : executeFullText host plan store = .ok results) (result : FullTextResult)
      (hresult : result ∈ results) (hchunk : result.chunkId = chunkUuid)
  | structured (host : SearchHost) (plan : ExecutionPlan) (results : List SearchResult)
      (hresults : executeStructured host plan store = .ok results) (result : SearchResult)
      (hresult : result ∈ results) (hchunk : result.chunkId = chunkUuid)
  | semantic (executor : SemanticExecutor) (host : VectorHost ν)
      (embed : Text → Except String QueryResponse) (plan : ExecutionPlan) (queryText : Text)
      (results : List SearchResult)
      (hresults : executor.execute host embed plan queryText store = .ok results)
      (result : SearchResult) (hresult : result ∈ results) (hchunk : result.chunkId = chunkUuid)
  | boundary (executor : SemanticExecutor) (host : VectorHost ν) (plan : ExecutionPlan)
      (results : List SearchResult)
      (hresults : executor.executeSemantic host plan store = .ok results)
      (result : SearchResult) (hresult : result ∈ results) (hchunk : result.chunkId = chunkUuid)

/-- The chunk with a UUID has a paragraph, a chapter and a document that retrieval returns. -/
def Db.Reads (db : Db) (chunkUuid : Uuid) : Prop :=
  ∃ chunk ∈ db.semanticChunks, chunk.id = chunkUuid ∧
    (∃ value, getParagraph db chunk.paragraphId none = .ok value) ∧
    (∃ value, getChapter db chunk.chapterId none = .ok value) ∧
    ∃ value, getDocument db chunk.documentId none = .ok value

/-- Whatever a search finds is the chunk of a live row. -/
theorem SearchDb.Finds.exists_chunk {ν : Type} {store : SearchDb ν} {chunkUuid : Uuid}
    (hfinds : store.Finds chunkUuid) :
    ∃ chunk ∈ store.semanticChunks, chunk.deletedAt = none ∧ chunk.id = chunkUuid := by
  obtain ⟨row, hrow, hid⟩ : ∃ row ∈ store.liveRows, chunkUuid = row.chunk.id := by
    cases hfinds with
    | fullText host plan results hresults result hresult hchunk =>
      exact hchunk ▸ exists_of_executeFullText hresults hresult
    | structured host plan results hresults result hresult hchunk =>
      exact hchunk ▸ exists_of_executeStructured hresults hresult
    | semantic executor host embed plan queryText results hresults result hresult hchunk =>
      exact hchunk ▸ exists_of_execute hresults hresult
    | boundary executor host plan results hresults result hresult hchunk =>
      exact hchunk ▸ exists_of_executeSemantic hresults hresult
  obtain ⟨chunk, hchunk, hjoined⟩ := List.mem_filterMap.mp hrow
  obtain ⟨hmem, hlive⟩ := List.mem_filter.mp hchunk
  exact ⟨chunk, hmem, Option.isNone_iff_eq_none.mp hlive, by rw [hid, chunk_of_joined hjoined]⟩

/-! ### Upright tables -/

/-- The rows that the foreign keys of a row name. -/
def EntityRecord.parents (row : EntityRecord) : List EntityRef :=
  row.documentId.toList.map (Prod.mk .documents) ++ row.chapterId.toList.map (Prod.mk .chapters) ++
    row.paragraphId.toList.map (Prod.mk .paragraphs)

/-- The rows that a row hangs below are there, belong to its document and meet a condition. -/
def StandsUnder (records : List EntityRecord) (fits : EntityRecord → Prop) (row : EntityRecord) :
    Prop :=
  ∀ ref ∈ row.parents, ∃ parent ∈ records, parent.ref = ref ∧
    (parent.documentId.all fun documentId ↦ row.documentId = some documentId) = true ∧ fits parent

instance (records : List EntityRecord) (fits : EntityRecord → Prop) [DecidablePred fits]
    (row : EntityRecord) : Decidable (StandsUnder records fits row) :=
  inferInstanceAs (Decidable (∀ ref ∈ row.parents, ∃ parent ∈ records, parent.ref = ref ∧
    (parent.documentId.all fun documentId ↦ row.documentId = some documentId) = true ∧ fits parent))

/-- A row without a deletion time. -/
def EntityRecord.Visible (row : EntityRecord) : Prop := row.deletedAt = none

instance : DecidablePred EntityRecord.Visible :=
  fun row ↦ inferInstanceAs (Decidable (row.deletedAt = none))

/-- Every visible chunk stands under visible rows. -/
def Upright (records : List EntityRecord) : Prop :=
  ∀ row ∈ records, row.table = .semanticChunks → row.Visible →
    StandsUnder records EntityRecord.Visible row

theorem parents_chunk (chunk : SemanticChunkRow) : chunk.record.parents =
    [(.documents, chunk.documentId), (.chapters, chunk.chapterId),
      (.paragraphs, chunk.paragraphId)] :=
  rfl

theorem mem_parents_iff {row : EntityRecord} {ref : EntityRef} :
    ref ∈ row.parents ↔ row.refersTo ref = true := by
  obtain ⟨table, id⟩ := ref
  cases table <;> simp [EntityRecord.parents, EntityRecord.refersTo]

/-- Other conditions and other tables. -/
theorem StandsUnder.mono {records records' : List EntityRecord} {fits fits' : EntityRecord → Prop}
    {row : EntityRecord} (hunder : StandsUnder records fits row)
    (hmono : ∀ parent ∈ records, parent.ref ∈ row.parents →
      (parent.documentId.all fun documentId ↦ row.documentId = some documentId) = true →
        fits parent → parent ∈ records' ∧ fits' parent) : StandsUnder records' fits' row := by
  intro ref href
  obtain ⟨parent, hparent, hnamed, hdocument, hfits⟩ := hunder ref href
  obtain ⟨hmem, hfits'⟩ := hmono parent hparent (hnamed ▸ href) hdocument hfits
  exact ⟨parent, hmem, hnamed, hdocument, hfits'⟩

/-! ### Retrieval from upright tables -/

section Retrieval

variable {host : Host} {db : EntityDb}

/-- The rows of registered tables are found by their UUIDs. -/
theorem EntityDb.Registered.nodup_ids (hregistered : db.Registered) :
    (db.documents.map fun row ↦ row.id).Nodup ∧ (db.chapters.map fun row ↦ row.id).Nodup ∧
      (db.paragraphs.map fun row ↦ row.id).Nodup := by
  have hnodup : db.toDb.refs.Nodup := (List.nodup_append.mp hregistered.mirrors.nodup).2.1
  have hid : ∀ {ρ : Type} {rows : List ρ} {table : EntityTable} {id : ρ → Uuid},
      (rows.map fun row ↦ ((table, id row) : EntityRef)).Nodup → (rows.map id).Nodup := by
    intro ρ rows table id hrefs
    refine List.Nodup.of_map (fun other ↦ ((table, other) : EntityRef)) ?_
    rw [List.map_map]
    exact hrefs
  obtain ⟨hparagraphs, -, -⟩ := List.nodup_append.mp hnodup
  obtain ⟨hchapters, hparagraphs, -⟩ := List.nodup_append.mp hparagraphs
  obtain ⟨hdocuments, hchapters, -⟩ := List.nodup_append.mp hchapters
  obtain ⟨-, hdocuments, -⟩ := List.nodup_append.mp hdocuments
  exact ⟨hid hdocuments, hid hchapters, hid hparagraphs⟩

theorem exists_document {row : EntityRecord} (hrow : row ∈ db.records host)
    (htable : row.table = .documents) :
    ∃ document ∈ db.documents, document.record host = row := by
  rcases mem_records_iff.mp hrow with ⟨_, -, rfl⟩ | ⟨_, -, rfl⟩ | ⟨_, -, rfl⟩ | hfound |
    ⟨_, -, rfl⟩ | ⟨_, -, rfl⟩ | ⟨_, -, rfl⟩
  case inr.inr.inr.inl => exact hfound
  all_goals cases htable

theorem exists_chapter {row : EntityRecord} (hrow : row ∈ db.records host)
    (htable : row.table = .chapters) : ∃ chapter ∈ db.chapters, chapter.record = row := by
  rcases mem_records_iff.mp hrow with ⟨_, -, rfl⟩ | ⟨_, -, rfl⟩ | ⟨_, -, rfl⟩ | ⟨_, -, rfl⟩ |
    hfound | ⟨_, -, rfl⟩ | ⟨_, -, rfl⟩
  case inr.inr.inr.inr.inl => exact hfound
  all_goals cases htable

theorem exists_paragraph {row : EntityRecord} (hrow : row ∈ db.records host)
    (htable : row.table = .paragraphs) :
    ∃ paragraph ∈ db.paragraphs, paragraph.record = row := by
  rcases mem_records_iff.mp hrow with ⟨_, -, rfl⟩ | ⟨_, -, rfl⟩ | ⟨_, -, rfl⟩ | ⟨_, -, rfl⟩ |
    ⟨_, -, rfl⟩ | hfound | ⟨_, -, rfl⟩
  case inr.inr.inr.inr.inr.inl => exact hfound
  all_goals cases htable

theorem exists_chunk {row : EntityRecord} (hrow : row ∈ db.records host)
    (htable : row.table = .semanticChunks) : ∃ chunk ∈ db.semanticChunks, chunk.record = row := by
  rcases mem_records_iff.mp hrow with ⟨_, -, rfl⟩ | ⟨_, -, rfl⟩ | ⟨_, -, rfl⟩ | ⟨_, -, rfl⟩ |
    ⟨_, -, rfl⟩ | ⟨_, -, rfl⟩ | hfound
  case inr.inr.inr.inr.inr.inr => exact hfound
  all_goals cases htable

theorem mem_records_document {row : DocumentRow} (hrow : row ∈ db.documents) :
    row.record host ∈ db.records host :=
  mem_records_iff.mpr (.inr (.inr (.inr (.inl ⟨row, hrow, rfl⟩))))

theorem mem_records_chapter {row : ChapterRow} (hrow : row ∈ db.chapters) :
    row.record ∈ db.records host :=
  mem_records_iff.mpr (.inr (.inr (.inr (.inr (.inl ⟨row, hrow, rfl⟩)))))

theorem mem_records_paragraph {row : ParagraphRow} (hrow : row ∈ db.paragraphs) :
    row.record ∈ db.records host :=
  mem_records_iff.mpr (.inr (.inr (.inr (.inr (.inr (.inl ⟨row, hrow, rfl⟩))))))

theorem mem_records_chunk {row : SemanticChunkRow} (hrow : row ∈ db.semanticChunks) :
    row.record ∈ db.records host :=
  mem_records_iff.mpr (.inr (.inr (.inr (.inr (.inr (.inr ⟨row, hrow, rfl⟩))))))

/-- **Upright tables can be read** above every live chunk. -/
theorem reads_of_upright (hupright : Upright (db.records host)) (hregistered : db.Registered)
    {chunk : SemanticChunkRow} (hchunk : chunk ∈ db.semanticChunks)
    (hlive : chunk.deletedAt = none) : db.toDb.Reads chunk.id := by
  obtain ⟨hdocuments, hchapters, hparagraphs⟩ := hregistered.nodup_ids
  have hunder := hupright chunk.record (mem_records_chunk hchunk) rfl hlive
  simp only [StandsUnder, parents_chunk, List.forall_mem_cons] at hunder
  obtain ⟨⟨_, hrow, hdocumentRef, -, hdocumentLive⟩,
    ⟨_, hrow', hchapterRef, hchapterDocument, hchapterLive⟩,
    ⟨_, hrow'', hparagraphRef, hparagraphDocument, hparagraphLive⟩, -⟩ := hunder
  obtain ⟨document, hdocument, rfl⟩ := exists_document hrow (congrArg Prod.fst hdocumentRef)
  obtain ⟨chapter, hchapter, rfl⟩ := exists_chapter hrow' (congrArg Prod.fst hchapterRef)
  obtain ⟨paragraph, hparagraph, rfl⟩ :=
    exists_paragraph hrow'' (congrArg Prod.fst hparagraphRef)
  have hvisible : visibleDocument db.toDb chunk.documentId none = some document := by
    rw [visibleDocument,
      (lookup_eq_some hdocuments).mpr ⟨hdocument, congrArg Prod.snd hdocumentRef⟩]
    refine Option.filter_eq_some_iff.mpr ⟨rfl, ?_⟩
    rw [Option.all_none, Bool.and_true]
    exact Option.isNone_iff_eq_none.mpr hdocumentLive
  have hchapterSame : chapter.documentId = chunk.documentId :=
    (Option.some.inj (of_decide_eq_true hchapterDocument)).symm
  have hparagraphSame : paragraph.documentId = chunk.documentId :=
    (Option.some.inj (of_decide_eq_true hparagraphDocument)).symm
  have hchapterNone : chapter.deletedAt.isNone = true :=
    Option.isNone_iff_eq_none.mpr hchapterLive
  have hparagraphNone : paragraph.deletedAt.isNone = true :=
    Option.isNone_iff_eq_none.mpr hparagraphLive
  refine ⟨chunk, hchunk, rfl, ⟨paragraphValue db.toDb paragraph document, ?_⟩,
    ⟨chapterValue db.toDb chapter document, ?_⟩, ⟨documentValue db.toDb document, ?_⟩⟩
  · rw [getParagraph,
      (lookup_eq_some hparagraphs).mpr ⟨hparagraph, congrArg Prod.snd hparagraphRef⟩,
      Option.bind_some, if_pos hparagraphNone, hparagraphSame, hvisible]
    rfl
  · rw [getChapter, (lookup_eq_some hchapters).mpr ⟨hchapter, congrArg Prod.snd hchapterRef⟩,
      Option.bind_some, if_pos hchapterNone, hchapterSame, hvisible]
    rfl
  · simp only [getDocument, hvisible]

end Retrieval

/-! ### Deletion marks -/

section Marks

variable {host : Host} {db : EntityDb} {now : Instant} {table : EntityTable} {ids : List Uuid}

/-- A rewriting of the common columns is read off below. -/
theorem standsUnder_map_rewritten {rewrite : EntityTable → EntityRow → EntityRow}
    (hkeeps : KeepsOwnership rewrite) {records : List EntityRecord} {fits : EntityRecord → Prop}
    {row : EntityRecord} :
    StandsUnder (records.map (EntityRecord.rewritten rewrite)) fits (row.rewritten rewrite) ↔
      StandsUnder records (fun parent ↦ fits (parent.rewritten rewrite)) row := by
  refine forall₂_congr fun ref href ↦ ?_
  constructor
  · rintro ⟨_, hmem, hnamed, hdocument, hfits⟩
    obtain ⟨parent, hparent, rfl⟩ := List.mem_map.mp hmem
    exact ⟨parent, hparent, (hkeeps.ref_rewritten parent).symm.trans hnamed, hdocument, hfits⟩
  · rintro ⟨parent, hparent, hnamed, hdocument, hfits⟩
    exact ⟨_, List.mem_map_of_mem hparent, (hkeeps.ref_rewritten parent).trans hnamed, hdocument,
      hfits⟩

/-- The rewriting of a deletion or an undeletion. -/
def EntityDb.marking (host : Host) (db : EntityDb) (now : Instant) (table : EntityTable)
    (ids : List Uuid) (deleted : Bool) : EntityTable → EntityRow → EntityRow :=
  markedRow now (db.closureOf host table ids) deleted

theorem visible_softDelete {row : EntityRecord} :
    (row.rewritten (db.marking host now table ids true)).Visible ↔
      ¬db.Below host table ids row ∧ row.Visible := by
  rw [← EntityDb.mem_closureOf]
  by_cases hmem : row.ref ∈ db.closureOf host table ids
  · have hmarked : (row.rewritten (db.marking host now table ids true)).deletedAt = some now :=
      congrArg (fun marked : EntityRow ↦ marked.deletedAt) (if_pos hmem)
    rw [EntityRecord.Visible, hmarked]
    simp [hmem]
  · have hmarked : (row.rewritten (db.marking host now table ids true)).deletedAt =
        row.deletedAt := congrArg (fun marked : EntityRow ↦ marked.deletedAt) (if_neg hmem)
    rw [EntityRecord.Visible, hmarked, EntityRecord.Visible, and_iff_right hmem]

theorem visible_undelete {row : EntityRecord} :
    (row.rewritten (db.marking host now table ids false)).Visible ↔
      row.Visible ∨ db.Below host table ids row := by
  rw [← EntityDb.mem_closureOf]
  by_cases hmem : row.ref ∈ db.closureOf host table ids
  · have hmarked : (row.rewritten (db.marking host now table ids false)).deletedAt = none :=
      congrArg (fun marked : EntityRow ↦ marked.deletedAt) (if_pos hmem)
    exact iff_of_true hmarked (.inr hmem)
  · have hmarked : (row.rewritten (db.marking host now table ids false)).deletedAt =
        row.deletedAt := congrArg (fun marked : EntityRow ↦ marked.deletedAt) (if_neg hmem)
    rw [EntityRecord.Visible, hmarked, EntityRecord.Visible, or_iff_left hmem]

/-- What hangs below a row of a closure is in it. -/
theorem below_of_refersTo {parent row : EntityRecord} (hrow : row ∈ db.records host)
    (hparent : db.Below host table ids parent) (hrefers : row.refersTo parent.ref = true) :
    db.Below host table ids row :=
  EntityDb.mem_closureOf.mp (mem_closure_of_dependsOn (EntityDb.mem_closureOf.mpr hparent) hrow
    (dependsOn_of_refersTo hrefers))

/-- **A deletion keeps tables upright**: what stays visible does not hang below what goes. -/
theorem upright_softDelete (hupright : Upright (db.records host)) :
    Upright ((db.softDelete host now table ids).records host) := by
  have hkeeps := keepsOwnership_markedRow now (db.closureOf host table ids) true
  rw [EntityDb.softDelete, records_markDeleted]
  intro row hrow htable hvisible
  obtain ⟨old, hold, rfl⟩ := List.mem_map.mp hrow
  obtain ⟨hapart, hvisible⟩ := visible_softDelete.mp hvisible
  refine (standsUnder_map_rewritten hkeeps).mpr
    ((hupright old hold htable hvisible).mono fun parent hparent hnamed _ hfits ↦ ⟨hparent, ?_⟩)
  exact visible_softDelete.mpr
    ⟨fun hbelow ↦ hapart (below_of_refersTo hold hbelow (mem_parents_iff.mp hnamed)), hfits⟩

/-- Every chunk that an undeletion brings back stands under rows that are visible or come back
too. -/
def EntityDb.RevivesUpright (host : Host) (db : EntityDb) (table : EntityTable)
    (ids : List Uuid) : Prop :=
  ∀ row ∈ db.records host, row.table = .semanticChunks → db.Below host table ids row →
    StandsUnder (db.records host) (fun parent ↦ parent.Visible ∨ db.Below host table ids parent) row

instance (host : Host) (db : EntityDb) (table : EntityTable) (ids : List Uuid) :
    Decidable (db.RevivesUpright host table ids) :=
  inferInstanceAs (Decidable (∀ row ∈ db.records host, row.table = .semanticChunks →
    db.Below host table ids row → StandsUnder (db.records host)
      (fun parent ↦ parent.Visible ∨ db.Below host table ids parent) row))

/-- **An undeletion keeps tables upright** exactly when no chunk that it brings back hangs below a
row that stays deleted. -/
theorem upright_undelete_iff (hupright : Upright (db.records host)) :
    Upright ((db.undelete host now table ids).records host) ↔
      db.RevivesUpright host table ids := by
  have hkeeps := keepsOwnership_markedRow now (db.closureOf host table ids) false
  have hunder : ∀ row, StandsUnder ((db.records host).map
      (EntityRecord.rewritten (db.marking host now table ids false))) EntityRecord.Visible
        (row.rewritten (db.marking host now table ids false)) ↔
      StandsUnder (db.records host)
        (fun parent ↦ parent.Visible ∨ db.Below host table ids parent) row := by
    intro row
    have hfits : (fun parent : EntityRecord ↦
          (parent.rewritten (db.marking host now table ids false)).Visible) =
        fun parent ↦ parent.Visible ∨ db.Below host table ids parent :=
      funext fun parent ↦ propext visible_undelete
    rw [← hfits]
    exact standsUnder_map_rewritten hkeeps
  rw [EntityDb.undelete, records_markDeleted]
  constructor
  · intro hnext row hrow htable hbelow
    exact (hunder row).mp (hnext _ (List.mem_map_of_mem hrow) htable
      (visible_undelete.mpr (.inr hbelow)))
  · intro hrevives row hrow htable hvisible
    obtain ⟨old, hold, rfl⟩ := List.mem_map.mp hrow
    refine (hunder old).mpr ?_
    rcases visible_undelete.mp hvisible with hvisible | hbelow
    · exact (hupright old hold htable hvisible).mono fun parent hparent _ _ hfits ↦
        ⟨hparent, .inl hfits⟩
    · exact hrevives old hold htable hbelow

end Marks

/-! ### Publications -/

section Publications

variable {host : Host} {ids : PublicationIds} {plan : PersistencePlan} {db next : EntityDb}

/-- The rows of a document and of its hierarchy are still there. -/
structure KeepsRows (documentId : Uuid) (db next : Db) : Prop where
  document : ∀ row ∈ db.documents, row.id = documentId → row ∈ next.documents
  chapters : ∀ row ∈ db.chapters, row.documentId = documentId → row ∈ next.chapters
  paragraphs : ∀ row ∈ db.paragraphs, row.documentId = documentId → row ∈ next.paragraphs

/-- A chunk of a document whose rows are kept stands under them as before. -/
theorem standsUnder_of_keepsRows {chunk : SemanticChunkRow} {fits : EntityRecord → Prop}
    (hkeeps : KeepsRows chunk.documentId db.toDb next.toDb)
    (hunder : StandsUnder (db.records host) fits chunk.record) :
    StandsUnder (next.records host) fits chunk.record := by
  refine hunder.mono fun parent hparent hnamed hdocument hfits ↦ ⟨?_, hfits⟩
  rw [parents_chunk, List.mem_cons, List.mem_cons, List.mem_singleton] at hnamed
  rcases hnamed with href | href | href
  · obtain ⟨document, hmem, rfl⟩ := exists_document hparent (congrArg Prod.fst href)
    exact mem_records_document (hkeeps.document document hmem (congrArg Prod.snd href))
  · obtain ⟨chapter, hmem, rfl⟩ := exists_chapter hparent (congrArg Prod.fst href)
    exact mem_records_chapter (hkeeps.chapters chapter hmem
      (Option.some.inj (of_decide_eq_true hdocument)).symm)
  · obtain ⟨paragraph, hmem, rfl⟩ := exists_paragraph hparent (congrArg Prod.fst href)
    exact mem_records_paragraph (hkeeps.paragraphs paragraph hmem
      (Option.some.inj (of_decide_eq_true hdocument)).symm)

/-- A written hierarchy keeps the rows of every other document. -/
theorem keepsRows_of_writeHierarchy (hregistered : db.Registered) {primarySourceId : Uuid}
    {paragraphs : List PlannedParagraph} {hierarchy : Db} {documentId : Uuid}
    (hwrite : writeHierarchy host ids plan primarySourceId paragraphs db.toDb = .ok hierarchy)
    (hother : documentId ≠ plan.documentId) : KeepsRows documentId db.toDb hierarchy := by
  have hwritten := writesOnly_of_writeHierarchy hwrite
  have hkept : ∀ {ρ : Type} {rows rows' : List ρ} {key : ρ → Uuid},
      (rows'.filter fun row ↦ key row = documentId) = rows.filter (fun row ↦ key row = documentId) →
        ∀ row ∈ rows, key row = documentId → row ∈ rows' := by
    intro ρ rows rows' key hfilter row hrow hkey
    have hmem : row ∈ rows.filter fun row ↦ key row = documentId :=
      List.mem_filter.mpr ⟨hrow, decide_eq_true hkey⟩
    exact List.mem_of_mem_filter (hfilter ▸ hmem)
  refine ⟨fun row hrow hid ↦ ?_, hkept (hwritten.chapters documentId hother),
    hkept (hwritten.paragraphs documentId hother)⟩
  have hlookup : lookup (fun row : DocumentRow ↦ row.id) documentId hierarchy.documents =
      some row := by
    rw [lookup_document_of_writeHierarchy hwrite, if_neg hother]
    exact (lookup_eq_some hregistered.nodup_ids.1).mpr ⟨hrow, hid⟩
  exact (mem_of_lookup hlookup).1

/-- A written chunk stands under what was written with it. -/
theorem standsUnder_of_writeHierarchy (hdb : db.toDb.Consistent) {primarySourceId : Uuid}
    {paragraphs : List PlannedParagraph} {hierarchy : Db}
    (hwrite : writeHierarchy host ids plan primarySourceId paragraphs db.toDb = .ok hierarchy)
    {chunk : SemanticChunkRow} (hchunk : chunk ∈ hierarchy.semanticChunks)
    (hdocument : chunk.documentId = plan.documentId) (hlive : chunk.deletedAt = none) :
    StandsUnder ({ db with toDb := hierarchy }.records host) EntityRecord.Visible chunk.record := by
  obtain ⟨prepared, hprepare, hparagraphs⟩ := bind_eq_ok.mp hwrite
  have hprepared := prepared_of_prepareHierarchy hdb hprepare
  obtain ⟨-, hgrown⟩ :=
    grown_of_writeParagraphs hprepared.consistent hprepared.registered hparagraphs
  rw [hgrown.chunks] at hchunk
  rcases List.mem_append.mp hchunk with hold | hnew
  · have hmarked := hprepared.chunks chunk hold hdocument
    rw [hlive] at hmarked
    cases hmarked
  · obtain ⟨_, hrows, rfl⟩ := List.mem_map.mp hnew
    obtain ⟨placed, hplaced, rfl⟩ := List.mem_map.mp hrows
    have hparagraph : paragraphRow host ids plan placed.orderIndex placed.paragraph ∈
        hierarchy.paragraphs := by
      rw [hgrown.paragraphs]
      exact List.mem_append_right _ (paragraphRow_mem_hierarchyParagraphs hplaced)
    have hchapter : chapterRow ids plan ∈ hierarchy.chapters := by
      rw [hgrown.chapters]
      exact (mem_of_lookup hprepared.chapter).1
    obtain ⟨row, hlookup, hrowLive, -⟩ := hprepared.document
    obtain ⟨hrow, hrowId⟩ := mem_of_lookup hlookup
    rw [← hgrown.documents] at hrow
    simp only [StandsUnder, parents_chunk, List.forall_mem_cons]
    refine ⟨⟨_, mem_records_document hrow, congrArg (Prod.mk _) hrowId, rfl, hrowLive⟩,
      ⟨_, mem_records_chapter hchapter, rfl, decide_eq_true rfl, rfl⟩,
      ⟨_, mem_records_paragraph hparagraph, rfl, decide_eq_true rfl, rfl⟩, List.forall_mem_nil _⟩

/-- **A written hierarchy keeps tables upright.** -/
theorem upright_of_writeHierarchy (hdb : db.toDb.Consistent) (hregistered : db.Registered)
    {primarySourceId : Uuid} {paragraphs : List PlannedParagraph} {hierarchy : Db}
    (hwrite : writeHierarchy host ids plan primarySourceId paragraphs db.toDb = .ok hierarchy)
    (hupright : Upright (db.records host)) :
    Upright ({ db with toDb := hierarchy }.records host) := by
  intro row hrow htable hvisible
  obtain ⟨chunk, hchunk, rfl⟩ := exists_chunk hrow htable
  by_cases hdocument : chunk.documentId = plan.documentId
  · exact standsUnder_of_writeHierarchy hdb hwrite hchunk hdocument hvisible
  · have hmem : chunk ∈ hierarchy.semanticChunks.filter fun row ↦
        row.documentId = chunk.documentId := List.mem_filter.mpr ⟨hchunk, decide_eq_true rfl⟩
    rw [(writesOnly_of_writeHierarchy hwrite).chunks _ hdocument] at hmem
    exact standsUnder_of_keepsRows (keepsRows_of_writeHierarchy hregistered hwrite hdocument)
      (hupright _ (mem_records_chunk (List.mem_of_mem_filter hmem)) rfl hvisible)

/-- The records of the hierarchy are those of its four tables. -/
theorem upright_congr (hdocuments : next.documents = db.documents)
    (hchapters : next.chapters = db.chapters) (hparagraphs : next.paragraphs = db.paragraphs)
    (hchunks : next.semanticChunks = db.semanticChunks) (hupright : Upright (db.records host)) :
    Upright (next.records host) := by
  intro row hrow htable hvisible
  obtain ⟨chunk, hchunk, rfl⟩ := exists_chunk hrow htable
  exact standsUnder_of_keepsRows
    ⟨fun _ hrow _ ↦ hdocuments ▸ hrow, fun _ hrow _ ↦ hchapters ▸ hrow,
      fun _ hrow _ ↦ hparagraphs ▸ hrow⟩
    (hupright _ (mem_records_chunk (hchunks ▸ hchunk)) rfl hvisible)

theorem consistent_of_writeClassifiers {entryId : DictionaryTable → Text → Uuid}
    {entries : List (Uuid × DictionaryTable × Text)} (hdb : db.toDb.Consistent)
    (hwrite : writeClassifiers entryId entries db = .ok next) : next.toDb.Consistent := by
  induction entries generalizing db with
  | nil =>
    cases hwrite
    exact hdb
  | cons entry entries ih =>
    obtain ⟨middle, hfirst, hrest⟩ := bind_eq_ok.mp hwrite
    refine ih ?_ hrest
    dsimp only [writeClassifier] at hfirst
    split at hfirst
    · cases hfirst
      exact hdb
    · obtain ⟨hfresh, hnext⟩ := Db.register_bind_eq_ok.mp hfirst
      cases hnext
      exact hdb.register hfresh _

/-- **An ingestion keeps tables consistent and upright.** -/
theorem upright_of_ingest (hdb : db.toDb.Consistent) (hregistered : db.Registered)
    (hupright : Upright (db.records host)) {call : IngestionCall}
    (hingest : db.ingest host call = .ok next) :
    next.toDb.Consistent ∧ Upright (next.records host) := by
  obtain ⟨publication, hpublish, hingest⟩ := bind_eq_ok.mp hingest
  obtain ⟨paragraphs, hierarchy, kept, runs, assertions, -, hwrite, htables, hkept⟩ :=
    tables_of_publish hpublish
  have hpublished : publication.db.Consistent ∧
      Upright ({ db with toDb := publication.db }.records host) := by
    rw [htables]
    rcases hkept with ⟨-, rfl⟩ | ⟨-, rfl⟩
    · have hwritten := upright_of_writeHierarchy hdb hregistered hwrite hupright
      exact ⟨(hdb.writeHierarchy hwrite).withEvidence runs assertions,
        @upright_congr host { db with toDb := kept } _ rfl rfl rfl rfl hwritten⟩
    · exact ⟨hdb.withEvidence runs assertions, upright_congr rfl rfl rfl rfl hupright⟩
  dsimp only at hingest
  split at hingest
  · obtain ⟨planned, -, hclassify⟩ := bind_eq_ok.mp hingest
    obtain ⟨⟨registry, hregistry⟩, -⟩ := writesOnly_of_writeClassifiers hclassify
    refine ⟨consistent_of_writeClassifiers hpublished.1 hclassify, ?_⟩
    refine @upright_congr host { db with toDb := publication.db } _ ?_ ?_ ?_ ?_ hpublished.2
    all_goals rw [hregistry]
  · cases hingest
    exact hpublished

end Publications

/-! ### Runs -/

section Runs

variable {host : Host} {db next : EntityDb}

/-- Undeletions bring back no chunk below a row that stays deleted. -/
def RevivesUpright (host : Host) (db : EntityDb) : VisibilityAction → Prop
  | .ingest _ | .rechunk _ _ | .softDelete _ _ _ => True
  | .undelete _ table ids => db.RevivesUpright host table ids

instance (host : Host) (db : EntityDb) : DecidablePred (RevivesUpright host db)
  | .ingest _ | .rechunk _ _ | .softDelete _ _ _ => .isTrue trivial
  | .undelete _ table ids => inferInstanceAs (Decidable (db.RevivesUpright host table ids))

/-- What every run keeps. -/
structure Settled (host : Host) (db : EntityDb) : Prop where
  consistent : db.toDb.Consistent
  registered : db.Registered
  upright : Upright (db.records host)

theorem Settled.ingest (hsettled : Settled host db) {call : IngestionCall}
    (hingest : db.ingest host call = .ok next) : Settled host next := by
  obtain ⟨hconsistent, hupright⟩ :=
    upright_of_ingest hsettled.consistent hsettled.registered hsettled.upright hingest
  exact ⟨hconsistent, hsettled.registered.ingest hingest, hupright⟩

/-- The constraints are about UUIDs and foreign keys. -/
theorem consistent_mapRows (hdb : db.toDb.Consistent)
    {rewrite : EntityTable → EntityRow → EntityRow}
    (hid : ∀ table row, (rewrite table row).id = row.id) : (db.mapRows rewrite).toDb.Consistent :=
  { registry := hdb.registry
    files := List.forall_mem_map.mpr fun row hrow ↦ (hid _ _).symm ▸ hdb.files row hrow
    documents := List.forall_mem_map.mpr fun row hrow ↦ (hid _ _).symm ▸ hdb.documents row hrow
    chapters := List.forall_mem_map.mpr fun row hrow ↦ (hid _ _).symm ▸ hdb.chapters row hrow
    paragraphs := List.forall_mem_map.mpr fun row hrow ↦
      ⟨(hid _ _).symm ▸ (hdb.paragraphs row hrow).1, (hdb.paragraphs row hrow).2⟩
    chunks := List.forall_mem_map.mpr fun row hrow ↦
      ⟨(hid _ _).symm ▸ (hdb.chunks row hrow).1, (hdb.chunks row hrow).2⟩
    texts := hdb.texts
    versions := hdb.versions
    current := hdb.current }

theorem Settled.markDeleted (hsettled : Settled host db) {now : Instant} {table : EntityTable}
    {ids : List Uuid} {deleted : Bool}
    (hupright : Upright ((db.markDeleted host now table ids deleted).records host)) :
    Settled host (db.markDeleted host now table ids deleted) := by
  have hkeeps := keepsOwnership_markedRow now (db.closureOf host table ids) deleted
  exact ⟨consistent_mapRows hsettled.consistent hkeeps.id, hsettled.registered.mapRows hkeeps.id,
    hupright⟩

/-- Every allowed action keeps tables settled. -/
theorem Settled.visibilityStep (hsettled : Settled host db) {action : VisibilityAction}
    (hallowed : RevivesUpright host db action)
    (hstep : visibilityStep host db action = some next) : Settled host next := by
  have happly := toOption_eq_some.mp hstep
  cases action with
  | ingest call => exact hsettled.ingest happly
  | rechunk documentId call =>
    obtain ⟨request, -, hingest⟩ := bind_eq_ok.mp happly
    exact hsettled.ingest hingest
  | softDelete now table ids =>
    cases happly
    exact hsettled.markDeleted (upright_softDelete hsettled.upright)
  | undelete now table ids =>
    cases happly
    exact hsettled.markDeleted ((upright_undelete_iff hsettled.upright).mpr hallowed)

/-- **Whatever search finds can be read**, in every run whose undeletions bring back no chunk below
a row that stays deleted. -/
theorem reads_of_finds (hrun : Steps (DocStore.visibilityStep host) (RevivesUpright host) {} db)
    {ν : Type} {store : SearchDb ν} (hstore : store.toDb = db.toDb) {chunkUuid : Uuid}
    (hfinds : store.Finds chunkUuid) : db.toDb.Reads chunkUuid := by
  have hinitial : Settled host {} :=
    ⟨Db.consistent_empty, EntityDb.registered_empty, fun row hrow ↦ absurd hrow List.not_mem_nil⟩
  have hsettled := hrun.invariant hinitial fun _ _ _ hstate hallowed hstep ↦
    hstate.visibilityStep hallowed hstep
  obtain ⟨chunk, hchunk, hlive, rfl⟩ := hfinds.exists_chunk
  rw [hstore] at hchunk
  exact reads_of_upright hsettled.upright hsettled.registered hchunk hlive

end Runs

/-- The tables as a search finds them. -/
def searchedTables (db : EntityDb) : SearchDb Vector where
  toDb := db.toDb
  documentTitle _ := lit "Title"
  documentCreatedAt _ := 0

/-- The chunks that a search without filters finds. -/
def foundChunks (db : EntityDb) : List Uuid :=
  ((toOption (executeStructured sampleVectorHost.toSearchHost { mode := .structured }
    (searchedTables db))).getD []).map fun result ↦ result.chunkId

/-- What is found without filters is found. -/
theorem finds_of_mem_foundChunks {db : EntityDb} {chunkUuid : Uuid}
    (hfound : chunkUuid ∈ foundChunks db) : (searchedTables db).Finds chunkUuid := by
  obtain ⟨result, hresult, hchunk⟩ := List.mem_map.mp hfound
  cases hresults : toOption (executeStructured sampleVectorHost.toSearchHost
      { mode := .structured } (searchedTables db)) with
  | none =>
    rw [hresults] at hresult
    cases hresult
  | some results =>
    rw [hresults, Option.getD_some] at hresult
    exact .structured _ _ results (toOption_eq_some.mp hresults) result hresult hchunk

/-- The letter is published and deleted, and some entities are undeleted. -/
def undeletedLetter (table : EntityTable) (ids : List Uuid) : List VisibilityAction :=
  [.ingest (letterIngestion 1),
    .softDelete 5 .documents [(letterIngestion 1).request.documentId], .undelete 6 table ids]

/-- A run of the actions on the letter. -/
theorem steps_undeletedLetter {table : EntityTable} {ids : List Uuid}
    {allowed : EntityDb → VisibilityAction → Prop}
    [∀ db action, Decidable (allowed db action)] {db : EntityDb}
    (hdb : replay (guarded (visibilityStep sampleHost) allowed) {} (undeletedLetter table ids) =
      some db) : Steps (visibilityStep sampleHost) allowed {} db := by
  have hrun := steps_of_replay (Option.isSome_iff_exists.mpr ⟨db, hdb⟩)
  rwa [hdb, Option.getD_some] at hrun

/-- The letter comes back as a whole, and its chunk is found and can be read. -/
theorem reads_of_undeletedLetter : ∃ (db : EntityDb) (chunkUuid : Uuid),
    Steps (visibilityStep sampleHost) (RevivesUpright sampleHost) {} db ∧
      (searchedTables db).Finds chunkUuid ∧ db.toDb.Reads chunkUuid := by
  have hall : ((replay (guarded (visibilityStep sampleHost) (RevivesUpright sampleHost)) {}
      (undeletedLetter .documents [(letterIngestion 1).request.documentId])).any fun db ↦
        !(foundChunks db).isEmpty) = true := by
    decide +kernel
  obtain ⟨db, hdb, hsome⟩ := (Option.any_eq_true _ _).mp hall
  obtain ⟨chunkUuid, hmem⟩ := List.exists_mem_of_ne_nil (foundChunks db) (by simpa using hsome)
  have hfinds := finds_of_mem_foundChunks hmem
  exact ⟨db, chunkUuid, steps_undeletedLetter hdb, hfinds,
    reads_of_finds (steps_undeletedLetter hdb) rfl hfinds⟩

/-- A paragraph comes back without its document, and its chunk is found although the document
cannot be read. -/
theorem exists_found_unreadable : ∃ (db : EntityDb) (chunkUuid : Uuid),
    Steps (visibilityStep sampleHost) (fun _ _ ↦ True) {} db ∧
      (searchedTables db).Finds chunkUuid ∧ ¬db.toDb.Reads chunkUuid := by
  have hall : ((replay (guarded (visibilityStep sampleHost) fun _ _ ↦ True) {}
      (undeletedLetter .paragraphs [(letterIngestion 1).ids.paragraphId 0])).any fun db ↦
        !(foundChunks db).isEmpty && db.semanticChunks.all fun chunk ↦
          !succeeds (getDocument db.toDb chunk.documentId none)) = true := by
    decide +kernel
  obtain ⟨db, hdb, hboth⟩ := (Option.any_eq_true _ _).mp hall
  obtain ⟨hsome, hnone⟩ := Bool.and_eq_true_iff.mp hboth
  obtain ⟨chunkUuid, hmem⟩ := List.exists_mem_of_ne_nil (foundChunks db) (by simpa using hsome)
  refine ⟨db, chunkUuid, steps_undeletedLetter hdb, finds_of_mem_foundChunks hmem, ?_⟩
  rintro ⟨chunk, hchunk, -, -, -, value, hvalue⟩
  have hunread := List.all_eq_true.mp hnone chunk hchunk
  rw [hvalue] at hunread
  cases hunread

end DocStore
